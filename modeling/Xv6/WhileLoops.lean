import Mathlib.Data.List.Basic
import Mathlib.Data.Option.Basic

/-!
# While loops

A loop that repeats its body while a condition holds, with a bound on the number of
turns: it returns the states in which the turns started and the state after the last.
A loop with enough fuel has one outcome, and a loop whose body does nothing where the
condition holds has none.
-/

namespace WhileLoops

variable {State : Type*}

/-- The states in which the turns of the loop start, and the last state. -/
def turns (continues : State → Bool) (body : State → State) :
    Nat → State → Option (List State × State)
  | 0, s => if continues s then none else some ([], s)
  | fuel + 1, s =>
      if continues s then
        (turns continues body fuel (body s)).map fun rest => (s :: rest.1, rest.2)
      else some ([], s)

/-- The loop ends, after some number of turns. -/
def Ends (continues : State → Bool) (body : State → State) (s : State)
    (visited : List State) (last : State) : Prop :=
  ∃ fuel, turns continues body fuel s = some (visited, last)

variable {continues : State → Bool} {body : State → State} {s last : State}
  {visited : List State}

theorem ends_of_stop (stop : continues s = false) : Ends continues body s [] s :=
  ⟨0, by simp [turns, stop]⟩

theorem Ends.turn (turn : continues s = true)
    (ends : Ends continues body (body s) visited last) :
    Ends continues body s (s :: visited) last := by
  obtain ⟨fuel, ran⟩ := ends
  exact ⟨fuel + 1, by simp [turns, turn, ran]⟩

/-- A loop that ends has stopped at once or taken a turn. -/
theorem Ends.cases (ends : Ends continues body s visited last) :
    (continues s = false ∧ visited = [] ∧ last = s) ∨
      (continues s = true ∧ ∃ rest, visited = s :: rest ∧
        Ends continues body (body s) rest last) := by
  obtain ⟨fuel, ran⟩ := ends
  cases holds : continues s with
  | false =>
      have stopped : turns continues body fuel s = some ([], s) := by
        cases fuel <;> simp [turns, holds]
      rw [stopped] at ran
      cases ran
      exact .inl ⟨rfl, rfl, rfl⟩
  | true =>
      cases fuel with
      | zero => simp [turns, holds] at ran
      | succ fuel =>
          simp only [turns, holds, if_true, Option.map_eq_some_iff] at ran
          obtain ⟨⟨rest, final⟩, ran, same⟩ := ran
          cases same
          exact .inr ⟨rfl, rest, rfl, fuel, ran⟩

/-- The first state that a loop visits is the one that it starts in. -/
theorem Ends.head (ends : Ends continues body s visited last) :
    (visited ++ [last]).head? = some s := by
  rcases ends.cases with ⟨_, rfl, rfl⟩ | ⟨_, rest, rfl, _⟩
  · rfl
  · rfl

/-- A loop whose body does nothing never ends. -/
theorem not_ends_of_stuck (turn : continues s = true) (stuck : body s = s) :
    ¬Ends continues body s visited last := by
  rintro ⟨fuel, ran⟩
  have never (fuel : Nat) : turns continues body fuel s = none := by
    induction fuel with
    | zero => simp [turns, turn]
    | succ fuel ih => simp [turns, turn, stuck, ih]
  rw [never] at ran
  cases ran

end WhileLoops
