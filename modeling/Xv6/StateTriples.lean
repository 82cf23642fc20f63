import Mathlib.Logic.Basic

/-!
# Weakest preconditions of stateful programs that may fail

A program takes a state and returns a result and a new state, or an error.
`wp` is the condition on a state under which a program ends in a state that meets
a postcondition or fails with an error that is allowed.
-/

namespace StateTriples

variable {State Error Result Next : Type}

/-! ## Programs as functions of the state -/

theorem pure_apply (result : Result) (state : State) :
    (pure result : StateT State (Except Error) Result) state =
      .ok (result, state) :=
  rfl

theorem bind_apply (program : StateT State (Except Error) Next)
    (rest : Next → StateT State (Except Error) Result) (state : State) :
    (program >>= rest) state = match program state with
      | .ok (result, last) => rest result last
      | .error error => .error error := by
  change (program state).bind (fun pair => rest pair.1 pair.2) = _
  cases program state with
  | error error => rfl
  | ok pair => rfl

/-- A program goes on from where its first part ended. -/
theorem bind_of_ok {program : StateT State (Except Error) Next}
    {rest : Next → StateT State (Except Error) Result} {state last : State} {result : Next}
    (ended : program state = .ok (result, last)) :
    (program >>= rest) state = rest result last := by
  rw [bind_apply, ended]

theorem get_apply (state : State) :
    (get : StateT State (Except Error) State) state = .ok (state, state) :=
  rfl

theorem modify_apply (change : State → State) (state : State) :
    (modify change : StateT State (Except Error) PUnit) state =
      .ok (⟨⟩, change state) :=
  rfl

theorem throw_apply (error : Error) (state : State) :
    (throw error : StateT State (Except Error) Result) state = .error error :=
  rfl

theorem if_apply {condition : Prop} [Decidable condition]
    (first second : StateT State (Except Error) Result) (state : State) :
    (if condition then first else second) state =
      if condition then first state else second state := by
  split <;> rfl

/-! ## Weakest preconditions -/

/-- The program, started here, meets the postcondition or fails as allowed. -/
def wp (allowed : Error → Prop) (program : StateT State (Except Error) Result)
    (post : Result → State → Prop) (state : State) : Prop :=
  match program state with
  | .ok (result, last) => post result last
  | .error error => allowed error

variable {allowed : Error → Prop} {post post' : Result → State → Prop}
  {state : State}

@[simp]
theorem wp_pure {result : Result} :
    wp allowed (pure result) post state ↔ post result state :=
  Iff.rfl

@[simp]
theorem wp_bind {program : StateT State (Except Error) Next}
    {rest : Next → StateT State (Except Error) Result} :
    wp allowed (program >>= rest) post state ↔
      wp allowed program (fun result last => wp allowed (rest result) post last)
        state := by
  change (match (program state).bind fun pair => rest pair.1 pair.2 with
    | .ok (result, last) => post result last
    | .error error => allowed error) ↔ _
  unfold wp
  cases program state with
  | error error => rfl
  | ok pair => rfl

@[simp]
theorem wp_get {post : State → State → Prop} :
    wp allowed get post state ↔ post state state :=
  Iff.rfl

@[simp]
theorem wp_set {last : State} {post : PUnit → State → Prop} :
    wp allowed (set last) post state ↔ post ⟨⟩ last :=
  Iff.rfl

@[simp]
theorem wp_modify {change : State → State} {post : PUnit → State → Prop} :
    wp allowed (modify change) post state ↔ post ⟨⟩ (change state) :=
  Iff.rfl

@[simp]
theorem wp_throw {error : Error} :
    wp allowed (throw error) post state ↔ allowed error :=
  Iff.rfl

/-- A weaker postcondition. -/
theorem wp_mono {program : StateT State (Except Error) Result}
    (holds : wp allowed program post state)
    (weaker : ∀ result last, post result last → post' result last) :
    wp allowed program post' state := by
  unfold wp at *
  split at holds
  · exact weaker _ _ holds
  · exact holds

/-- More errors are allowed. -/
theorem wp_allow {allowed' : Error → Prop} {program : StateT State (Except Error) Result}
    (holds : wp allowed program post state)
    (weaker : ∀ error, allowed error → allowed' error) :
    wp allowed' program post state := by
  unfold wp at *
  split at holds
  · exact holds
  · exact weaker _ holds

/-- What holds of the end of a program that ended. -/
theorem post_of_wp {program : StateT State (Except Error) Result}
    {result : Result} {last : State} (holds : wp allowed program post state)
    (ended : program state = .ok (result, last)) : post result last := by
  rw [wp, ended] at holds
  exact holds

/-- A program that ends in one way. -/
theorem eq_of_wp {program : StateT State (Except Error) Result} {result : Result} {last : State}
    (holds : wp (fun _ => False) program (fun value t => value = result ∧ t = last) state) :
    program state = .ok (result, last) := by
  unfold wp at holds
  split at holds
  case h_1 ended =>
    rw [ended, holds.1, holds.2]
  case h_2 => cases holds

/-- A program that may not fail ends. -/
theorem ok_of_wp {program : StateT State (Except Error) Result}
    (holds : wp (fun _ => False) program post state) :
    ∃ result last, program state = .ok (result, last) ∧ post result last := by
  unfold wp at holds
  split at holds
  case h_1 result last ended => exact ⟨result, last, ended, holds⟩
  case h_2 => cases holds

/-- A program that failed did so as allowed. -/
theorem allowed_of_wp {program : StateT State (Except Error) Result}
    {error : Error} (holds : wp allowed program post state)
    (failed : program state = .error error) : allowed error := by
  rw [wp, failed] at holds
  exact holds

/-- Two things that hold of the end of a program. -/
theorem wp_and {allowed' : Error → Prop} {program : StateT State (Except Error) Result}
    (first : wp allowed program post state) (second : wp allowed' program post' state) :
    wp allowed program (fun result last => post result last ∧ post' result last) state := by
  unfold wp at *
  split at first
  case h_1 ended =>
    rw [ended] at second
    exact ⟨first, second⟩
  case h_2 => exact first

/-- Two things that hold of the end of a program, and two of its errors. -/
theorem wp_both {allowed' : Error → Prop} {program : StateT State (Except Error) Result}
    (first : wp allowed program post state) (second : wp allowed' program post' state) :
    wp (fun error => allowed error ∧ allowed' error) program
      (fun result last => post result last ∧ post' result last) state := by
  unfold wp at *
  split at first
  case h_1 ended =>
    rw [ended] at second
    exact ⟨first, second⟩
  case h_2 failed =>
    rw [failed] at second
    exact ⟨first, second⟩

/-- Errors that are ruled out only under a condition. -/
theorem wp_when {condition : Prop} {program : StateT State (Except Error) Result}
    (ends : condition → wp allowed program (fun _ _ => True) state)
    (holds : wp (fun _ => True) program post state) :
    wp (fun error => condition → allowed error) program post state := by
  unfold wp at *
  split at holds
  case h_1 => exact holds
  case h_2 failed =>
    intro given
    simpa only [failed] using ends given

/-! ## Errors from any state -/

/-- Whatever the state, the program fails only as allowed. -/
def Fails (allowed : Error → Prop) (program : StateT State (Except Error) Result) : Prop :=
  ∀ state, wp allowed program (fun _ _ => True) state

theorem Fails.pure (result : Result) :
    Fails allowed (Pure.pure result : StateT State (Except Error) Result) :=
  fun _ => trivial

theorem Fails.bind {program : StateT State (Except Error) Next}
    {rest : Next → StateT State (Except Error) Result} (first : Fails allowed program)
    (later : ∀ result, Fails allowed (rest result)) : Fails allowed (program >>= rest) :=
  fun state => wp_bind.mpr (wp_mono (first state) fun result last _ => later result last)

end StateTriples
