import Xv6.StateTriples

/-!
# Programs that keep a record

A program on a state that also appends events to a record, which survives a
failure.  Forgetting the record gives a program on the state alone, and what is
known of that program holds of the one with the record.
-/

namespace RecordedPrograms

open StateTriples

variable {State Event Error Result Next : Type}

/-- Programs on a state and a record. -/
abbrev Recorded (State Event Error : Type) :=
  StateT (State × List Event) (Except (Error × List Event))

/-- A program that records nothing. -/
def lift (program : StateT State (Except Error) Result) :
    Recorded State Event Error Result := fun pair =>
  match program pair.1 with
  | .ok (result, last) => .ok (result, (last, pair.2))
  | .error error => .error (error, pair.2)

theorem lift_get_apply (state : State) (before : List Event) :
    (lift get : Recorded State Event Error State) (state, before) =
      .ok (state, (state, before)) :=
  rfl

/-- Record an event. -/
def note (event : Event) : Recorded State Event Error Unit :=
  modify fun pair => (pair.1, pair.2 ++ [event])

/-- The events up to the end of a run or to its failure. -/
def events (ended : Except (Error × List Event) (Result × State × List Event)) : List Event :=
  match ended with
  | .ok (_, _, events) => events
  | .error (_, events) => events

/-- The recording program does the same to the state. -/
structure Erases (recorded : Recorded State Event Error Result)
    (program : StateT State (Except Error) Result) : Prop where
  same : ∀ state before, program state = match recorded (state, before) with
    | .ok (result, (last, _)) => .ok (result, last)
    | .error (error, _) => .error error

section Erasing

variable {recorded : Recorded State Event Error Next}
  {program : StateT State (Except Error) Next}

theorem Erases.lift (program : StateT State (Except Error) Next) :
    Erases (lift program : Recorded State Event Error Next) program := by
  refine ⟨fun state before => ?_⟩
  unfold RecordedPrograms.lift
  dsimp only
  generalize program state = ended
  cases ended with
  | ok pair => rfl
  | error error => rfl

theorem Erases.pure (result : Next) :
    Erases (pure result : Recorded State Event Error Next) (pure result) :=
  ⟨fun _ _ => rfl⟩

theorem Erases.bind {rest : Next → Recorded State Event Error Result}
    {rest' : Next → StateT State (Except Error) Result} (first : Erases recorded program)
    (next : ∀ value, Erases (rest value) (rest' value)) :
    Erases (recorded >>= rest) (program >>= rest') := by
  refine ⟨fun state before => ?_⟩
  rw [bind_apply, bind_apply, first.same state before]
  cases recorded (state, before) with
  | error failure => rfl
  | ok pair => exact (next pair.1).same pair.2.1 pair.2.2

/-- An event makes no difference to the state. -/
theorem Erases.note_bind {rest : Unit → Recorded State Event Error Next} (event : Event)
    (erases : Erases (rest ()) program) : Erases (note event >>= rest) program := by
  refine ⟨fun state before => ?_⟩
  rw [erases.same state (before ++ [event])]
  rfl

theorem Erases.then_note {recorded : Recorded State Event Error Unit}
    {program : StateT State (Except Error) Unit} (erases : Erases recorded program)
    (event : Event) : Erases (recorded >>= fun _ => note event) program := by
  refine ⟨fun state before => ?_⟩
  rw [bind_apply, erases.same state before]
  cases recorded (state, before) with
  | error failure => rfl
  | ok pair => rfl

theorem Erases.ite {condition : Prop} [Decidable condition]
    {other : Recorded State Event Error Next} {other' : StateT State (Except Error) Next}
    (yes : condition → Erases recorded program) (no : ¬condition → Erases other other') :
    Erases (if condition then recorded else other)
      (if condition then program else other') := by
  by_cases holds : condition
  · rw [if_pos holds, if_pos holds]
    exact yes holds
  · rw [if_neg holds, if_neg holds]
    exact no holds

/-- What is known of the program on the state alone. -/
theorem wp_of_erases {allowed : Error → Prop} {post : Next → State → Prop} {state : State}
    (erases : Erases recorded program) (holds : wp allowed program post state)
    (before : List Event) :
    wp (fun failure => allowed failure.1) recorded (fun value last => post value last.1)
      (state, before) := by
  rw [wp, erases.same state before] at holds
  unfold wp
  cases ended : recorded (state, before) with
  | error failure =>
      rw [ended] at holds
      exact holds
  | ok pair =>
      rw [ended] at holds
      exact holds

end Erasing

section Triples

variable {allowed : Error × List Event → Prop} {state : State} {before : List Event}

@[simp]
theorem wp_lift {program : StateT State (Except Error) Result}
    {post : Result → State × List Event → Prop} :
    wp allowed (lift program) post (state, before) ↔
      wp (fun error => allowed (error, before)) program
        (fun result last => post result (last, before)) state := by
  unfold wp lift
  dsimp only
  generalize program state = ended
  cases ended with
  | error error => rfl
  | ok pair => rfl

@[simp]
theorem wp_note {event : Event} {post : Unit → State × List Event → Prop} :
    wp allowed (note event) post (state, before) ↔ post () (state, before ++ [event]) :=
  Iff.rfl

/-- What holds of the events wherever a program ends. -/
theorem events_of_wp {recorded : Recorded State Event Error Result}
    (holds : List Event → Prop)
    (ends : wp (fun failure => holds failure.2) recorded (fun _ last => holds last.2)
      (state, before)) : holds (events (recorded (state, before))) := by
  unfold wp at ends
  cases ended : recorded (state, before) with
  | error failure =>
      rw [ended] at ends
      exact ends
  | ok pair =>
      rw [ended] at ends
      exact ends

end Triples

end RecordedPrograms
