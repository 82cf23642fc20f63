import Mathlib.Logic.Relation

/-!
# Runs of labelled transition functions

A transition function takes a state and a label and returns the next state,
or `none` when the label is not enabled.  A run executes a list of labels.  A
guard is a condition on a state and the label about to be taken; a run meets
the guard when each of its steps does.  The rules below turn what one step
preserves into what a whole run preserves.
-/

namespace LabelledRuns

variable {State Label : Type*}

/-- Execute a list of labels, stopping when one is not enabled. -/
def run (step : State → Label → Option State) :
    State → List Label → Option State
  | state, [] => some state
  | state, label :: labels =>
      (step state label).bind fun next => run step next labels

/-- Every step of the run is taken in a state that meets the guard for its
label. -/
def RunMeets (step : State → Label → Option State)
    (guard : State → Label → Prop) : State → List Label → Prop
  | _, [] => True
  | state, label :: labels =>
      guard state label ∧
        ∀ next, step state label = some next → RunMeets step guard next labels

variable {step : State → Label → Option State}

@[simp]
theorem run_nil (state : State) : run step state [] = some state :=
  rfl

theorem run_cons_eq_some {state last : State} {label : Label}
    {labels : List Label} :
    run step state (label :: labels) = some last ↔
      ∃ next, step state label = some next ∧
        run step next labels = some last := by
  simp only [run, Option.bind_eq_some_iff]

theorem run_append (state : State) (first second : List Label) :
    run step state (first ++ second) =
      (run step state first).bind fun middle => run step middle second := by
  induction first generalizing state with
  | nil => rfl
  | cons label labels ih =>
      simp only [List.cons_append, run]
      cases stepped : step state label with
      | none => rfl
      | some next => simpa using ih next

theorem run_append_eq_some {state last : State} {first second : List Label} :
    run step state (first ++ second) = some last ↔
      ∃ middle, run step state first = some middle ∧
        run step middle second = some last := by
  rw [run_append, Option.bind_eq_some_iff]

theorem runMeets_cons_of_none {guard : State → Label → Prop} {state : State}
    {label : Label} {labels : List Label} (stepped : step state label = none) :
    guard state label ↔ RunMeets step guard state (label :: labels) := by
  simp [RunMeets, stepped]

theorem runMeets_cons_of_some {guard : State → Label → Prop}
    {state next : State} {label : Label} {labels : List Label}
    (stepped : step state label = some next) :
    (guard state label ∧ RunMeets step guard next labels) ↔
      RunMeets step guard state (label :: labels) := by
  simp [RunMeets, stepped]

/-- A run meets the guard when the guard holds wherever a label is taken. -/
theorem runMeets_iff {guard : State → Label → Prop} {state last : State}
    {labels : List Label} (ran : run step state labels = some last) :
    RunMeets step guard state labels ↔
      ∀ first label middle next, first ++ [label] <+: labels →
        run step state first = some middle →
        step middle label = some next → guard middle label := by
  induction labels generalizing state with
  | nil =>
      refine ⟨fun _ first label middle next before => ?_, fun _ => trivial⟩
      simp at before
  | cons label labels ih =>
      obtain ⟨next, stepped, rest⟩ := run_cons_eq_some.mp ran
      rw [← runMeets_cons_of_some stepped, ih rest]
      constructor
      · rintro ⟨here, later⟩ first other middle after before reached taken
        cases first with
        | nil =>
            cases reached
            rw [List.nil_append, List.cons_prefix_cons] at before
            exact before.1 ▸ here
        | cons head tail =>
            rw [List.cons_append, List.cons_prefix_cons] at before
            obtain ⟨rfl, before⟩ := before
            obtain ⟨second, first, reached⟩ := run_cons_eq_some.mp reached
            rw [stepped] at first
            cases first
            exact later tail other middle after before reached taken
      · intro everywhere
        refine ⟨?_, fun first other middle after before reached taken => ?_⟩
        · exact everywhere [] label state next (by simp) rfl stepped
        · refine everywhere (label :: first) other middle after ?_ ?_ taken
          · rw [List.cons_append, List.cons_prefix_cons]
            exact ⟨rfl, before⟩
          · exact run_cons_eq_some.mpr ⟨next, stepped, reached⟩

theorem runMeets_append {guard : State → Label → Prop} {state middle : State}
    {first second : List Label} (ran : run step state first = some middle) :
    RunMeets step guard state (first ++ second) ↔
      RunMeets step guard state first ∧ RunMeets step guard middle second := by
  induction first generalizing state with
  | nil =>
      cases ran
      simp [RunMeets]
  | cons label labels ih =>
      obtain ⟨next, stepped, rest⟩ := run_cons_eq_some.mp ran
      rw [List.cons_append, ← runMeets_cons_of_some stepped,
        ← runMeets_cons_of_some stepped, ih rest, and_assoc]

theorem RunMeets.mono {guard guard' : State → Label → Prop}
    (weaker : ∀ state label, guard state label → guard' state label)
    {state : State} {labels : List Label}
    (meets : RunMeets step guard state labels) :
    RunMeets step guard' state labels := by
  induction labels generalizing state with
  | nil => trivial
  | cons label labels ih =>
      exact ⟨weaker state label meets.1,
        fun next stepped => ih (meets.2 next stepped)⟩

theorem RunMeets.and {guard guard' : State → Label → Prop} {state : State}
    {labels : List Label} (meets : RunMeets step guard state labels)
    (meets' : RunMeets step guard' state labels) :
    RunMeets step (fun state label => guard state label ∧ guard' state label)
      state labels := by
  induction labels generalizing state with
  | nil => trivial
  | cons label labels ih =>
      exact ⟨⟨meets.1, meets'.1⟩,
        fun next stepped => ih (meets.2 next stepped) (meets'.2 next stepped)⟩

/-- A decidable guard can be checked by executing the run. -/
instance decidableRunMeets {guard : State → Label → Prop}
    [∀ state label, Decidable (guard state label)] :
    (state : State) → (labels : List Label) →
      Decidable (RunMeets step guard state labels)
  | _, [] => isTrue trivial
  | state, label :: labels =>
      match stepped : step state label with
      | none => decidable_of_iff _ (runMeets_cons_of_none stepped)
      | some next =>
          have : Decidable (RunMeets step guard next labels) :=
            decidableRunMeets next labels
          decidable_of_iff _ (runMeets_cons_of_some stepped)

/-- What each guarded step preserves, every run meeting the guard preserves. -/
theorem invariant_of_runMeets {guard : State → Label → Prop}
    {Invariant : State → Prop}
    (preserved : ∀ {state label next}, Invariant state → guard state label →
      step state label = some next → Invariant next)
    {state last : State} {labels : List Label}
    (holds : Invariant state) (meets : RunMeets step guard state labels)
    (ran : run step state labels = some last) : Invariant last := by
  induction labels generalizing state with
  | nil =>
      cases ran
      exact holds
  | cons label labels ih =>
      obtain ⟨next, stepped, rest⟩ := run_cons_eq_some.mp ran
      exact ih (preserved holds meets.1 stepped) (meets.2 next stepped) rest

/-- What the guarded steps of a run preserve may serve to prove another guard. -/
theorem RunMeets.of_invariant {guard guard' : State → Label → Prop} {Invariant : State → Prop}
    (preserved : ∀ {state label next}, Invariant state → guard state label →
      step state label = some next → Invariant next)
    (implies : ∀ {state label}, Invariant state → guard state label → guard' state label)
    {state : State} {labels : List Label} (holds : Invariant state)
    (meets : RunMeets step guard state labels) : RunMeets step guard' state labels := by
  induction labels generalizing state with
  | nil => trivial
  | cons label labels ih =>
      refine ⟨implies holds meets.1, fun next stepped => ?_⟩
      exact ih (preserved holds meets.1 stepped) (meets.2 next stepped)

/-- When every guarded step is taken and preserves a property, so is every run that meets
the guard. -/
theorem exists_run_of_runMeets {guard : State → Label → Prop} {Invariant : State → Prop}
    (taken : ∀ {state label}, Invariant state → guard state label →
      ∃ next, step state label = some next ∧ Invariant next)
    {state : State} {labels : List Label} (holds : Invariant state)
    (meets : RunMeets step guard state labels) :
    ∃ last, run step state labels = some last ∧ Invariant last := by
  induction labels generalizing state with
  | nil => exact ⟨state, rfl, holds⟩
  | cons label labels ih =>
      obtain ⟨next, stepped, holds'⟩ := taken holds meets.1
      obtain ⟨last, ran, holds''⟩ := ih holds' (meets.2 next stepped)
      exact ⟨last, run_cons_eq_some.mpr ⟨next, stepped, ran⟩, holds''⟩

/-- What each step preserves, every run preserves. -/
theorem invariant_of_run {Invariant : State → Prop}
    (preserved : ∀ {state label next}, Invariant state →
      step state label = some next → Invariant next)
    {state last : State} {labels : List Label}
    (holds : Invariant state)
    (ran : run step state labels = some last) : Invariant last := by
  induction labels generalizing state with
  | nil =>
      cases ran
      exact holds
  | cons label labels ih =>
      obtain ⟨next, stepped, rest⟩ := run_cons_eq_some.mp ran
      exact ih (preserved holds stepped) rest

/-- When the states behind guarded steps are good and the others are not, every state of
a run is good exactly when the run meets the guard; a second guard may be taken for granted. -/
theorem always_iff_runMeets {guard kept : State → Label → Prop} {Invariant Good : State → Prop}
    (preserved : ∀ {state label next}, Invariant state → kept state label → guard state label →
      step state label = some next → Invariant next)
    (good_iff : ∀ {state label next}, Invariant state → kept state label →
      step state label = some next → (Good next ↔ guard state label))
    {state last : State} {labels : List Label} (holds : Invariant state) (good : Good state)
    (keeps : RunMeets step kept state labels) (ran : run step state labels = some last) :
    (∀ first middle, first <+: labels → run step state first = some middle → Good middle) ↔
      RunMeets step guard state labels := by
  induction labels generalizing state with
  | nil =>
      refine ⟨fun _ => trivial, fun _ first middle before reached => ?_⟩
      rw [List.prefix_nil.mp before] at reached
      cases reached
      exact good
  | cons label labels ih =>
      obtain ⟨next, stepped, rest⟩ := run_cons_eq_some.mp ran
      have here := good_iff holds keeps.1 stepped
      rw [← runMeets_cons_of_some stepped]
      constructor
      · intro always
        have guarded : guard state label :=
          here.mp (always [label] next (by simp) (run_cons_eq_some.mpr ⟨next, stepped, rfl⟩))
        refine ⟨guarded, (ih (preserved holds keeps.1 guarded stepped) (here.mpr guarded)
          (keeps.2 next stepped) rest).mp fun first middle before reached => ?_⟩
        exact always (label :: first) middle (List.cons_prefix_cons.mpr ⟨rfl, before⟩)
          (run_cons_eq_some.mpr ⟨next, stepped, reached⟩)
      · rintro ⟨guarded, later⟩ first middle before reached
        cases first with
        | nil =>
            cases reached
            exact good
        | cons head tail =>
            obtain ⟨rfl, shorter⟩ := List.cons_prefix_cons.mp before
            obtain ⟨second, taken, reached⟩ := run_cons_eq_some.mp reached
            rw [stepped] at taken
            cases taken
            exact (ih (preserved holds keeps.1 guarded stepped) (here.mpr guarded)
              (keeps.2 next stepped) rest).mpr later tail middle shorter reached

theorem runMeets_true (state : State) (labels : List Label) :
    RunMeets step (fun _ _ => True) state labels := by
  induction labels generalizing state with
  | nil => trivial
  | cons label labels ih => exact ⟨trivial, fun next _ => ih next⟩

end LabelledRuns
