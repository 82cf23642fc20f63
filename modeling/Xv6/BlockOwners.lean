import Mathlib.Logic.ExistsUnique
import Mathlib.Tactic.ByContra

/-!
# Places and what they hold

Each place holds one item or nothing.  The items in use are exactly those that
some place holds, and no item is held at two places.  An unused item may be put
in an empty place, and places may be emptied when their items go out of use.
-/

namespace BlockOwners

variable {Place Item : Type*}

/-- The items in use are held, each at one place. -/
structure Accounted (held : Place → Option Item) (used : Item → Prop) :
    Prop where
  apart : ∀ {first second item}, held first = some item →
    held second = some item → first = second
  used_iff : ∀ item, used item ↔ ∃ place, held place = some item

namespace Accounted

variable {held held' : Place → Option Item} {used used' : Item → Prop}

theorem used_of_held (accounted : Accounted held used) {place : Place}
    {item : Item} (holds : held place = some item) : used item :=
  (accounted.used_iff item).mpr ⟨place, holds⟩

/-- Every item in use is held at exactly one place. -/
theorem existsUnique (accounted : Accounted held used) {item : Item}
    (using' : used item) : ∃! place, held place = some item := by
  obtain ⟨place, holds⟩ := (accounted.used_iff item).mp using'
  exact ⟨place, holds, fun other same => accounted.apart same holds⟩

theorem congr (accounted : Accounted held used)
    (sameHeld : ∀ place, held' place = held place)
    (sameUsed : ∀ item, used' item ↔ used item) : Accounted held' used' where
  apart first second := by
    rw [sameHeld] at first second
    exact accounted.apart first second
  used_iff item := by
    rw [sameUsed, accounted.used_iff]
    simp only [sameHeld]

/-- An unused item is put in an empty place. -/
theorem assign (accounted : Accounted held used) {place : Place} {item : Item}
    (unused : ¬ used item) (empty : held place = none)
    (here : held' place = some item)
    (elsewhere : ∀ other, other ≠ place → held' other = held other)
    (nowUsed : ∀ other, used' other ↔ other = item ∨ used other) :
    Accounted held' used' := by
  have only {other : Place} (holds : held' other = some item) : other = place := by
    by_contra different
    rw [elsewhere other different] at holds
    exact unused (accounted.used_of_held holds)
  have before {other : Place} {thing : Item} (different : thing ≠ item)
      (holds : held' other = some thing) : held other = some thing := by
    rwa [elsewhere other] at holds
    rintro rfl
    rw [here] at holds
    exact different (Option.some.inj holds).symm
  refine ⟨fun {first second thing} one two => ?_, fun thing => ?_⟩
  · by_cases same : thing = item
    · subst same
      rw [only one, only two]
    · exact accounted.apart (before same one) (before same two)
  · rw [nowUsed]
    refine ⟨?_, fun ⟨other, holds⟩ => ?_⟩
    · rintro (rfl | using')
      · exact ⟨place, here⟩
      · obtain ⟨other, holds⟩ := (accounted.used_iff thing).mp using'
        refine ⟨other, (elsewhere other ?_).trans holds⟩
        rintro rfl
        rw [empty] at holds
        cases holds
    · by_cases same : thing = item
      · exact .inl same
      · exact .inr (accounted.used_of_held (before same holds))

/-- Places are emptied, and what they held goes out of use. -/
theorem release (accounted : Accounted held used) (gone : Place → Prop)
    (emptied : ∀ place, gone place → held' place = none)
    (kept : ∀ place, ¬ gone place → held' place = held place)
    (nowUsed : ∀ item, used' item ↔
      used item ∧ ∀ place, gone place → held place ≠ some item) :
    Accounted held' used' := by
  have before {place : Place} {item : Item} (holds : held' place = some item) :
      ¬ gone place ∧ held place = some item := by
    by_cases empty : gone place
    · rw [emptied place empty] at holds
      cases holds
    · exact ⟨empty, (kept place empty).symm.trans holds⟩
  refine ⟨fun one two => accounted.apart (before one).2 (before two).2, fun item => ?_⟩
  rw [nowUsed, accounted.used_iff]
  constructor
  · rintro ⟨⟨place, holds⟩, away⟩
    refine ⟨place, (kept place fun empty => ?_).trans holds⟩
    exact away place empty holds
  · rintro ⟨place, holds⟩
    obtain ⟨stays, held⟩ := before holds
    refine ⟨⟨place, held⟩, fun other empty same => stays ?_⟩
    rwa [accounted.apart held same]

end Accounted

end BlockOwners
