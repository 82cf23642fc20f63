import Mathlib.Logic.Relation
import Mathlib.Order.Basic

/-!
# Lock orders

Processes that each own any number of locks and want at most one more.  A
process waits for the owner of the lock it wants.  When the locks that waiting
processes own are inner locks, and each of them ranks below the lock that its
owner wants, no process waits for itself through any chain of others.  Locks
that are not inner need no rank: whoever owns one does not wait.
-/

namespace LockOrder

variable {Process Lock Rank : Type*} [Preorder Rank]

/-- One process wants a lock that the other owns. -/
def WaitsFor (wants : Process → Option Lock) (owner : Lock → Option Process)
    (waiting other : Process) : Prop :=
  ∃ lock, wants waiting = some lock ∧ owner lock = some other

/-- What a process owns while it waits is inner and ranks below what it
wants. -/
def Ordered (wants : Process → Option Lock) (owner : Lock → Option Process)
    (inner : Lock → Prop) (rank : Lock → Rank) : Prop :=
  ∀ process wanted owned, wants process = some wanted →
    (owner wanted).isSome → owner owned = some process →
    inner owned ∧ (inner wanted → rank owned < rank wanted)

variable {wants : Process → Option Lock} {owner : Lock → Option Process}
  {inner : Lock → Prop} {rank : Lock → Rank}

/-- Along a chain of waiting processes the wanted locks rise. -/
theorem rank_lt_of_chain (ordered : Ordered wants owner inner rank)
    {first last : Process} (chain : Relation.TransGen (WaitsFor wants owner) first last)
    {start finish : Lock} (wantsStart : wants first = some start)
    (wantsFinish : wants last = some finish) (owned : (owner finish).isSome)
    (innerFinish : inner finish) :
    inner start ∧ rank start < rank finish := by
  induction chain using Relation.TransGen.head_induction_on generalizing start with
  | single waits =>
      obtain ⟨lock, wanted, ownedBy⟩ := waits
      obtain rfl : start = lock := Option.some.inj (wantsStart.symm.trans wanted)
      have below := ordered last finish start wantsFinish owned ownedBy
      exact ⟨below.1, below.2 innerFinish⟩
  | @head process next waits rest ih =>
      obtain ⟨lock, wanted, ownedBy⟩ := waits
      obtain rfl : start = lock := Option.some.inj (wantsStart.symm.trans wanted)
      have onward : ∃ second, wants next = some second ∧ (owner second).isSome := by
        rcases Relation.TransGen.head'_iff.mp rest with ⟨after, ⟨second, wantsSecond, by_⟩, _⟩
        exact ⟨second, wantsSecond, by simp [by_]⟩
      obtain ⟨second, wantsSecond, ownedSecond⟩ := onward
      have later := ih wantsSecond
      have below := ordered next second start wantsSecond ownedSecond ownedBy
      exact ⟨below.1, (below.2 later.1).trans later.2⟩

/-- Under a lock order no process waits for itself. -/
theorem waitsFor_acyclic (ordered : Ordered wants owner inner rank)
    (process : Process) :
    ¬ Relation.TransGen (WaitsFor wants owner) process process := by
  intro cycle
  obtain ⟨next, ⟨lock, wanted, ownedBy⟩, rest⟩ :=
    Relation.TransGen.head'_iff.mp cycle
  have contended : (owner lock).isSome := by simp [ownedBy]
  have onCycle : Relation.TransGen (WaitsFor wants owner) next next :=
    Relation.TransGen.tail'_iff.mpr ⟨process, rest, lock, wanted, ownedBy⟩
  obtain ⟨_, ⟨second, wantsSecond, ownedSecond⟩, _⟩ :=
    Relation.TransGen.head'_iff.mp onCycle
  have innerLock : inner lock :=
    (ordered next second lock wantsSecond (by simp [ownedSecond]) ownedBy).1
  exact lt_irrefl _
    (rank_lt_of_chain ordered cycle wanted wanted contended innerLock).2

end LockOrder
