import Mathlib.Data.List.Chain
import Mathlib.Logic.Function.Basic

/-!
# Doubly linked rings

A ring of items through a head node, held together by `next` and `prev` links.
A node is an item or `none`, the head.  Items are pushed behind the head and
unlinked where they are, one pointer assignment after the other, and searches
follow the links in either direction.
-/

namespace LinkedRing

variable {α : Type*}

/-- The links of the nodes. -/
structure Links (α : Type*) where
  next : Option α → Option α
  prev : Option α → Option α

namespace Links

/-- The ring without items. -/
def empty : Links α :=
  ⟨fun _ => none, fun _ => none⟩

def setNext [DecidableEq α] (l : Links α) (node target : Option α) : Links α :=
  { l with next := Function.update l.next node target }

def setPrev [DecidableEq α] (l : Links α) (node target : Option α) : Links α :=
  { l with prev := Function.update l.prev node target }

/-- Link an item in behind the head. -/
def push [DecidableEq α] (l : Links α) (a : α) : Links α :=
  let l := l.setNext (some a) (l.next none)
  let l := l.setPrev (some a) none
  let l := l.setPrev (l.next none) (some a)
  l.setNext none (some a)

/-- Unlink an item. -/
def unlink [DecidableEq α] (l : Links α) (a : α) : Links α :=
  let l := l.setPrev (l.next (some a)) (l.prev (some a))
  l.setNext (l.prev (some a)) (l.next (some a))

/-- Two nodes that follow each other in both directions. -/
def Adjacent (l : Links α) (x y : Option α) : Prop :=
  l.next x = y ∧ l.prev y = x

end Links

/-- The nodes of a ring, from the head round to the head. -/
def cycle (order : List α) : List (Option α) :=
  none :: (order.map some ++ [none])

/-- The links form one ring through the head with the items in this order. -/
def Ring (l : Links α) (order : List α) : Prop :=
  (cycle order).IsChain l.Adjacent

/-- Follow a kind of link to the first item that meets a test, or to the
head. -/
def search (link : Option α → Option α) (test : α → Bool) :
    Nat → Option α → Option α
  | 0, _ => none
  | _ + 1, none => none
  | fuel + 1, some a =>
      if test a then some a else search link test fuel (link (some a))

theorem ring_empty : Ring (Links.empty : Links α) [] := by
  simp [Ring, cycle, Links.Adjacent, Links.empty]

theorem cycle_reverse (order : List α) :
    (cycle order).reverse = cycle order.reverse := by
  simp [cycle]

namespace Ring

variable {l : Links α} {order : List α} {a : α}

/-- Round the ring along `next`. -/
theorem next (ring : Ring l order) :
    (cycle order).IsChain fun x y => l.next x = y :=
  List.IsChain.imp (fun _ _ adjacent => adjacent.1) ring

/-- Round the ring along `prev`, which is the other way. -/
theorem prev (ring : Ring l order) :
    (cycle order.reverse).IsChain fun x y => l.prev x = y := by
  rw [← cycle_reverse, List.isChain_reverse]
  exact List.IsChain.imp (fun _ _ adjacent => adjacent.2) ring

theorem push [DecidableEq α] (ring : Ring l order) (fresh : a ∉ order) :
    Ring (l.push a) (a :: order) := by
  obtain ⟨first, rest⟩ := List.isChain_cons.mp ring
  obtain ⟨items, -, last⟩ := List.isChain_append.mp rest
  have notItem {x : Option α} (member : x ∈ order.map some) :
      x ≠ none ∧ x ≠ some a := by
    obtain ⟨b, inside, rfl⟩ := List.mem_map.mp member
    refine ⟨nofun, fun same => fresh ?_⟩
    rwa [← Option.some.inj same]
  have behind : l.prev (l.next none) = none ∧ l.next none ≠ some a := by
    cases order with
    | nil =>
        obtain ⟨forward, backward⟩ := first none (by simp)
        rw [forward, backward]
        exact ⟨rfl, nofun⟩
    | cons b order =>
        obtain ⟨forward, backward⟩ := first (some b) (by simp)
        rw [forward, backward]
        exact ⟨rfl, (notItem (by simp)).2⟩
  have nextItem {x : Option α} (item : x ≠ none) (other : x ≠ some a) :
      (l.push a).next x = l.next x := by
    simp [Links.push, Links.setNext, Links.setPrev, item, other]
  have prevItem {x : Option α} (second : x ≠ l.next none) (other : x ≠ some a) :
      (l.push a).prev x = l.prev x := by
    simp [Links.push, Links.setNext, Links.setPrev, second, other]
  have headNext : (l.push a).next none = some a := by
    simp [Links.push, Links.setNext]
  have itemPrev : (l.push a).prev (some a) = none := by
    simp [Links.push, Links.setNext, Links.setPrev, behind.2.symm]
  have itemNext : (l.push a).next (some a) = l.next none := by
    simp [Links.push, Links.setNext, Links.setPrev]
  have secondPrev : (l.push a).prev (l.next none) = some a := by
    simp [Links.push, Links.setNext, Links.setPrev]
  change List.IsChain _ (none :: some a :: (order.map some ++ [none]))
  refine List.isChain_cons_cons.mpr ⟨⟨headNext, itemPrev⟩, ?_⟩
  refine List.isChain_cons.mpr ⟨fun y member => ?_, ?_⟩
  · obtain ⟨forward, -⟩ := first y member
    subst forward
    exact ⟨itemNext, secondPrev⟩
  · refine List.isChain_append.mpr ⟨?_, by simp, fun x inside y same => ?_⟩
    · refine items.imp_of_mem_imp fun x y inside target adjacent => ?_
      have source := notItem inside
      refine ⟨(nextItem source.1 source.2).trans adjacent.1, ?_⟩
      refine (prevItem ?_ (notItem target).2).trans adjacent.2
      rintro rfl
      exact source.1 (adjacent.2.symm.trans behind.1)
    · have source := notItem (List.mem_of_getLast? inside)
      have adjacent := last x inside y same
      refine ⟨(nextItem source.1 source.2).trans adjacent.1, ?_⟩
      have isHead : y = none := by simpa [eq_comm] using same
      subst isHead
      refine (prevItem (x := none) ?_ nofun).trans adjacent.2
      intro empty
      rw [← empty] at behind
      exact source.1 (adjacent.2.symm.trans behind.1)

theorem unlink [DecidableEq α] (ring : Ring l order) (nodup : order.Nodup)
    (member : a ∈ order) : Ring (l.unlink a) (order.erase a) := by
  obtain ⟨before, after, rfl⟩ := List.append_of_mem member
  have apart : (a :: (before ++ after)).Nodup := List.perm_middle.nodup_iff.mp nodup
  have absent : a ∉ before ++ after := (List.nodup_cons.mp apart).1
  have erased : (before ++ a :: after).erase a = before ++ after := by
    rw [List.erase_append_right _ fun inside => absent (List.mem_append_left _ inside)]
    simp
  rw [erased]
  have split : (none :: before.map some ++ some a :: (after.map some ++ [none])).IsChain
      l.Adjacent := by
    simpa [Ring, cycle] using ring
  obtain ⟨start, behind, seam⟩ := List.isChain_append.mp split
  obtain ⟨ahead, finish⟩ := List.isChain_cons.mp behind
  have elsewhere {x : Option α} (inside : x ∈ none :: before.map some ∨
      x ∈ after.map some ++ [none]) : x ≠ some a := by
    rintro rfl
    refine absent (List.mem_append.mpr (inside.imp ?_ ?_)) <;> simp
  obtain ⟨u, uLast⟩ : ∃ u, u ∈ (none :: before.map some).getLast? :=
    ⟨_, List.getLast?_eq_some_getLast (List.cons_ne_nil _ _)⟩
  obtain ⟨v, vHead⟩ : ∃ v, v ∈ (after.map some ++ [none]).head? := by
    cases after <;> simp
  obtain ⟨uNext, aPrev⟩ := seam u uLast (some a) (by simp)
  obtain ⟨aNext, vPrev⟩ := ahead v vHead
  have vElsewhere : v ≠ some a := elsewhere (.inr (List.mem_of_mem_head? vHead))
  have nextOther {x : Option α} (other : x ≠ u) :
      (l.unlink a).next x = l.next x := by
    simp [Links.unlink, Links.setNext, Links.setPrev, aNext, aPrev, vElsewhere.symm,
      other]
  have prevOther {x : Option α} (other : x ≠ v) :
      (l.unlink a).prev x = l.prev x := by
    simp [Links.unlink, Links.setNext, Links.setPrev, aNext, other]
  have uNow : (l.unlink a).next u = v := by
    simp [Links.unlink, Links.setNext, Links.setPrev, aNext, aPrev, vElsewhere.symm]
  have vNow : (l.unlink a).prev v = u := by
    simp [Links.unlink, Links.setNext, Links.setPrev, aNext, aPrev]
  have keep {x y : Option α} (adjacent : l.Adjacent x y) (source : x ≠ some a)
      (target : y ≠ some a) : (l.unlink a).Adjacent x y := by
    refine ⟨(nextOther ?_).trans adjacent.1, (prevOther ?_).trans adjacent.2⟩
    · rintro rfl
      exact target (adjacent.1.symm.trans uNext)
    · rintro rfl
      exact source (adjacent.2.symm.trans vPrev)
  have joined : (none :: before.map some ++ (after.map some ++ [none])).IsChain
      (l.unlink a).Adjacent := by
    refine List.isChain_append.mpr ⟨?_, ?_, fun x xLast y yHead => ?_⟩
    · refine start.imp_of_mem_imp fun x y source target adjacent => ?_
      exact keep adjacent (elsewhere (.inl source)) (elsewhere (.inl target))
    · refine finish.imp_of_mem_imp fun x y source target adjacent => ?_
      exact keep adjacent (elsewhere (.inr source)) (elsewhere (.inr target))
    · cases Option.mem_unique uLast xLast
      cases Option.mem_unique vHead yHead
      exact ⟨uNow, vNow⟩
  simpa [Ring, cycle] using joined

end Ring

/-- A search along links that lead through the items of a list to the head
finds what `find?` finds, given fuel for one more step than there are items. -/
theorem search_eq_find? {link : Option α → Option α} (test : α → Bool)
    {order : List α} {node : Option α} {fuel : Nat}
    (chain : (node :: (order.map some ++ [none])).IsChain fun x y => link x = y)
    (enough : order.length < fuel) :
    search link test fuel (link node) = order.find? test := by
  induction order generalizing node fuel with
  | nil =>
      have stop : link node = none := by simpa using chain
      cases fuel with
      | zero => cases enough
      | succ fuel =>
          rw [stop]
          rfl
  | cons a order ih =>
      obtain ⟨here, rest⟩ := List.isChain_cons_cons.mp chain
      cases fuel with
      | zero => cases enough
      | succ fuel =>
          rw [here, search, ih rest (Nat.lt_of_succ_lt_succ enough), List.find?_cons]
          cases test a <;> rfl

namespace Ring

variable {l : Links α} {order : List α}

theorem search_next (ring : Ring l order) (test : α → Bool) {fuel : Nat}
    (enough : order.length < fuel) :
    search l.next test fuel (l.next none) = order.find? test :=
  search_eq_find? test ring.next enough

theorem search_prev (ring : Ring l order) (test : α → Bool) {fuel : Nat}
    (enough : order.length < fuel) :
    search l.prev test fuel (l.prev none) = order.reverse.find? test := by
  refine search_eq_find? test ring.prev ?_
  rwa [List.length_reverse]

end Ring

end LinkedRing
