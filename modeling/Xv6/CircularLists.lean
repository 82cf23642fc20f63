import Mathlib.Data.List.Basic
import Mathlib.Order.Lattice

/-!
# Circular lists

A list whose nodes lead from one to the next and from the last back to the head, given
by a function from each node to its successor.  From every node the links lead around
all of them, a search for the one node that meets a test finds it from anywhere, and a
part of the list is replaced by changing the links of the nodes around it.  In a circle
whose nodes ascend from the head, a new node has exactly one place.
-/

namespace CircularLists

variable {α : Type*} {next next' : α → α}

/-- The links lead from one node through the nodes of a list to a last one. -/
def LinkPath (next : α → α) : α → List α → α → Prop
  | a, [], b => next a = b
  | a, c :: between, b => next a = c ∧ LinkPath next c between b

/-- The links lead from the head through the items back to the head. -/
def LinkCircle (next : α → α) (head : α) (items : List α) : Prop :=
  LinkPath next head items head

/-- Follow the links to a node that meets a test. -/
def follow (next : α → α) (stop : α → Prop) [DecidablePred stop] : Nat → α → Option α
  | 0, _ => none
  | fuel + 1, a => if stop a then some a else follow next stop fuel (next a)

/-! ## Paths -/

@[simp]
theorem linkPath_nil {a b : α} : LinkPath next a [] b ↔ next a = b :=
  Iff.rfl

@[simp]
theorem linkPath_cons {a b c : α} {between : List α} :
    LinkPath next a (c :: between) b ↔ next a = c ∧ LinkPath next c between b :=
  Iff.rfl

theorem linkPath_append {a b c : α} {front post : List α} :
    LinkPath next a (front ++ c :: post) b ↔ LinkPath next a front c ∧ LinkPath next c post b := by
  induction front generalizing a with
  | nil => rfl
  | cons d front ih => rw [List.cons_append, linkPath_cons, linkPath_cons, ih, and_assoc]

theorem LinkPath.first {a b : α} {between : List α} (path : LinkPath next a between b) :
    next a = between.headD b := by
  cases between with
  | nil => exact path
  | cons c between => exact path.1

/-- Links that are the same for all nodes but the last. -/
theorem LinkPath.congr {a b : α} {between : List α} (path : LinkPath next a between b)
    (same : ∀ c ∈ a :: between, next' c = next c) : LinkPath next' a between b := by
  induction between generalizing a with
  | nil =>
      rw [linkPath_nil, same a List.mem_cons_self]
      exact path
  | cons c between ih =>
      rw [linkPath_cons, same a List.mem_cons_self]
      exact ⟨path.1, ih path.2 fun d inside => same d (List.mem_cons_of_mem a inside)⟩

theorem follow_path {stop : α → Prop} [DecidablePred stop] {s t : α} {between : List α}
    {fuel : Nat} (path : LinkPath next s between t) (go : ∀ a ∈ s :: between, ¬stop a)
    (halt : stop t) (enough : between.length + 1 < fuel) : follow next stop fuel s = some t := by
  induction between generalizing s fuel with
  | nil =>
      obtain ⟨fuel, rfl⟩ : ∃ rest, fuel = rest + 2 := Nat.exists_eq_add_of_le' enough
      rw [follow, if_neg (go s List.mem_cons_self), linkPath_nil.mp path, follow, if_pos halt]
  | cons c between ih =>
      rw [List.length_cons] at enough
      obtain ⟨fuel, rfl⟩ : ∃ rest, fuel = rest + 1 := Nat.exists_eq_add_of_le' (by omega)
      rw [follow, if_neg (go s List.mem_cons_self), path.1]
      exact ih path.2 (fun a inside => go a (List.mem_cons_of_mem s inside)) (by omega)

/-! ## Circles -/

section LinkCircle

variable {head : α} {items : List α}

/-- A node leads to the next item, the last one to the head. -/
theorem LinkCircle.next_eq {front post : List α} {t : α} (circle : LinkCircle next head items)
    (whole : head :: items = front ++ t :: post) : next t = post.headD head := by
  cases front with
  | nil =>
      obtain ⟨rfl, rfl⟩ := List.cons.inj whole
      exact LinkPath.first circle
  | cons first front =>
      obtain ⟨rfl, rfl⟩ := List.cons.inj whole
      exact (linkPath_append.mp circle).2.first

/-- From every node the links lead around all nodes. -/
theorem LinkCircle.around {s : α} (circle : LinkCircle next head items)
    (member : s ∈ head :: items) :
    ∃ around, LinkPath next s around s ∧ (s :: around).Perm (head :: items) := by
  rcases List.mem_cons.mp member with rfl | member
  · exact ⟨items, circle, List.Perm.refl _⟩
  · obtain ⟨front, post, rfl⟩ := List.append_of_mem member
    obtain ⟨before, behind⟩ := linkPath_append.mp circle
    have swap : ((s :: post) ++ head :: front).Perm ((head :: front) ++ s :: post) :=
      List.perm_append_comm
    exact ⟨post ++ head :: front, linkPath_append.mpr ⟨behind, before⟩, swap⟩

/-- The links lead from every node to every other one. -/
theorem LinkCircle.between {s t : α} (circle : LinkCircle next head items)
    (nodup : (head :: items).Nodup) (start : s ∈ head :: items) (goal : t ∈ head :: items)
    (differ : s ≠ t) :
    ∃ between, LinkPath next s between t ∧
      (∀ a ∈ s :: between, a ∈ head :: items ∧ a ≠ t) ∧ between.length < items.length := by
  obtain ⟨around, path, perm⟩ := circle.around start
  have inside : t ∈ around :=
    (List.mem_cons.mp (perm.mem_iff.mpr goal)).resolve_left (Ne.symm differ)
  obtain ⟨between, rest, rfl⟩ := List.append_of_mem inside
  have once : ((s :: between) ++ t :: rest).Nodup := perm.nodup_iff.mpr nodup
  have lengths := perm.length_eq
  refine ⟨between, (linkPath_append.mp path).1, fun a member => ⟨perm.mem_iff.mp ?_, ?_⟩, ?_⟩
  · exact List.mem_append_left (t :: rest) member
  · rintro rfl
    exact (List.nodup_append.mp once).2.2 a member a List.mem_cons_self rfl
  · simp only [List.length_cons, List.length_append] at lengths
    omega

/-- A search for the only node that meets the test. -/
theorem LinkCircle.follow_eq {stop : α → Prop} [DecidablePred stop] {s t : α} {fuel : Nat}
    (circle : LinkCircle next head items) (nodup : (head :: items).Nodup)
    (start : s ∈ head :: items) (goal : t ∈ head :: items)
    (only : ∀ a ∈ head :: items, stop a ↔ a = t) (enough : items.length + 1 < fuel) :
    follow next stop fuel s = some t := by
  by_cases same : s = t
  · subst same
    obtain ⟨fuel, rfl⟩ : ∃ rest, fuel = rest + 1 := Nat.exists_eq_add_of_le' (by omega)
    rw [follow, if_pos ((only s start).mpr rfl)]
  · obtain ⟨between, path, others, short⟩ := circle.between nodup start goal same
    refine follow_path path (fun a member => ?_) ((only t goal).mpr rfl) (by omega)
    rw [only a (others a member).1]
    exact (others a member).2

/-- The items behind a node are replaced by others, up to the rest of the list. -/
theorem LinkCircle.splice {front skip mid post items' : List α} {t : α}
    (circle : LinkCircle next head items) (whole : head :: items = front ++ t :: (skip ++ post))
    (whole' : head :: items' = front ++ t :: (mid ++ post))
    (same : ∀ a ∈ front ++ post, next' a = next a)
    (middle : LinkPath next' t mid (post.headD head)) : LinkCircle next' head items' := by
  have behind : LinkPath next t (skip ++ post) head → LinkPath next' t (mid ++ post) head := by
    cases post with
    | nil => simpa using fun _ => middle
    | cons q post =>
        intro path
        refine linkPath_append.mpr ⟨middle, (linkPath_append.mp path).2.congr fun a inside => ?_⟩
        exact same a (List.mem_append_right front inside)
  cases front with
  | nil =>
      obtain ⟨rfl, rfl⟩ := List.cons.inj whole
      obtain ⟨-, rfl⟩ := List.cons.inj whole'
      exact behind circle
  | cons first front =>
      obtain ⟨rfl, rfl⟩ := List.cons.inj whole
      obtain ⟨-, rfl⟩ := List.cons.inj whole'
      obtain ⟨before, path⟩ := linkPath_append.mp circle
      refine linkPath_append.mpr ⟨before.congr fun a inside => ?_, behind path⟩
      exact same a (List.mem_append_left post inside)

end LinkCircle

/-! ## Ascending circles -/

section Ascending

variable [LinearOrder α] {head : α} {items : List α}

/-- The last node below a value that is none of the nodes, and the nodes behind it. -/
theorem exists_place {a : α} (ascending : (head :: items).Pairwise (· < ·))
    (above : head < a) (new : a ∉ items) :
    ∃ front t post, head :: items = front ++ t :: post ∧ t < a ∧ ∀ q ∈ post, a < q := by
  induction items generalizing head with
  | nil => exact ⟨[], head, [], rfl, above, by simp⟩
  | cons q items ih =>
      rw [List.mem_cons, not_or] at new
      have behind := (List.pairwise_cons.mp ascending).2
      rcases lt_or_gt_of_ne new.1 with below | more
      · refine ⟨[], head, q :: items, rfl, above, fun r member => ?_⟩
        rcases List.mem_cons.mp member with rfl | member
        · exact below
        · exact below.trans ((List.pairwise_cons.mp behind).1 r member)
      · obtain ⟨front, t, post, whole, place⟩ := ih behind more new.2
        exact ⟨head :: front, t, post, by rw [whole, List.cons_append], place⟩

/-- A place to insert a value: it lies between the node and the next one, or it is
above or below all nodes and the node is the last. -/
def IsPlace (next : α → α) (a p : α) : Prop :=
  (p < a ∧ a < next p) ∨ (next p ≤ p ∧ (p < a ∨ a < next p))

instance (next : α → α) (a p : α) : Decidable (IsPlace next a p) :=
  inferInstanceAs (Decidable (_ ∨ _))

/-- The only place for a value is the last node below it. -/
theorem LinkCircle.isPlace_iff {front post : List α} {a t p : α}
    (circle : LinkCircle next head items)
    (ascending : (head :: items).Pairwise (· < ·))
    (whole : head :: items = front ++ t :: post) (below : t < a) (above : ∀ q ∈ post, a < q)
    (first : head < a) (member : p ∈ head :: items) : IsPlace next a p ↔ p = t := by
  have atNode : next t = post.headD head := circle.next_eq whole
  rw [whole] at ascending member
  rw [List.mem_append, List.mem_cons] at member
  obtain ⟨-, ascendingPost, ascendingFront⟩ := List.pairwise_append.mp ascending
  rcases member with inFront | rfl | inPost
  · -- a node before the place leads to a node that is still below the value
    have differ := (ascendingFront p inFront t List.mem_cons_self).ne
    obtain ⟨early, late, rfl⟩ := List.append_of_mem inFront
    have split : head :: items = early ++ p :: (late ++ t :: post) := by
      rw [whole, List.append_assoc, List.cons_append]
    have step : next p = (late ++ t :: post).headD head := circle.next_eq split
    have onward : p < next p ∧ next p ≤ t := by
      cases late with
      | nil => exact ⟨step ▸ ascendingFront p inFront t List.mem_cons_self, le_of_eq step⟩
      | cons q late =>
          rw [List.cons_append, List.headD_cons] at step
          have later : p < q := by
            rw [List.append_assoc] at ascending
            have tail := (List.pairwise_append.mp ascending).2.1
            exact (List.pairwise_cons.mp tail).1 q (by simp)
          exact ⟨step ▸ later, step ▸ (ascendingFront q (by simp) t List.mem_cons_self).le⟩
    refine iff_of_false ?_ differ
    rintro (⟨-, past⟩ | ⟨back, -⟩)
    · exact absurd (past.trans_le onward.2) (not_lt_of_gt below)
    · exact absurd onward.1 (not_lt_of_ge back)
  · refine iff_of_true ?_ rfl
    cases post with
    | nil =>
        refine Or.inr ⟨?_, Or.inl below⟩
        rw [atNode]
        cases front with
        | nil => exact (List.cons.inj whole).1.le
        | cons h front =>
            obtain ⟨rfl, -⟩ := List.cons.inj whole
            exact (ascendingFront head List.mem_cons_self p List.mem_cons_self).le
    | cons q post => exact Or.inl ⟨below, atNode ▸ above q List.mem_cons_self⟩
  · -- a node behind the place is above the value and leads further up, or to the head
    have differ := ((List.pairwise_cons.mp ascendingPost).1 p inPost).ne'
    have beyond := above p inPost
    obtain ⟨early, late, rfl⟩ := List.append_of_mem inPost
    have step : next p = late.headD head :=
      circle.next_eq (whole.trans (List.append_assoc front (t :: early) (p :: late)).symm)
    refine iff_of_false ?_ differ
    rintro (⟨under, -⟩ | ⟨back, under | under⟩)
    · exact absurd under (not_lt_of_gt beyond)
    · exact absurd under (not_lt_of_gt beyond)
    · cases late with
      | nil =>
          rw [step, List.headD_nil] at under
          exact absurd under (not_lt_of_gt first)
      | cons q late =>
          have up := above q (by simp)
          rw [List.headD_cons] at step
          have further := (List.pairwise_append.mp
            (List.pairwise_cons.mp ascendingPost).2).2.1
          have rise := (List.pairwise_cons.mp further).1 q List.mem_cons_self
          exact absurd rise (not_lt_of_ge (step ▸ back))

end Ascending

end CircularLists
