import Xv6.UserSizes

/-!
# Releasing an address space

`freevm` gives every frame of an address space back: those of the user pages,
the tables and the directory.
-/

namespace Xv6.Vm

open ByteFields StateTriples

theorem tableOf_congr {mem mem' : Memory} {d : Frame} (same : mem' d = mem d) (i : Nat) :
    tableOf mem' d i = tableOf mem d i := by
  unfold tableOf entry
  rw [same]

theorem tableFrames_eq (mem : Memory) (d : Frame) :
    tableFrames mem d =
      (((List.range 1024).filterMap (tableOf mem d) : List Frame) : Multiset Frame) := by
  unfold tableFrames
  rw [dirEntries_eq]
  exact IndexedBags.sum_range_option _ _

/-- The loop frees the tables of the indices in turn. -/
theorem freevmLoop_spec {boot : Boot} {s : Kernel} {d : Frame} (indices : List Nat)
    (notSelf : ∀ i, tableOf s.mem d i ≠ some d)
    (managed : ∀ i t, tableOf s.mem d i = some t → Managed boot t) :
    ∃ s', freevmLoop boot d indices s = .ok (⟨⟩, s') ∧
      s'.freelist = (indices.filterMap (tableOf s.mem d)).reverse ++ s.freelist ∧
      ∀ f, (∀ i, tableOf s.mem d i ≠ some f) → s'.mem f = s.mem f := by
  induction indices generalizing s with
  | nil => exact ⟨s, rfl, rfl, fun _ _ => rfl⟩
  | cons i rest ih =>
      by_cases here : PteP (entry s.mem d i)
      · have found : tableOf s.mem d i = some (pteAddr (entry s.mem d i)) := if_pos here
        generalize pteAddr (entry s.mem d i) = t at found
        have notDir : d ≠ t := by
          rintro rfl
          exact notSelf i found
        have tables (k : Nat) : tableOf (Function.update s.mem t
            (freedPage s.freelist.head?)) d k = tableOf s.mem d k :=
          tableOf_update _ k notDir
        obtain ⟨s', run, frames, same⟩ := ih (s := ⟨Function.update s.mem t
            (freedPage s.freelist.head?), t :: s.freelist⟩)
          (fun k => by rw [tables]; exact notSelf k)
          (fun k u => by rw [tables]; exact managed k u)
        have address : pteAddr (entry s.mem d i) = t := by
          unfold tableOf at found
          rw [if_pos here] at found
          exact Option.some.inj found
        refine ⟨s', ?_, ?_, fun f notTable => ?_⟩
        · simp only [freevmLoop, bind_apply, get_apply, if_apply, if_pos here,
            address, kfree_apply (managed i t found), run]
        · simp only [tables] at frames
          rw [frames, List.filterMap_cons, found]
          simp
        · rw [same f fun k => by rw [tables]; exact notTable k]
          refine Function.update_of_ne ?_ _ _
          rintro rfl
          exact notTable i found
      · have missing : tableOf s.mem d i = none := if_neg here
        obtain ⟨s', run, frames, same⟩ := ih notSelf managed
        refine ⟨s', ?_, ?_, same⟩
        · simp only [freevmLoop, bind_apply, get_apply, if_apply, if_neg here,
            run]
        · rw [frames, List.filterMap_cons, missing]

/-- The loop over the whole directory. -/
theorem freevmLoop_all {boot : Boot} {s : Kernel} {d : Frame} {extra : Multiset Frame}
    (wf : Wf boot s d extra) :
    ∃ s', freevmLoop boot d (List.range 1024) s = .ok (⟨⟩, s') ∧
      (s'.freelist : Multiset Frame) =
        tableFrames s.mem d + (s.freelist : Multiset Frame) ∧
      ∀ f, (∀ i, tableOf s.mem d i ≠ some f) → s'.mem f = s.mem f := by
  have managed (i : Nat) (t : Frame) (found : tableOf s.mem d i = some t) :
      Managed boot t := wf.managed_owned (mem_owned.mpr (.inr (.inl ⟨i, found⟩)))
  have frames := tableFrames_eq s.mem d
  generalize List.range 1024 = indices at *
  obtain ⟨s', run, listed, same⟩ := freevmLoop_spec indices wf.notSelf managed
  refine ⟨s', run, ?_, same⟩
  rw [listed, frames, ← Multiset.coe_add, Multiset.coe_reverse]

/-- The frames of an address space are on the free list again, and nothing else
has changed. -/
structure Released (s s' : Kernel) (d : Frame) : Prop where
  free : (s'.freelist : Multiset Frame) = total s d
  others : ∀ f ∉ total s d, s'.mem f = s.mem f

/-- `deallocuvm` for all user pages. -/
theorem deallocuvm_all {boot : Boot} {s : Kernel} {d : Frame} (dir : Dir boot s.mem d) :
    deallocuvm boot d kernbase 0 s = .ok (0, freeRange d 0 userPages s) := by
  have run := deallocuvm_eq dir le_rfl (by decide : 0 < kernbase)
  rw [show pages 0 = 0 from rfl, show pages kernbase - 0 = 524288 from rfl,
    ← userPages_eq] at run
  exact run

theorem freevm_spec {boot : Boot} {s : Kernel} {d : Frame} {extra : Multiset Frame}
    (wf : Wf boot s d extra) :
    ∃ s', freevm boot d s = .ok (⟨⟩, s') ∧ Released s s' d := by
  have whole : 0 + userPages ≤ userPages := by omega
  have first := deallocuvm_all wf.dir
  have freed := freeRange_freed wf.dir whole
  have kept := freeRange_kept wf whole
  obtain ⟨totals, wf1⟩ := wf_freeRange wf whole
  generalize freeRange d 0 userPages s = s1 at *
  have noPages : pageFrames s1.mem d = 0 := by
    rw [Multiset.eq_zero_iff_forall_notMem]
    intro f isPage
    obtain ⟨v, vLt, here, _⟩ := mem_pageFrames.mp isPage
    rw [freed.pte] at here
    split at here
    · exact absurd here (by decide)
    · rename_i absent
      exact absent ⟨by omega, by omega, here⟩
  obtain ⟨s2, second, frames, same⟩ := freevmLoop_all wf1
  have isManaged : Managed boot d := wf1.managed_owned (mem_owned.mpr (.inl rfl))
  refine ⟨⟨Function.update s2.mem d (freedPage s2.freelist.head?), d :: s2.freelist⟩,
    ?_, ?_, fun f outside => ?_⟩
  · exact (bind_of_ok first).trans ((bind_of_ok second).trans (kfree_apply isManaged s2))
  · show ((d :: s2.freelist : List Frame) : Multiset Frame) = _
    rw [← Multiset.cons_coe, frames, ← totals]
    unfold total owned
    rw [noPages, add_zero, ← Multiset.singleton_add, add_assoc]
  · have outside1 : f ∉ total s1 d := by
      rw [totals]
      exact outside
    rw [mem_total, not_or] at outside1
    obtain ⟨notDir, notTable⟩ := Wf.notTable_of_notOwned outside1.1
    show Function.update s2.mem d _ f = _
    rw [Function.update_of_ne (Ne.symm notDir), same f notTable, kept.others f outside]

end Xv6.Vm
