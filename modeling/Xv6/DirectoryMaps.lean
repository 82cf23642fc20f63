import Xv6.MkfsLookup

/-!
# Directories as maps

A directory is a file of 16-byte entries, and its names are strings of at most 14
characters: longer ones are cut off, wherever they come from.  `dirlink` and the clearing
of an entry in `sys_unlink` keep the first two entries, which are those for `.` and `..`,
and keep the names apart, so that a directory behaves as a map from names to inode numbers.
-/

namespace Xv6.Directories

open Blocks
open Mkfs (HostFile dirent rootEntries roundedSize)
open LabelledRuns (run)

/-! ## Names -/

/-- The characters at a pointer, up to the NUL and not more than `n`. -/
def spelled : Nat → CharPtr → List UInt8
  | 0, _ => []
  | n + 1, p => if p 0 = 0 then [] else p 0 :: spelled n fun k => p (k + 1)

/-- Two strings are the same for `strncmp` when they agree up to the bound. -/
theorem strncmp_eq_zero_iff_spelled (n : Nat) (p q : CharPtr) :
    strncmp p q n = 0 ↔ spelled n p = spelled n q := by
  induction n generalizing p q with
  | zero => simp [strncmp, spelled]
  | succ n ih =>
      rw [strncmp, spelled, spelled]
      by_cases endP : p 0 = 0
      · by_cases endQ : q 0 = 0
        · simp [endP, endQ]
        · have positive : (q 0).toNat ≠ 0 := fun zero => endQ (UInt8.toNat_inj.mp zero)
          simp only [endP, endQ, ne_eq, not_true_eq_false, false_and, if_false, if_true]
          refine iff_of_false ?_ (List.cons_ne_nil _ _).symm
          change ((0 : Int) - (q 0).toNat) ≠ 0
          omega
      · by_cases same : p 0 = q 0
        · rw [if_pos ⟨endP, same⟩, if_neg endP, if_neg (same ▸ endP), ih, same]
          simp
        · have differ : (p 0).toNat ≠ (q 0).toNat := fun equal => same (UInt8.toNat_inj.mp equal)
          rw [if_neg fun both => same both.2, if_neg endP]
          refine iff_of_false (by omega) ?_
          split
          · exact List.cons_ne_nil _ _
          · exact fun equal => same (List.cons.inj equal).1

/-- The bytes that `strncpy` writes: the string, and NULs up to the bound. -/
def strncpy : CharPtr → Nat → List UInt8
  | _, 0 => []
  | t, n + 1 => if t 0 ≠ 0 then t 0 :: strncpy (fun k => t (k + 1)) n else List.replicate (n + 1) 0

/-- A copied string is the same up to the bound, whatever stands behind it. -/
theorem spelled_strncpy (t p : CharPtr) (n : Nat) (copied : ∀ k < n, p k = (strncpy t n).getD k 0) :
    spelled n p = spelled n t := by
  induction n generalizing t p with
  | zero => rfl
  | succ n ih =>
      have first := copied 0 (Nat.succ_pos n)
      rw [strncpy] at first copied
      rw [spelled, spelled]
      by_cases ends : t 0 = 0
      · rw [if_neg (not_not.mpr ends)] at first
        have isEnd : p 0 = 0 := by simpa using first
        rw [if_pos isEnd, if_pos ends]
      · rw [if_pos ends] at first copied
        rw [List.getD_cons_zero] at first
        rw [first, if_neg ends, if_neg ends,
          ih (fun k => t (k + 1)) (fun k => p (k + 1)) fun k inside => ?_]
        rw [copied (k + 1) (Nat.succ_lt_succ inside), List.getD_cons_succ]

/-! ## Directories -/

/-- The bytes of a `struct dirent`. -/
abbrev Slot := List UInt8

/-- The name in an entry. -/
def nameOf (de : Slot) : List UInt8 :=
  spelled dirsiz (direntName de)

/-- The loop of `dirlookup`: the inode number, and the offset of the entry. -/
def dirlookupFrom (name : CharPtr) : Nat → List Slot → Option (Nat × Nat)
  | _, [] => none
  | off, de :: rest =>
      if direntInum de = 0 then dirlookupFrom name (off + 16) rest
      else if namecmp name (direntName de) = 0 then some (direntInum de, off)
      else dirlookupFrom name (off + 16) rest

/-- `dirlookup` -/
def dirlookup (dp : List Slot) (name : CharPtr) : Option (Nat × Nat) :=
  dirlookupFrom name 0 dp

/-- The loop of `dirlink`: the offset of the first empty entry, or the end. -/
def emptyFrom : Nat → List Slot → Nat
  | off, [] => off
  | off, de :: rest => if direntInum de = 0 then off else emptyFrom (off + 16) rest

/-- `writei` of an entry; it fails where the file would get too large. -/
def writeSlot (dp : List Slot) (off : Nat) (de : Slot) : Option (List Slot) :=
  if maxfile * bsize < off + 16 then none
  else some (if off < 16 * dp.length then dp.set (off / 16) de else dp ++ [de])

/-- The entry that `dirlink` writes; the field for the inode number has 16 bits. -/
def newSlot (inum : Nat) (name : CharPtr) : Slot :=
  [UInt8.ofNat inum, UInt8.ofNat (inum / 256)] ++ strncpy name dirsiz

/-- `dirlink`: the result and the directory, or the panic when the entry is not written. -/
def dirlink (dp : List Slot) (name : CharPtr) (inum : Nat) : Option (Int × List Slot) :=
  match dirlookup dp name with
  | some _ => some (-1, dp)
  | none => (writeSlot dp (emptyFrom 0 dp) (newSlot inum name)).map fun dp => (0, dp)

/-- `isdirempty` -/
def isdirempty (dp : List Slot) : Bool :=
  (dp.drop 2).all fun de => direntInum de = 0

/-- What `sys_unlink` does to the directory; `full` says of which inodes it finds that they
are directories with entries. -/
def unlink (dp : List Slot) (name : CharPtr) (full : Nat → Bool) : Option (Int × List Slot) :=
  if namecmp name (cstr ['.'.toUInt8]) = 0 ∨ namecmp name (cstr ['.'.toUInt8, '.'.toUInt8]) = 0 then
    some (-1, dp)
  else
    match dirlookup dp name with
    | none => some (-1, dp)
    | some (inum, off) =>
        if full inum then some (-1, dp)
        else (writeSlot dp off (List.replicate 16 0)).map fun dp => (0, dp)

/-- Two strings have the same name. -/
theorem namecmp_eq_zero_iff (s t : CharPtr) :
    namecmp s t = 0 ↔ spelled dirsiz s = spelled dirsiz t :=
  strncmp_eq_zero_iff_spelled dirsiz s t

theorem direntInum_newSlot {inum : Nat} (small : inum < 2 ^ 16) (name : CharPtr) :
    direntInum (newSlot inum name) = inum := by
  have low : (UInt8.ofNat inum).toNat = inum % 256 := UInt8.toNat_ofNat'
  have high : (UInt8.ofNat (inum / 256)).toNat = inum / 256 % 256 := UInt8.toNat_ofNat'
  change (UInt8.ofNat inum).toNat + 256 * (UInt8.ofNat (inum / 256)).toNat = inum
  rw [low, high]
  omega

theorem nameOf_newSlot (inum : Nat) (name : CharPtr) :
    nameOf (newSlot inum name) = spelled dirsiz name := by
  refine spelled_strncpy name _ dirsiz fun k _ => ?_
  rw [direntName, newSlot, Nat.add_comm]
  rfl

theorem direntInum_cleared : direntInum (List.replicate 16 0) = 0 :=
  rfl

section Lookup

variable {dp : List Slot} {de : Slot} {name other : CharPtr} {off inum place : Nat}

/-- An entry that is in use and has the name. -/
def Names (de : Slot) (name : CharPtr) : Prop :=
  direntInum de ≠ 0 ∧ nameOf de = spelled dirsiz name

instance (de : Slot) (name : CharPtr) : Decidable (Names de name) :=
  inferInstanceAs (Decidable (_ ∧ _))

theorem dirlookupFrom_cons :
    dirlookupFrom name off (de :: dp) =
      if Names de name then some (direntInum de, off) else dirlookupFrom name (off + 16) dp := by
  rw [dirlookupFrom]
  by_cases empty : direntInum de = 0
  · rw [if_pos empty, if_neg fun names => names.1 empty]
  · rw [if_neg empty]
    refine if_congr ?_ rfl rfl
    rw [namecmp_eq_zero_iff]
    exact ⟨fun same => ⟨empty, same.symm⟩, fun names => names.2.symm⟩

theorem dirlookupFrom_eq_none :
    dirlookupFrom name off dp = none ↔ ∀ de ∈ dp, ¬Names de name := by
  induction dp generalizing off with
  | nil => simp [dirlookupFrom]
  | cons de dp ih =>
      rw [dirlookupFrom_cons, List.forall_mem_cons]
      by_cases names : Names de name
      · simp [names]
      · rw [if_neg names, ih]
        exact ⟨fun rest => ⟨names, rest⟩, fun both => both.2⟩

theorem dirlookupFrom_eq_some (found : dirlookupFrom name off dp = some (inum, place)) :
    ∃ k, place = off + 16 * k ∧ ∃ de, dp[k]? = some de ∧ Names de name ∧ direntInum de = inum := by
  induction dp generalizing off with
  | nil => cases found
  | cons de dp ih =>
      rw [dirlookupFrom_cons] at found
      by_cases names : Names de name
      · rw [if_pos names, Option.some.injEq, Prod.mk.injEq] at found
        exact ⟨0, found.2.symm, de, rfl, names, found.1⟩
      · rw [if_neg names] at found
        obtain ⟨k, isPlace, de', here, facts⟩ := ih found
        exact ⟨k + 1, by omega, de', here, facts⟩

/-- The directory in which an entry has been put into the first empty slot. -/
def inserted (de : Slot) : List Slot → List Slot
  | [] => [de]
  | slot :: rest => if direntInum slot = 0 then de :: rest else slot :: inserted de rest

theorem mem_inserted {slot : Slot} (member : slot ∈ inserted de dp) : slot = de ∨ slot ∈ dp := by
  induction dp with
  | nil => exact Or.inl (List.mem_singleton.mp member)
  | cons first rest ih =>
      rw [inserted] at member
      split at member
      · exact (List.mem_cons.mp member).imp_right (List.mem_cons_of_mem first)
      · rcases List.mem_cons.mp member with rfl | later
        · exact Or.inr List.mem_cons_self
        · exact (ih later).imp_right (List.mem_cons_of_mem first)

/-- The directory grows only when all entries are in use. -/
theorem length_inserted (de : Slot) (dp : List Slot) : (inserted de dp).length = dp.length ∨
    (inserted de dp).length = dp.length + 1 ∧ ∀ slot ∈ dp, direntInum slot ≠ 0 := by
  induction dp with
  | nil => exact Or.inr ⟨rfl, by simp⟩
  | cons slot rest ih =>
      rw [inserted]
      by_cases empty : direntInum slot = 0
      · rw [if_pos empty]
        exact Or.inl rfl
      · rw [if_neg empty, List.length_cons, List.length_cons, List.forall_mem_cons]
        exact ih.imp (congrArg Nat.succ) fun grown => ⟨congrArg Nat.succ grown.1, empty, grown.2⟩

/-- `dirlink` writes the entry into the first empty slot or behind the last one. -/
theorem writeSlot_emptyFrom (before : List Slot) :
    writeSlot (before ++ dp) (emptyFrom (16 * before.length) dp) de =
      if maxfile * bsize < emptyFrom (16 * before.length) dp + 16 then none
      else some (before ++ inserted de dp) := by
  rw [writeSlot]
  refine if_congr Iff.rfl rfl (congrArg some ?_)
  induction dp generalizing before with
  | nil =>
      rw [emptyFrom, List.append_nil, if_neg (lt_irrefl _)]
      rfl
  | cons slot rest ih =>
      rw [emptyFrom, inserted]
      by_cases empty : direntInum slot = 0
      · have inside : 16 * before.length < 16 * (before ++ slot :: rest).length := by
          rw [List.length_append, List.length_cons]
          omega
        rw [if_pos empty, if_pos empty, if_pos inside, Nat.mul_div_cancel_left _ (by decide),
          List.set_append_right _ _ le_rfl, Nat.sub_self, List.set_cons_zero]
      · have next : 16 * before.length + 16 = 16 * (before ++ [slot]).length := by
          rw [List.length_append, List.length_singleton]
          omega
        have moved := ih (before ++ [slot])
        rw [← next] at moved
        rw [if_neg empty, if_neg empty]
        simpa using moved

/-- The offset is that of an entry, and behind the last one only if all are in use. -/
theorem emptyFrom_eq (dp : List Slot) (off : Nat) :
    ∃ k ≤ dp.length, emptyFrom off dp = off + 16 * k ∧
      (k = dp.length ↔ ∀ de ∈ dp, direntInum de ≠ 0) := by
  induction dp generalizing off with
  | nil => exact ⟨0, le_rfl, rfl, by simp⟩
  | cons slot rest ih =>
      rw [emptyFrom, List.length_cons, List.forall_mem_cons]
      by_cases empty : direntInum slot = 0
      · rw [if_pos empty]
        exact ⟨0, Nat.zero_le _, rfl, iff_of_false (by omega) fun all => all.1 empty⟩
      · obtain ⟨k, bound, place, full⟩ := ih (off + 16)
        rw [if_neg empty, place]
        refine ⟨k + 1, by omega, by omega, ?_⟩
        rw [Nat.add_right_cancel_iff, full]
        exact ⟨fun all => ⟨empty, all⟩, fun all => all.2⟩

/-- The lookup of another name is as it was. -/
theorem dirlookupFrom_inserted_of_not (differ : ¬Names de other) :
    dirlookupFrom other off (inserted de dp) = dirlookupFrom other off dp := by
  induction dp generalizing off with
  | nil =>
      rw [inserted, dirlookupFrom_cons, if_neg differ]
      rfl
  | cons slot rest ih =>
      rw [inserted]
      split
      · next empty =>
          rw [dirlookupFrom_cons, dirlookupFrom_cons, if_neg differ,
            if_neg fun names : Names slot other => names.1 empty]
      · rw [dirlookupFrom_cons, dirlookupFrom_cons, ih]

/-- The lookup of the new name finds the new entry. -/
theorem dirlookupFrom_inserted (names : Names de name) (new : dirlookupFrom name off dp = none) :
    (dirlookupFrom name off (inserted de dp)).map Prod.fst = some (direntInum de) := by
  induction dp generalizing off with
  | nil =>
      rw [inserted, dirlookupFrom_cons, if_pos names]
      rfl
  | cons slot rest ih =>
      rw [dirlookupFrom_cons] at new
      by_cases here : Names slot name
      · simp [here] at new
      · rw [if_neg here] at new
        rw [inserted]
        split
        · rw [dirlookupFrom_cons, if_pos names]
          rfl
        · rw [dirlookupFrom_cons, if_neg here]
          exact ih new

/-- When an entry is cleared, the lookup of names that it does not have is as it was. -/
theorem dirlookupFrom_set {k : Nat} {slot : Slot} (here : dp[k]? = some slot)
    (differ : ¬Names slot other) (empty : direntInum de = 0) :
    dirlookupFrom other off (dp.set k de) = dirlookupFrom other off dp := by
  have cleared : ¬Names de other := fun names => names.1 empty
  induction dp generalizing k off with
  | nil => rfl
  | cons first rest ih =>
      cases k with
      | zero =>
          cases here
          rw [List.set_cons_zero, dirlookupFrom_cons, dirlookupFrom_cons, if_neg differ,
            if_neg cleared]
      | succ k =>
          rw [List.set_cons_succ, dirlookupFrom_cons, dirlookupFrom_cons, ih here]

end Lookup

/-! ## What holds of a directory -/

/-- Two entries that are in use have different names. -/
def Differ (a b : Slot) : Prop :=
  direntInum a ≠ 0 → direntInum b ≠ 0 → nameOf a ≠ nameOf b

/-- The name `.` -/
abbrev dot : List UInt8 :=
  ['.'.toUInt8]

/-- The name `..` -/
abbrev dotdot : List UInt8 :=
  ['.'.toUInt8, '.'.toUInt8]

/-- The first two entries are `.` and `..`, no two entries in use have one name, and the
directory is not larger than a file may be. -/
structure DirOk (dp : List Slot) : Prop where
  dots : ∃ first second rest, dp = first :: second :: rest ∧
    direntInum first ≠ 0 ∧ nameOf first = dot ∧ direntInum second ≠ 0 ∧ nameOf second = dotdot
  distinct : dp.Pairwise Differ
  fits : 16 * dp.length ≤ maxfile * bsize

section DirOk

variable {dp : List Slot} {de : Slot} {name other : CharPtr} {inum off : Nat}

theorem inserted_distinct (distinct : dp.Pairwise Differ)
    (new : ∀ slot ∈ dp, direntInum slot ≠ 0 → nameOf slot ≠ nameOf de) :
    (inserted de dp).Pairwise Differ := by
  induction dp with
  | nil => exact List.pairwise_singleton _ de
  | cons slot rest ih =>
      obtain ⟨first, distinct⟩ := List.pairwise_cons.mp distinct
      rw [List.forall_mem_cons] at new
      rw [inserted]
      split
      · refine List.pairwise_cons.mpr ⟨fun other member used used' same => ?_, distinct⟩
        exact new.2 other member used' same.symm
      · next used =>
          refine List.pairwise_cons.mpr ⟨fun other member => ?_, ih distinct new.2⟩
          rcases mem_inserted member with rfl | later
          · exact fun used _ => new.1 used
          · exact first other later

theorem set_distinct {k : Nat} (distinct : dp.Pairwise Differ) (empty : direntInum de = 0) :
    (dp.set k de).Pairwise Differ := by
  induction dp generalizing k with
  | nil => exact List.Pairwise.nil
  | cons slot rest ih =>
      obtain ⟨first, distinct⟩ := List.pairwise_cons.mp distinct
      cases k with
      | zero => exact List.pairwise_cons.mpr ⟨fun _ _ used => absurd empty used, distinct⟩
      | succ k =>
          refine List.pairwise_cons.mpr ⟨fun other member => ?_, ih distinct⟩
          rcases List.mem_or_eq_of_mem_set member with old | rfl
          · exact first other old
          · exact fun _ used => absurd empty used

/-- A directory that has room gets the entry and is as it was otherwise. -/
theorem DirOk.inserted (ok : DirOk dp) (new : dirlookup dp name = none)
    (isName : nameOf de = spelled dirsiz name)
    (fits : 16 * (Directories.inserted de dp).length ≤ maxfile * bsize) :
    DirOk (Directories.inserted de dp) ∧ (Directories.inserted de dp).take 2 = dp.take 2 := by
  have absent := dirlookupFrom_eq_none.mp new
  obtain ⟨first, second, rest, rfl, used, isDot, used', isDotdot⟩ := ok.dots
  have kept : Directories.inserted de (first :: second :: rest) =
      first :: second :: Directories.inserted de rest := by
    rw [Directories.inserted, if_neg used, Directories.inserted, if_neg used']
  refine ⟨⟨⟨first, second, _, kept, used, isDot, used', isDotdot⟩, ?_, fits⟩, ?_⟩
  · refine inserted_distinct ok.distinct fun slot member inUse same => ?_
    exact absent slot member ⟨inUse, same.trans isName⟩
  · rw [kept]
    rfl

/-- Clearing an entry with another name than `.` and `..`. -/
theorem DirOk.cleared {k : Nat} {slot : Slot} (ok : DirOk dp) (here : dp[k]? = some slot)
    (notDot : nameOf slot ≠ dot) (notDotdot : nameOf slot ≠ dotdot) (empty : direntInum de = 0) :
    DirOk (dp.set k de) ∧ (dp.set k de).take 2 = dp.take 2 := by
  obtain ⟨first, second, rest, rfl, used, isDot, used', isDotdot⟩ := ok.dots
  have distinct := set_distinct (k := k) ok.distinct empty
  have fits := ok.fits
  match k, here with
  | 0, here =>
      cases here
      exact absurd isDot notDot
  | 1, here =>
      cases here
      exact absurd isDotdot notDotdot
  | k + 2, _ =>
      refine ⟨⟨⟨first, second, rest.set k de, rfl, used, isDot, used', isDotdot⟩, distinct, ?_⟩,
        rfl⟩
      rwa [List.length_set]

/-! ## The laws of a map -/

/-- What `dirlink` does: it fails exactly on a name that is there, and otherwise the name is
there afterwards, and every other name is as it was.  Where it panics the name is new, all
entries are in use and the file cannot grow. -/
structure LinkLaw (dp : List Slot) (name : CharPtr) (inum : Nat) : Prop where
  present : dirlink dp name inum = some (-1, dp) ↔ (dirlookup dp name).isSome
  added : ∀ r dp', dirlink dp name inum = some (r, dp') → r ≠ -1 → r = 0 ∧
    ∀ other, if spelled dirsiz other = spelled dirsiz name
      then (dirlookup dp' other).map Prod.fst = some inum
      else dirlookup dp' other = dirlookup dp other
  full : dirlink dp name inum = none ↔ dirlookup dp name = none ∧
    (∀ de ∈ dp, direntInum de ≠ 0) ∧ 16 * dp.length = maxfile * bsize

theorem dirlink_eq (new : dirlookup dp name = none) :
    dirlink dp name inum =
      if maxfile * bsize < emptyFrom 0 dp + 16 then none
      else some (0, inserted (newSlot inum name) dp) := by
  have written : writeSlot dp (emptyFrom 0 dp) (newSlot inum name) =
      if maxfile * bsize < emptyFrom 0 dp + 16 then none
      else some (inserted (newSlot inum name) dp) := writeSlot_emptyFrom []
  rw [dirlink, new]
  simp only [written]
  split <;> rfl

theorem names_newSlot (low : 0 < inum) (high : inum < 2 ^ 16) :
    Names (newSlot inum name) other ↔ spelled dirsiz other = spelled dirsiz name := by
  rw [Names, direntInum_newSlot high, nameOf_newSlot]
  exact ⟨fun names => names.2.symm, fun same => ⟨low.ne', same.symm⟩⟩

/-- The lookups of two strings with one name are the same. -/
theorem dirlookup_none_of_same (same : spelled dirsiz other = spelled dirsiz name)
    (new : dirlookup dp name = none) : dirlookup dp other = none := by
  refine dirlookupFrom_eq_none.mpr fun de member names => ?_
  exact dirlookupFrom_eq_none.mp new de member ⟨names.1, names.2.trans same⟩

theorem DirOk.linkLaw (ok : DirOk dp) (low : 0 < inum) (high : inum < 2 ^ 16) :
    LinkLaw dp name inum := by
  have fits := ok.fits
  have limit : maxfile * bsize = 16 * 4480 := rfl
  obtain ⟨k, bound, place, all⟩ := emptyFrom_eq dp 0
  cases lookup : dirlookup dp name with
  | some entry =>
      have fails : dirlink dp name inum = some (-1, dp) := by rw [dirlink, lookup]
      refine ⟨by simp [fails, lookup], fun r dp' linked failed => ?_, by simp [fails, lookup]⟩
      rw [fails] at linked
      cases linked
      exact absurd rfl failed
  | none =>
      have linked : dirlink dp name inum = _ := dirlink_eq lookup
      by_cases full : maxfile * bsize < emptyFrom 0 dp + 16
      · rw [if_pos full] at linked
        have isLast : k = dp.length := by omega
        refine ⟨by simp [linked, lookup], fun r dp' ended => ?_, ?_⟩
        · rw [linked] at ended
          cases ended
        · exact iff_of_true linked ⟨lookup, all.mp isLast, by omega⟩
      · rw [if_neg full] at linked
        refine ⟨by simp [linked, lookup], fun r dp' ended _ => ?_, ?_⟩
        · rw [linked] at ended
          cases ended
          refine ⟨rfl, fun other => ?_⟩
          split
          · next same =>
              have found := dirlookupFrom_inserted ((names_newSlot low high).mpr same)
                (dirlookup_none_of_same same lookup)
              rwa [direntInum_newSlot high] at found
          · next differ =>
              have apart : ¬Names (newSlot inum name) other := fun names =>
                differ ((names_newSlot low high).mp names)
              exact dirlookupFrom_inserted_of_not apart
        · refine iff_of_false (by simp [linked]) ?_
          rintro ⟨-, used, whole⟩
          have isLast := all.mpr used
          omega

/-- `dirlink` keeps the directory in order. -/
theorem DirOk.dirlink_ok {r : Int} {dp' : List Slot} (ok : DirOk dp)
    (linked : dirlink dp name inum = some (r, dp')) : DirOk dp' ∧ dp'.take 2 = dp.take 2 := by
  cases lookup : dirlookup dp name with
  | some entry =>
      rw [dirlink, lookup] at linked
      cases linked
      exact ⟨ok, rfl⟩
  | none =>
      rw [dirlink_eq lookup] at linked
      obtain ⟨k, bound, place, all⟩ := emptyFrom_eq dp 0
      have fits := ok.fits
      split at linked
      · cases linked
      · cases linked
        refine ok.inserted lookup (nameOf_newSlot inum name) ?_
        rcases length_inserted (newSlot inum name) dp with same | ⟨grown, used⟩
        · rwa [same]
        · have isLast := all.mpr used
          omega

/-- `isdirempty` finds out whether there is a name besides `.` and `..`. -/
theorem DirOk.isdirempty_iff (ok : DirOk dp) :
    isdirempty dp = true ↔ ∀ name, (dirlookup dp name).isSome →
      spelled dirsiz name = dot ∨ spelled dirsiz name = dotdot := by
  have distinct := ok.distinct
  obtain ⟨first, second, rest, rfl, used, isDot, used', isDotdot⟩ := ok.dots
  have isEmpty : isdirempty (first :: second :: rest) = true ↔ ∀ de ∈ rest, direntInum de = 0 := by
    simp [isdirempty]
  rw [isEmpty]
  constructor
  · intro empty name found
    obtain ⟨⟨inum, place⟩, found⟩ := Option.isSome_iff_exists.mp found
    obtain ⟨k, -, de, here, names, -⟩ := dirlookupFrom_eq_some found
    rcases List.mem_cons.mp (List.mem_of_getElem? here) with rfl | later
    · exact Or.inl (names.2.symm.trans isDot)
    · rcases List.mem_cons.mp later with rfl | last
      · exact Or.inr (names.2.symm.trans isDotdot)
      · exact absurd (empty de last) names.1
  · intro only de member
    by_contra inUse
    have found : (dirlookup (first :: second :: rest) (direntName de)).isSome := by
      rw [Option.isSome_iff_ne_none]
      intro none
      exact dirlookupFrom_eq_none.mp none de (by simp [member]) ⟨inUse, rfl⟩
    obtain ⟨apart, distinct⟩ := List.pairwise_cons.mp distinct
    have apart' := (List.pairwise_cons.mp distinct).1
    rcases only (direntName de) found with same | same
    · exact apart de (List.mem_cons_of_mem _ member) used inUse (isDot.trans same.symm)
    · exact apart' de member used' inUse (isDotdot.trans same.symm)

/-- What the clearing of an entry does: it is refused for `.` and `..`, for a name that is not
there and for a directory with entries, and otherwise the name is gone and every other name
is as it was. -/
structure UnlinkLaw (dp : List Slot) (name : CharPtr) (full : Nat → Bool) : Prop where
  returns : ∃ r dp', unlink dp name full = some (r, dp')
  refused : unlink dp name full = some (-1, dp) ↔
    spelled dirsiz name = dot ∨ spelled dirsiz name = dotdot ∨
      ∀ inum place, dirlookup dp name = some (inum, place) → full inum = true
  cleared : ∀ r dp', unlink dp name full = some (r, dp') → r ≠ -1 → r = 0 ∧
    ∀ other, dirlookup dp' other =
      if spelled dirsiz other = spelled dirsiz name then none else dirlookup dp other

/-- What `unlink` comes to. -/
theorem DirOk.unlink_cases (ok : DirOk dp) (name : CharPtr) (full : Nat → Bool) :
    (unlink dp name full = some (-1, dp) ∧
      (spelled dirsiz name = dot ∨ spelled dirsiz name = dotdot ∨
        ∀ inum place, dirlookup dp name = some (inum, place) → full inum = true)) ∨
    ∃ k slot inum place, unlink dp name full = some (0, dp.set k (List.replicate 16 0)) ∧
      spelled dirsiz name ≠ dot ∧ spelled dirsiz name ≠ dotdot ∧
      dirlookup dp name = some (inum, place) ∧ full inum = false ∧
      dp[k]? = some slot ∧ Names slot name := by
  have refuses : (namecmp name (cstr ['.'.toUInt8]) = 0 ∨
      namecmp name (cstr ['.'.toUInt8, '.'.toUInt8]) = 0) ↔
      spelled dirsiz name = dot ∨ spelled dirsiz name = dotdot :=
    or_congr (namecmp_eq_zero_iff name _) (namecmp_eq_zero_iff name _)
  rw [unlink]
  by_cases dots : spelled dirsiz name = dot ∨ spelled dirsiz name = dotdot
  · rw [if_pos (refuses.mpr dots)]
    exact Or.inl ⟨rfl, dots.imp_right Or.inl⟩
  · rw [if_neg fun same => dots (refuses.mp same)]
    obtain ⟨notDot, notDotdot⟩ := not_or.mp dots
    cases lookup : dirlookup dp name with
    | none => exact Or.inl ⟨rfl, Or.inr (Or.inr nofun)⟩
    | some entry =>
        obtain ⟨inum, place⟩ := entry
        by_cases isFull : full inum = true
        · refine Or.inl ⟨by simp [isFull], Or.inr (Or.inr fun inum' place' same => ?_)⟩
          cases same
          exact isFull
        · obtain ⟨k, isPlace, slot, here, names, -⟩ := dirlookupFrom_eq_some lookup
          obtain ⟨inside, -⟩ := List.getElem?_eq_some_iff.mp here
          have fits := ok.fits
          refine Or.inr ⟨k, slot, inum, place, ?_, notDot, notDotdot, rfl, by simpa using isFull,
            here, names⟩
          have room : ¬maxfile * bsize < place + 16 := by omega
          have isSlot : place / 16 = k := by omega
          have inSize : place < 16 * dp.length := by omega
          simp only [if_neg isFull, writeSlot, if_neg room, if_pos inSize, isSlot, Option.map_some]

theorem DirOk.unlink_ok {full : Nat → Bool} {r : Int} {dp' : List Slot} (ok : DirOk dp)
    (ended : unlink dp name full = some (r, dp')) : DirOk dp' ∧ dp'.take 2 = dp.take 2 := by
  rcases ok.unlink_cases name full with
    ⟨refused, -⟩ | ⟨k, slot, inum, place, done, notDot, notDotdot, -, -, here, names⟩
  · rw [refused] at ended
    cases ended
    exact ⟨ok, rfl⟩
  · rw [done] at ended
    cases ended
    exact ok.cleared here (names.2.trans_ne notDot) (names.2.trans_ne notDotdot) direntInum_cleared

/-- A name has one entry. -/
theorem place_unique {j k : Nat} {a b : Slot} (distinct : dp.Pairwise Differ)
    (first : dp[j]? = some a) (second : dp[k]? = some b) (used : direntInum a ≠ 0)
    (used' : direntInum b ≠ 0) (same : nameOf a = nameOf b) : j = k := by
  obtain ⟨insideJ, isA⟩ := List.getElem?_eq_some_iff.mp first
  obtain ⟨insideK, isB⟩ := List.getElem?_eq_some_iff.mp second
  rw [List.pairwise_iff_getElem] at distinct
  subst isA isB
  rcases Nat.lt_trichotomy j k with before | equal | behind
  · exact absurd same (distinct j k insideJ insideK before used used')
  · exact equal
  · exact absurd same.symm (distinct k j insideK insideJ behind used' used)

theorem DirOk.unlinkLaw (ok : DirOk dp) (full : Nat → Bool) : UnlinkLaw dp name full := by
  rcases ok.unlink_cases name full with
    ⟨refused, why⟩ | ⟨k, slot, inum, place, done, notDot, notDotdot, lookup, notFull, here, names⟩
  · refine ⟨⟨_, _, refused⟩, iff_of_true refused why, fun r dp' ended failed => ?_⟩
    rw [refused] at ended
    cases ended
    exact absurd rfl failed
  · refine ⟨⟨_, _, done⟩, iff_of_false (by simp [done]) ?_, fun r dp' ended _ => ?_⟩
    · rintro (isDot | isDotdot | isFull)
      · exact notDot isDot
      · exact notDotdot isDotdot
      · rw [isFull inum place lookup] at notFull
        cases notFull
    · rw [done] at ended
      cases ended
      refine ⟨rfl, fun other => ?_⟩
      split
      · next same =>
          -- no other entry has the name, and the cleared one is not in use
          refine dirlookupFrom_eq_none.mpr fun de member names' => ?_
          obtain ⟨j, there⟩ := List.getElem?_of_mem member
          rw [List.getElem?_set] at there
          split at there
          · split at there
            · cases there
              exact names'.1 direntInum_cleared
            · cases there
          · next elsewhere =>
              have sameName := names.2.trans (same.symm.trans names'.2.symm)
              exact elsewhere (place_unique ok.distinct here there names.1 names'.1 sameName)
      · next differ =>
          refine dirlookupFrom_set here (fun names' => differ ?_) direntInum_cleared
          exact names'.2.symm.trans names.2

end DirOk

/-! ## New directories -/

theorem spelled_congr {n : Nat} {p q : CharPtr} (same : ∀ k < n, p k = q k) :
    spelled n p = spelled n q := by
  induction n generalizing p q with
  | zero => rfl
  | succ n ih =>
      rw [spelled, spelled, same 0 (Nat.succ_pos n),
        ih fun k inside => same (k + 1) (Nat.succ_lt_succ inside)]

theorem spelled_cstr {text : List UInt8} (n : Nat) (clean : 0 ∉ text) :
    spelled n (cstr text) = text.take n := by
  induction n generalizing text with
  | zero => rfl
  | succ n ih =>
      cases text with
      | nil => rfl
      | cons c text =>
          rw [List.mem_cons, not_or] at clean
          have nonzero : cstr (c :: text) 0 ≠ 0 := fun zero => clean.1 zero.symm
          rw [spelled, if_neg nonzero, List.take_succ_cons, ← ih clean.2]
          rfl

theorem nameOf_dirent (inum : Nat) {text : List UInt8} (clean : 0 ∉ text) :
    nameOf (dirent inum text) = text.take dirsiz := by
  rw [← spelled_cstr dirsiz clean]
  refine spelled_congr fun k inside => ?_
  have skip : (dirent inum text).getD (2 + k) 0 =
      ((List.range dirsiz).map fun k => text.getD k 0).getD k 0 := by
    rw [dirent, Nat.add_comm]
    rfl
  rw [direntName, skip, List.getD_eq_getElem?_getD, List.getElem?_map, List.getElem?_range inside]
  rfl

/-- The entries of the root directory that `mkfs` makes: its own, those of the files, and
empty ones up to the end of the last block. -/
def rootSlots (files : List HostFile) : List Slot :=
  (rootEntries files).map (fun entry => dirent entry.1 entry.2) ++
    List.replicate (roundedSize (16 * (files.length + 2)) / 16 - (files.length + 2))
      (List.replicate 16 0)

/-- These are the bytes that the image has for the root directory. -/
theorem rootSlots_flatten (files : List HostFile) :
    ∃ zeros, (rootSlots files).flatten = Mkfs.finalBytes files rootino ++ zeros := by
  rw [rootSlots, List.flatten_append, Mkfs.finalBytes_root, Mkfs.direntsOf, List.flatMap_def]
  exact ⟨_, rfl⟩

theorem numbered_names (next : Nat) (files : List HostFile) :
    (Mkfs.numbered next files).map (fun entry => entry.2.take dirsiz) =
      files.map HostFile.entryName := by
  induction files generalizing next with
  | nil => rfl
  | cons file rest ih => rw [Mkfs.numbered, List.map_cons, List.map_cons, ih, HostFile.entryName]

theorem rootSlots_ok {files : List HostFile} (room : files.length + 2 ≤ Mkfs.ninodes)
    (distinct : (files.map HostFile.entryName).Nodup)
    (notDots : ∀ file ∈ files, Mkfs.NotDots file) : DirOk (rootSlots files) := by
  have entered := Mkfs.entered_rootEntries room
  refine ⟨⟨_, _, _, rfl, by decide, by decide, by decide, by decide⟩, ?_, ?_⟩
  · refine List.pairwise_append.mpr ⟨List.pairwise_map.mpr ?_, ?_, fun a _ b second _ used => ?_⟩
    · have names : ((rootEntries files).map fun entry => entry.2.take dirsiz).Nodup := by
        have names := numbered_names 2 files
        have entries : (rootEntries files).map (fun entry => entry.2.take dirsiz) =
            dot :: dotdot :: files.map HostFile.entryName := by
          rw [rootEntries, List.map_cons, List.map_cons, names]
          rfl
        rw [entries, List.nodup_cons, List.nodup_cons, List.mem_cons, not_or]
        refine ⟨⟨by decide, fun member => ?_⟩, fun member => ?_, distinct⟩
        · obtain ⟨file, inside, same⟩ := List.mem_map.mp member
          exact (notDots file inside).1 same
        · obtain ⟨file, inside, same⟩ := List.mem_map.mp member
          exact (notDots file inside).2 same
      refine (List.pairwise_map.mp names).imp_of_mem fun {a b} first second differ _ _ => ?_
      rwa [nameOf_dirent a.1 (entered a first).2.2, nameOf_dirent b.1 (entered b second).2.2]
    · exact List.pairwise_replicate.mpr (Or.inr fun used => absurd direntInum_cleared used)
    · rw [List.eq_of_mem_replicate second] at used
      exact absurd direntInum_cleared used
  · have few : files.length + 2 ≤ 200 := room
    have count : (rootEntries files).length = files.length + 2 := by
      have names := congrArg List.length (numbered_names 2 files)
      rw [List.length_map, List.length_map] at names
      rw [rootEntries, List.length_cons, List.length_cons, names]
    have rounded : roundedSize (16 * (files.length + 2)) =
        (16 * (files.length + 2) / 512 + 1) * 512 := rfl
    have limit : maxfile * bsize = 71680 := rfl
    rw [rootSlots, List.length_append, List.length_map, List.length_replicate, count]
    omega

/-- The directories that `create` and `mkfs` make. -/
inductive Made : List Slot → Prop
  | create {inum parent : Nat} {first dp : List Slot} (isInum : 0 < inum ∧ inum < 2 ^ 16)
      (isParent : 0 < parent ∧ parent < 2 ^ 16) (one : dirlink [] (cstr dot) inum = some (0, first))
      (two : dirlink first (cstr dotdot) parent = some (0, dp)) : Made dp
  | mkfs {files : List HostFile} {s : Mkfs.State} (done : Mkfs.mkfs files = .ok s)
      (room : files.length + 2 ≤ Mkfs.ninodes)
      (distinct : (files.map HostFile.entryName).Nodup)
      (notDots : ∀ file ∈ files, Mkfs.NotDots file) : Made (rootSlots files)

theorem Made.ok {dp : List Slot} (made : Made dp) : DirOk dp := by
  cases made with
  | @create inum parent first dp isInum isParent one two =>
      have isFirst : first = [newSlot inum (cstr dot)] := (Prod.mk.inj (Option.some.inj one)).2.symm
      subst isFirst
      have apart : ¬Names (newSlot inum (cstr dot)) (cstr dotdot) := fun names =>
        absurd (((names_newSlot isInum.1 isInum.2).mp names)) (by decide)
      have new : dirlookup [newSlot inum (cstr dot)] (cstr dotdot) = none :=
        dirlookupFrom_eq_none.mpr (by simpa using apart)
      have used : direntInum (newSlot inum (cstr dot)) ≠ 0 := by
        rw [direntInum_newSlot isInum.2]
        exact isInum.1.ne'
      have used' : direntInum (newSlot parent (cstr dotdot)) ≠ 0 := by
        rw [direntInum_newSlot isParent.2]
        exact isParent.1.ne'
      have isPair : dp = [newSlot inum (cstr dot), newSlot parent (cstr dotdot)] := by
        rw [dirlink_eq new, if_neg (by rw [emptyFrom, if_neg used]; decide), inserted,
          if_neg used] at two
        exact (Prod.mk.inj (Option.some.inj two)).2.symm
      subst isPair
      have name := nameOf_newSlot inum (cstr dot)
      have name' := nameOf_newSlot parent (cstr dotdot)
      have fits : 16 * 2 ≤ maxfile * bsize := by decide
      refine ⟨⟨_, _, [], rfl, used, name, used', name'⟩, ?_, fits⟩
      refine List.pairwise_pair.mpr fun _ _ => ?_
      rw [name, name']
      decide
  | mkfs done room distinct notDots => exact rootSlots_ok room distinct notDots

/-! ## Runs -/

/-- A call on a directory. -/
inductive Action
  | link (name : CharPtr) (inum : Nat)
  | unlink (name : CharPtr) (full : Nat → Bool)

/-- The directory after the call, if it returns. -/
def step (dp : List Slot) : Action → Option (List Slot)
  | .link name inum => (dirlink dp name inum).map Prod.snd
  | .unlink name full => (unlink dp name full).map Prod.snd

/-- A directory is a map: it starts as it was made, no two of its entries have one name, and
the calls and `isdirempty` treat it as a map. -/
structure MapLaw (start dp : List Slot) : Prop where
  dots : dp.take 2 = start.take 2
  names : ∃ first second rest, dp = first :: second :: rest ∧
    direntInum first ≠ 0 ∧ nameOf first = dot ∧ direntInum second ≠ 0 ∧ nameOf second = dotdot
  distinct : dp.Pairwise Differ
  link : ∀ name inum, 0 < inum → inum < 2 ^ 16 → LinkLaw dp name inum
  unlink : ∀ name full, UnlinkLaw dp name full
  empty : isdirempty dp = true ↔ ∀ name, (dirlookup dp name).isSome →
    spelled dirsiz name = dot ∨ spelled dirsiz name = dotdot

theorem step_ok {dp dp' : List Slot} {action : Action} (ok : DirOk dp)
    (stepped : step dp action = some dp') : DirOk dp' ∧ dp'.take 2 = dp.take 2 := by
  cases action with
  | link name inum =>
      obtain ⟨⟨r, dp'⟩, linked, rfl⟩ := Option.map_eq_some_iff.mp stepped
      exact ok.dirlink_ok linked
  | unlink name full =>
      obtain ⟨⟨r, dp'⟩, ended, rfl⟩ := Option.map_eq_some_iff.mp stepped
      exact ok.unlink_ok ended

/-- **A directory is a map from names of at most 14 bytes.**  It stays one in every run of
`dirlink` and of the clearing of entries, from a directory that `create` or `mkfs` made. -/
theorem runs_mapLaw {start last : List Slot} {actions : List Action} (made : Made start)
    (ran : run step start actions = some last) : MapLaw start last := by
  have kept : DirOk last ∧ last.take 2 = start.take 2 :=
    LabelledRuns.invariant_of_run
      (fun {dp action dp'} (held : DirOk dp ∧ dp.take 2 = start.take 2) stepped => by
        obtain ⟨ok, same⟩ := step_ok held.1 stepped
        exact ⟨ok, same.trans held.2⟩) ⟨made.ok, rfl⟩ ran
  obtain ⟨ok, same⟩ := kept
  exact ⟨same, ok.dots, ok.distinct, fun name inum low high => ok.linkLaw low high,
    fun name full => ok.unlinkLaw full, ok.isdirempty_iff⟩

/-- A new directory 5 in the root directory gets an entry. -/
theorem oneEntry_mapLaw :
    MapLaw [newSlot 5 (cstr dot), newSlot 1 (cstr dotdot)]
      [newSlot 5 (cstr dot), newSlot 1 (cstr dotdot), newSlot 7 (cstr ['a'.toUInt8])] := by
  have one : dirlink [] (cstr dot) 5 = some (0, [newSlot 5 (cstr dot)]) := rfl
  have two : dirlink [newSlot 5 (cstr dot)] (cstr dotdot) 1 =
      some (0, [newSlot 5 (cstr dot), newSlot 1 (cstr dotdot)]) := rfl
  have made : Made [newSlot 5 (cstr dot), newSlot 1 (cstr dotdot)] :=
    .create (by decide) (by decide) one two
  have ran : run step [newSlot 5 (cstr dot), newSlot 1 (cstr dotdot)]
      [.link (cstr ['a'.toUInt8]) 7] = some [newSlot 5 (cstr dot), newSlot 1 (cstr dotdot),
        newSlot 7 (cstr ['a'.toUInt8])] := rfl
  exact runs_mapLaw made ran

/-- `mkfs` does not compare names: given a file twice, it makes two entries of one name. -/
theorem twoFiles_collide :
    (∃ s, Mkfs.mkfs [Mkfs.helloFile, Mkfs.helloFile] = .ok s) ∧
      ¬(rootSlots [Mkfs.helloFile, Mkfs.helloFile]).Pairwise Differ := by
  constructor
  · have room : [Mkfs.helloFile, Mkfs.helloFile].length + 2 ≤ Mkfs.ninodes := by decide
    refine Mkfs.mkfs_ends room (by unfold Mkfs.Named; decide) ?_
    exact Mkfs.fits_of_blocks room (by decide) (by decide)
  · intro distinct
    have third : (rootSlots [Mkfs.helloFile, Mkfs.helloFile])[2]? =
        some (dirent 2 ['a'.toUInt8]) := rfl
    have fourth : (rootSlots [Mkfs.helloFile, Mkfs.helloFile])[3]? =
        some (dirent 3 ['a'.toUInt8]) := rfl
    have same := place_unique distinct third fourth (by decide) (by decide) (by decide)
    exact absurd same (by decide)

end Xv6.Directories
