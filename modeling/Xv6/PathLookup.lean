import Xv6.InodeBlocks

/-!
# Looking up names

`dirlookup` and `namei` over the bytes of directories.  A pointer to characters is
a function from offsets; the buffer of a name keeps its old characters behind the
NUL.
-/

namespace Xv6.Blocks

open ByteFields

/-- A pointer to characters. -/
abbrev CharPtr := Nat → UInt8

/-- A pointer to a string, with the NUL behind it. -/
def cstr (text : List UInt8) : CharPtr :=
  fun k => text.getD k 0

/-- `strncmp` -/
def strncmp (p q : CharPtr) : Nat → Int
  | 0 => 0
  | n + 1 =>
      if p 0 ≠ 0 ∧ p 0 = q 0 then strncmp (fun k => p (k + 1)) (fun k => q (k + 1)) n
      else (p 0).toNat - (q 0).toNat

/-- `namecmp` -/
def namecmp (s t : CharPtr) : Int :=
  strncmp s t dirsiz

/-- The field `inum` of the bytes of a `struct dirent`. -/
def direntInum (de : List UInt8) : Nat :=
  (de.getD 0 0).toNat + 256 * (de.getD 1 0).toNat

/-- The field `name`. -/
def direntName (de : List UInt8) : CharPtr :=
  fun k => de.getD (2 + k) 0

section Devices

variable (devsw : UInt16 → UInt32 → Int)

/-- The loop of `dirlookup`. -/
def lookupFrom (dp : Nat) (name : CharPtr) : Nat → UInt32 → Fs (Option Nat)
  | 0, _ => return none
  | fuel + 1, off => do
      let s ← get
      if off < (s.inode dp).size then
        let (n, de) ← readi devsw dp off 16
        if n ≠ 16 then throw .dirRead
        else if direntInum de = 0 then lookupFrom dp name fuel (off + 16)
        else if namecmp name (direntName de) = 0 then
          iget (direntInum de)
          return some (direntInum de)
        else lookupFrom dp name fuel (off + 16)
      else return none

/-- `dirlookup` -/
def dirlookup (dp : Nat) (name : CharPtr) : Fs (Option Nat) := do
  let s ← get
  if (s.inode dp).type ≠ tDir then throw .notDir
  else lookupFrom devsw dp name ((s.inode dp).size.toNat / 16 + 1) 0

/-- The name that `skipelem` leaves in the buffer. -/
def copyName (element : List UInt8) (name : CharPtr) : CharPtr :=
  fun k =>
    if k < min element.length dirsiz then element.getD k 0
    else if k = element.length ∧ element.length < dirsiz then 0
    else name k

def isSlash (c : UInt8) : Bool :=
  c = '/'.toUInt8

/-- `skipelem`: the path behind its first element, and the buffer. -/
def skipelem (path : List UInt8) (name : CharPtr) : Option (List UInt8 × CharPtr) :=
  let s := path.dropWhile isSlash
  if s = [] then none
  else
    let element := s.takeWhile fun c => !isSlash c
    let rest := s.dropWhile fun c => !isSlash c
    some (rest.dropWhile isSlash, copyName element name)

/-- The loop of `namex`, with the inode and the path that is left. -/
def walkPath (nameiparent : Bool) : Nat → Nat → List UInt8 → CharPtr →
    Fs (Option Nat × CharPtr)
  | 0, _, _, name => return (none, name)
  | fuel + 1, ip, path, name =>
      match skipelem path name with
      | none => do
          if nameiparent then
            iput ip
            return (none, name)
          else return (some ip, name)
      | some (path, name) => do
          ilock ip
          let s ← get
          if (s.inode ip).type ≠ tDir then
            iput ip
            return (none, name)
          else if nameiparent ∧ path = [] then return (some ip, name)
          else
            let next ← dirlookup devsw ip name
            iput ip
            match next with
            | none => return (none, name)
            | some next => walkPath nameiparent fuel next path name

/-- `namex`, for a process with this current directory. -/
def namex (cwd : Nat) (path : List UInt8) (nameiparent : Bool) (name : CharPtr) :
    Fs (Option Nat × CharPtr) := do
  let ip := if path.head? = some '/'.toUInt8 then rootino else cwd
  iget ip
  walkPath devsw nameiparent (path.length + 1) ip path name

/-- `namei` -/
def namei (cwd : Nat) (path : List UInt8) : Fs (Option Nat) := do
  let (ip, _) ← namex devsw cwd path false fun _ => 0
  return ip

end Devices

/-! ## Comparing names -/

/-- The pointer points to the string, if that is shorter than the bound with the
NUL behind it. -/
def Spells (n : Nat) (p : CharPtr) (text : List UInt8) : Prop :=
  ∀ k, k < n → k ≤ text.length → p k = text.getD k 0

theorem Spells.tail {n : Nat} {p : CharPtr} {c : UInt8} {text : List UInt8}
    (spells : Spells (n + 1) p (c :: text)) : Spells n (fun k => p (k + 1)) text := by
  intro k inside within
  have next := spells (k + 1) (by omega) (by rw [List.length_cons]; omega)
  rw [List.getD_cons_succ] at next
  exact next

/-- `strncmp` compares the strings. -/
theorem strncmp_eq_zero_iff {n : Nat} {p q : CharPtr} {first second : List UInt8}
    (left : Spells n p first) (right : Spells n q second) (short : first.length ≤ n)
    (short' : second.length ≤ n) (noNul : 0 ∉ first) (noNul' : 0 ∉ second) :
    strncmp p q n = 0 ↔ first = second := by
  induction n generalizing p q first second with
  | zero =>
      obtain rfl := List.eq_nil_of_length_eq_zero (Nat.le_zero.mp short)
      obtain rfl := List.eq_nil_of_length_eq_zero (Nat.le_zero.mp short')
      exact ⟨fun _ => rfl, fun _ => rfl⟩
  | succ n ih =>
      have headLeft := left 0 (Nat.succ_pos n) (Nat.zero_le _)
      have headRight := right 0 (Nat.succ_pos n) (Nat.zero_le _)
      unfold strncmp
      cases first with
      | nil =>
          have zero : p 0 = 0 := headLeft
          rw [if_neg (fun both => both.1 zero), zero]
          cases second with
          | nil =>
              have zero' : q 0 = 0 := headRight
              rw [zero']
              exact ⟨fun _ => rfl, fun _ => rfl⟩
          | cons d rest =>
              have isHead : q 0 = d := headRight
              have nonzero : d ≠ 0 := fun equal => noNul' (equal ▸ List.mem_cons_self ..)
              have positive : d.toNat ≠ 0 := fun equal => nonzero (UInt8.toNat_inj.mp equal)
              rw [isHead]
              refine ⟨fun equal => absurd equal ?_, nofun⟩
              change (0 : Int) - d.toNat ≠ 0
              omega
      | cons c rest =>
          have isHead : p 0 = c := headLeft
          have nonzero : c ≠ 0 := fun equal => noNul (equal ▸ List.mem_cons_self ..)
          have positive : c.toNat ≠ 0 := fun equal => nonzero (UInt8.toNat_inj.mp equal)
          cases second with
          | nil =>
              have zero' : q 0 = 0 := headRight
              rw [isHead, zero', if_neg (fun both => both.1 both.2)]
              refine ⟨fun equal => absurd equal ?_, nofun⟩
              change (c.toNat : Int) - 0 ≠ 0
              omega
          | cons d rest' =>
              have isHead' : q 0 = d := headRight
              rw [isHead, isHead']
              by_cases same : c = d
              · subst same
                rw [if_pos ⟨nonzero, rfl⟩, ih left.tail right.tail (Nat.le_of_succ_le_succ short)
                  (Nat.le_of_succ_le_succ short')
                  (fun inside => noNul (List.mem_cons_of_mem _ inside))
                  (fun inside => noNul' (List.mem_cons_of_mem _ inside))]
                exact ⟨fun equal => equal ▸ rfl, fun equal => (List.cons.inj equal).2⟩
              · have apart : c.toNat ≠ d.toNat := fun equal => same (UInt8.toNat_inj.mp equal)
                rw [if_neg (fun both => same both.2)]
                refine ⟨fun equal => absurd equal ?_,
                  fun equal => absurd (List.cons.inj equal).1 same⟩
                omega

end Xv6.Blocks
