import Mathlib.Data.List.TakeWhile
import Xv6.CallReferences
import Xv6.PathWalks

/-!
# Where paths lead

The elements that `skipelem` takes from a path are its pieces between slashes,
each cut to `DIRSIZ` characters.  `namei` returns the inode that is reached by
looking up one after the other, and `nameiparent` the directory that is reached by
all but the last.
-/

namespace Xv6.Calls

open StateTriples
open Fs (Name ninode rootino dirsiz elements elementsFuel skipelem)

/-! ## The elements of a path -/

/-- The maximal runs of other characters than slashes, each cut to `DIRSIZ`. -/
def components (path : List Char) : List Name :=
  ((path.splitOn '/').filter (· ≠ [])).map (List.take dirsiz)

theorem components_slash (path : List Char) : components ('/' :: path) = components path := by
  have split : ('/' :: path).splitOn '/' = [] :: path.splitOn '/' := by
    simp [List.splitOn_cons_eq_if_modifyHead]
  rw [components, split, List.filter_cons_of_neg (by simp), components]

theorem components_dropSlashes (path : List Char) :
    components (path.dropWhile (· = '/')) = components path := by
  induction path with
  | nil => rfl
  | cons c path ih =>
      by_cases slash : c = '/'
      · subst slash
        rw [List.dropWhile_cons_of_pos (by simp), ih, components_slash]
      · rw [List.dropWhile_cons_of_neg (by simpa using slash)]

/-- A word in front of a slash or of the end of the path. -/
theorem components_word {word rest : List Char} (nonempty : word ≠ []) (noSlash : '/' ∉ word)
    (ends : rest = [] ∨ ∃ more, rest = '/' :: more) :
    components (word ++ rest) = word.take dirsiz :: components rest := by
  rcases ends with rfl | ⟨more, rfl⟩
  · rw [List.append_nil, components, List.splitOn_eq_singleton noSlash]
    simp [nonempty, components]
  · rw [components_slash, components, List.splitOn_append_cons_self_of_not_mem noSlash]
    simp [nonempty, components]

theorem components_of_skipelem_none {path : List Char} (ended : skipelem path = none) :
    components path = [] := by
  rw [skipelem] at ended
  split at ended
  case h_1 empty =>
    rw [← components_dropSlashes, empty]
    rfl
  case h_2 => cases ended

/-- One element is taken off, and what is left is shorter. -/
theorem components_of_skipelem {path rest : List Char} {name : Name}
    (taken : skipelem path = some (name, rest)) :
    components path = name :: components rest ∧ rest.length < path.length := by
  rw [skipelem] at taken
  split at taken
  case h_1 => cases taken
  case h_2 left nonempty =>
    cases taken
    generalize isLeft : path.dropWhile (· = '/') = left at *
    obtain ⟨c, tail, rfl⟩ := List.exists_cons_of_ne_nil nonempty
    have short : (c :: tail).length ≤ path.length := by
      rw [← isLeft]
      exact (List.dropWhile_suffix _).length_le
    have notSlash : c ≠ '/' := by
      have stops := List.head?_dropWhile_not (· = '/') path
      rw [isLeft] at stops
      simpa using stops
    have word : (c :: tail).takeWhile (· ≠ '/') ≠ [] := by
      rw [List.takeWhile_cons_of_pos (by simpa using notSlash)]
      exact List.cons_ne_nil _ _
    have noSlash : '/' ∉ (c :: tail).takeWhile (· ≠ '/') := fun member => by
      simpa using List.mem_takeWhile_imp member
    have ends : (c :: tail).dropWhile (· ≠ '/') = [] ∨
        ∃ more, (c :: tail).dropWhile (· ≠ '/') = '/' :: more := by
      have stops := List.head?_dropWhile_not (· ≠ '/') (c :: tail)
      cases remains : (c :: tail).dropWhile (· ≠ '/') with
      | nil => exact Or.inl rfl
      | cons d more =>
          rw [remains] at stops
          have slash : d = '/' := by simpa using stops
          exact Or.inr ⟨more, by rw [slash]⟩
    constructor
    · rw [components_dropSlashes, ← components_word word noSlash ends,
        List.takeWhile_append_dropWhile, ← isLeft, components_dropSlashes]
    · have first := ((c :: tail).dropWhile (· ≠ '/')).length_dropWhile_le (· = '/')
      rw [List.dropWhile_cons_of_pos (by simpa using notSlash)] at first ⊢
      have second := tail.length_dropWhile_le (· ≠ '/')
      rw [List.length_cons] at short
      omega

theorem elementsFuel_eq (fuel : Nat) (path : List Char) (enough : path.length ≤ fuel) :
    elementsFuel fuel path = components path := by
  induction fuel generalizing path with
  | zero =>
      rw [List.length_eq_zero_iff.mp (Nat.le_zero.mp enough)]
      rfl
  | succ fuel ih =>
      rw [elementsFuel]
      split
      case h_1 name rest taken =>
        obtain ⟨split, shorter⟩ := components_of_skipelem taken
        rw [split, ih rest (by omega)]
      case h_2 ended => rw [components_of_skipelem_none ended]

theorem elements_eq (path : List Char) : elements path = components path :=
  elementsFuel_eq path.length path le_rfl

/-! ## The parent directory -/

section Targets

variable {disk : Nat → Nat → Dinode} {dev inum : Nat} {names : List Name} {name : Name}

/-- The directory that a path leads to up to its last element: the inode that the
other elements lead to, if it is a directory. -/
theorem parentOf_append :
    parentOf disk dev inum (names ++ [name]) =
      match reached disk dev inum names with
      | none => none
      | some dp => if (disk dev dp).type = .dir then some (dp, name) else none := by
  induction names generalizing inum with
  | nil =>
      rw [List.nil_append, parentOf, reached]
      split <;> simp_all
  | cons first rest ih =>
      have more : rest ++ [name] ≠ [] := by simp
      rw [List.cons_append, parentOf, reached, if_neg more]
      by_cases isDir : (disk dev inum).type = .dir
      · rw [if_neg (not_not.mpr isDir)]
        cases lookup disk dev inum first with
        | none => rfl
        | some next => exact ih
      · rw [if_pos isDir, lookup_of_notDir isDir]

theorem parentOf_eq_some {dp : Nat} (found : parentOf disk dev inum names = some (dp, name)) :
    names.getLast? = some name ∧ reached disk dev inum names.dropLast = some dp ∧
      (disk dev dp).type = .dir := by
  rcases List.eq_nil_or_concat names with rfl | ⟨before, last, rfl⟩
  · cases found
  · rw [List.concat_eq_append, parentOf_append] at found
    rw [List.concat_eq_append, List.getLast?_concat, List.dropLast_concat]
    split at found
    · cases found
    · next there =>
        split at found
        · next isDir =>
            cases found
            exact ⟨rfl, there, isDir⟩
        · cases found

theorem parentOf_eq_none (found : parentOf disk dev inum names = none) :
    names = [] ∨ ∀ dp, reached disk dev inum names.dropLast = some dp →
      (disk dev dp).type ≠ .dir := by
  rcases List.eq_nil_or_concat names with rfl | ⟨before, last, rfl⟩
  · exact Or.inl rfl
  · refine Or.inr fun dp there isDir => ?_
    rw [List.concat_eq_append, List.dropLast_concat] at there
    rw [List.concat_eq_append, parentOf_append, there] at found
    simp [isDir] at found

end Targets

/-! ## The calls -/

variable {files : Files} {base : Ip → Nat} {ops : Nat} {s : State} {cwd : Ip}

/-- The inode is allocated, and has a link or is in use. -/
def Live (base : Ip → Nat) (s : State) (dev inum : Nat) : Prop :=
  (s.disk dev inum).type ≠ .free ∧ ((s.disk dev inum).nlink ≠ 0 ∨
    ∃ ip, 0 < base ip ∧ (s.icache ip).dev = dev ∧ (s.icache ip).inum = inum)

/-- No entry of a directory leads to an inode that is not there. -/
def NoDangling (base : Ip → Nat) (s : State) : Prop :=
  ∀ dev inum name next, lookup s.disk dev inum name = some next → Live base s dev next

theorem Live.sure {dev inum : Nat} (live : Live base s dev inum) : Sure True base s dev inum :=
  ⟨fun _ => live.1, fun _ unlinked => live.2.resolve_left fun linked => linked unlinked⟩

/-- `namei` found the inode, with one more reference, or the path leads nowhere. -/
def Named (base : Ip → Nat) (s : State) (files : Files) (ops : Nat) (cwd : Ip)
    (path : List Char) (found : Option (Ip × Name)) (t : State) : Prop :=
  let start := s.start cwd path
  match found with
  | none =>
      reached s.disk start.1 start.2 (components path) = none ∧
        Steady base s files base (fun _ => false) ops t
  | some (ip, _) =>
      reached s.disk start.1 start.2 (components path) = some (t.icache ip).inum ∧
        (t.icache ip).dev = start.1 ∧ Steady base s files (bump base ip) (fun _ => false) ops t

/-- `nameiparent` found the directory, with one more reference, and the name in it, or the
path has no elements, or all but the last lead to no directory. -/
def Parented (base : Ip → Nat) (s : State) (files : Files) (ops : Nat) (cwd : Ip)
    (path : List Char) (found : Option (Ip × Name)) (t : State) : Prop :=
  let start := s.start cwd path
  match found with
  | none =>
      (components path = [] ∨ ∀ dp, reached s.disk start.1 start.2 (components path).dropLast =
        some dp → (s.disk start.1 dp).type ≠ .dir) ∧
        Steady base s files base (fun _ => false) ops t
  | some (dp, name) =>
      (components path).getLast? = some name ∧
        reached s.disk start.1 start.2 (components path).dropLast = some (t.icache dp).inum ∧
        (s.disk start.1 (t.icache dp).inum).type = .dir ∧ (t.icache dp).dev = start.1 ∧
        Steady base s files (bump base dp) (fun _ => false) ops t

/-- **Paths lead where their elements do.**  Without dangling entries, `namei` and
`nameiparent` stop the kernel only when the cache is full but for one entry. -/
theorem paths_resolved (path : List Char)
    (has : Has False files base (fun _ => false) ops s) (here : 0 < base cwd)
    (noDangling : NoDangling base s)
    (live : Live base s (s.start cwd path).1 (s.start cwd path).2) :
    wp (Full base) (namei cwd path) (Named base s files ops cwd path) s ∧
      wp (Full base) (nameiparent cwd path) (Parented base s files ops cwd path) s := by
  have steady : Steady base s files base (fun _ => false) ops s :=
    ⟨has, rfl, rfl, fun _ _ => rfl, fun _ _ => rfl, fun _ _ valid => valid⟩
  have walked (parent : Bool) := namex_resolved True
    (fun dev inum name next found => (noDangling dev inum name next found).sure)
    (fun _ _ => rfl) path parent here (fun _ => id) live.sure steady
  rw [elements_eq] at walked
  constructor
  · refine wp_mono (wp_allow (walked false) fun _ full => full trivial) fun found t resolved => ?_
    cases found with
    | none =>
        obtain ⟨nothing, ended⟩ := resolved
        exact ⟨by simpa [target] using nothing, ended⟩
    | some entry =>
        obtain ⟨ip, name⟩ := entry
        obtain ⟨there, ended⟩ := resolved
        obtain ⟨last, isLast, same⟩ := Option.map_eq_some_iff.mp there
        rw [(Prod.mk.inj same).1] at isLast
        exact ⟨isLast, ended⟩
  · refine wp_mono (wp_allow (walked true) fun _ full => full trivial) fun found t resolved => ?_
    cases found with
    | none => exact ⟨parentOf_eq_none resolved.1, resolved.2⟩
    | some entry =>
        obtain ⟨dp, name⟩ := entry
        obtain ⟨there, ended⟩ := resolved
        obtain ⟨last, rest, isDir⟩ := parentOf_eq_some there
        exact ⟨last, rest, isDir, ended⟩

/-! ## A root directory with one file -/

def oneFileDisk (_ inum : Nat) : Dinode :=
  if inum = rootino then
    ⟨.dir, 0, 0, 1, [⟨1, ['.']⟩, ⟨1, ['.', '.']⟩, ⟨2, ['f']⟩], []⟩
  else if inum = 2 then ⟨.file, 0, 0, 1, [], []⟩
  else ⟨.free, 0, 0, 0, [], []⟩

theorem noDangling_oneFileDisk (base : Ip → Nat) : NoDangling base (boot oneFileDisk 8) := by
  intro dev inum name next found
  change lookup oneFileDisk dev inum name = some next at found
  rw [lookup] at found
  split at found
  case isFalse => cases found
  case isTrue isDir =>
    obtain ⟨⟨inum', slot⟩, present, rfl⟩ := Option.map_eq_some_iff.mp found
    obtain ⟨k, -, here, -⟩ := Fs.dirlookupFrom_eq_some present
    have isRoot : inum = rootino := by
      by_contra other
      unfold oneFileDisk at isDir
      rw [if_neg other] at isDir
      split at isDir <;> cases isDir
    subst isRoot
    have member := List.mem_of_getElem? here
    have isInum : inum' = 1 ∨ inum' = 2 := by
      have entries : (oneFileDisk dev rootino).dirents =
          [⟨1, ['.']⟩, ⟨1, ['.', '.']⟩, ⟨2, ['f']⟩] := rfl
      have inums := List.mem_map_of_mem (f := Fs.Dirent.inum) member
      rw [entries] at inums
      simpa using inums
    rcases isInum with rfl | rfl
    · exact ⟨(by decide : Fs.FileType.dir ≠ .free), Or.inl Int.one_ne_zero⟩
    · exact ⟨(by decide : Fs.FileType.file ≠ .free), Or.inl Int.one_ne_zero⟩

theorem exists_has_boot (disk : Nat → Nat → Dinode) (ninodes : Nat) :
    ∃ base, 0 < base 0 ∧
      Has False (boot disk ninodes).files base (fun _ => false) 0 (boot disk ninodes) := by
  have quiet : Quiet False (boot disk ninodes) := quiet_boot ninodes False.elim
  obtain ⟨F, settled⟩ := quiet
  have has := settled.owns.has
  have files := has.files
  subst files
  exact ⟨_, Files.refsOf_pos (p := initproc) rfl, has⟩

/-- The call has returned an inode. -/
def returnsInode : Except Halt (Option (Ip × Name) × State) → Bool
  | .ok (some (_, []), _) => true
  | _ => false

/-- `/f` leads to inode 2. -/
theorem namei_oneFile :
    ∃ base files t ip, namei 0 ['/', 'f'] (boot oneFileDisk 8) = .ok (some (ip, []), t) ∧
      (t.icache ip).inum = 2 ∧ Has False files (bump base ip) (fun _ => false) 0 t := by
  obtain ⟨base, here, has⟩ := exists_has_boot oneFileDisk 8
  have noDangling := noDangling_oneFileDisk base
  have start : (boot oneFileDisk 8).start 0 ['/', 'f'] = (rootdev, rootino) := if_pos rfl
  have live : Live base (boot oneFileDisk 8) rootdev rootino :=
    ⟨(by decide : Fs.FileType.dir ≠ .free), Or.inl Int.one_ne_zero⟩
  have isTwo : reached (boot oneFileDisk 8).disk rootdev rootino (components ['/', 'f']) =
      some 2 := by decide +kernel
  have returned : returnsInode (namei 0 ['/', 'f'] (boot oneFileDisk 8)) = true := by
    decide +kernel
  generalize boot oneFileDisk 8 = s at *
  unfold returnsInode at returned
  split at returned
  case h_2 => cases returned
  case h_1 ip t ended =>
    have resolved := paths_resolved ['/', 'f'] has here noDangling (by rwa [start])
    obtain ⟨there, -, steady⟩ := post_of_wp resolved.1 ended
    rw [start, isTwo] at there
    exact ⟨base, _, t, ip, ended, (Option.some.inj there).symm, steady.has⟩

/-- All but the last element of `/f/x` lead to a file, and `nameiparent` returns nothing. -/
theorem nameiparent_below_file :
    ∃ base t, NoDangling base (boot oneFileDisk 8) ∧
      Has False (boot oneFileDisk 8).files base (fun _ => false) 0 (boot oneFileDisk 8) ∧
      nameiparent 0 ['/', 'f', '/', 'x'] (boot oneFileDisk 8) = .ok (none, t) ∧
      components ['/', 'f', '/', 'x'] = [['f'], ['x']] ∧
      reached (boot oneFileDisk 8).disk rootdev rootino [['f']] = some 2 := by
  obtain ⟨base, -, has⟩ := exists_has_boot oneFileDisk 8
  have returned : (match nameiparent 0 ['/', 'f', '/', 'x'] (boot oneFileDisk 8) with
      | .ok (none, _) => true
      | _ => false) = true := by decide +kernel
  split at returned
  case h_2 => cases returned
  case h_1 t ended =>
    exact ⟨base, t, noDangling_oneFileDisk base, has, ended, by decide, by decide⟩

end Xv6.Calls
