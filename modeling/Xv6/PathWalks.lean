import Xv6.InodeReferences

/-!
# Walks along paths

A path leads from one directory to the next by the entries on the disk.  The
loop of `namex` follows it and changes nothing: it holds one lock at a time and
gives back every reference but that to the inode it returns.
-/

namespace Xv6.Calls

open StateTriples
open Fs (FileType Name ninode rootino dirlookupFrom elements)

/-- Partial correctness: every halt is allowed. -/
abbrev Any (_ : Halt) : Prop :=
  True

variable {sound : Prop} {files : Files} {refs base : Ip → Nat} {locked : Locks} {ops : Nat}
  {o s : State} {ip dp : Ip}

/-- What a program has after it, besides what else holds there. -/
theorem wp_has {Result : Type} {allowed : Halt → Prop} {program : Sys Result}
    {post post' : Result → State → Prop} (first : wp allowed program post s)
    (second : wp (Benign True) program post' s) :
    wp allowed program (fun result t => post result t ∧ post' result t) s :=
  wp_and first second

/-! ## The disk as a tree of names -/

/-- The inode that a directory on the disk gives a name. -/
def lookup (disk : Nat → Nat → Dinode) (dev inum : Nat) (name : Name) : Option Nat :=
  if (disk dev inum).type = .dir then
    (dirlookupFrom name 0 (disk dev inum).dirents).map Prod.fst
  else none

/-- The inode that the names lead to, one lookup after the other. -/
def reached (disk : Nat → Nat → Dinode) (dev : Nat) : Nat → List Name → Option Nat
  | inum, [] => some inum
  | inum, name :: rest =>
      match lookup disk dev inum name with
      | none => none
      | some next => reached disk dev next rest

/-- The directory that a path leads to up to its last element, and that
element. -/
def parentOf (disk : Nat → Nat → Dinode) (dev : Nat) : Nat → List Name → Option (Nat × Name)
  | _, [] => none
  | inum, name :: rest =>
      if (disk dev inum).type ≠ .dir then none
      else if rest = [] then some (inum, name)
      else
        match lookup disk dev inum name with
        | none => none
        | some next => parentOf disk dev next rest

/-- Where the walk along a path starts. -/
def State.start (s : State) (cwd : Ip) (path : List Char) : Nat × Nat :=
  if path.head? = some '/' then (rootdev, rootino)
  else ((s.icache cwd).dev, (s.icache cwd).inum)

/-- What the walk finds: the last inode, or the last directory and the element
that is left. -/
def target (disk : Nat → Nat → Dinode) (dev : Nat) (parent : Bool) (inum : Nat)
    (names : List Name) : Option (Nat × Name) :=
  if parent then parentOf disk dev inum names
  else (reached disk dev inum names).map fun last => (last, [])

section Targets

variable {disk : Nat → Nat → Dinode} {dev inum : Nat} {parent : Bool} {name : Name}
  {rest : List Name}

theorem lookup_of_notDir (notDir : (disk dev inum).type ≠ .dir) (name : Name) :
    lookup disk dev inum name = none := by
  rw [lookup, if_neg notDir]

theorem target_nil : target disk dev parent inum [] = if parent then none else some (inum, []) := by
  cases parent <;> rfl

theorem target_of_notDir (notDir : (disk dev inum).type ≠ .dir) :
    target disk dev parent inum (name :: rest) = none := by
  cases parent with
  | false => simp [target, reached, lookup_of_notDir notDir]
  | true => simp [target, parentOf, notDir]

theorem target_of_last (isDir : (disk dev inum).type = .dir) :
    target disk dev true inum [name] = some (inum, name) := by
  simp [target, parentOf, isDir]

theorem target_of_absent (isDir : (disk dev inum).type = .dir)
    (inner : ¬ (parent = true ∧ rest = [])) (absent : lookup disk dev inum name = none) :
    target disk dev parent inum (name :: rest) = none := by
  cases parent with
  | false => simp [target, reached, absent]
  | true =>
      have more : rest ≠ [] := fun none => inner ⟨rfl, none⟩
      simp [target, parentOf, isDir, more, absent]

theorem target_of_present {next : Nat} (isDir : (disk dev inum).type = .dir)
    (inner : ¬ (parent = true ∧ rest = [])) (present : lookup disk dev inum name = some next) :
    target disk dev parent inum (name :: rest) = target disk dev parent next rest := by
  cases parent with
  | false => simp [target, reached, present]
  | true =>
      have more : rest ≠ [] := fun none => inner ⟨rfl, none⟩
      simp [target, parentOf, isDir, more, present]

end Targets

/-! ## References that are given back -/

/-- The inode has a link, or is kept by a reference of these. -/
def Kept (base : Ip → Nat) (o : State) (dev inum : Nat) : Prop :=
  (o.disk dev inum).type ≠ .free → (o.disk dev inum).nlink = 0 →
    ∃ ip, 0 < base ip ∧ (o.icache ip).dev = dev ∧ (o.icache ip).inum = inum

/-- Every inode without links is kept by a reference of these. -/
def Protected (base : Ip → Nat) (o : State) : Prop :=
  ∀ dev inum, (o.disk dev inum).type ≠ .free → (o.disk dev inum).nlink = 0 →
    ∃ ip, 0 < base ip ∧ (o.icache ip).dev = dev ∧ (o.icache ip).inum = inum

/-- The references are among those in use. -/
abbrev Covers (base refs : Ip → Nat) : Prop :=
  ∀ ip, 0 < base ip → 0 < refs ip

/-- A call that has not changed the disk since the state `o`. -/
structure Steady (base : Ip → Nat) (o : State) (files : Files) (refs : Ip → Nat)
    (locked : Locks) (ops : Nat) (s : State) : Prop where
  has : Has False files refs locked ops s
  calm : Calm base o s

/-- All entries. -/
abbrev all (_ : Ip) : Nat :=
  1

theorem Calm.of_all {t : State} (calm : Calm all s t) (refs : Ip → Nat) : Calm refs s t :=
  calm.mono fun _ _ => Nat.one_pos

/-- The inode keeps a link or another reference. -/
def Stays (refs : Ip → Nat) (ip : Ip) (s : State) : Prop :=
  0 < refs ip ∨ (s.icache ip).node.nlink ≠ 0

theorem iput_calm (has : Has sound files (bump refs ip) locked ops s)
    (stays : (s.icache ip).valid = true → Stays refs ip s) :
    wp Any (iput ip) (fun _ t => Calm all s t) s := by
  rw [wp_iput]
  split
  · trivial
  unfold State.put
  dsimp only
  split
  case isTrue last =>
    obtain ⟨valid, unlinked, single⟩ := last
    rw [has.ref, bump_self] at single
    rcases stays valid with more | linked
    · omega
    · exact absurd unlinked linked
  case isFalse => exact .setIp all fun _ => ⟨rfl, rfl, id⟩

theorem iunlock_calm (s : State) (ip : Ip) :
    wp Any (iunlock ip)
      (fun _ t => Calm all s t ∧ (t.icache ip).node = (s.icache ip).node) s := by
  simp only [iunlock, releasesleep, wp_bind, wp_get]
  split
  · trivial
  · simp only [wp_modify, State.setIp_icache, Function.update_self]
    exact ⟨.setIp all fun _ => ⟨rfl, rfl, id⟩, trivial⟩

theorem iunlockput_calm (has : Has sound files (bump refs ip) locked ops s)
    (stays : Stays refs ip s) :
    wp Any (iunlockput ip) (fun _ t => Calm all s t) s := by
  simp only [iunlockput, wp_bind]
  refine wp_mono (wp_has (iunlock_calm s ip) (iunlock_spec has)) fun _ t unlocked => ?_
  obtain ⟨⟨calm, node⟩, unlocked⟩ := unlocked
  refine wp_mono (iput_calm unlocked fun _ => ?_) fun _ u put => calm.trans put
  rw [Stays, node]
  exact stays

/-- The reference that a call gives back is not the last one to an inode without
links. -/
theorem Steady.stays (steady : Steady base o files (bump refs ip) locked ops s)
    (guarded : Kept base o (s.icache ip).dev (s.icache ip).inum) (covers : Covers base refs)
    (valid : (s.icache ip).valid = true) : Stays refs ip s := by
  by_contra lost
  obtain ⟨none, unlinked⟩ := not_or.mp lost
  rw [not_not] at unlinked
  have used : 0 < bump refs ip ip := by simp
  obtain ⟨node, type⟩ := steady.has.coherent ip used valid
  rw [node] at type unlinked
  rw [steady.calm.disk] at type unlinked
  obtain ⟨jp, kept, dev, inum⟩ := guarded type unlinked
  rw [← steady.calm.dev jp kept] at dev
  rw [← steady.calm.inum jp kept] at inum
  have same := steady.has.unique jp ip (pos_of_bump ip (covers jp kept)) used dev inum
  subst same
  exact none (covers jp kept)

theorem Covers.bump (covers : Covers base refs) (ip : Ip) : Covers base (Calls.bump refs ip) :=
  fun jp kept => pos_of_bump ip (covers jp kept)

theorem iput_kept (covers : Covers base refs)
    (guarded : Kept base o (s.icache ip).dev (s.icache ip).inum)
    (steady : Steady base o files (bump refs ip) locked ops s) :
    wp Any (iput ip) (fun _ t => Calm all s t ∧ Steady base o files refs locked ops t) s := by
  have calm := iput_calm steady.has (steady.stays guarded covers)
  refine wp_mono (wp_has calm (iput_spec steady.has)) fun _ t put => ?_
  exact ⟨put.1, put.2.2, steady.calm.trans (put.1.of_all base)⟩

theorem iunlockput_kept (covers : Covers base refs) (free : locked ip = false)
    (guarded : Kept base o (s.icache ip).dev (s.icache ip).inum)
    (steady : Steady base o files (bump refs ip) (Function.update locked ip true) ops s) :
    wp Any (iunlockput ip)
      (fun _ t => Calm all s t ∧ Steady base o files refs locked ops t) s := by
  have valid := (steady.has.filled ip (by simp)).2
  have calm := iunlockput_calm steady.has (steady.stays guarded covers valid)
  refine wp_mono (wp_has calm (iunlockput_locked free steady.has)) fun _ t put => ?_
  exact ⟨put.1, put.2, steady.calm.trans (put.1.of_all base)⟩

theorem ilock_steady (steady : Steady base o files refs locked ops s) :
    wp Any (ilock ip)
      (fun _ t => locked ip = false ∧ Calm all s t ∧
        Steady base o files refs (Function.update locked ip true) ops t) s := by
  refine wp_mono (wp_has (ilock_calm all s ip) (ilock_spec steady.has)) fun _ t acquired => ?_
  obtain ⟨⟨-, calm⟩, free, has⟩ := acquired
  exact ⟨free, calm, has, steady.calm.trans (calm.of_all base)⟩

theorem iunlock_steady (free : locked ip = false)
    (steady : Steady base o files refs (Function.update locked ip true) ops s) :
    wp Any (iunlock ip)
      (fun _ t => Calm all s t ∧ Steady base o files refs locked ops t) s := by
  refine wp_mono (wp_has (iunlock_calm s ip) (iunlock_locked free steady.has))
    fun _ t unlocked => ?_
  obtain ⟨⟨calm, -⟩, has⟩ := unlocked
  exact ⟨calm, has, steady.calm.trans (calm.of_all base)⟩

theorem iget_steady (dev inum : Nat) (covers : Covers base refs)
    (steady : Steady base o files refs locked ops s) :
    wp Any (iget dev inum)
      (fun ip t => (t.icache ip).dev = dev ∧ (t.icache ip).inum = inum ∧ Calm refs s t ∧
        Steady base o files (bump refs ip) locked ops t) s := by
  refine wp_mono (wp_and (iget_calm dev inum steady.has)
    (iget_spec dev inum (fun _ => trivial) steady.has)) fun ip t got => ?_
  obtain ⟨⟨isDev, isInum, calm⟩, has⟩ := got
  exact ⟨isDev, isInum, calm, has, steady.calm.trans (calm.mono covers)⟩

theorem idup_steady (used : 0 < refs ip) (steady : Steady base o files refs locked ops s) :
    wp Any (idup ip)
      (fun jp t => jp = ip ∧ Calm all s t ∧
        Steady base o files (bump refs ip) locked ops t) s := by
  have calm : wp Any (idup ip) (fun _ t => Calm all s t) s := by
    simp only [idup, wp_bind, wp_modify, wp_pure]
    exact .setIp all fun _ => ⟨rfl, rfl, id⟩
  refine wp_mono (wp_has calm (idup_spec steady.has used)) fun jp t got => ?_
  obtain ⟨calm, same, has⟩ := got
  exact ⟨same, calm, has, steady.calm.trans (calm.of_all base)⟩

/-- A locked inode is as on the disk. -/
theorem Steady.node (steady : Steady base o files refs locked ops s) (ip : Ip)
    (held : locked ip = true) :
    (s.icache ip).node = o.disk (s.icache ip).dev (s.icache ip).inum := by
  obtain ⟨used, valid⟩ := steady.has.filled ip held
  rw [(steady.has.coherent ip used valid).1, steady.calm.disk]

/-- What `dirlookup` returns from a locked directory. -/
def LookedUp (base : Ip → Nat) (o : State) (files : Files) (refs : Ip → Nat) (locked : Locks)
    (ops : Nat) (s : State) (dp : Ip) (name : Name) (found : Option (Ip × Nat)) (t : State) :
    Prop :=
  match found with
  | none => lookup o.disk (s.icache dp).dev (s.icache dp).inum name = none ∧ t = s
  | some (ip, _) =>
      lookup o.disk (s.icache dp).dev (s.icache dp).inum name = some (t.icache ip).inum ∧
        (t.icache ip).dev = (s.icache dp).dev ∧ Calm refs s t ∧
        Steady base o files (bump refs ip) locked ops t

theorem dirlookup_steady (name : Name) (covers : Covers base refs) (held : locked dp = true)
    (steady : Steady base o files refs locked ops s) :
    wp Any (dirlookup dp name) (LookedUp base o files refs locked ops s dp name) s := by
  simp only [dirlookup, nodeOf, wp_bind, wp_get, wp_pure]
  split
  · trivial
  case isFalse isDir =>
    rw [not_not, steady.node dp held] at isDir
    have found : lookup o.disk (s.icache dp).dev (s.icache dp).inum name =
        (dirlookupFrom name 0 (s.icache dp).node.dirents).map Prod.fst := by
      rw [lookup, if_pos isDir, steady.node dp held]
    split
    case h_1 absent =>
      rw [absent] at found
      exact ⟨found, rfl⟩
    case h_2 inum off present =>
      rw [present] at found
      simp only [devOf, wp_bind, wp_get, wp_pure]
      refine wp_mono (iget_steady _ _ covers steady) fun ip t got => ?_
      obtain ⟨isDev, isInum, calm, got⟩ := got
      refine ⟨?_, isDev, calm, got⟩
      rw [found, isInum]
      rfl

/-! ## Halts -/

/-- `iget` found no entry, and at most one was unused before. -/
def Full (refs : Ip → Nat) (halt : Halt) : Prop :=
  halt = .igetNoInodes ∧ ∀ ip jp, refs ip = 0 → refs jp = 0 → ip = jp

section Runs

variable {allowed : Halt → Prop}

theorem iget_runs (dev inum : Nat) (has : Has sound files refs locked ops s)
    (full : (∀ ip, refs ip ≠ 0) → allowed .igetNoInodes) :
    wp allowed (iget dev inum) (fun _ _ => True) s := by
  simp only [iget, wp_bind, wp_get]
  split
  case h_1 => trivial
  case h_2 => trivial
  case h_3 found =>
    refine full fun ip => ?_
    rw [← has.ref]
    exact (igetLoop_full _ _ _ _ _ found).2 ip (List.mem_finRange ip)

theorem ilock_runs (has : Has sound files refs locked ops s) (used : 0 < refs ip)
    (free : locked ip = false)
    (typed : (s.disk (s.icache ip).dev (s.icache ip).inum).type ≠ .free) :
    wp allowed (ilock ip) (fun _ _ => True) s := by
  have count : ¬ (s.icache ip).ref < 1 := by
    rw [has.ref]
    omega
  have opened : ¬ (s.icache ip).locked = true := by
    rw [has.locked, free]
    exact Bool.false_ne_true
  simp only [ilock, acquiresleep, fill, wp_bind, wp_get, if_neg count, if_neg opened, wp_set,
    State.setIp_icache, Function.update_self]
  split
  · trivial
  · simp only [wp_bind, wp_set]
    split
    case isTrue untyped => exact absurd untyped typed
    case isFalse => trivial

theorem iunlock_runs (has : Has sound files refs locked ops s) (held : locked ip = true) :
    wp allowed (iunlock ip) (fun _ _ => True) s := by
  have used := (has.filled ip held).1
  have fine : ¬ (¬ (s.icache ip).locked = true ∨ (s.icache ip).ref < 1) := by
    rw [has.locked, has.ref, held]
    simpa using used.ne'
  simp only [iunlock, wp_bind, wp_get, if_neg fine]
  trivial

theorem iput_runs (has : Has sound files refs locked ops s) (free : locked ip = false) :
    wp allowed (iput ip) (fun _ _ => True) s := by
  rw [wp_iput, has.locked, free]
  trivial

theorem iunlockput_runs (has : Has sound files refs locked ops s) (held : locked ip = true) :
    wp allowed (iunlockput ip) (fun _ _ => True) s := by
  simp only [iunlockput, wp_bind]
  refine wp_mono (wp_has (iunlock_runs has held) (iunlock_spec has)) fun _ t unlocked => ?_
  exact iput_runs unlocked.2 (by simp)

theorem dirlookup_runs (name : Name) (has : Has sound files refs locked ops s)
    (isDir : (s.icache dp).node.type = .dir)
    (full : (∀ ip, refs ip ≠ 0) → allowed .igetNoInodes) :
    wp allowed (dirlookup dp name) (fun _ _ => True) s := by
  simp only [dirlookup, nodeOf, wp_bind, wp_get, wp_pure, isDir, ne_eq, not_true, if_false]
  split
  · trivial
  · simp only [devOf, wp_bind, wp_get, wp_pure]
    exact iget_runs _ _ has full

end Runs

/-! ## The walk -/

/-- The inode may be walked to: it is allocated if the walk is to be `safe`, and
has a link or is in use. -/
structure Sure (safe : Prop) (base : Ip → Nat) (o : State) (dev inum : Nat) : Prop where
  allocated : safe → (o.disk dev inum).type ≠ .free
  kept : Kept base o dev inum

/-- What the walk along a path returns; `dev` and `inum` say where it starts. -/
def Resolved (base : Ip → Nat) (o : State) (files : Files) (refs : Ip → Nat) (locked : Locks)
    (ops : Nat) (parent : Bool) (dev inum : Nat) (names : List Name)
    (found : Option (Ip × Name)) (t : State) : Prop :=
  match found with
  | none => target o.disk dev parent inum names = none ∧ Steady base o files refs locked ops t
  | some (ip, name) =>
      target o.disk dev parent inum names = some ((t.icache ip).inum, name) ∧
        (t.icache ip).dev = dev ∧ Steady base o files (bump refs ip) locked ops t

/-- A step of the walk that finds the same from the next directory on. -/
theorem Resolved.of_step {parent : Bool} {dev inum next : Nat} {names rest : List Name}
    {found : Option (Ip × Name)} {t : State}
    (step : target o.disk dev parent inum names = target o.disk dev parent next rest)
    (walked : Resolved base o files refs locked ops parent dev next rest found t) :
    Resolved base o files refs locked ops parent dev inum names found t := by
  unfold Resolved at *
  rwa [step]

section Walk

variable (safe : Prop) (entries : ∀ dev inum name next,
  lookup o.disk dev inum name = some next → Sure safe base o dev next)
  (unlocked : safe → ∀ jp, locked jp = false)
include entries unlocked

theorem namexFrom_resolved (parent : Bool) (names : List Name) (covers : Covers base refs)
    (sure : Sure safe base o (s.icache ip).dev (s.icache ip).inum)
    (steady : Steady base o files (bump refs ip) locked ops s) :
    wp (fun halt => safe → Full refs halt) (namexFrom parent ip names)
      (Resolved base o files refs locked ops parent (s.icache ip).dev (s.icache ip).inum names)
      s := by
  induction names generalizing ip s with
  | nil =>
      simp only [namexFrom]
      split
      case isTrue isParent =>
        simp only [wp_bind, wp_pure]
        refine wp_mono (wp_when (fun holds => iput_runs steady.has (unlocked holds ip))
          (iput_kept covers sure.kept steady)) fun _ t put => ⟨?_, put.2⟩
        rw [target_nil, if_pos isParent]
      case isFalse plain =>
        refine ⟨?_, rfl, steady⟩
        rw [target_nil, if_neg plain]
  | cons name rest ih =>
      simp only [namexFrom, wp_bind]
      refine wp_mono (wp_when (fun holds => ?_) (ilock_steady steady)) fun _ t acquired => ?_
      · refine ilock_runs steady.has (by simp) (unlocked holds ip) ?_
        rw [steady.calm.disk]
        exact sure.allocated holds
      obtain ⟨free, calm, acquired⟩ := acquired
      have dev := calm.dev ip Nat.one_pos
      have inum := calm.inum ip Nat.one_pos
      have node := acquired.node ip (by simp)
      have kept := sure.kept
      rw [← dev, ← inum] at kept ⊢
      -- every way out of the loop but one gives the directory back
      have leave : wp (fun halt => safe → Full refs halt) (iunlockput ip)
          (fun _ u => Calm all t u ∧ Steady base o files refs locked ops u) t :=
        wp_when (fun _ => iunlockput_runs acquired.has (by simp))
          (iunlockput_kept covers free kept acquired)
      simp only [nodeOf, wp_bind, wp_get, wp_pure]
      split
      case isTrue notDir =>
        rw [node] at notDir
        simp only [wp_bind, wp_pure]
        exact wp_mono leave fun _ u put => ⟨target_of_notDir notDir, put.2⟩
      case isFalse isDir =>
        rw [not_not] at isDir
        have isDir' := isDir
        rw [node] at isDir'
        split
        case isTrue last =>
          obtain ⟨rfl, rfl⟩ := last
          simp only [wp_bind, wp_pure]
          refine wp_mono (wp_when (fun _ => iunlock_runs acquired.has (by simp))
            (iunlock_steady free acquired)) fun _ u put => ⟨?_, ?_, put.2⟩
          · rw [target_of_last isDir', put.1.inum ip Nat.one_pos]
          · exact put.1.dev ip Nat.one_pos
        case isFalse inner =>
          rw [wp_bind]
          refine wp_mono (wp_when (fun _ => ?_)
            (dirlookup_steady name (covers.bump ip) (by simp) acquired)) fun found u looked => ?_
          · refine dirlookup_runs name acquired.has isDir fun inUse =>
              ⟨rfl, fun jp kp one two => ?_⟩
            -- only the directory itself may have been without a reference
            have only (lp : Ip) (unused : refs lp = 0) : lp = ip := by
              by_contra differ
              have used := inUse lp
              rw [bump_of_ne differ] at used
              exact used unused
            rw [only jp one, only kp two]
          cases found with
          | none =>
              obtain ⟨absent, rfl⟩ := looked
              simp only [wp_bind, wp_pure]
              exact wp_mono leave fun _ v put => ⟨target_of_absent isDir' inner absent, put.2⟩
          | some entry =>
              obtain ⟨next, off⟩ := entry
              obtain ⟨present, isDev, calm', looked⟩ := looked
              have further := entries _ _ _ _ present
              have kept' : Kept base o (u.icache ip).dev (u.icache ip).inum := by
                rwa [calm'.dev ip (by simp), calm'.inum ip (by simp)]
              rw [bump_comm] at looked
              simp only [wp_bind]
              refine wp_mono (wp_when (fun _ => iunlockput_runs looked.has (by simp))
                (iunlockput_kept (covers.bump next) free kept' looked)) fun _ v put => ?_
              obtain ⟨still, put⟩ := put
              rw [← isDev, ← still.dev next Nat.one_pos,
                ← still.inum next Nat.one_pos] at further
              refine wp_mono (ih further put) fun found w walked => ?_
              rw [still.dev next Nat.one_pos, still.inum next Nat.one_pos, isDev] at walked
              exact walked.of_step (target_of_present isDir' inner present)

theorem namex_resolved (path : List Char) (parent : Bool) {cwd : Ip} (here : 0 < base cwd)
    (covers : Covers base refs)
    (sure : Sure safe base o (o.start cwd path).1 (o.start cwd path).2)
    (steady : Steady base o files refs locked ops s) :
    wp (fun halt => safe → Full refs halt) (namex cwd path parent)
      (Resolved base o files refs locked ops parent (o.start cwd path).1 (o.start cwd path).2
        (elements path)) s := by
  unfold State.start at *
  unfold namex
  split
  case isTrue absolute =>
    rw [if_pos absolute] at sure
    rw [wp_bind]
    refine wp_mono (wp_when (fun _ => iget_runs _ _ steady.has fun inUse => ?_)
      (iget_steady _ _ covers steady)) fun ip t got => ?_
    · exact ⟨rfl, fun ip _ unused => absurd unused (inUse ip)⟩
    obtain ⟨isDev, isInum, -, got⟩ := got
    have walked := namexFrom_resolved safe entries unlocked parent (elements path) covers
      (by rwa [isDev, isInum]) got
    rwa [isDev, isInum] at walked
  case isFalse relative =>
    rw [if_neg relative] at sure
    rw [wp_bind]
    refine wp_mono (wp_when (fun _ => trivial) (idup_steady (covers cwd here) steady))
      fun ip t got => ?_
    obtain ⟨rfl, -, got⟩ := got
    have dev := got.calm.dev ip here
    have inum := got.calm.inum ip here
    have walked := namexFrom_resolved safe entries unlocked parent (elements path) covers
      (by rwa [dev, inum]) got
    rwa [dev, inum] at walked

end Walk

end Xv6.Calls
