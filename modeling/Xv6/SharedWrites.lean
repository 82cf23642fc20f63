import Xv6.FileContents
import Xv6.LogModel
import Xv6.TaggedPieces

/-!
# Writes to a shared file

Processes that share a `struct file` call `filewrite` at the same time.  A call
writes its bytes in pieces, each in a transaction of its own and under the lock of
the inode, at the offset that the processes share; between two pieces other calls
may write theirs.
-/

namespace Xv6.Blocks

open StateTriples LabelledRuns TaggedPieces

/-- `max` in `filewrite` -/
abbrev maxWrite : Nat := (maxopblocks - 1 - 1 - 2) / 2 * 512

/-- `struct file` of an inode -/
structure File where
  writable : Bool
  ip : Nat
  off : UInt32

/-- The loop of `filewrite` from `begin_op` to `end_op`. -/
def writePiece (devsw : UInt16 → UInt32 → Int) (f : File) (addr : Nat → UInt8) (n1 : UInt32) :
    Fs (Int × File) := do
  ilock f.ip
  let r ← writei devsw f.ip addr f.off n1
  return (r, if r > 0 then { f with off := f.off + UInt32.ofNat r.toNat } else f)

/-- A call of `filewrite` in its loop: its number, its bytes, how many of them it has
written, and whether it has met an error. -/
structure Writer where
  call : Nat
  buf : List UInt8
  i : Nat
  failed : Bool

/-- A call that has returned, with what it returned. -/
structure Returned where
  call : Nat
  buf : List UInt8
  result : Int
  deriving DecidableEq

/-- The file system, the file, the calls of the processes, the bytes of all calls up to
now in their order, and the calls that have returned. -/
structure Sharing where
  fs : FsState
  file : File
  writer : Nat → Option Writer
  calls : List (List UInt8)
  returned : List Returned

/-- A process calls `filewrite`, writes the next piece, or returns. -/
inductive Turn where
  | call (p : Nat) (buf : List UInt8)
  | piece (p : Nat)
  | ret (p : Nat)

namespace Sharing

def setWriter (s : Sharing) (p : Nat) (w : Option Writer) : Sharing :=
  { s with writer := Function.update s.writer p w }

/-- One step of one process; there is none where the code panics. -/
def step (devsw : UInt16 → UInt32 → Int) (s : Sharing) : Turn → Option Sharing
  | .call p buf =>
      if (s.writer p).isSome then none
      else if s.file.writable = false then
        some { s with
          calls := s.calls ++ [buf]
          returned := s.returned ++ [⟨s.calls.length, buf, -1⟩] }
      else
        some { s.setWriter p (some ⟨s.calls.length, buf, 0, false⟩) with
          calls := s.calls ++ [buf] }
  | .piece p =>
      match s.writer p with
      | none => none
      | some w =>
          if w.failed ∨ w.buf.length ≤ w.i then none
          else
            let n1 := min (w.buf.length - w.i) maxWrite
            match writePiece devsw s.file (fun k => w.buf.getD (w.i + k) 0) (UInt32.ofNat n1)
              s.fs with
            | .error _ => none
            | .ok ((r, f), fs) =>
                if r < 0 then
                  some { s.setWriter p (some { w with failed := true }) with
                    fs := fs, file := f }
                else if r ≠ n1 then none
                else
                  some { s.setWriter p (some { w with i := w.i + n1 }) with
                    fs := fs, file := f }
  | .ret p =>
      match s.writer p with
      | none => none
      | some w =>
          if w.failed ∨ w.buf.length ≤ w.i then
            some { s.setWriter p none with
              returned := s.returned ++
                [⟨w.call, w.buf, if w.i = w.buf.length then w.buf.length else -1⟩] }
          else none

/-- The bytes of the file. -/
def content (s : Sharing) : List UInt8 :=
  s.fs.content s.file.ip

/-- The bytes of all calls fit in the file. -/
def Fits (old : List UInt8) (s : Sharing) : Prop :=
  old.length + (s.calls.map List.length).sum ≤ maxfile * bsize

/-- The file is open for writing, and at its end. -/
structure Opened (s : Sharing) : Prop where
  settled : Settled s.fs
  ref : 0 < s.fs.ref s.file.ip
  valid : s.fs.valid s.file.ip = true
  file : (s.fs.inode s.file.ip).type ≠ tDev
  writable : s.file.writable = true
  atEnd : s.file.off.toNat = s.content.length

/-- The file has been opened and written to its end, and no call is running. -/
structure Start (s : Sharing) : Prop extends Opened s where
  idle : ∀ p, s.writer p = none
  calls : s.calls = []
  returned : s.returned = []

/-- The pieces in the log are those of the calls: a call that has returned has all its
pieces there, and one that is running those up to where it is. -/
structure Booked (log : List (Nat × List UInt8)) (s : Sharing) : Prop where
  tags : ∀ piece ∈ log, piece.1 < s.calls.length
  writing : ∀ p w, s.writer p = some w → s.calls[w.call]? = some w.buf ∧ w.failed = false ∧
    w.i ≤ w.buf.length ∧
    ofTag w.call log ++ pieces maxWrite (w.buf.drop w.i) = pieces maxWrite w.buf
  done : ∀ call ∈ s.returned, s.calls[call.call]? = some call.buf ∧
    call.result = call.buf.length ∧ ofTag call.call log = pieces maxWrite call.buf
  apart : ∀ p w, s.writer p = some w → (∀ call ∈ s.returned, call.call ≠ w.call) ∧
    ∀ q v, s.writer q = some v → v.call = w.call → q = p
  every : ∀ c, c < s.calls.length → (∃ call ∈ s.returned, call.call = c) ∨
    ∃ p w, s.writer p = some w ∧ w.call = c

end Sharing

/-! ## One piece -/

section Piece

variable {devsw : UInt16 → UInt32 → Int} {s t : Sharing} {old : List UInt8}
  {log : List (Nat × List UInt8)} {p : Nat} {w : Writer}

theorem ilock_of_valid {fs : FsState} {i : Nat} (ref : 0 < fs.ref i)
    (valid : fs.valid i = true) : ilock i fs = .ok ((), fs) := by
  unfold ilock
  rw [bind_of_ok (get_apply fs), if_neg (by omega), valid]
  rfl

/-- What one piece does to the file system and the file. -/
structure PieceWritten (fs fs' : FsState) (f f' : File) (n : Nat) (addr : Nat → UInt8) :
    Prop where
  settled : Settled fs'
  spliced : Spliced fs fs' f.ip f.off.toNat n addr
  ip : f'.ip = f.ip
  writable : f'.writable = f.writable
  off : f'.off.toNat = f.off.toNat + n

/-- One piece is written at the offset, which then lies behind it. -/
theorem writePiece_spec {allowed : FsPanic → Prop} {fs : FsState} {f : File}
    {addr : Nat → UInt8} {n : Nat} (settled : Settled fs) (ref : 0 < fs.ref f.ip)
    (valid : fs.valid f.ip = true) (file : (fs.inode f.ip).type ≠ tDev)
    (inside : f.off.toNat ≤ (fs.content f.ip).length)
    (fits : f.off.toNat + n ≤ maxfile * bsize) (some : 0 < n)
    (room : allowed .outOfBlocks ∨ fs.Room f.ip f.off.toNat n) :
    wp allowed (writePiece devsw f addr (UInt32.ofNat n))
      (fun result fs' => result.1 = n ∧ PieceWritten fs fs' f result.2 n addr) fs := by
  have word : (UInt32.ofNat n).toNat = n := by
    refine UInt32.toNat_ofNat_of_lt' ?_
    have : maxfile * bsize = 71680 := rfl
    have : UInt32.size = 4294967296 := rfl
    omega
  have accepted : ¬((fs.content f.ip).length < f.off.toNat ∨
      2 ^ 32 ≤ f.off.toNat + (UInt32.ofNat n).toNat ∨
      maxfile * bsize < f.off.toNat + (UInt32.ofNat n).toNat) := by
    have : maxfile * bsize = 71680 := rfl
    rw [word]
    omega
  have accept : wp _ (writei devsw f.ip addr f.off (UInt32.ofNat n)) _ fs :=
    writei_accepted devsw settled valid file accepted (by rw [word]; exact room)
  have wrote := wp_and accept (writei_spec settled valid addr f.off (UInt32.ofNat n))
  unfold writePiece
  simp only [wp_bind]
  rw [wp, ilock_of_valid ref valid]
  refine wp_mono wrote fun r fs' ⟨⟨isCount, spliced⟩, settled'⟩ => ?_
  rw [word] at isCount spliced
  subst isCount
  have positive : ((n : Nat) : Int) > 0 := by omega
  simp only [wp_pure, if_pos positive]
  refine ⟨trivial, settled', spliced, rfl, rfl, ?_⟩
  have sum : (f.off + UInt32.ofNat n).toNat = f.off.toNat + (UInt32.ofNat n).toNat := by
    refine toNat_add_of_le (mt add_lt_iff_wraps.mp ?_)
    exact fun wraps => accepted (.inr (.inl wraps))
  rw [Int.toNat_natCast, sum, word]

end Piece

/-! ## The pieces of all calls -/

section Booking

variable {s t : Sharing} {log : List (Nat × List UInt8)} {p : Nat} {w : Writer}
  {buf : List UInt8}

/-- The next piece of a call. -/
theorem pieces_drop {i : Nat} (more : i < buf.length) :
    pieces maxWrite (buf.drop i) =
      (buf.drop i).take maxWrite ::
        pieces maxWrite (buf.drop (i + min (buf.length - i) maxWrite)) := by
  have some : buf.drop i ≠ [] := by
    rw [ne_eq, List.drop_eq_nil_iff]
    omega
  rw [pieces_of_ne_nil some (by decide), List.drop_drop]
  congr 2
  by_cases whole : maxWrite ≤ buf.length - i
  · rw [Nat.min_eq_right whole]
  · rw [Nat.min_eq_left (by omega), List.drop_eq_nil_of_le (by omega),
      List.drop_eq_nil_of_le (by omega)]

theorem map_getD {i : Nat} (less : i ≤ buf.length) :
    (List.range (min (buf.length - i) maxWrite)).map (fun k => buf.getD (i + k) 0) =
      (buf.drop i).take maxWrite := by
  refine List.ext_getElem ?_ fun k _ inside => ?_
  · rw [List.length_map, List.length_range, List.length_take, List.length_drop,
      Nat.min_comm]
  · rw [List.length_take, List.length_drop] at inside
    rw [List.getElem_map, List.getElem_range, List.getElem_take, List.getElem_drop,
      List.getD_eq_getElem?_getD, List.getElem?_eq_getElem (by omega), Option.getD_some]

/-- No call has more bytes in the log than it was given. -/
theorem Sharing.Booked.length_le (booked : s.Booked log) :
    (contents log).length ≤ (s.calls.map List.length).sum := by
  refine length_contents_le booked.tags fun tag => ?_
  have bytes {buf : List UInt8} (here : s.calls[tag.val]? = some buf) :
      s.calls.get tag = buf := by
    rw [List.getElem?_eq_getElem tag.isLt] at here
    exact Option.some.inj here
  rcases booked.every tag tag.isLt with ⟨call, isHere, same⟩ | ⟨p, w, isHere, same⟩
  · obtain ⟨here, _, all⟩ := booked.done call isHere
    rw [same] at here all
    rw [bytes here, all, flatten_pieces (by decide)]
  · obtain ⟨here, _, _, all⟩ := booked.writing p w isHere
    rw [same] at here all
    have whole := congrArg (fun list => (List.flatten list).length) all
    simp only [List.flatten_append, List.length_append] at whole
    rw [flatten_pieces (by decide), flatten_pieces (by decide)] at whole
    rw [bytes here]
    omega

theorem writer_update {writer : Nat → Option Writer} {p q : Nat} {new : Option Writer}
    {v : Writer} (isHere : Function.update writer p new q = some v) :
    q = p ∧ new = some v ∨ q ≠ p ∧ writer q = some v := by
  by_cases mine : q = p
  · subst mine
    rw [Function.update_self] at isHere
    exact .inl ⟨rfl, isHere⟩
  · rw [Function.update_of_ne mine] at isHere
    exact .inr ⟨mine, isHere⟩

/-- A call that begins has written nothing. -/
theorem Sharing.Booked.call (booked : s.Booked log) (idle : s.writer p = none) :
    Sharing.Booked log { s.setWriter p (some ⟨s.calls.length, buf, 0, false⟩) with
      calls := s.calls ++ [buf] } := by
  have old {c : Nat} {bytes : List UInt8} (here : s.calls[c]? = some bytes) :
      (s.calls ++ [buf])[c]? = some bytes ∧ c < s.calls.length := by
    obtain ⟨inside, _⟩ := List.getElem?_eq_some_iff.mp here
    rw [List.getElem?_append_left inside]
    exact ⟨here, inside⟩
  have fresh : ofTag s.calls.length log = [] :=
    ofTag_eq_nil fun piece isHere => (booked.tags piece isHere).ne
  refine ⟨fun piece isHere => ?_, fun q v isHere => ?_, fun call isHere => ?_,
    fun q v isHere => ⟨fun call isDone => ?_, fun r u other same => ?_⟩, fun c inside => ?_⟩
  · have before := booked.tags piece isHere
    simp only [List.length_append, List.length_singleton]
    omega
  · rcases writer_update isHere with ⟨rfl, ⟨⟩⟩ | ⟨_, isHere⟩
    · refine ⟨List.getElem?_concat_length, rfl, Nat.zero_le _, ?_⟩
      rw [fresh]
      rfl
    · obtain ⟨here, rest⟩ := booked.writing q v isHere
      exact ⟨(old here).1, rest⟩
  · obtain ⟨here, rest⟩ := booked.done call isHere
    exact ⟨(old here).1, rest⟩
  · have low := (old (booked.done call isDone).1).2
    rcases writer_update isHere with ⟨rfl, ⟨⟩⟩ | ⟨_, isHere⟩
    · exact low.ne
    · exact (booked.apart q v isHere).1 call isDone
  · rcases writer_update isHere with ⟨rfl, ⟨⟩⟩ | ⟨_, before⟩
    · rcases writer_update other with ⟨rfl, _⟩ | ⟨_, before⟩
      · rfl
      · exact absurd same (old (booked.writing r u before).1).2.ne
    · rcases writer_update other with ⟨rfl, ⟨⟩⟩ | ⟨_, earlier⟩
      · exact absurd same.symm (old (booked.writing q v before).1).2.ne
      · exact (booked.apart q v before).2 r u earlier same
  · simp only [List.length_append, List.length_singleton] at inside
    by_cases newest : c = s.calls.length
    · exact .inr ⟨p, _, Function.update_self .., newest.symm⟩
    · rcases booked.every c (by omega) with isDone | ⟨q, v, isHere, same⟩
      · exact .inl isDone
      · have apart : q ≠ p := by
          rintro rfl
          rw [idle] at isHere
          cases isHere
        exact .inr ⟨q, v, (Function.update_of_ne apart ..).trans isHere, same⟩

/-- The next piece of a call goes to the end of the log. -/
theorem Sharing.Booked.piece (booked : s.Booked log) (running : s.writer p = some w)
    (more : w.i < w.buf.length) :
    Sharing.Booked (log ++ [(w.call, (w.buf.drop w.i).take maxWrite)])
      (s.setWriter p
        (some { w with i := w.i + min (w.buf.length - w.i) maxWrite })) := by
  obtain ⟨here, notFailed, _, upTo⟩ := booked.writing p w running
  obtain ⟨notDone, only⟩ := booked.apart p w running
  obtain ⟨inside, _⟩ := List.getElem?_eq_some_iff.mp here
  refine ⟨fun piece isHere => ?_, fun q v isHere => ?_, fun call isHere => ?_,
    fun q v isHere => ⟨fun call isDone => ?_, fun r u other same => ?_⟩, fun c bound => ?_⟩
  · rcases List.mem_append.mp isHere with before | new
    · exact booked.tags piece before
    · rw [List.mem_singleton.mp new]
      exact inside
  · rcases writer_update isHere with ⟨rfl, ⟨⟩⟩ | ⟨apart, before⟩
    · refine ⟨here, notFailed, by dsimp only; omega, ?_⟩
      rw [ofTag_append_self, List.append_assoc, List.singleton_append, ← pieces_drop more]
      exact upTo
    · have different : w.call ≠ v.call := fun same => apart (only q v before same.symm)
      rw [ofTag_append_of_ne different]
      exact booked.writing q v before
  · rw [ofTag_append_of_ne (notDone call isHere).symm]
    exact booked.done call isHere
  · rcases writer_update isHere with ⟨rfl, ⟨⟩⟩ | ⟨_, before⟩
    · exact notDone call isDone
    · exact (booked.apart q v before).1 call isDone
  · rcases writer_update isHere with ⟨rfl, ⟨⟩⟩ | ⟨_, before⟩
    · rcases writer_update other with ⟨rfl, _⟩ | ⟨_, before⟩
      · rfl
      · exact only r u before same
    · rcases writer_update other with ⟨rfl, ⟨⟩⟩ | ⟨_, earlier⟩
      · exact (only q v before same.symm).symm
      · exact (booked.apart q v before).2 r u earlier same
  · rcases booked.every c bound with isDone | ⟨q, v, before, same⟩
    · exact .inl isDone
    · by_cases mine : q = p
      · subst mine
        rw [running] at before
        cases before
        exact .inr ⟨q, _, Function.update_self .., same⟩
      · exact .inr ⟨q, v, (Function.update_of_ne mine ..).trans before, same⟩

/-- A call that has written all its bytes returns their number. -/
theorem Sharing.Booked.ret (booked : s.Booked log) (running : s.writer p = some w)
    (done : w.buf.length ≤ w.i) :
    Sharing.Booked log { s.setWriter p none with
      returned := s.returned ++
        [⟨w.call, w.buf, if w.i = w.buf.length then w.buf.length else -1⟩] } := by
  obtain ⟨here, _, within, upTo⟩ := booked.writing p w running
  obtain ⟨notDone, only⟩ := booked.apart p w running
  have whole : w.i = w.buf.length := Nat.le_antisymm within done
  rw [List.drop_eq_nil_of_le done, pieces_nil, List.append_nil] at upTo
  refine ⟨booked.tags, fun q v isHere => ?_, fun call isHere => ?_,
    fun q v isHere => ?_, fun c bound => ?_⟩
  · rcases writer_update isHere with ⟨_, ⟨⟩⟩ | ⟨_, before⟩
    exact booked.writing q v before
  · rcases List.mem_append.mp isHere with before | new
    · exact booked.done call before
    · rw [List.mem_singleton.mp new]
      exact ⟨here, if_pos whole, upTo⟩
  · rcases writer_update isHere with ⟨_, ⟨⟩⟩ | ⟨apart, before⟩
    refine ⟨fun call isDone => ?_, fun r u other same => ?_⟩
    · rcases List.mem_append.mp isDone with earlier | new
      · exact (booked.apart q v before).1 call earlier
      · rw [List.mem_singleton.mp new]
        exact fun same => apart (only q v before same.symm)
    · rcases writer_update other with ⟨_, ⟨⟩⟩ | ⟨_, earlier⟩
      exact (booked.apart q v before).2 r u earlier same
  · rcases booked.every c bound with ⟨call, isDone, same⟩ | ⟨q, v, before, same⟩
    · exact .inl ⟨call, List.mem_append_left _ isDone, same⟩
    · by_cases mine : q = p
      · subst mine
        rw [running] at before
        cases before
        exact .inl ⟨_, List.mem_append_right _ (List.mem_singleton_self _), same⟩
      · exact .inr ⟨q, v, (Function.update_of_ne mine ..).trans before, same⟩

end Booking

/-! ## Runs -/

section Runs

variable {devsw : UInt16 → UInt32 → Int} {s t last : Sharing} {old : List UInt8} {ip : Nat}
  {log : List (Nat × List UInt8)} {p : Nat} {w : Writer} {turn : Turn} {turns : List Turn}

/-- The file, which is open, is what it was and then the pieces of a log. -/
structure Appended (old : List UInt8) (ip : Nat) (log : List (Nat × List UInt8))
    (s : Sharing) : Prop where
  opened : s.Opened
  ip : s.file.ip = ip
  content : s.content = old ++ contents log
  booked : s.Booked log

theorem Sharing.Opened.congr (opened : s.Opened) (fs : t.fs = s.fs) (file : t.file = s.file) :
    t.Opened := by
  obtain ⟨settled, ref, valid, type, writable, atEnd⟩ := opened
  refine ⟨fs ▸ settled, ?_, ?_, ?_, file ▸ writable, ?_⟩
  · rw [fs, file]
    exact ref
  · rw [fs, file]
    exact valid
  · rw [fs, file]
    exact type
  · rw [Sharing.content, fs, file]
    exact atEnd

theorem Appended.congr (appended : Appended old ip log s) (fs : t.fs = s.fs)
    (file : t.file = s.file) (booked : t.Booked log) : Appended old ip log t where
  opened := appended.opened.congr fs file
  ip := by rw [file, appended.ip]
  content := by
    rw [← appended.content, Sharing.content, Sharing.content, fs, file]
  booked := booked

/-- The next piece of a call fits in the file. -/
theorem Appended.fits (appended : Appended old ip log s) (running : s.writer p = some w)
    (more : w.i < w.buf.length) (fits : s.Fits old) :
    s.file.off.toNat + min (w.buf.length - w.i) maxWrite ≤ maxfile * bsize := by
  have next := (appended.booked.piece running more).length_le
  have total : old.length + (s.calls.map List.length).sum ≤ maxfile * bsize := fits
  rw [contents_append_singleton, List.length_append, List.length_take, List.length_drop]
    at next
  change _ ≤ (s.calls.map List.length).sum at next
  rw [appended.opened.atEnd, appended.content, List.length_append]
  omega

variable (devsw) in
/-- The next piece of a call, unless the disk is full. -/
theorem Appended.piece {allowed : FsPanic → Prop} (appended : Appended old ip log s)
    (running : s.writer p = some w) (more : w.i < w.buf.length) (fits : s.Fits old)
    (room : allowed .outOfBlocks ∨
      s.fs.Room s.file.ip s.file.off.toNat (min (w.buf.length - w.i) maxWrite)) :
    wp allowed
      (writePiece devsw s.file (fun k => w.buf.getD (w.i + k) 0)
        (UInt32.ofNat (min (w.buf.length - w.i) maxWrite)))
      (fun result fs =>
        result.1 = (min (w.buf.length - w.i) maxWrite : Nat) ∧
          Appended old ip (log ++ [(w.call, (w.buf.drop w.i).take maxWrite)])
            { s.setWriter p
                (some { w with i := w.i + min (w.buf.length - w.i) maxWrite }) with
              fs := fs, file := result.2 }) s.fs := by
  have opened := appended.opened
  have positive : 0 < min (w.buf.length - w.i) maxWrite := by
    have : maxWrite = 1536 := rfl
    omega
  refine wp_mono (writePiece_spec opened.settled opened.ref opened.valid opened.file
    opened.atEnd.le (appended.fits running more fits) positive room)
    fun ⟨r, f⟩ fs ⟨count, written⟩ => ⟨count, ?_⟩
  obtain ⟨settled, spliced, sameIp, sameWritable, off⟩ := written
  dsimp only at sameIp sameWritable off
  have content : fs.content f.ip =
      s.content ++ (w.buf.drop w.i).take maxWrite := by
    have atEnd : s.file.off.toNat = (s.fs.content s.file.ip).length := opened.atEnd
    rw [sameIp, spliced.here, map_getD more.le, atEnd, List.take_length,
      List.drop_eq_nil_of_le (Nat.le_add_right ..), List.append_nil]
    rfl
  obtain ⟨tags, writing, done, apart, every⟩ := appended.booked.piece running more
  refine ⟨⟨settled, ?_, ?_, ?_, ?_, ?_⟩, ?_, ?_, ⟨tags, writing, done, apart, every⟩⟩
  · dsimp only
    rw [sameIp, spliced.ref]
    exact opened.ref
  · dsimp only
    rw [sameIp, spliced.valid]
    exact opened.valid
  · dsimp only
    rw [sameIp, spliced.type]
    exact opened.file
  · exact sameWritable.trans opened.writable
  · change f.off.toNat = (fs.content f.ip).length
    rw [off, content, List.length_append, List.length_take, List.length_drop, opened.atEnd,
      Nat.min_comm]
  · exact sameIp.trans appended.ip
  · change fs.content f.ip = _
    rw [content, contents_append_singleton, ← List.append_assoc, appended.content]

/-- The calls are recorded in their order. -/
theorem calls_of_step (stepped : s.step devsw turn = some t) :
    ∃ more, t.calls = s.calls ++ more := by
  unfold Sharing.step at stepped
  cases turn with
  | call p buf =>
      dsimp only at stepped
      split at stepped
      · cases stepped
      · split at stepped <;> cases stepped <;> exact ⟨[buf], rfl⟩
  | piece p =>
      refine ⟨[], ?_⟩
      rw [List.append_nil]
      dsimp only at stepped
      split at stepped
      · cases stepped
      · split at stepped
        · cases stepped
        · split at stepped
          · cases stepped
          · split at stepped
            · cases stepped
              rfl
            · split at stepped
              · cases stepped
              · cases stepped
                rfl
  | ret p =>
      refine ⟨[], ?_⟩
      rw [List.append_nil]
      dsimp only at stepped
      split at stepped
      · cases stepped
      · split at stepped
        · cases stepped
          rfl
        · cases stepped

theorem fits_of_step (stepped : s.step devsw turn = some t) (fits : t.Fits old) :
    s.Fits old := by
  obtain ⟨more, calls⟩ := calls_of_step stepped
  unfold Sharing.Fits at *
  rw [calls, List.map_append, List.sum_append] at fits
  omega

/-- A step keeps what has been written. -/
theorem appended_of_step (appended : Appended old ip log s) (fits : t.Fits old)
    (stepped : s.step devsw turn = some t) : ∃ log, Appended old ip log t := by
  have before := fits_of_step stepped fits
  unfold Sharing.step at stepped
  cases turn with
  | call p buf =>
      dsimp only at stepped
      split at stepped
      · cases stepped
      · rename_i idle
        rw [if_neg (by rw [appended.opened.writable]; decide)] at stepped
        cases stepped
        have idle : s.writer p = none := Option.not_isSome_iff_eq_none.mp idle
        exact ⟨log, appended.congr rfl rfl (appended.booked.call idle)⟩
  | piece p =>
      dsimp only at stepped
      split at stepped
      · cases stepped
      · rename_i w running
        split at stepped
        · cases stepped
        · rename_i goesOn
          have more : w.i < w.buf.length := Nat.lt_of_not_le (not_or.mp goesOn).2
          split at stepped
          · cases stepped
          · rename_i r f fs wrote
            obtain ⟨count, next⟩ := post_of_wp
              (appended.piece devsw running more before (.inl (rfl : FsPanic.outOfBlocks = _)))
              wrote
            dsimp only at count next
            rw [if_neg (by omega), if_neg (by rw [count]; exact fun same => same rfl)] at stepped
            cases stepped
            exact ⟨_, next⟩
  | ret p =>
      dsimp only at stepped
      split at stepped
      · cases stepped
      · rename_i w running
        split at stepped
        · rename_i stops
          cases stepped
          have done : w.buf.length ≤ w.i := by
            rcases stops with failed | done
            · rw [(appended.booked.writing p w running).2.1] at failed
              cases failed
            · exact done
          exact ⟨log, appended.congr rfl rfl (appended.booked.ret running done)⟩
        · cases stepped

theorem appended_of_run (start : s.Start) (ran : run (Sharing.step devsw) s turns = some last)
    (fits : last.Fits s.content) : ∃ log, Appended s.content s.file.ip log last := by
  have none : Sharing.Booked [] s := by
    refine ⟨nofun, fun p w isHere => ?_, fun call isHere => ?_, fun p w isHere => ?_,
      fun c inside => ?_⟩
    · rw [start.idle p] at isHere
      cases isHere
    · rw [start.returned] at isHere
      cases isHere
    · rw [start.idle p] at isHere
      cases isHere
    · rw [start.calls] at inside
      cases inside
  have first : Appended s.content s.file.ip [] s :=
    ⟨start.toOpened, rfl, (List.append_nil _).symm, none⟩
  have preserved {t u : Sharing} {turn : Turn}
      (before : t.Fits s.content → ∃ log, Appended s.content s.file.ip log t)
      (stepped : t.step devsw turn = some u) :
      u.Fits s.content → ∃ log, Appended s.content s.file.ip log u := fun fits => by
    obtain ⟨log, appended⟩ := before (fits_of_step stepped fits)
    exact appended_of_step appended fits stepped
  exact invariant_of_run preserved (fun _ => ⟨[], first⟩) ran fits

/-- A call can go on unless the disk is full. -/
theorem Appended.progress (devsw : UInt16 → UInt32 → Int) (appended : Appended old ip log s)
    (running : s.writer p = some w) (fits : s.Fits old)
    (room : s.fs.Room s.file.ip s.file.off.toNat (min (w.buf.length - w.i) maxWrite)) :
    (s.step devsw (.piece p)).isSome ∨ (s.step devsw (.ret p)).isSome := by
  obtain ⟨_, notFailed, _, _⟩ := appended.booked.writing p w running
  by_cases more : w.i < w.buf.length
  · obtain ⟨⟨r, f⟩, fs, wrote, count, _⟩ := ok_of_wp
      (appended.piece devsw running more fits (.inr room))
    dsimp only at count
    have goesOn : ¬(w.failed = true ∨ w.buf.length ≤ w.i) := by
      rw [notFailed]
      exact fun stops => stops.elim nofun (Nat.not_le.mpr more)
    left
    simp only [Sharing.step, running]
    rw [if_neg goesOn, wrote]
    dsimp only
    rw [if_neg (by omega), if_neg (by rw [count]; exact fun same => same rfl)]
    rfl
  · right
    simp only [Sharing.step, running]
    rw [if_pos (.inr (Nat.le_of_not_lt more))]
    rfl

/-- Whatever the order in which the calls write their pieces, the file is what it was
and then all the pieces: those of one call in their order, and all of them once it has
returned, with the number of its bytes.  The offset is the size of the file, and no call
panics or waits for another unless the disk is full. -/
theorem sharedWrites_of_run (start : s.Start)
    (ran : run (Sharing.step devsw) s turns = some last) (fits : last.Fits s.content) :
    ∃ log, last.content = s.content ++ contents log ∧
      last.file.off.toNat = last.content.length ∧
      (∀ piece ∈ log, piece.1 < last.calls.length) ∧
      (∀ call ∈ last.returned, last.calls[call.call]? = some call.buf ∧
        call.result = call.buf.length ∧
        ofTag call.call log = pieces maxWrite call.buf) ∧
      (∀ p w, last.writer p = some w → last.calls[w.call]? = some w.buf ∧
        ofTag w.call log <+: pieces maxWrite w.buf ∧
        (last.fs.Room last.file.ip last.file.off.toNat (min (w.buf.length - w.i) maxWrite) →
          (last.step devsw (.piece p)).isSome ∨ (last.step devsw (.ret p)).isSome)) ∧
      ∀ c, c < last.calls.length → (∃ call ∈ last.returned, call.call = c) ∨
        ∃ p w, last.writer p = some w ∧ w.call = c := by
  obtain ⟨log, appended⟩ := appended_of_run start ran fits
  refine ⟨log, appended.content, appended.opened.atEnd, appended.booked.tags,
    appended.booked.done, fun p w running => ?_, appended.booked.every⟩
  obtain ⟨here, _, _, upTo⟩ := appended.booked.writing p w running
  exact ⟨here, ⟨_, upTo⟩, appended.progress devsw running fits⟩

end Runs

/-- Two processes at an empty file. -/
def openedEmpty (fs : FsState) : Sharing where
  fs := fs
  file := ⟨true, 1, 0⟩
  writer := fun _ => none
  calls := []
  returned := []

/-- The second of two calls is the first to write. -/
theorem twoCalls_shared :
    ∃ fs last, run (Blocks.step fun _ _ => -1) emptyFs [.ialloc tFile, .ilock 1] = some fs ∧
      run (Sharing.step fun _ _ => -1) (openedEmpty fs)
        [.call 0 [1, 2], .call 1 [3], .piece 1, .piece 0, .ret 0, .ret 1] = some last ∧
      last.content = [3, 1, 2] ∧
      ∃ log, last.content = (openedEmpty fs).content ++ contents log ∧
        ∀ call ∈ last.returned, ofTag call.call log = pieces maxWrite call.buf := by
  have made : ((run (Blocks.step fun _ _ => -1) emptyFs [.ialloc tFile, .ilock 1]).map
      fun fs => (decide (0 < fs.ref 1 ∧ fs.valid 1 = true ∧ (fs.inode 1).type = tFile),
        (openedEmpty fs).content,
        (run (Sharing.step fun _ _ => -1) (openedEmpty fs)
          [.call 0 [1, 2], .call 1 [3], .piece 1, .piece 0, .ret 0, .ret 1]).map
            fun last => (last.content, last.calls))) =
        some (true, [], some ([3, 1, 2], [[1, 2], [3]])) := by
    decide +kernel
  obtain ⟨fs, ran, facts⟩ := Option.map_eq_some_iff.mp made
  simp only [Prod.mk.injEq, decide_eq_true_eq] at facts
  obtain ⟨⟨ref, valid, type⟩, empty, ended⟩ := facts
  obtain ⟨last, wrote, result⟩ := Option.map_eq_some_iff.mp ended
  simp only [Prod.mk.injEq] at result
  have settled : Settled fs :=
    invariant_of_run settled_of_step (settled_of_start start_emptyFs) ran
  have start : (openedEmpty fs).Start := by
    refine ⟨⟨settled, ref, valid, ?_, rfl, ?_⟩, fun _ => rfl, rfl, rfl⟩
    · rw [show (openedEmpty fs).file.ip = 1 from rfl, show (openedEmpty fs).fs = fs from rfl,
        type]
      decide
    · rw [empty]
      rfl
  have fits : last.Fits (openedEmpty fs).content := by
    rw [Sharing.Fits, empty, result.2]
    decide
  obtain ⟨log, content, _, _, returned, _⟩ := sharedWrites_of_run start wrote fits
  exact ⟨fs, last, ran, wrote, result.1, log, content,
    fun call isDone => (returned call isDone).2.2⟩

end Xv6.Blocks
