import Xv6.ConsoleModel

/-!
# Lines from the console

The three indices stay in order however often they wrap around: readers take the
characters between `r` and `w`, and the interrupt handler edits those between `w`
and `e`.  The latter are the line that has been typed, and what the readers are given
is what newlines, marks for the end of the input and full buffers have committed,
without the marks.
-/

namespace Xv6.Console

open RingBuffer

theorem inputBuf_dvd : inputBuf ∣ 2 ^ 32 := by decide

/-- `w - r <= e - r <= INPUT_BUF`, and a full buffer is readable to its end. -/
structure Ordered (input : Input) : Prop where
  edited : count input.r input.w ≤ count input.r input.e
  fits : count input.r input.e ≤ inputBuf
  full : count input.r input.e = inputBuf → input.w = input.e

/-! ## Typing -/

/-- Characters behind `w` are taken back. -/
structure Erased (input input' : Input) : Prop where
  same : input' = { input with e := input'.e }
  low : count input.r input.w ≤ count input.r input'.e
  high : count input.r input'.e ≤ count input.r input.e

theorem erased_refl {input : Input} (ordered : Ordered input) : Erased input input :=
  ⟨rfl, ordered.edited, le_rfl⟩

/-- One character behind `w` is taken back. -/
theorem erased_back {input : Input} (ordered : Ordered input)
    (some : input.e ≠ input.w) : Erased input { input with e := input.e - 1 } := by
  have split := count_trans ordered.edited
  have behind : 0 < count input.w input.e :=
    Nat.pos_of_ne_zero fun none => some (count_eq_zero_iff.mp none).symm
  have notFront : input.e ≠ input.r := by
    intro front
    have zero : count input.r input.e = 0 := count_eq_zero_iff.mpr front.symm
    omega
  have back := count_back notFront
  refine ⟨rfl, ?_, ?_⟩
  · change count input.r input.w ≤ count input.r (input.e - 1#32)
    omega
  · change count input.r (input.e - 1#32) ≤ count input.r input.e
    omega

theorem Erased.ordered {input input' : Input} (ordered : Ordered input)
    (erased : Erased input input') : Ordered input' := by
  have high := erased.high
  have low := erased.low
  have fits := ordered.fits
  rw [erased.same]
  refine ⟨low, ?_, fun whole => ?_⟩
  · exact le_trans high fits
  · -- The buffer was full before, so there was nothing to take back.
    have before : count input.r input.e = inputBuf := by
      change count input.r input'.e = inputBuf at whole
      omega
    have same : input'.e = input.e := by
      have first : input'.e = input.r + BitVec.ofNat 32 (count input.r input'.e) := nwrite_eq
      have second : input.e = input.r + BitVec.ofNat 32 (count input.r input.e) := nwrite_eq
      change count input.r input'.e = inputBuf at whole
      rw [first, second, whole, before]
    exact (ordered.full before).trans same.symm

theorem Erased.trans {input middle last : Input} (first : Erased input middle)
    (second : Erased middle last) : Erased input last := by
  have same := first.same
  obtain ⟨sameLast, low, high⟩ := second
  have rEq : middle.r = input.r := by rw [same]
  have wEq : middle.w = input.w := by rw [same]
  rw [rEq, wEq] at low
  rw [rEq] at high
  refine ⟨?_, low, high.trans first.high⟩
  rw [sameLast, same]

theorem erased_killLine {input : Input} (ordered : Ordered input) (fuel : Nat) :
    Erased input (killLine fuel input).1 := by
  induction fuel generalizing input with
  | zero => exact erased_refl ordered
  | succ fuel ih =>
      unfold killLine
      split
      · rename_i more
        have back := erased_back ordered more.1
        exact back.trans (ih (back.ordered ordered))
      · exact erased_refl ordered

/-- A character is stored behind the others, and may make them readable. -/
structure Stored (input input' : Input) (c : UInt8) : Prop where
  room : count input.r input.e < inputBuf
  buf : input'.buf = Function.update input.buf (cell inputBuf input.e) c
  r : input'.r = input.r
  e : input'.e = input.e + 1
  w : input'.w = input.e + 1 ∨
    (input'.w = input.w ∧ input.e + 1 ≠ input.r + BitVec.ofNat 32 inputBuf)

theorem key_cases {input : Input} (ordered : Ordered input) (c : UInt8) :
    Erased input (key input c).1 ∨ ∃ d, Stored input (key input c).1 d := by
  unfold key
  split
  · exact .inl (erased_refl ordered)
  · split
    · exact .inl (erased_killLine ordered _)
    · split
      · split
        · rename_i some
          exact .inl (erased_back ordered some)
        · exact .inl (erased_refl ordered)
      · split
        · rename_i room
          generalize (if c = carriageReturn then newline else c) = d
          simp only
          split
          · exact .inr ⟨d, room.2, rfl, rfl, rfl, .inl rfl⟩
          · rename_i uncommitted
            refine .inr ⟨d, room.2, rfl, rfl, rfl, .inr ⟨rfl, ?_⟩⟩
            exact fun isFull => uncommitted (.inr (.inr isFull))
        · exact .inl (erased_refl ordered)

theorem Stored.count_e {input input' : Input} {c : UInt8} (stored : Stored input input' c) :
    count input'.r input'.e = count input.r input.e + 1 := by
  have room : count input.r input.e < 128 := stored.room
  rw [stored.r, stored.e]
  exact count_push (by omega)

theorem Stored.ordered {input input' : Input} {c : UInt8} (ordered : Ordered input)
    (stored : Stored input input' c) : Ordered input' := by
  have room := stored.room
  have next := stored.count_e
  have edited := ordered.edited
  rcases stored.w with committed | ⟨same, notFull⟩
  · have wEq : input'.w = input'.e := by rw [committed, stored.e]
    exact ⟨by rw [wEq], by omega, fun _ => wEq⟩
  · refine ⟨?_, by omega, fun whole => ?_⟩
    · rw [stored.r, same] at *
      omega
    · refine absurd ?_ notFull
      rw [stored.r, stored.e] at whole
      exact (eq_add_iff (by decide)).mpr whole

theorem key_ordered {input : Input} (ordered : Ordered input) (c : UInt8) :
    Ordered (key input c).1 := by
  rcases key_cases ordered c with erased | ⟨d, stored⟩
  · exact erased.ordered ordered
  · exact stored.ordered ordered

/-- What is readable grows by what is committed. -/
theorem key_contents {input : Input} (ordered : Ordered input) (c : UInt8) :
    contents (key input c).1.buf (key input c).1.r (key input c).1.w =
      contents input.buf input.r input.w ++
        contents (key input c).1.buf input.w (key input c).1.w := by
  have after := key_ordered ordered c
  rcases key_cases ordered c with erased | ⟨d, stored⟩
  · rw [erased.same]
    simp only
    rw [contents_self, List.append_nil]
  · generalize (key input c).1 = input' at *
    have kept : contents input'.buf input.r input.w = contents input.buf input.r input.w := by
      rw [stored.buf]
      exact contents_update inputBuf_dvd ordered.edited stored.room d
    have order : count input.r input.w ≤ count input.r input'.w := by
      rcases stored.w with committed | ⟨same, _⟩
      · have next := stored.count_e
        have edited := ordered.edited
        rw [stored.r, stored.e] at next
        rw [committed]
        omega
      · rw [same]
    rw [stored.r, contents_append order, kept]

/-- Editing keys take back characters behind `w` and change nothing else. -/
theorem edit_erases {input : Input} (ordered : Ordered input) {c : UInt8}
    (editing : c = ctrlU ∨ c = ctrlH ∨ c = del) : Erased input (key input c).1 := by
  unfold key
  rcases editing with rfl | rfl | rfl
  · exact erased_killLine ordered _
  · simp only [show ¬ ctrlH = ctrlP by decide, show ¬ ctrlH = ctrlU by decide, if_false,
      true_or, if_true]
    split
    · rename_i some
      exact erased_back ordered some
    · exact erased_refl ordered
  · simp only [show ¬ del = ctrlP by decide, show ¬ del = ctrlU by decide, if_false,
      or_true, if_true]
    split
    · rename_i some
      exact erased_back ordered some
    · exact erased_refl ordered

/-! ## The line -/

/-- The last character in front of `e`. -/
theorem contents_back {input : Input} (some : input.e ≠ input.w) :
    contents input.buf input.w input.e =
      contents input.buf input.w (input.e - 1) ++
        [input.buf (cell inputBuf (input.e - 1))] := by
  have fewer : count input.w (input.e - 1) + 1 = count input.w input.e := count_back some
  have next : input.e - 1 + BitVec.ofNat 32 1 = input.e := BitVec.sub_add_cancel _ _
  have last : input.e - 1 ≠ input.e := by
    intro same
    rw [same] at fewer
    omega
  rw [contents_append (by omega : count input.w (input.e - 1) ≤ count input.w input.e),
    contents_pop last, next, contents_self]

/-- The loop for `C('U')` takes back a whole line. -/
theorem killLine_e {input : Input} {fuel : Nat} (enough : count input.w input.e ≤ fuel)
    (line : ∀ c ∈ contents input.buf input.w input.e, c ≠ newline) :
    (killLine fuel input).1.e = input.w := by
  induction fuel generalizing input with
  | zero => exact (count_eq_zero_iff.mp (Nat.le_zero.mp enough)).symm
  | succ fuel ih =>
      by_cases none' : input.e = input.w
      · simp only [killLine, none', ne_eq, not_true, false_and, if_false]
      · have back := contents_back none'
        have fewer : count input.w (input.e - 1) + 1 = count input.w input.e := count_back none'
        have notNewline : input.buf (cell inputBuf (input.e - 1)) ≠ newline := by
          apply line
          rw [back]
          exact List.mem_append_right _ (List.mem_singleton_self _)
        simp only [killLine, ne_eq, none', notNewline, not_false_eq_true, and_true, if_true]
        refine @ih { input with e := input.e - 1 } ?_ ?_
        · change count input.w (input.e - 1) ≤ fuel
          omega
        · intro c isHere
          apply line
          rw [back]
          exact List.mem_append_left _ isHere

/-- What `consoleintr` does to the line and to what is committed, when `w` and `e`
enclose the line. -/
theorem key_typed {input : Input} (ordered : Ordered input) (c : UInt8) (typed : Typed)
    (line : typed.line = contents input.buf input.w input.e)
    (open' : ∀ c ∈ typed.line, c ≠ newline) :
    (typed.type (count input.r input.w) c).line =
        contents (key input c).1.buf (key input c).1.w (key input c).1.e ∧
      (typed.type (count input.r input.w) c).committed =
        typed.committed ++ contents (key input c).1.buf input.w (key input c).1.w ∧
      ∀ c' ∈ (typed.type (count input.r input.w) c).line, c' ≠ newline := by
  have nothing (buf : Fin inputBuf → UInt8) : contents buf input.w input.w = [] :=
    contents_self buf input.w
  have same : typed.line = contents input.buf input.w input.e ∧
      typed.committed = typed.committed ++ contents input.buf input.w input.w ∧
      ∀ c ∈ typed.line, c ≠ newline :=
    ⟨line, by rw [nothing, List.append_nil], open'⟩
  have counted : count input.r input.w + typed.line.length = count input.r input.e := by
    rw [line, length_contents]
    exact count_trans ordered.edited
  unfold Typed.type key
  by_cases listing : c = ctrlP
  · simp only [listing, true_or, if_true]
    exact same
  by_cases null : c = 0
  · subst null
    simp only [listing, or_true, if_true, if_false, ne_eq, not_true, false_and]
    exact same
  simp only [listing, null, or_self, if_false]
  by_cases kill : c = ctrlU
  · simp only [kill, if_true]
    have enough : count input.w input.e ≤ (input.e - input.w).toNat := le_rfl
    have ends := killLine_e enough (line ▸ open')
    have erased := erased_killLine ordered (input.e - input.w).toNat
    rw [erased.same]
    simp only
    rw [ends, nothing, List.append_nil]
    exact ⟨rfl, rfl, fun _ isHere => absurd isHere List.not_mem_nil⟩
  simp only [kill, if_false]
  by_cases erase : c = ctrlH ∨ c = del
  · simp only [if_pos erase]
    have shorter : ∀ c ∈ typed.line.dropLast, c ≠ newline :=
      fun c isHere => open' c (List.dropLast_subset _ isHere)
    by_cases none' : input.e = input.w
    · simp only [none', ne_eq, not_true, if_false]
      refine ⟨?_, same.2.1, shorter⟩
      rw [line, none', nothing]
      rfl
    · simp only [ne_eq, none', not_false_eq_true, if_true]
      refine ⟨?_, same.2.1, shorter⟩
      rw [line, contents_back none', List.dropLast_concat]
  simp only [if_neg erase]
  have fits : (input.e - input.r).toNat = count input.r input.e := rfl
  by_cases room : count input.r input.e < inputBuf
  · have stores : c ≠ 0 ∧ count input.r input.e < inputBuf := ⟨null, room⟩
    rw [counted, fits, if_pos room, if_pos stores]
    generalize (if c = carriageReturn then newline else c) = d
    have small : count input.r input.e < 128 := room
    have behind : count input.w input.e ≤ count input.r input.e := by
      rw [← count_trans ordered.edited]
      exact Nat.le_add_left _ _
    have longer : typed.line ++ [d] = contents
        (Function.update input.buf (cell inputBuf input.e) d) input.w (input.e + 1) := by
      rw [line]
      exact (contents_push inputBuf_dvd (by omega) (by omega) d).symm
    have full : input.e + 1 = input.r + BitVec.ofNat 32 inputBuf ↔
        count input.r input.w + (typed.line ++ [d]).length = inputBuf := by
      rw [eq_add_iff (by decide), List.length_append, List.length_singleton, ← Nat.add_assoc,
        counted, show input.e + 1 = input.e + BitVec.ofNat 32 1 from rfl, count_push (by omega)]
    simp only [full]
    by_cases commits : d = newline ∨ d = ctrlD ∨
        count input.r input.w + (typed.line ++ [d]).length = inputBuf
    · simp only [if_pos commits]
      refine ⟨(contents_self _ _).symm, ?_, fun _ isHere => absurd isHere List.not_mem_nil⟩
      rw [longer]
    · simp only [if_neg commits]
      refine ⟨longer, ?_, ?_⟩
      · rw [contents_self, List.append_nil]
      · intro c' isHere
        rcases List.mem_append.mp isHere with before | new
        · exact open' c' before
        · rw [List.mem_singleton.mp new]
          exact fun isNewline => commits (.inl isNewline)
  · rw [counted, fits, if_neg room, if_neg (fun both => room both.2)]
    exact same

/-! ## Reading -/

/-- Neither a newline nor a mark for the end of the input. -/
def Plain (text : List UInt8) : Prop := ∀ c ∈ text, c ≠ newline ∧ c ≠ ctrlD

/-- What a reader has done when it has passed the characters `passed` of those that
were readable: `rest` are the others. -/
def Took (passed rest got got' : List UInt8) (n : Nat) : Ending → Prop
  | .sleep => Plain passed ∧ got' = got ++ passed ∧ rest = [] ∧ 0 < n
  | .count => Plain passed ∧ got' = got ++ passed ∧ n = 0
  | .line => ∃ text, Plain text ∧ passed = text ++ [newline] ∧
      got' = got ++ text ++ [newline]
  | .eof => ∃ text, Plain text ∧ got' = got ++ text ∧
      ((passed = text ∧ rest.head? = some ctrlD) ∨ passed = text ++ [ctrlD]) ∧ 0 < n

theorem Took.cons {passed rest got got' : List UInt8} {n : Nat} {ending : Ending}
    {c : UInt8} (plain : c ≠ newline ∧ c ≠ ctrlD)
    (took : Took passed rest (got ++ [c]) got' n ending) :
    Took (c :: passed) rest got got' n ending := by
  have plainCons {text : List UInt8} (isPlain : Plain text) : Plain (c :: text) := by
    intro d isHere
    rcases List.mem_cons.mp isHere with rfl | later
    · exact plain
    · exact isPlain d later
  cases ending with
  | sleep =>
      obtain ⟨isPlain, bytes, empty, left⟩ := took
      exact ⟨plainCons isPlain, by rw [bytes, List.append_assoc]; rfl, empty, left⟩
  | count =>
      obtain ⟨isPlain, bytes, left⟩ := took
      exact ⟨plainCons isPlain, by rw [bytes, List.append_assoc]; rfl, left⟩
  | line =>
      obtain ⟨text, isPlain, isPassed, bytes⟩ := took
      refine ⟨c :: text, plainCons isPlain, by rw [isPassed]; rfl, ?_⟩
      rw [bytes]
      simp
  | eof =>
      obtain ⟨text, isPlain, bytes, isPassed, left⟩ := took
      refine ⟨c :: text, plainCons isPlain, by rw [bytes, List.append_assoc]; rfl, ?_, left⟩
      exact isPassed.imp (fun h => ⟨by rw [h.1], h.2⟩) fun h => by rw [h]; rfl

/-- The bytes that a reader stores are those that it passes without the marks. -/
theorem Took.filter {passed rest got got' : List UInt8} {n : Nat} {ending : Ending}
    (took : Took passed rest got got' n ending) :
    got' = got ++ passed.filter (· ≠ ctrlD) := by
  have kept {text : List UInt8} (isPlain : Plain text) :
      text.filter (· ≠ ctrlD) = text := by
    refine List.filter_eq_self.mpr fun c isHere => ?_
    exact decide_eq_true (isPlain c isHere).2
  cases ending with
  | sleep => rw [took.2.1, kept took.1]
  | count => rw [took.2.1, kept took.1]
  | line =>
      obtain ⟨text, isPlain, isPassed, bytes⟩ := took
      rw [bytes, isPassed, List.filter_append, kept isPlain, List.append_assoc]
      rfl
  | eof =>
      obtain ⟨text, isPlain, bytes, isPassed | isPassed, _⟩ := took
      · rw [bytes, isPassed.1, kept isPlain]
      · rw [bytes, isPassed, List.filter_append, kept isPlain]
        simp

/-- What the loop of `consoleread` does to the readable characters. -/
theorem readLoop_took {target n : Nat} {input : Input} {got : List UInt8} :
    ∃ m ≤ count input.r input.w,
      (readLoop target n input got).1 =
        { input with r := input.r + BitVec.ofNat 32 m } ∧
      Took ((contents input.buf input.r input.w).take m)
        ((contents input.buf input.r input.w).drop m) got
        (readLoop target n input got).2.2.1 (readLoop target n input got).2.1
        (readLoop target n input got).2.2.2 ∧
      (readLoop target n input got).2.1 + (readLoop target n input got).2.2.1.length =
        n + got.length := by
  have stay : ({ input with r := input.r + BitVec.ofNat 32 0 } : Input) = input := by
    rw [BitVec.add_zero]
  have nothing : Plain [] := fun _ isHere => absurd isHere List.not_mem_nil
  induction n generalizing input got with
  | zero =>
      refine ⟨0, Nat.zero_le _, stay.symm, ⟨?_, ?_, rfl⟩, rfl⟩
      · rw [List.take_zero]
        exact nothing
      · rw [List.take_zero, List.append_nil]
        rfl
  | succ n ih =>
      unfold readLoop
      by_cases empty : input.r = input.w
      · simp only [if_pos empty]
        refine ⟨0, Nat.zero_le _, stay.symm, ⟨?_, ?_, ?_, Nat.succ_pos n⟩, trivial⟩
        · rw [List.take_zero]
          exact nothing
        · rw [List.take_zero, List.append_nil]
        · rw [empty, contents_self]
          rfl
      · have front : contents input.buf _ _ = _ := contents_pop empty
        have fewer := count_pop empty
        simp only [if_neg empty]
        rw [front]
        generalize input.buf (cell inputBuf input.r) = c
        have one : input.r + 1 = input.r + BitVec.ofNat 32 1 := rfl
        by_cases mark : c = ctrlD
        · subst mark
          simp only [if_true]
          by_cases later : n + 1 < target
          · simp only [if_pos later]
            refine ⟨0, Nat.zero_le _, stay.symm,
              ⟨[], nothing, by simp, .inl ?_, Nat.succ_pos n⟩, trivial⟩
            exact ⟨rfl, rfl⟩
          · simp only [if_neg later]
            refine ⟨1, by omega, rfl, ⟨[], nothing, by simp, .inr rfl, Nat.succ_pos n⟩, trivial⟩
        · by_cases line : c = newline
          · subst line
            simp only [if_neg mark, if_true]
            refine ⟨1, by omega, rfl, ⟨[], nothing, rfl, by simp⟩, ?_⟩
            rw [List.length_append, List.length_singleton]
            omega
          · simp only [if_neg mark, if_neg line]
            obtain ⟨m, within, moved, took, counted⟩ :=
              @ih { input with r := input.r + 1 } (got ++ [c]) (by
                rw [BitVec.add_zero])
            refine ⟨m + 1, ?_, ?_, took.cons ⟨line, mark⟩, ?_⟩
            · change m ≤ count (input.r + 1#32) input.w at within
              omega
            · rw [moved, one]
              simp only
              rw [BitVec.add_assoc, ← BitVec.ofNat_add, Nat.add_comm 1 m]
            · rw [counted, List.length_append, List.length_singleton]
              omega

/-! ## Runs -/

/-- The bytes stored for a call. -/
def System.handedTo (s : System) (call : Nat) : List UInt8 :=
  (s.handed.filter fun entry => entry.1 = call).map Prod.snd

/-- A call that is still reading has met neither a newline nor a mark. -/
structure Reads (s : System) (reader : Reader) : Prop where
  plain : Plain reader.got
  left : 0 < reader.n
  counted : reader.n + reader.got.length = reader.target
  bytes : reader.got = s.handedTo reader.call
  known : reader.call < s.calls

/-- A call has stopped at its count, at the first newline or at the first mark. -/
def StopsRight (f : Finished) : Prop :=
  match f.ending with
  | .sleep => False
  | .count => Plain f.got ∧ f.got.length = f.target
  | .line => ∃ text, Plain text ∧ f.got = text ++ [newline] ∧ f.got.length ≤ f.target
  | .eof => Plain f.got ∧ f.got.length < f.target

/-- What holds between any two steps. -/
structure Inv (s : System) : Prop where
  ordered : Ordered s.input
  committed : s.typed.committed = s.consumed ++ contents s.input.buf s.input.r s.input.w
  line : s.typed.line = contents s.input.buf s.input.w s.input.e
  unbroken : ∀ c ∈ s.typed.line, c ≠ newline
  handed : s.handed.map Prod.snd = s.consumed.filter (· ≠ ctrlD)
  reads : ∀ p reader, s.reader p = some reader → Reads s reader
  distinct : ∀ p q a b, s.reader p = some a → s.reader q = some b → a.call = b.call →
    p = q
  stops : ∀ f ∈ s.finished, StopsRight f ∧ f.got = s.handedTo f.call ∧ f.call < s.calls ∧
    ∀ p reader, s.reader p = some reader → reader.call ≠ f.call
  known : ∀ entry ∈ s.handed, entry.1 < s.calls

theorem inv_start {s : System} (start : s.Start) : Inv s := by
  have empty : contents s.input.buf s.input.r s.input.w = [] := by
    rw [start.w, contents_self]
  refine ⟨⟨?_, ?_, fun _ => ?_⟩, ?_, ?_, ?_, ?_, fun p reader here => ?_,
    fun p q a b here => ?_, fun f here => ?_, fun entry here => ?_⟩
  · rw [start.w, start.e]
  · rw [start.e, count_self]
    exact Nat.zero_le _
  · rw [start.w, start.e]
  · rw [start.typed, start.consumed, empty]
    rfl
  · rw [start.typed, start.w, start.e, contents_self]
  · rw [start.typed]
    exact nofun
  · rw [start.handed, start.consumed]
    rfl
  · rw [start.reader p] at here
    cases here
  · rw [start.reader p] at here
    cases here
  · rw [start.finished] at here
    cases here
  · rw [start.handed] at here
    cases here

/-- A character is typed. -/
theorem inv_key {s s' : System} {c : UInt8} (inv : Inv s)
    (stepped : s.step (.key c) = some s') : Inv s' := by
  cases stepped
  have unread : s.typed.committed.length - s.consumed.length = count s.input.r s.input.w := by
    rw [inv.committed, List.length_append, Nat.add_sub_cancel_left, length_contents]
  rw [unread]
  obtain ⟨line, committed, unbroken⟩ := key_typed inv.ordered c s.typed inv.line inv.unbroken
  refine ⟨key_ordered inv.ordered c, ?_, line, unbroken, inv.handed, fun p reader here => ?_,
    inv.distinct, inv.stops, inv.known⟩
  · change (s.typed.type _ c).committed = s.consumed ++ _
    rw [committed, key_contents inv.ordered c, inv.committed, List.append_assoc]
  · obtain ⟨plain, left, counted, bytes, known⟩ := inv.reads p reader here
    exact ⟨plain, left, counted, bytes, known⟩

/-- A reader moves `r` within the readable characters. -/
theorem read_ordered {input : Input} (ordered : Ordered input) {m : Nat}
    (within : m ≤ count input.r input.w) :
    Ordered { input with r := input.r + BitVec.ofNat 32 m } := by
  have edited := ordered.edited
  have fits : count input.r input.e ≤ 128 := ordered.fits
  have moved : count input.r (input.r + BitVec.ofNat 32 m) = m := count_add (by omega)
  have toW := @count_trans 32 input.r (input.r + BitVec.ofNat 32 m) input.w (by omega)
  have toE := @count_trans 32 input.r (input.r + BitVec.ofNat 32 m) input.e (by omega)
  refine ⟨?_, ?_, fun whole => ordered.full ?_⟩
  · change count (input.r + BitVec.ofNat 32 m) input.w ≤
      count (input.r + BitVec.ofNat 32 m) input.e
    omega
  · change count (input.r + BitVec.ofNat 32 m) input.e ≤ 128
    omega
  · change count (input.r + BitVec.ofNat 32 m) input.e = 128 at whole
    change count input.r input.e = 128
    omega

/-- The characters that a reader passes, and those it leaves. -/
theorem contents_moved {input : Input} (ordered : Ordered input) {m : Nat}
    (within : m ≤ count input.r input.w) :
    contents input.buf input.r (input.r + BitVec.ofNat 32 m) =
        (contents input.buf input.r input.w).take m ∧
      contents input.buf (input.r + BitVec.ofNat 32 m) input.w =
        (contents input.buf input.r input.w).drop m := by
  have edited := ordered.edited
  have fits : count input.r input.e ≤ 128 := ordered.fits
  have moved : count input.r (input.r + BitVec.ofNat 32 m) = m := count_add (by omega)
  have order : count input.r (input.r + BitVec.ofNat 32 m) ≤ count input.r input.w := by
    omega
  have length := length_contents input.buf input.r (input.r + BitVec.ofNat 32 m)
  rw [moved] at length
  rw [contents_append order]
  exact ⟨(List.take_left' length).symm, (List.drop_left' length).symm⟩

theorem handedTo_append {s s' : System} {call call' : Nat} {bytes : List UInt8}
    (handed : s'.handed = s.handed ++ bytes.map (call, ·)) :
    s'.handedTo call' = s.handedTo call' ++ if call = call' then bytes else [] := by
  unfold System.handedTo
  rw [handed, List.filter_append, List.map_append]
  congr 1
  by_cases same : call = call'
  · rw [if_pos same, List.filter_eq_self.mpr (fun entry here => ?_), List.map_map]
    · exact List.map_id bytes
    · obtain ⟨c, _, rfl⟩ := List.mem_map.mp here
      exact decide_eq_true same
  · rw [if_neg same, List.filter_eq_nil_iff.mpr (fun entry here => ?_)]
    · rfl
    · obtain ⟨c, _, rfl⟩ := List.mem_map.mp here
      simpa using same

/-- A call that has stopped and does not sleep has stopped where it should. -/
theorem Took.stopsRight {passed rest got got' : List UInt8} {n call target : Nat}
    {ending : Ending} (took : Took passed rest got got' n ending) (plain : Plain got)
    (counted : n + got'.length = target) (ended : ending ≠ .sleep) :
    StopsRight ⟨call, target, got', ending⟩ := by
  have both {text : List UInt8} (isPlain : Plain text) : Plain (got ++ text) := by
    intro c here
    rcases List.mem_append.mp here with first | second
    · exact plain c first
    · exact isPlain c second
  cases ending with
  | sleep => exact absurd rfl ended
  | count =>
      obtain ⟨isPlain, rfl, rfl⟩ := took
      refine ⟨both isPlain, ?_⟩
      change (got ++ passed).length = target
      omega
  | line =>
      obtain ⟨text, isPlain, _, rfl⟩ := took
      refine ⟨got ++ text, both isPlain, rfl, ?_⟩
      change (got ++ text ++ [newline]).length ≤ target
      omega
  | eof =>
      obtain ⟨text, isPlain, rfl, _, left⟩ := took
      refine ⟨both isPlain, ?_⟩
      change (got ++ text).length < target
      omega

/-- A reader runs until it sleeps or returns. -/
theorem inv_runReader {s : System} {p : Nat} {reader : Reader} (inv : Inv s)
    (plain : Plain reader.got) (counted : reader.n + reader.got.length = reader.target)
    (bytes : reader.got = s.handedTo reader.call) (known : reader.call < s.calls)
    (apart : ∀ q a, q ≠ p → s.reader q = some a → a.call ≠ reader.call)
    (fresh : ∀ f ∈ s.finished, f.call ≠ reader.call) : Inv (s.runReader p reader) := by
  obtain ⟨m, within, moved, took, left⟩ :=
    @readLoop_took reader.target reader.n s.input reader.got
  obtain ⟨passed, rest⟩ := contents_moved inv.ordered within
  have filtered := took.filter
  have stored : (readLoop reader.target reader.n s.input reader.got).2.2.1.drop
      reader.got.length =
        ((contents s.input.buf s.input.r s.input.w).take m).filter (· ≠ ctrlD) := by
    rw [filtered, List.drop_left]
  generalize resultEq : readLoop reader.target reader.n s.input reader.got = result at *
  obtain ⟨input', n', got', ending⟩ := result
  simp only at moved took left filtered stored
  have runEq : s.runReader p reader =
      { s with
        input := input'
        reader := Function.update s.reader p
          (if ending = .sleep then some { reader with n := n', got := got' } else none)
        consumed := s.consumed ++ contents s.input.buf s.input.r input'.r
        handed := s.handed ++ (got'.drop reader.got.length).map (reader.call, ·)
        finished := if ending = .sleep then s.finished
          else s.finished ++ [⟨reader.call, reader.target, got', ending⟩] } := by
    unfold System.runReader
    rw [resultEq]
  have handedEq : (s.runReader p reader).handed =
      s.handed ++ (got'.drop reader.got.length).map (reader.call, ·) := by
    rw [runEq]
  have own : got' = (s.runReader p reader).handedTo reader.call := by
    rw [handedTo_append handedEq, if_pos rfl, ← bytes, filtered, List.drop_left]
  have others {call : Nat} (other : call ≠ reader.call) :
      (s.runReader p reader).handedTo call = s.handedTo call := by
    rw [handedTo_append handedEq, if_neg (Ne.symm other), List.append_nil]
  have readerEq (q : Nat) : (s.runReader p reader).reader q =
      if q = p then
        (if ending = .sleep then some { reader with n := n', got := got' } else none)
      else s.reader q := by
    rw [runEq]
    exact Function.update_apply ..
  -- The call that runs, if it goes on to sleep, and the other calls.
  have current {q : Nat} {a : Reader} (here : (s.runReader p reader).reader q = some a) :
      (q = p ∧ ending = .sleep ∧ a = { reader with n := n', got := got' }) ∨
        (q ≠ p ∧ s.reader q = some a) := by
    rw [readerEq] at here
    by_cases same : q = p
    · rw [if_pos same] at here
      by_cases sleeps : ending = .sleep
      · rw [if_pos sleeps] at here
        exact .inl ⟨same, sleeps, (Option.some.inj here).symm⟩
      · rw [if_neg sleeps] at here
        cases here
    · rw [if_neg same] at here
      exact .inr ⟨same, here⟩
  have callOf {q : Nat} {a : Reader} (here : (s.runReader p reader).reader q = some a) :
      a.call = reader.call ↔ q = p := by
    rcases current here with ⟨same, _, rfl⟩ | ⟨other, before⟩
    · exact iff_of_true rfl same
    · exact iff_of_false (apart q a other before) other
  refine ⟨?_, ?_, ?_, inv.unbroken, ?_, fun q a here => ?_,
    fun q q' a b first second same => ?_, fun f here => ?_, fun entry here => ?_⟩
  · rw [runEq]
    simp only
    rw [moved]
    exact read_ordered inv.ordered within
  · rw [runEq]
    simp only
    rw [moved]
    simp only
    rw [passed, rest, List.append_assoc, List.take_append_drop, inv.committed]
  · rw [runEq]
    simp only
    rw [moved]
    exact inv.line
  · rw [runEq]
    simp only
    rw [moved]
    simp only
    rw [passed, List.map_append, List.filter_append, inv.handed, stored, List.map_map]
    congr 1
    exact List.map_id _
  · rcases current here with ⟨_, sleeps, rfl⟩ | ⟨other, before⟩
    · subst sleeps
      obtain ⟨isPlain, got, _, more⟩ := took
      refine ⟨fun c isHere => ?_, more, left.trans counted, own, ?_⟩
      · simp only [got] at isHere
        rcases List.mem_append.mp isHere with first | second
        · exact plain c first
        · exact isPlain c second
      · rw [runEq]
        exact known
    · obtain ⟨isPlain, more, total, got, isKnown⟩ := inv.reads q a before
      refine ⟨isPlain, more, total, ?_, ?_⟩
      · rw [others (apart q a other before), got]
      · rw [runEq]
        exact isKnown
  · by_cases isReader : a.call = reader.call
    · rw [(callOf first).mp isReader, (callOf second).mp (same ▸ isReader)]
    · rcases current first with ⟨_, _, rfl⟩ | ⟨_, before⟩
      · exact absurd rfl isReader
      · rcases current second with ⟨_, _, rfl⟩ | ⟨_, before'⟩
        · exact absurd same isReader
        · exact inv.distinct q q' a b before before' same
  · have cases : f ∈ s.finished ∨
        (ending ≠ .sleep ∧ f = ⟨reader.call, reader.target, got', ending⟩) := by
      rw [runEq] at here
      simp only at here
      by_cases sleeps : ending = .sleep
      · rw [if_pos sleeps] at here
        exact .inl here
      · rw [if_neg sleeps] at here
        rcases List.mem_append.mp here with before | new
        · exact .inl before
        · exact .inr ⟨sleeps, List.mem_singleton.mp new⟩
    rcases cases with before | ⟨ended, rfl⟩
    · obtain ⟨right, got, isKnown, noReader⟩ := inv.stops f before
      refine ⟨right, ?_, ?_, fun q a isHere => ?_⟩
      · rw [others (fresh f before), got]
      · rw [runEq]
        exact isKnown
      · rcases current isHere with ⟨_, _, rfl⟩ | ⟨_, earlier⟩
        · exact fun same => fresh f before same.symm
        · exact noReader q a earlier
    · refine ⟨took.stopsRight plain (left.trans counted) ended, own, ?_,
        fun q a isHere isReader => ?_⟩
      · rw [runEq]
        exact known
      · rcases current isHere with ⟨_, sleeps, _⟩ | ⟨other, earlier⟩
        · exact ended sleeps
        · exact apart q a other earlier isReader
  · rw [runEq] at here ⊢
    simp only at here ⊢
    rcases List.mem_append.mp here with before | new
    · exact inv.known entry before
    · obtain ⟨c, _, rfl⟩ := List.mem_map.mp new
      exact known

/-- Another call begins. -/
theorem Inv.newCall {s : System} (inv : Inv s) : Inv { s with calls := s.calls + 1 } := by
  refine ⟨inv.ordered, inv.committed, inv.line, inv.unbroken, inv.handed,
    fun p reader here => ?_, inv.distinct,
    fun f here => ?_, fun entry here => ?_⟩
  · obtain ⟨plain, left, counted, bytes, known⟩ := inv.reads p reader here
    exact ⟨plain, left, counted, bytes, Nat.lt_succ_of_lt known⟩
  · obtain ⟨right, got, known, noReader⟩ := inv.stops f here
    exact ⟨right, got, Nat.lt_succ_of_lt known, noReader⟩
  · exact Nat.lt_succ_of_lt (inv.known entry here)

theorem inv_step {s s' : System} {label : Label} (inv : Inv s)
    (stepped : s.step label = some s') : Inv s' := by
  cases label with
  | key c => exact inv_key inv stepped
  | read p n =>
      simp only [System.step] at stepped
      split at stepped
      · cases stepped
        have nothing : s.handedTo s.calls = [] := by
          unfold System.handedTo
          rw [List.filter_eq_nil_iff.mpr fun entry here => ?_]
          · rfl
          · have known := inv.known entry here
            simp only [decide_eq_true_eq]
            omega
        refine inv_runReader inv.newCall (fun c here => absurd here List.not_mem_nil) rfl
          nothing.symm (Nat.lt_succ_self _) (fun q a _ here => ?_) (fun f here => ?_)
        · exact Nat.ne_of_lt (inv.reads q a here).known
        · exact Nat.ne_of_lt (inv.stops f here).2.2.1
      · cases stepped
  | wake p =>
      simp only [System.step] at stepped
      obtain ⟨reader, here, rfl⟩ := Option.map_eq_some_iff.mp stepped
      obtain ⟨plain, _, counted, bytes, known⟩ := inv.reads p reader here
      refine inv_runReader inv plain counted bytes known (fun q a other isHere same => ?_)
        (fun f isHere same => ?_)
      · exact other (inv.distinct q p a reader isHere here same)
      · exact (inv.stops f isHere).2.2.2 p reader here same.symm

/-- What the claim about the console says of a state. -/
structure LineInput (s : System) : Prop where
  indices : (s.input.w - s.input.r).toNat ≤ (s.input.e - s.input.r).toNat ∧
    (s.input.e - s.input.r).toNat ≤ inputBuf
  full : (s.input.e - s.input.r).toNat = inputBuf → s.input.w = s.input.e
  editing : ∀ c, c = ctrlU ∨ c = ctrlH ∨ c = del →
    (key s.input c).1 = { s.input with e := (key s.input c).1.e } ∧
      contents s.input.buf s.input.w (key s.input c).1.e <+:
        contents s.input.buf s.input.w s.input.e
  line : s.typed.line = contents s.input.buf s.input.w s.input.e
  bytes : s.handed.map Prod.snd = s.consumed.filter (· ≠ ctrlD)
  order : s.typed.committed = s.consumed ++ contents s.input.buf s.input.r s.input.w
  returned : ∀ f ∈ s.finished, StopsRight f ∧ f.got = s.handedTo f.call

theorem Inv.lineInput {s : System} (inv : Inv s) : LineInput s := by
  refine ⟨⟨inv.ordered.edited, inv.ordered.fits⟩, inv.ordered.full,
    fun c editing => ?_, inv.line, inv.handed, inv.committed, fun f here => ?_⟩
  · have erased := edit_erases inv.ordered editing
    have kept := count_trans erased.low
    have whole := count_trans inv.ordered.edited
    have high := erased.high
    refine ⟨erased.same, ?_⟩
    rw [contents_append (by omega : count s.input.w (key s.input c).1.e ≤
      count s.input.w s.input.e)]
    exact List.prefix_append _ _
  · obtain ⟨right, got, _⟩ := inv.stops f here
    exact ⟨right, got⟩

/-- The indices are about to wrap around. -/
def quietConsole : System where
  input := ⟨fun _ => 0, 0xffffffff#32, 0xffffffff#32, 0xffffffff#32⟩
  reader _ := none
  calls := 0
  typed := ⟨[], []⟩
  consumed := []
  handed := []
  finished := []

/-- A process sleeps in `consoleread`; `a`, `b`, backspace and a newline are typed. -/
def typeLine : List Label :=
  [.read 0 10, .key 97, .key 98, .key ctrlH, .key newline, .wake 0]

end Xv6.Console
