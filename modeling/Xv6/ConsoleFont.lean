import Xv6.ConsoleModel

/-!
# Characters on the screen

Everything written to the console goes through `consputc` to `font_render`, which
takes row `c - 0x20` of a table with 95 rows.  `graphic_putc` treats only the
newline and `BACKSPACE` on their own, so any other control character, DEL, and
any byte from 0x80 on is looked up outside the table.
-/

namespace Xv6.Console

/-- An access to `font_bin`: its row and its column. -/
abbrev Access := Int × Nat

/-- The accesses of `font_render`. -/
def fontRender (index : Int) : List Access :=
  (List.range 30).flatMap fun i => (List.range 15).map fun _ => (index - 0x20, i)

/-- The row and the column are in the table. -/
def Access.InTable (access : Access) : Prop :=
  0 ≤ access.1 ∧ access.1 ≤ 94 ∧ access.2 < 30

/-- `CONSOLE_HORIZONTAL_MAX` -/
abbrev consoleHorizontalMax : Int := 53

/-- `CONSOLE_VERTICAL_MAX` -/
abbrev consoleVerticalMax : Int := 20

/-- `graphic_putc`: the new `console_pos` and the accesses. -/
def graphicPutc (pos c : Int) : Int × List Access :=
  if c = newline.toNat then
    let pos := pos + (consoleHorizontalMax - pos.tmod consoleHorizontalMax)
    (if pos ≥ consoleVerticalMax * consoleHorizontalMax then pos - consoleHorizontalMax
      else pos, [])
  else if c = backspace then (if pos > 0 then pos - 1 else pos, [])
  else
    let pos := if pos ≥ consoleVerticalMax * consoleHorizontalMax
      then pos - consoleHorizontalMax else pos
    (pos + 1, fontRender c)

/-- `consputc` for one character after the other. -/
def consputs (pos : Int) : List Int → Int × List Access
  | [] => (pos, [])
  | c :: rest =>
      let (next, accesses) := graphicPutc pos c
      let (last, more) := consputs next rest
      (last, accesses ++ more)

/-- `digits` -/
def digit (x : Nat) : Int := if x < 10 then 48 + x else 87 + x

/-- The loop of `printint`, the last digit first. -/
def digitsOf (base : Nat) : Nat → Nat → List Int
  | 0, _ => []
  | fuel + 1, x =>
      digit (x % base) :: if x / base = 0 then [] else digitsOf base fuel (x / base)

/-- `printint` -/
def printint (xx : BitVec 32) (base : Nat) (sign : Bool) : List Int :=
  let negative := sign && xx.slt 0
  let x := if negative then (-xx).toNat else xx.toNat
  (if negative then [45] else []) ++ (digitsOf base 16 x).reverse

/-- A character as a signed `char`. -/
def signedChar (c : UInt8) : Int := c.toInt8.toInt

/-- What `cprintf` passes to `consputc` for a format, with the words behind it from
index `k` on and the strings in memory. -/
def cprintf (strings : BitVec 32 → List UInt8) (args : Nat → BitVec 32) :
    Nat → List UInt8 → List Int
  | _, [] => []
  | k, c :: rest =>
      if c = 0 then []
      else if c ≠ 37 then (c.toNat : Int) :: cprintf strings args k rest
      else
        match rest with
        | [] => []
        | d :: rest =>
            if d = 0 then []
            else if d = 100 then
              printint (args k) 10 true ++ cprintf strings args (k + 1) rest
            else if d = 120 ∨ d = 112 then
              printint (args k) 16 false ++ cprintf strings args (k + 1) rest
            else if d = 115 then
              (if args k = 0 then [40, 110, 117, 108, 108, 41]
                else (strings (args k)).map signedChar) ++
                  cprintf strings args (k + 1) rest
            else if d = 37 then 37 :: cprintf strings args k rest
            else 37 :: (d.toNat : Int) :: cprintf strings args k rest

/-- The console: its input and the cursor. -/
structure Screen where
  input : Input
  pos : Int

/-- What writes to the console: `consolewrite`, `cprintf` and `consoleintr`. -/
inductive Output where
  | write (buf : List UInt8)
  | print (strings : BitVec 32 → List UInt8) (args : Nat → BitVec 32) (fmt : List UInt8)
  | key (c : UInt8)

namespace Screen

/-- What is passed to `consputc`. -/
def chars (s : Screen) : Output → List Int
  | .write buf => buf.map fun c => (c.toNat : Int)
  | .print strings args fmt => cprintf strings args 0 fmt
  | .key c => (Console.key s.input c).2

/-- The accesses to the font table. -/
def accesses (s : Screen) (output : Output) : List Access :=
  (consputs s.pos (s.chars output)).2

def step (s : Screen) (output : Output) : Option Screen :=
  some
    { input := match output with
        | .key c => (Console.key s.input c).1
        | _ => s.input
      pos := (consputs s.pos (s.chars output)).1 }

end Screen

/-! ## Which characters are in the table -/

/-- The character is printed, or moves the cursor. -/
def Shown (c : Int) : Prop := c = 10 ∨ c = backspace ∨ (32 ≤ c ∧ c ≤ 126)

instance (c : Int) : Decidable (Shown c) := inferInstanceAs (Decidable (_ ∨ _ ∨ _))

theorem fontRender_inTable {c : Int} :
    (∀ access ∈ fontRender c, access.InTable) ↔ 32 ≤ c ∧ c ≤ 126 := by
  constructor
  · intro inTable
    have first : (c - 0x20, 0) ∈ fontRender c := by
      refine List.mem_flatMap.mpr ⟨0, by decide, ?_⟩
      exact List.mem_map.mpr ⟨0, by decide, rfl⟩
    obtain ⟨low, high, _⟩ := inTable _ first
    simp only at low high
    omega
  · rintro ⟨low, high⟩ access isHere
    obtain ⟨i, iMem, inRow⟩ := List.mem_flatMap.mp isHere
    obtain ⟨_, _, rfl⟩ := List.mem_map.mp inRow
    refine ⟨?_, ?_, List.mem_range.mp iMem⟩
    · simp only
      omega
    · simp only
      omega

theorem graphicPutc_inTable {pos c : Int} :
    (∀ access ∈ (graphicPutc pos c).2, access.InTable) ↔ Shown c := by
  have ten : ((newline.toNat : Nat) : Int) = 10 := rfl
  have nothing {P : Access → Prop} : ∀ access ∈ ([] : List Access), P access :=
    fun _ isHere => absurd isHere List.not_mem_nil
  unfold graphicPutc Shown
  rw [ten]
  by_cases line : c = 10
  · rw [if_pos line]
    exact iff_of_true nothing (.inl line)
  · rw [if_neg line]
    by_cases back : c = backspace
    · rw [if_pos back]
      exact iff_of_true nothing (.inr (.inl back))
    · rw [if_neg back]
      simp only [fontRender_inTable]
      rw [or_iff_right line, or_iff_right back]

theorem consputs_inTable {pos : Int} {chars : List Int} :
    (∀ access ∈ (consputs pos chars).2, access.InTable) ↔ ∀ c ∈ chars, Shown c := by
  induction chars generalizing pos with
  | nil => simp [consputs]
  | cons c rest ih =>
      simp only [consputs, List.forall_mem_append, List.forall_mem_cons,
        graphicPutc_inTable, ih]

/-- A byte that `consolewrite` shows. -/
def Printable (c : UInt8) : Prop := c = newline ∨ (32 ≤ c.toNat ∧ c.toNat ≤ 126)

instance (c : UInt8) : Decidable (Printable c) := inferInstanceAs (Decidable (_ ∨ _))

theorem shown_toNat {c : UInt8} : Shown (c.toNat : Int) ↔ Printable c := by
  have bound := c.toNat_lt
  have ten : c = newline ↔ c.toNat = 10 := by
    rw [← UInt8.toNat_inj]
    rfl
  unfold Shown Printable
  rw [ten]
  simp only [backspace]
  omega

theorem signedChar_eq (c : UInt8) :
    signedChar c = if c.toNat < 128 then (c.toNat : Int) else c.toNat - 256 := by
  change c.toBitVec.toInt = _
  rw [BitVec.toInt_eq_toNat_cond, UInt8.toNat_toBitVec]
  have bound := c.toNat_lt
  split <;> split <;> omega

theorem shown_signedChar {c : UInt8} : Shown (signedChar c) ↔ Printable c := by
  have bound := c.toNat_lt
  rw [← shown_toNat, signedChar_eq]
  unfold Shown
  simp only [backspace]
  split <;> omega

/-- `cprintf` shows a format: its own characters, the strings that it inserts, and
the characters of conversions that it does not know. -/
def FormatShown (strings : BitVec 32 → List UInt8) (args : Nat → BitVec 32) :
    Nat → List UInt8 → Prop
  | _, [] => True
  | k, c :: rest =>
      if c = 0 then True
      else if c ≠ 37 then Printable c ∧ FormatShown strings args k rest
      else
        match rest with
        | [] => True
        | d :: rest =>
            if d = 0 then True
            else if d = 100 ∨ d = 120 ∨ d = 112 then FormatShown strings args (k + 1) rest
            else if d = 115 then
              (args k ≠ 0 → ∀ c ∈ strings (args k), Printable c) ∧
                FormatShown strings args (k + 1) rest
            else Printable d ∧ FormatShown strings args k rest

theorem shown_digit {x : Nat} (small : x < 16) : Shown (digit x) := by
  unfold Shown digit
  split <;> omega

theorem shown_digitsOf {base : Nat} (positive : 0 < base) (small : base ≤ 16)
    (fuel x : Nat) : ∀ c ∈ digitsOf base fuel x, Shown c := by
  induction fuel generalizing x with
  | zero => exact fun _ isHere => absurd isHere List.not_mem_nil
  | succ fuel ih =>
      have low := Nat.mod_lt x positive
      unfold digitsOf
      rw [List.forall_mem_cons]
      refine ⟨shown_digit (by omega), ?_⟩
      split
      · exact fun _ isHere => absurd isHere List.not_mem_nil
      · exact ih _

/-- A number consists of digits and perhaps a minus sign. -/
theorem shown_printint {base : Nat} (positive : 0 < base) (small : base ≤ 16)
    (xx : BitVec 32) (sign : Bool) : ∀ c ∈ printint xx base sign, Shown c := by
  unfold printint
  intro c isHere
  rcases List.mem_append.mp isHere with isSign | isDigit
  · split at isSign
    · rw [List.mem_singleton.mp isSign]
      decide
    · cases isSign
  · exact shown_digitsOf positive small _ _ c (List.mem_reverse.mp isDigit)

theorem cprintf_shown {strings : BitVec 32 → List UInt8} {args : Nat → BitVec 32}
    {k : Nat} {fmt : List UInt8} :
    (∀ c ∈ cprintf strings args k fmt, Shown c) ↔ FormatShown strings args k fmt := by
  have percent : Shown 37 := by decide
  induction k, fmt using cprintf.induct with
  | case1 k => exact iff_of_true (fun _ isHere => absurd isHere List.not_mem_nil) trivial
  | case2 k rest =>
      unfold cprintf FormatShown
      simp only [if_true]
      exact iff_of_true (fun _ isHere => absurd isHere List.not_mem_nil) trivial
  | case3 k c rest notEnd plain ih =>
      unfold cprintf FormatShown
      rw [if_neg notEnd, if_neg notEnd, if_pos plain, if_pos plain, List.forall_mem_cons,
        shown_toNat]
      exact and_congr_right fun _ => ih
  | case4 k c notEnd isPercent =>
      unfold cprintf FormatShown
      rw [if_neg notEnd, if_neg notEnd, if_neg isPercent, if_neg isPercent]
      exact iff_of_true (fun _ isHere => absurd isHere List.not_mem_nil) trivial
  | case5 k c notEnd isPercent rest =>
      unfold cprintf FormatShown
      rw [if_neg notEnd, if_neg notEnd, if_neg isPercent, if_neg isPercent]
      simp only [if_true]
      exact iff_of_true (fun _ isHere => absurd isHere List.not_mem_nil) trivial
  | case6 k c notEnd isPercent rest notEnd' ih =>
      unfold cprintf FormatShown
      rw [if_neg notEnd, if_neg notEnd, if_neg isPercent, if_neg isPercent]
      simp only [if_neg notEnd', true_or, if_true, List.forall_mem_append, ih]
      exact and_iff_right (shown_printint (by decide) (by decide) _ _)
  | case7 k c notEnd isPercent d rest notEnd' notD isHex ih =>
      unfold cprintf FormatShown
      rw [if_neg notEnd, if_neg notEnd, if_neg isPercent, if_neg isPercent]
      simp only [if_neg notEnd', if_neg notD, if_pos isHex, if_pos (Or.inr isHex),
        List.forall_mem_append, ih]
      exact and_iff_right (shown_printint (by decide) (by decide) _ _)
  | case8 k c notEnd isPercent rest notEnd' notD notHex ih =>
      have null : ∀ c ∈ ([40, 110, 117, 108, 108, 41] : List Int), Shown c := by decide
      have notNumber : ¬((115 : UInt8) = 100 ∨ (115 : UInt8) = 120 ∨ (115 : UInt8) = 112) := by
        decide
      unfold cprintf FormatShown
      rw [if_neg notEnd, if_neg notEnd, if_neg isPercent, if_neg isPercent]
      simp only [if_neg notEnd', if_neg notD, if_neg notHex, if_neg notNumber, if_true,
        List.forall_mem_append, ih]
      refine and_congr_left fun _ => ?_
      by_cases isNull : args k = 0
      · rw [if_pos isNull]
        exact iff_of_true null (absurd isNull)
      · rw [if_neg isNull, List.forall_mem_map]
        simp only [shown_signedChar]
        exact ⟨fun shown _ => shown, fun shown => shown isNull⟩
  | case9 k c notEnd isPercent rest notEnd' notD notHex notString ih =>
      have printable : Printable 37 := by decide
      have notNumber : ¬((37 : UInt8) = 100 ∨ (37 : UInt8) = 120 ∨ (37 : UInt8) = 112) := by
        decide
      unfold cprintf FormatShown
      rw [if_neg notEnd, if_neg notEnd, if_neg isPercent, if_neg isPercent]
      simp only [if_neg notEnd', if_neg notD, if_neg notHex, if_neg notString,
        if_neg notNumber, if_true, List.forall_mem_cons, ih]
      exact and_congr_left fun _ => iff_of_true percent printable
  | case10 k c notEnd isPercent d rest notEnd' notD notHex notString notPercent ih =>
      have notNumber : ¬(d = 100 ∨ d = 120 ∨ d = 112) := fun isNumber =>
        isNumber.elim notD notHex
      unfold cprintf FormatShown
      rw [if_neg notEnd, if_neg notEnd, if_neg isPercent, if_neg isPercent]
      simp only [if_neg notEnd', if_neg notD, if_neg notHex, if_neg notString,
        if_neg notPercent, if_neg notNumber, List.forall_mem_cons, shown_toNat, ih]
      exact and_iff_right percent

/-! ## The three writers -/

/-- The key is not echoed as itself, or its echo is printable. -/
def KeyShown (input : Input) (c : UInt8) : Prop :=
  c = ctrlP ∨ c = ctrlU ∨ c = ctrlH ∨ c = del ∨ c = 0 ∨
    inputBuf ≤ (input.e - input.r).toNat ∨ c = carriageReturn ∨ Printable c

theorem killLine_echo (fuel : Nat) (input : Input) :
    ∀ c ∈ (killLine fuel input).2, c = backspace := by
  induction fuel generalizing input with
  | zero => exact fun _ isHere => absurd isHere List.not_mem_nil
  | succ fuel ih =>
      unfold killLine
      split
      · exact List.forall_mem_cons.mpr ⟨rfl, ih _⟩
      · exact fun _ isHere => absurd isHere List.not_mem_nil

theorem key_shown {input : Input} {c : UInt8} :
    (∀ d ∈ (key input c).2, Shown d) ↔ KeyShown input c := by
  have nothing : ∀ d ∈ ([] : List Int), Shown d :=
    fun _ isHere => absurd isHere List.not_mem_nil
  unfold key KeyShown
  by_cases isP : c = ctrlP
  · rw [if_pos isP]
    exact iff_of_true nothing (.inl isP)
  rw [if_neg isP, or_iff_right isP]
  by_cases isU : c = ctrlU
  · rw [if_pos isU]
    refine iff_of_true (fun d isHere => ?_) (.inl isU)
    exact .inr (.inl (killLine_echo _ _ d isHere))
  rw [if_neg isU, or_iff_right isU, ← or_assoc]
  by_cases isErase : c = ctrlH ∨ c = del
  · rw [if_pos isErase]
    refine iff_of_true ?_ (.inl isErase)
    split
    · exact List.forall_mem_singleton.mpr (.inr (.inl rfl))
    · exact nothing
  rw [if_neg isErase, or_iff_right isErase, ← or_assoc]
  by_cases isStored : c ≠ 0 ∧ (input.e - input.r).toNat < inputBuf
  · have notSkipped : ¬(c = 0 ∨ inputBuf ≤ (input.e - input.r).toNat) := by
      rintro (isZero | isFull)
      · exact isStored.1 isZero
      · exact absurd isStored.2 (Nat.not_lt.mpr isFull)
    rw [if_pos isStored, or_iff_right notSkipped]
    by_cases isReturn : c = carriageReturn
    · refine iff_of_true ?_ (.inl isReturn)
      simp only [if_pos isReturn]
      exact List.forall_mem_singleton.mpr (.inl rfl)
    · rw [or_iff_right isReturn]
      simp only [if_neg isReturn]
      split
      · rw [List.forall_mem_singleton, shown_toNat]
      · rw [List.forall_mem_singleton, shown_toNat]
  · rw [if_neg isStored]
    refine iff_of_true nothing (.inl ?_)
    by_contra notSkipped
    exact isStored ⟨fun isZero => notSkipped (.inl isZero),
      Nat.lt_of_not_le fun isFull => notSkipped (.inr isFull)⟩

/-- The bytes that reach the screen are printable. -/
def Safe (s : Screen) : Output → Prop
  | .write buf => ∀ c ∈ buf, Printable c
  | .print strings args fmt => FormatShown strings args 0 fmt
  | .key c => KeyShown s.input c

theorem accesses_inTable {s : Screen} {output : Output} :
    (∀ access ∈ s.accesses output, access.InTable) ↔ Safe s output := by
  rw [Screen.accesses, consputs_inTable]
  cases output with
  | write buf =>
      rw [Screen.chars, List.forall_mem_map]
      simp only [shown_toNat, Safe]
  | print strings args fmt => exact cprintf_shown
  | key c => exact key_shown

/-- The rows of the table suffice for a sequence of outputs: every access to the
font in it is inside the table. -/
def RendersInside (s : Screen) (outputs : List Output) : Prop :=
  LabelledRuns.RunMeets Screen.step
    (fun s output => ∀ access ∈ s.accesses output, access.InTable) s outputs

/-- The console stays inside the font table exactly as long as `consolewrite` gets
newlines and printable ASCII only, the formats and strings of `cprintf` hold nothing
else, and no key is echoed that is not one of these or the carriage return. -/
theorem rendersInside_iff (s : Screen) (outputs : List Output) :
    RendersInside s outputs ↔ LabelledRuns.RunMeets Screen.step Safe s outputs := by
  unfold RendersInside
  simp only [accesses_inTable]

/-- The console before the first output. -/
def bootScreen : Screen where
  input := { buf := fun _ => 0, r := 0, w := 0, e := 0 }
  pos := consoleVerticalMax * consoleHorizontalMax

/-- A `C('D')` that is typed is echoed, from row -28 of the table. -/
theorem ctrlD_not_rendersInside :
    (-28, 0) ∈ bootScreen.accesses (.key ctrlD) ∧
      ¬RendersInside bootScreen [.key ctrlD] := by
  have outside : (-28, 0) ∈ bootScreen.accesses (.key ctrlD) := by decide
  refine ⟨outside, fun inside => ?_⟩
  obtain ⟨low, _, _⟩ := inside.1 _ outside
  exact absurd low (by decide)

end Xv6.Console
