import Mathlib.Data.List.Basic
import Mathlib.Data.BitVec
import Mathlib.Tactic.IntervalCases

/-!
# Printing integers

The kernel's `printint` and the one of the user library store the digits of a
number from the last to the first in a buffer of sixteen bytes, put a minus sign
behind them, and then send the bytes of the buffer from the last to the first.
Both work on an unsigned copy of the argument, negated where it is printed as a
negative number.  A store behind the buffer or a read behind the table of digits
has no result here, so that a result also says that there was none.
-/

namespace Xv6.Printing

/-- The sixteen bytes `buf` and the number `i` of those that are stored. -/
structure DigitBuffer where
  buf : Vector Char 16
  i : Nat
  within : i ≤ 16

namespace DigitBuffer

/-- `buf[i++] = c`, which has no result past the end. -/
def put (b : DigitBuffer) (c : Char) : Option DigitBuffer :=
  if room : b.i < 16 then some ⟨b.buf.set b.i c room, b.i + 1, room⟩ else none

/-- `while(--i >= 0) putc(buf[i])`. -/
def emitFrom (buf : Vector Char 16) : (i : Nat) → i ≤ 16 → List Char
  | 0, _ => []
  | i + 1, within => buf[i] :: emitFrom buf i (Nat.le_of_succ_le within)

def emit (b : DigitBuffer) : List Char := emitFrom b.buf b.i b.within

theorem put_i {b b' : DigitBuffer} {c : Char} (stored : b.put c = some b') :
    b'.i = b.i + 1 := by
  unfold put at stored
  split at stored
  · cases stored
    rfl
  · cases stored

end DigitBuffer

/-- A buffer with nothing stored in it, whatever its bytes are. -/
def start (buf : Vector Char 16) : DigitBuffer := ⟨buf, 0, Nat.zero_le 16⟩

/-- `do { buf[i++] = digits[x % base]; } while((x /= base) != 0)`. -/
def digitLoop (digits : List Char) (base x : Nat) (b : DigitBuffer) : Option DigitBuffer :=
  match digits[x % base]? with
  | none => none
  | some c =>
      match _stored : b.put c with
      | none => none
      | some b' => if x / base ≠ 0 then digitLoop digits base (x / base) b' else some b'
termination_by 16 - b.i
decreasing_by
  have next := DigitBuffer.put_i _stored
  have bound := b'.within
  omega

/-- What the two printers share: the digits, the sign and the bytes that are sent. -/
def printDigits (digits : List Char) (base x : Nat) (negative : Bool)
    (buf : Vector Char 16) : Option (List Char) := do
  let b ← digitLoop digits base x (start buf)
  let b ← if negative then b.put '-' else some b
  return b.emit

/-- The table `digits` of `console.c`. -/
def consoleDigits : List Char := "0123456789abcdef".toList

/-- The table `digits` of `printf.c`. -/
def printfDigits : List Char := "0123456789ABCDEF".toList

/-- `printint` of `console.c`: the sign parameter becomes the flag. -/
def consolePrintint (buf : Vector Char 16) (xx : BitVec 32) (base : Nat) (sign : Int) :
    Option (List Char) :=
  let sign' : Int := if sign ≠ 0 then (if xx.toInt < 0 then 1 else 0) else sign
  let x := if sign ≠ 0 ∧ sign' ≠ 0 then -xx else xx
  printDigits consoleDigits base x.toNat (sign' ≠ 0) buf

/-- `printint` of `printf.c`, with the descriptor that each character goes to. -/
def printfPrintint (buf : Vector Char 16) (fd : Int) (xx : BitVec 32) (base : Nat) (sgn : Int) :
    Option (List (Int × Char)) :=
  let neg := sgn ≠ 0 ∧ xx.toInt < 0
  let x := if neg then -xx else xx
  (printDigits printfDigits base x.toNat neg buf).map (List.map (fd, ·))

/-! ## The buffer -/

namespace DigitBuffer

/-- The bytes stored so far, in the order of the stores. -/
def stored (b : DigitBuffer) : List Char := b.buf.toList.take b.i

theorem emitFrom_eq (buf : Vector Char 16) (i : Nat) (within : i ≤ 16) :
    emitFrom buf i within = (buf.toList.take i).reverse := by
  induction i with
  | zero => rfl
  | succ i ih =>
      have inside : i < buf.toList.length := by
        rw [Vector.length_toList]
        exact within
      rw [emitFrom, ih, List.take_succ_eq_append_getElem inside, List.reverse_append]
      simp

theorem emit_eq (b : DigitBuffer) : b.emit = b.stored.reverse :=
  emitFrom_eq b.buf b.i b.within

theorem put_of_room (b : DigitBuffer) (c : Char) (room : b.i < 16) :
    ∃ b', b.put c = some b' ∧ b'.stored = b.stored ++ [c] ∧ b'.i = b.i + 1 := by
  have inside : b.i < (b.buf.set b.i c room).toList.length := by simpa using room
  refine ⟨_, dif_pos room, ?_, rfl⟩
  rw [stored, List.take_succ_eq_append_getElem inside]
  simp [stored, Vector.toList_set, List.take_set_of_le]

end DigitBuffer

/-! ## The digits -/

/-- A table of digits up to a base, in a letter case. -/
def Tabulates (digits : List Char) (letter : Char → Char) (base : Nat) : Prop :=
  ∀ d < base, digits[d]? = some (letter d.digitChar)

variable {digits : List Char} {letter : Char → Char} {base : Nat}

/-- The loop stores the digits of the numeral from the last to the first, as long as
the numeral has room in the buffer. -/
theorem digitLoop_eq (table : Tabulates digits letter base) (two : 1 < base) (x : Nat)
    (b : DigitBuffer) (room : b.i + (Nat.toDigits base x).length ≤ 16) :
    ∃ b', digitLoop digits base x b = some b' ∧
      b'.stored = b.stored ++ ((Nat.toDigits base x).map letter).reverse ∧
      b'.i = b.i + (Nat.toDigits base x).length := by
  induction x using Nat.strong_induction_on generalizing b with
  | _ x ih =>
      have digit := table (x % base) (Nat.mod_lt x (by omega))
      have positive : 0 < (Nat.toDigits base x).length := Nat.length_toDigits_pos
      obtain ⟨next, put, stored, index⟩ :=
        b.put_of_room (letter (x % base).digitChar) (by omega)
      have turn : digitLoop digits base x b =
          if x / base ≠ 0 then digitLoop digits base (x / base) next else some next := by
        rw [digitLoop, digit]
        simp only
        split
        · simp_all
        · simp_all
      by_cases last : x < base
      · have numeral : Nat.toDigits base x = [x.digitChar] := Nat.toDigits_of_lt_base last
        have done : x / base = 0 := Nat.div_eq_of_lt last
        have same : x % base = x := Nat.mod_eq_of_lt last
        refine ⟨next, by rw [turn, if_neg (by omega)], ?_, ?_⟩
        · rw [stored, numeral, same]
          rfl
        · rw [index, numeral]
          rfl
      · have numeral : Nat.toDigits base x =
            Nat.toDigits base (x / base) ++ [(x % base).digitChar] :=
          Nat.toDigits_of_base_le two (by omega)
        have more : x / base ≠ 0 := by
          rw [Nat.div_ne_zero_iff]
          omega
        have smaller : x / base < x := Nat.div_lt_self (by omega) two
        rw [numeral, List.length_append, List.length_singleton] at room
        obtain ⟨final, ran, rest, count⟩ := ih (x / base) smaller next (by omega)
        refine ⟨final, by rw [turn, if_pos more, ran], ?_, ?_⟩
        · rw [rest, stored, numeral]
          simp
        · rw [count, index, numeral, List.length_append, List.length_singleton]
          omega

/-- The printers send the numeral, behind a minus sign where the flag is set. -/
theorem printDigits_eq (table : Tabulates digits letter base) (two : 1 < base) (x : Nat)
    (room : (Nat.toDigits base x).length < 16) (negative : Bool) (buf : Vector Char 16) :
    printDigits digits base x negative buf =
      some ((if negative then ['-'] else []) ++ (Nat.toDigits base x).map letter) := by
  have empty : (start buf).stored = [] := rfl
  have zero : (start buf).i = 0 := rfl
  obtain ⟨b, ran, stored, index⟩ := digitLoop_eq table two x (start buf) (by omega)
  rw [empty, List.nil_append] at stored
  cases negative with
  | false => simp [printDigits, ran, DigitBuffer.emit_eq, stored]
  | true =>
      obtain ⟨signed, put, text, -⟩ := b.put_of_room '-' (by omega)
      simp [printDigits, ran, put, DigitBuffer.emit_eq, text, stored]

/-! ## The numerals -/

/-- The decimal numeral of an integer. -/
def signedNumeral (value : Int) : List Char :=
  (if value < 0 then ['-'] else []) ++ Nat.toDigits 10 value.natAbs

/-- The unsigned copy that is printed is the absolute value, for the least integer also. -/
theorem toNat_abs (xx : BitVec 32) :
    (if xx.toInt < 0 then -xx else xx).toNat = xx.toInt.natAbs := by
  have bound := xx.isLt
  rw [BitVec.toInt_eq_toNat_cond]
  split
  · split
    · omega
    · omega
  · split
    · rw [BitVec.toNat_neg]
      omega
    · omega

theorem length_toDigits_lt {base x : Nat} (ten : 10 ≤ base) (small : x < 2 ^ 32) :
    (Nat.toDigits base x).length < 16 := by
  have power : 10 ^ 15 ≤ base ^ 15 := Nat.pow_le_pow_left ten 15
  have short := (Nat.length_toDigits_le_iff (by omega) (by decide)).2 (show x < base ^ 15 by omega)
  omega

theorem tabulates_lower {base : Nat} (small : base ≤ 16) :
    Tabulates consoleDigits id base := by
  intro d inside
  have bound : d < 16 := by omega
  interval_cases d <;> decide

theorem tabulates_upper {base : Nat} (small : base ≤ 16) :
    Tabulates printfDigits Char.toUpper base := by
  intro d inside
  have bound : d < 16 := by omega
  interval_cases d <;> decide

/-- The tables differ from ten on only. -/
theorem tabulates_decimal : Tabulates printfDigits id 10 := by
  intro d inside
  interval_cases d <;> decide

/-- The digits and the sign that both printers produce for a signed number. -/
theorem printDigits_signed (table : Tabulates digits id 10) (buf : Vector Char 16)
    (xx : BitVec 32) :
    printDigits digits 10 (if xx.toInt < 0 then -xx else xx).toNat (xx.toInt < 0) buf =
      some (signedNumeral xx.toInt) := by
  have room := length_toDigits_lt (le_refl 10) (if xx.toInt < 0 then -xx else xx).isLt
  rw [printDigits_eq table (by decide) _ room, toNat_abs, signedNumeral, List.map_id]
  simp only [decide_eq_true_eq]

/-- The kernel's printer sends the numerals of `%d` and `%x`. -/
theorem consolePrintint_eq (buf : Vector Char 16) (xx : BitVec 32) {sign : Int}
    (signed : sign ≠ 0) :
    consolePrintint buf xx 10 sign = some (signedNumeral xx.toInt) ∧
      consolePrintint buf xx 16 0 = some (Nat.toDigits 16 xx.toNat) := by
  constructor
  · rw [← printDigits_signed (tabulates_lower (by decide)) buf xx]
    by_cases negative : xx.toInt < 0
    · simp [consolePrintint, signed, negative]
    · simp [consolePrintint, signed, negative]
  · have room := length_toDigits_lt (by decide : 10 ≤ 16) xx.isLt
    have printed := printDigits_eq (tabulates_lower (le_refl 16)) (by decide) _ room false buf
    simpa [consolePrintint] using printed

/-- The user library's printer sends the same numerals, with upper-case digits. -/
theorem printfPrintint_eq (buf : Vector Char 16) (fd : Int) (xx : BitVec 32) {sgn : Int}
    (signed : sgn ≠ 0) :
    printfPrintint buf fd xx 10 sgn = some ((signedNumeral xx.toInt).map (fd, ·)) ∧
      printfPrintint buf fd xx 16 0 =
        some (((Nat.toDigits 16 xx.toNat).map Char.toUpper).map (fd, ·)) := by
  constructor
  · have printed := printDigits_signed tabulates_decimal buf xx
    by_cases negative : xx.toInt < 0
    · simp only [negative, if_true, decide_true] at printed
      simp [printfPrintint, signed, negative, -BitVec.toNat_neg, printed]
    · simp only [negative, if_false, decide_false] at printed
      simp [printfPrintint, signed, negative, printed]
  · have room := length_toDigits_lt (by decide : 10 ≤ 16) xx.isLt
    have printed := printDigits_eq (tabulates_upper (le_refl 16)) (by decide) _ room false buf
    simp [printfPrintint, printed]

/-- Both printers are exact for every integer: they neither store behind the buffer
nor read behind the table, and what they send is the numeral. -/
theorem printint_exact (buf : Vector Char 16) (fd : Int) (xx : BitVec 32) {sign : Int}
    (signed : sign ≠ 0) :
    (consolePrintint buf xx 10 sign = some (signedNumeral xx.toInt) ∧
      consolePrintint buf xx 16 0 = some (Nat.toDigits 16 xx.toNat)) ∧
    printfPrintint buf fd xx 10 sign = some ((signedNumeral xx.toInt).map (fd, ·)) ∧
      printfPrintint buf fd xx 16 0 =
        some (((Nat.toDigits 16 xx.toNat).map Char.toUpper).map (fd, ·)) :=
  ⟨consolePrintint_eq buf xx signed, printfPrintint_eq buf fd xx signed⟩

theorem least_printint_exact :
    consolePrintint (Vector.replicate 16 'x') 0x80000000 10 1 =
      some "-2147483648".toList := by
  have printed := (printint_exact (Vector.replicate 16 'x') 1 0x80000000
    (by decide : (1 : Int) ≠ 0)).1.1
  rw [printed]
  decide +kernel

end Xv6.Printing
