import Xv6.LabelledRuns
import Xv6.RingBuffer

/-!
# The console

`console.c`: the input buffer, which the interrupt handler edits and readers
empty under `cons.lock`, and the characters that reach the screen.
-/

namespace Xv6.Console

open RingBuffer

/-- `INPUT_BUF` -/
abbrev inputBuf : Nat := 128

/-- `BACKSPACE`, which is no character. -/
abbrev backspace : Int := 0x100

/-- `C('P')` -/
abbrev ctrlP : UInt8 := 16

/-- `C('U')` -/
abbrev ctrlU : UInt8 := 21

/-- `C('H')` -/
abbrev ctrlH : UInt8 := 8

/-- `'\x7f'` -/
abbrev del : UInt8 := 127

/-- `C('D')` -/
abbrev ctrlD : UInt8 := 4

/-- `'\n'` -/
abbrev newline : UInt8 := 10

/-- `'\r'` -/
abbrev carriageReturn : UInt8 := 13

/-- `input` -/
structure Input where
  buf : Fin inputBuf → UInt8
  r : BitVec 32
  w : BitVec 32
  e : BitVec 32

/-! ## The interrupt handler -/

/-- The loop for `C('U')`, and what it echoes. -/
def killLine : Nat → Input → Input × List Int
  | 0, input => (input, [])
  | fuel + 1, input =>
      if input.e ≠ input.w ∧ input.buf (cell inputBuf (input.e - 1)) ≠ newline then
        let (input, echo) := killLine fuel { input with e := input.e - 1 }
        (input, backspace :: echo)
      else (input, [])

/-- One character in `consoleintr`, and what it echoes. -/
def key (input : Input) (c : UInt8) : Input × List Int :=
  if c = ctrlP then (input, [])
  else if c = ctrlU then killLine (input.e - input.w).toNat input
  else if c = ctrlH ∨ c = del then
    if input.e ≠ input.w then ({ input with e := input.e - 1 }, [backspace])
    else (input, [])
  else if c ≠ 0 ∧ (input.e - input.r).toNat < inputBuf then
    let c := if c = carriageReturn then newline else c
    let stored : Input :=
      { input with
        buf := Function.update input.buf (cell inputBuf input.e) c
        e := input.e + 1 }
    if c = newline ∨ c = ctrlD ∨ stored.e = stored.r + BitVec.ofNat 32 inputBuf then
      ({ stored with w := stored.e }, [(c.toNat : Int)])
    else (stored, [(c.toNat : Int)])
  else (input, [])

/-! ## Readers -/

/-- Where the loop of `consoleread` stops. -/
inductive Ending where
  /-- it sleeps until there is a character -/
  | sleep
  /-- the count is used up -/
  | count
  /-- it has stored a newline -/
  | line
  /-- it has met a `C('D')` -/
  | eof
  deriving DecidableEq

/-- The loop of `consoleread` from one `acquire` or `sleep` to the next: the
input, the count that is left, the bytes, and why it stops. -/
def readLoop (target : Nat) : Nat → Input → List UInt8 →
    Input × Nat × List UInt8 × Ending
  | 0, input, got => (input, 0, got, .count)
  | n + 1, input, got =>
      if input.r = input.w then (input, n + 1, got, .sleep)
      else
        let c := input.buf (cell inputBuf input.r)
        if c = ctrlD then
          if n + 1 < target then (input, n + 1, got, .eof)
          else ({ input with r := input.r + 1 }, n + 1, got, .eof)
        else if c = newline then
          ({ input with r := input.r + 1 }, n, got ++ [c], .line)
        else readLoop target n { input with r := input.r + 1 } (got ++ [c])

/-! ## Lines -/

/-- The line that is being typed, and the characters that have been committed. -/
structure Typed where
  line : List UInt8
  committed : List UInt8

/-- What a typed character means when `unread` of the committed ones have not been
read: `C('U')`, `C('H')` and DEL edit the line, and a newline, a `C('D')` or a full
buffer commits it.  This is the purpose of the console and not from the source. -/
def Typed.type (typed : Typed) (unread : Nat) (c : UInt8) : Typed :=
  if c = ctrlP ∨ c = 0 then typed
  else if c = ctrlU then { typed with line := [] }
  else if c = ctrlH ∨ c = del then { typed with line := typed.line.dropLast }
  else if unread + typed.line.length < inputBuf then
    let c := if c = carriageReturn then newline else c
    let line := typed.line ++ [c]
    if c = newline ∨ c = ctrlD ∨ unread + line.length = inputBuf then
      ⟨[], typed.committed ++ line⟩
    else { typed with line := line }
  else typed

/-- A call of `consoleread` that has not returned: its number, the count it was
called with, the count that is left, and the bytes it has stored. -/
structure Reader where
  call : Nat
  target : Nat
  n : Nat
  got : List UInt8

/-- A call that has returned: its number, its count, its bytes, and why it stopped. -/
structure Finished where
  call : Nat
  target : Nat
  got : List UInt8
  ending : Ending
  deriving DecidableEq

/-- The console with its readers.  `typed` is what the typed characters mean,
`consumed` the characters that `input.r` has passed and `handed` the bytes stored for
readers with the number of the call, in the order of the lock. -/
structure System where
  input : Input
  reader : Nat → Option Reader
  calls : Nat
  typed : Typed
  consumed : List UInt8
  handed : List (Nat × UInt8)
  finished : List Finished

/-- What happens under the lock: an interrupt delivers a character, a process
calls `consoleread`, and a process that sleeps in it goes on. -/
inductive Label where
  | key (c : UInt8)
  | read (p : Nat) (n : Int)
  | wake (p : Nat)

namespace System

/-- A reader runs until it sleeps or returns. -/
def runReader (s : System) (p : Nat) (reader : Reader) : System :=
  let (input, n, got, ending) := readLoop reader.target reader.n s.input reader.got
  { s with
    input := input
    reader := Function.update s.reader p
      (if ending = .sleep then some { reader with n := n, got := got } else none)
    consumed := s.consumed ++ contents s.input.buf s.input.r input.r
    handed := s.handed ++ (got.drop reader.got.length).map (reader.call, ·)
    finished := if ending = .sleep then s.finished
      else s.finished ++ [⟨reader.call, reader.target, got, ending⟩] }

def step (s : System) : Label → Option System
  | .key c =>
      some { s with
        input := (Console.key s.input c).1
        typed := s.typed.type (s.typed.committed.length - s.consumed.length) c }
  | .read p n =>
      match s.reader p with
      | none =>
          some ({ s with calls := s.calls + 1 }.runReader p ⟨s.calls, n.toNat, n.toNat, []⟩)
      | some _ => none
  | .wake p => (s.reader p).map (s.runReader p)

/-- No character has been typed yet. -/
structure Start (s : System) : Prop where
  w : s.input.w = s.input.r
  e : s.input.e = s.input.r
  reader : ∀ p, s.reader p = none
  typed : s.typed = ⟨[], []⟩
  consumed : s.consumed = []
  handed : s.handed = []
  finished : s.finished = []

end System

end Xv6.Console
