import Mathlib.Data.BitVec
import Mathlib.Tactic.Common

/-!
# Arguments of system calls

`fetchint`, `fetchstr`, `argint`, `argptr`, `argstr` and `sys_exec`.  Addresses and
arguments are 32-bit words, added modulo `2 ^ 32`; an `int` is the same word read
with a sign.  A load from an address that is not below the size of the process has
no value, so that a call that makes one has no result.
-/

namespace Xv6.Arguments

abbrev Word := BitVec 32

/-- `KERNBASE` -/
abbrev kernbase : Nat := 0x80000000

/-- `MAXARG` -/
abbrev maxarg : Nat := 32

/-- The current process: its size, its user memory and the saved `esp`. -/
structure Caller where
  sz : Word
  esp : Word
  mem : Word → UInt8

namespace Caller

/-- A load of one byte by the kernel from a user address. -/
def load (p : Caller) (a : Word) : Option UInt8 :=
  if a < p.sz then some (p.mem a) else none

/-- A load of an `int`. -/
def loadInt (p : Caller) (a : Word) : Option Word := do
  let b0 ← p.load a
  let b1 ← p.load (a + 1)
  let b2 ← p.load (a + 2)
  let b3 ← p.load (a + 3)
  return BitVec.ofNat 32 (b0.toNat + 256 * b1.toNat + 65536 * b2.toNat + 16777216 * b3.toNat)

end Caller

/-- What a call returns, and what it stores through its pointer. -/
abbrev Answer := Int × Word

/-- `fetchint` -/
def fetchint (p : Caller) (addr : Word) : Option Answer :=
  if addr ≥ p.sz ∨ addr + 4 > p.sz then some (-1, 0)
  else do
    let value ← p.loadInt addr
    return (0, value)

/-- The loop of `fetchstr`, with the number of bytes up to the end. -/
def scan (p : Caller) (pp : Word) : Nat → Word → Option Answer
  | 0, _ => some (-1, pp)
  | left + 1, s => do
      let c ← p.load s
      if c = 0 then return ((s - pp).toInt, pp) else scan p pp left (s + 1)

/-- `fetchstr` -/
def fetchstr (p : Caller) (addr : Word) : Option Answer :=
  if addr ≥ p.sz then some (-1, 0)
  else scan p addr (p.sz.toNat - addr.toNat) addr

/-- `argint` -/
def argint (p : Caller) (n : Word) : Option Answer :=
  fetchint p (p.esp + 4 + 4 * n)

/-- `argptr` -/
def argptr (p : Caller) (n size : Word) : Option Answer := do
  let (result, i) ← argint p n
  if result < 0 then return (-1, 0)
  else if size.toInt < 0 ∨ i ≥ p.sz ∨ i + size > p.sz then return (-1, 0)
  else return (0, i)

/-- `argstr` -/
def argstr (p : Caller) (n : Word) : Option Answer := do
  let (result, addr) ← argint p n
  if result < 0 then return (-1, 0) else fetchstr p addr

/-- What `sys_exec` does: it returns, or it calls `exec`. -/
inductive ExecCall where
  | returns (value : Int)
  | exec (path : Word) (argv : List Word)

/-- The loop of `sys_exec`, with the entries of `argv` from the last one on. -/
def fetchArgs (p : Caller) (path uargv : Word) : Nat → List Word → Option ExecCall
  | 0, _ => some (.returns (-1))
  | left + 1, argv => do
      let (result, uarg) ← fetchint p (uargv + 4 * BitVec.ofNat 32 argv.length)
      if result < 0 then return .returns (-1)
      else if uarg = 0 then return .exec path (argv ++ [0])
      else
        let (length, arg) ← fetchstr p uarg
        if length < 0 then return .returns (-1)
        else fetchArgs p path uargv left (argv ++ [arg])

/-- `sys_exec` up to the call of `exec`. -/
def sysExec (p : Caller) : Option ExecCall := do
  let (length, path) ← argstr p 0
  if length < 0 then return .returns (-1)
  else
    let (result, uargv) ← argint p 1
    if result < 0 then return .returns (-1) else fetchArgs p path uargv maxarg []

/-! ## The checks are sound -/

/-- The bytes from an address on lie in the process, without a wrap. -/
def Inside (p : Caller) (a : Word) (size : Nat) : Prop :=
  a.toNat + size ≤ p.sz.toNat

/-- A string of this length in the process. -/
structure IsString (p : Caller) (a : Word) (length : Nat) : Prop where
  inside : Inside p a (length + 1)
  ends : p.mem (a + BitVec.ofNat 32 length) = 0
  before : ∀ k, k < length → p.mem (a + BitVec.ofNat 32 k) ≠ 0

section Checks

variable {p : Caller} {a addr n size : Word}

theorem load_of_lt (inside : a < p.sz) : p.load a = some (p.mem a) :=
  if_pos inside

/-- Four bytes that lie in the process can be loaded. -/
theorem loadInt_of_inside (inside : Inside p a 4) : ∃ value, p.loadInt a = some value := by
  unfold Inside at inside
  have first : a < p.sz := by bv_omega
  have second : a + 1 < p.sz := by bv_omega
  have third : a + 2 < p.sz := by bv_omega
  have fourth : a + 3 < p.sz := by bv_omega
  unfold Caller.loadInt
  rw [load_of_lt first, load_of_lt second, load_of_lt third, load_of_lt fourth]
  exact ⟨_, rfl⟩

theorem inside_of_checks (small : p.sz.toNat ≤ kernbase) (low : ¬ addr ≥ p.sz)
    (high : ¬ addr + 4 > p.sz) : Inside p addr 4 := by
  have small : p.sz.toNat ≤ 2147483648 := small
  unfold Inside
  bv_omega

/-- `fetchint` reads only in the process. -/
theorem fetchint_sound (small : p.sz.toNat ≤ kernbase) (addr : Word) :
    ∃ result value, fetchint p addr = some (result, value) ∧
      (result = -1 ∨ result = 0 ∧ Inside p addr 4 ∧ p.loadInt addr = some value) := by
  unfold fetchint
  split
  case isTrue => exact ⟨_, _, rfl, .inl rfl⟩
  case isFalse checked =>
    rw [not_or] at checked
    have inside := inside_of_checks small checked.1 checked.2
    obtain ⟨value, loaded⟩ := loadInt_of_inside inside
    rw [loaded]
    exact ⟨0, value, rfl, .inr ⟨rfl, inside, rfl⟩⟩

theorem toInt_of_small {w : Word} (small : w.toNat < 2147483648) : w.toInt = w.toNat :=
  BitVec.toInt_eq_toNat_of_lt (by omega)

/-- The loop of `fetchstr`, where no byte so far has been NUL. -/
theorem scan_sound {pp : Word} {left k : Nat} (small : p.sz.toNat ≤ kernbase)
    (bound : pp.toNat + k + left = p.sz.toNat)
    (before : ∀ j, j < k → p.mem (pp + BitVec.ofNat 32 j) ≠ 0) :
    ∃ result, scan p pp left (pp + BitVec.ofNat 32 k) = some (result, pp) ∧
      (result = -1 ∨ ∃ length : Nat, result = length ∧ IsString p pp length) := by
  have small : p.sz.toNat ≤ 2147483648 := small
  induction left generalizing k with
  | zero => exact ⟨-1, rfl, .inl rfl⟩
  | succ left ih =>
      have inside : pp + BitVec.ofNat 32 k < p.sz := by bv_omega
      unfold scan
      rw [load_of_lt inside, Option.bind_eq_bind, Option.bind_some]
      split
      case isTrue nul =>
        refine ⟨_, rfl, .inr ⟨k, ?_, ?_, nul, before⟩⟩
        · have difference : pp + BitVec.ofNat 32 k - pp = BitVec.ofNat 32 k := by bv_omega
          have value : (BitVec.ofNat 32 k).toNat = k := by
            rw [BitVec.toNat_ofNat]
            omega
          rw [difference, toInt_of_small (by omega), value]
        · unfold Inside
          omega
      case isFalse more =>
        have next : pp + BitVec.ofNat 32 k + 1 = pp + BitVec.ofNat 32 (k + 1) := by bv_omega
        rw [next]
        refine ih (by omega) fun j less => ?_
        rcases Nat.lt_succ_iff_lt_or_eq.mp less with earlier | rfl
        · exact before j earlier
        · exact more

/-- `fetchstr` reads only in the process, and what it accepts is a string there. -/
theorem fetchstr_sound (small : p.sz.toNat ≤ kernbase) (addr : Word) :
    ∃ result pp, fetchstr p addr = some (result, pp) ∧
      (result = -1 ∨ ∃ length : Nat, result = length ∧ pp = addr ∧ IsString p addr length) := by
  unfold fetchstr
  split
  case isTrue => exact ⟨_, _, rfl, .inl rfl⟩
  case isFalse low =>
    have bound : addr.toNat + 0 + (p.sz.toNat - addr.toNat) = p.sz.toNat := by bv_omega
    obtain ⟨result, scanned, answer⟩ := scan_sound small bound nofun
    have start : addr + BitVec.ofNat 32 0 = addr := by bv_omega
    rw [start] at scanned
    refine ⟨result, addr, scanned, answer.imp_right ?_⟩
    rintro ⟨length, equal, isString⟩
    exact ⟨length, equal, rfl, isString⟩

theorem argint_sound (small : p.sz.toNat ≤ kernbase) (n : Word) :
    ∃ result value, argint p n = some (result, value) ∧
      (result = -1 ∨ result = 0 ∧ Inside p (p.esp + 4 + 4 * n) 4 ∧
        p.loadInt (p.esp + 4 + 4 * n) = some value) :=
  fetchint_sound small _

theorem argptr_sound (small : p.sz.toNat ≤ kernbase) (n size : Word) :
    ∃ result pp, argptr p n size = some (result, pp) ∧
      (result = -1 ∨ result = 0 ∧ 0 ≤ size.toInt ∧ Inside p pp size.toInt.toNat) := by
  obtain ⟨result, i, fetched, -⟩ := argint_sound small n
  have small : p.sz.toNat ≤ 2147483648 := small
  unfold argptr
  rw [fetched, Option.bind_eq_bind, Option.bind_some]
  dsimp only
  split
  case isTrue => exact ⟨_, _, rfl, .inl rfl⟩
  case isFalse =>
    split
    case isTrue => exact ⟨_, _, rfl, .inl rfl⟩
    case isFalse checked =>
      rw [not_or, not_or] at checked
      obtain ⟨positive, low, high⟩ := checked
      have positive : 0 ≤ size.toInt := by omega
      have value : size.toInt = size.toNat ∧ size.toNat < 2147483648 := by
        rw [BitVec.toInt_eq_toNat_cond] at positive ⊢
        split at positive
        case isTrue half =>
          rw [if_pos half]
          omega
        case isFalse =>
          have bound := size.isLt
          omega
      refine ⟨_, _, rfl, .inr ⟨rfl, positive, ?_⟩⟩
      rw [value.1, Int.toNat_natCast]
      have half := value.2
      unfold Inside
      bv_omega

theorem argstr_sound (small : p.sz.toNat ≤ kernbase) (n : Word) :
    ∃ result pp, argstr p n = some (result, pp) ∧
      (result = -1 ∨ ∃ length : Nat, result = length ∧ IsString p pp length) := by
  obtain ⟨result, addr, fetched, -⟩ := argint_sound small n
  unfold argstr
  rw [fetched, Option.bind_eq_bind, Option.bind_some]
  dsimp only
  split
  case isTrue => exact ⟨_, _, rfl, .inl rfl⟩
  case isFalse =>
    obtain ⟨length, pp, found, answer⟩ := fetchstr_sound small addr
    refine ⟨length, pp, found, answer.imp_right ?_⟩
    rintro ⟨k, equal, rfl, isString⟩
    exact ⟨k, equal, isString⟩

/-- The vector that `exec` gets: strings, and a null pointer at the end. -/
structure IsVector (p : Caller) (argv : List Word) : Prop where
  length : argv.length ≤ maxarg
  ends : ∃ args, argv = args ++ [0] ∧
    ∀ arg ∈ args, arg ≠ 0 ∧ ∃ length, IsString p arg length

theorem fetchArgs_sound {path uargv : Word} {left : Nat} {args : List Word}
    (small : p.sz.toNat ≤ kernbase) (bound : args.length + left = maxarg)
    (strings : ∀ arg ∈ args, arg ≠ 0 ∧ ∃ length, IsString p arg length) :
    ∃ call, fetchArgs p path uargv left args = some call ∧
      (call = .returns (-1) ∨ ∃ argv, call = .exec path argv ∧ IsVector p argv) := by
  induction left generalizing args with
  | zero => exact ⟨_, rfl, .inl rfl⟩
  | succ left ih =>
      obtain ⟨result, uarg, fetched, -⟩ :=
        fetchint_sound small (uargv + 4 * BitVec.ofNat 32 args.length)
      unfold fetchArgs
      rw [fetched, Option.bind_eq_bind, Option.bind_some]
      dsimp only
      split
      case isTrue => exact ⟨_, rfl, .inl rfl⟩
      case isFalse =>
        split
        case isTrue =>
          refine ⟨_, rfl, .inr ⟨_, rfl, ?_, args, rfl, strings⟩⟩
          rw [List.length_append, List.length_singleton]
          omega
        case isFalse nonzero =>
          obtain ⟨length, arg, found, answer⟩ := fetchstr_sound small uarg
          rw [found, Option.bind_some]
          dsimp only
          split
          case isTrue => exact ⟨_, rfl, .inl rfl⟩
          case isFalse positive =>
            rcases answer with negative | ⟨k, -, rfl, isString⟩
            · omega
            · refine ih ?_ ?_
              · rw [List.length_append, List.length_singleton]
                omega
              · intro other member
                rcases List.mem_append.mp member with earlier | last
                · exact strings other earlier
                · rw [List.mem_singleton.mp last]
                  exact ⟨nonzero, k, isString⟩

/-- `sys_exec` gives `exec` only strings of the process. -/
theorem sysExec_sound (small : p.sz.toNat ≤ kernbase) :
    ∃ call, sysExec p = some call ∧ (call = .returns (-1) ∨
      ∃ path argv, call = .exec path argv ∧ (∃ length, IsString p path length) ∧
        IsVector p argv) := by
  obtain ⟨length, path, found, answer⟩ := argstr_sound small 0
  unfold sysExec
  rw [found, Option.bind_eq_bind, Option.bind_some]
  dsimp only
  split
  case isTrue => exact ⟨_, rfl, .inl rfl⟩
  case isFalse positive =>
    obtain ⟨result, uargv, fetched, -⟩ := argint_sound small 1
    rw [fetched, Option.bind_some]
    dsimp only
    split
    case isTrue => exact ⟨_, rfl, .inl rfl⟩
    case isFalse =>
      have fetched : ∃ call, fetchArgs p path uargv maxarg [] = some call ∧
          (call = .returns (-1) ∨ ∃ argv, call = .exec path argv ∧ IsVector p argv) :=
        fetchArgs_sound small (Nat.zero_add maxarg) nofun
      obtain ⟨call, made, outcome⟩ := fetched
      refine ⟨call, made, outcome.imp_right ?_⟩
      rintro ⟨argv, equal, vector⟩
      rcases answer with negative | ⟨k, -, isString⟩
      · omega
      · exact ⟨path, argv, equal, ⟨k, isString⟩, vector⟩

end Checks

/-- What the checks promise for a process: no load is outside it, and what they
accept lies in it. -/
structure Sound (p : Caller) : Prop where
  fetchint : ∀ addr, ∃ result value, fetchint p addr = some (result, value) ∧
    (0 ≤ result → Inside p addr 4 ∧ p.loadInt addr = some value)
  argint : ∀ n, ∃ result value, argint p n = some (result, value) ∧
    (0 ≤ result → Inside p (p.esp + 4 + 4 * n) 4 ∧
      p.loadInt (p.esp + 4 + 4 * n) = some value)
  argptr : ∀ n size, ∃ result pp, argptr p n size = some (result, pp) ∧
    (result = 0 → 0 ≤ size.toInt ∧ Inside p pp size.toInt.toNat)
  fetchstr : ∀ addr, ∃ result pp, fetchstr p addr = some (result, pp) ∧
    (0 ≤ result → pp = addr ∧ IsString p addr result.toNat)
  argstr : ∀ n, ∃ result pp, argstr p n = some (result, pp) ∧
    (0 ≤ result → IsString p pp result.toNat)
  sysExec : ∃ call, sysExec p = some call ∧ ∀ path argv, call = .exec path argv →
    (∃ length, IsString p path length) ∧ IsVector p argv

/-- The checks are sound for every process that ends below the kernel. -/
theorem sound_of_size (p : Caller) (small : p.sz.toNat ≤ kernbase) : Sound p where
  fetchint addr := by
    obtain ⟨result, value, fetched, answer⟩ := fetchint_sound small addr
    refine ⟨result, value, fetched, fun succeeds => ?_⟩
    rcases answer with rfl | ⟨-, inside⟩
    · exact absurd succeeds (by decide)
    · exact inside
  argint n := by
    obtain ⟨result, value, fetched, answer⟩ := argint_sound small n
    refine ⟨result, value, fetched, fun succeeds => ?_⟩
    rcases answer with rfl | ⟨-, inside⟩
    · exact absurd succeeds (by decide)
    · exact inside
  argptr n size := by
    obtain ⟨result, pp, fetched, answer⟩ := argptr_sound small n size
    refine ⟨result, pp, fetched, fun succeeds => ?_⟩
    rcases answer with rfl | ⟨-, inside⟩
    · exact absurd succeeds (by decide)
    · exact inside
  fetchstr addr := by
    obtain ⟨result, pp, fetched, answer⟩ := fetchstr_sound small addr
    refine ⟨result, pp, fetched, fun succeeds => ?_⟩
    rcases answer with rfl | ⟨length, rfl, inside⟩
    · exact absurd succeeds (by decide)
    · exact inside
  argstr n := by
    obtain ⟨result, pp, fetched, answer⟩ := argstr_sound small n
    refine ⟨result, pp, fetched, fun succeeds => ?_⟩
    rcases answer with rfl | ⟨length, rfl, inside⟩
    · exact absurd succeeds (by decide)
    · exact inside
  sysExec := by
    obtain ⟨call, made, outcome⟩ := sysExec_sound small
    refine ⟨call, made, fun path argv calls => ?_⟩
    rcases outcome with rfl | ⟨path', argv', rfl, strings⟩
    · cases calls
    · cases calls
      exact strings

/-- A process of one page whose memory is zero. -/
theorem sound_onePage : Sound ⟨4096, 4000, fun _ => 0⟩ :=
  sound_of_size _ (by decide)

end Xv6.Arguments
