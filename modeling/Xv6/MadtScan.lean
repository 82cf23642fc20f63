import Mathlib.Algebra.GroupWithZero.Nat
import Xv6.WhileLoops

/-!
# Scanning the interrupt controller table

`mpinit_uefi` walks over the records of the ACPI table with signature APIC and takes
from it the processors and the I/O APIC; the boot loader walks over the same records to
print them.  Both advance by the length of the record for the types 0, 1, 2 and 4 and by
twelve for type 5, and stay where they are for any other type.
-/

namespace Xv6.Madt

/-- The bytes of the table from its first on. -/
abbrev Table := Nat → UInt8

/-- A word of the table, the lowest byte first. -/
def word (madt : Table) (offset : Nat) : Nat :=
  (madt offset).toNat + 256 * (madt (offset + 1)).toNat +
    65536 * (madt (offset + 2)).toNat + 16777216 * (madt (offset + 3)).toNat

/-- The field `len`. -/
def len (madt : Table) : Nat := word madt 4

/-- `NCPU` -/
abbrev ncpuMax : Nat := 4

/-- `sizeof(struct uefi_madt)` -/
abbrev madtSize : Nat := 44

/-- The globals `lapic`, `cpus`, `ncpu` and `ioapicid`, and the local `i`. -/
structure Scan where
  lapic : Nat
  cpus : Nat → UInt8
  ncpu : Nat
  ioapicid : UInt8
  i : Nat

/-- The condition of both loops. -/
def continues (madt : Table) (i : Nat) : Bool := i < len madt

/-- The byte `record_len` of a record. -/
def recordLen (madt : Table) (start : Nat) : Nat := (madt (start + 1)).toNat

/-- The processor is entered if `ncpu < NCPU`. -/
def Scan.addCpu (s : Scan) (lapicId : UInt8) : Scan :=
  if s.ncpu < ncpuMax then
    { s with
      cpus := fun k => if k = s.ncpu then lapicId else s.cpus k
      ncpu := s.ncpu + 1 }
  else s

/-- The body of the loop of `mpinit_uefi`. -/
def scanRecord (madt : Table) (s : Scan) : Scan :=
  match (madt s.i).toNat with
  | 0 => { s.addCpu (madt (s.i + 3)) with i := (s.i + recordLen madt s.i) % 2 ^ 32 }
  | 1 =>
      { s with
        ioapicid := madt (s.i + 2)
        i := (s.i + recordLen madt s.i) % 2 ^ 32 }
  | 2 => { s with i := (s.i + recordLen madt s.i) % 2 ^ 32 }
  | 4 => { s with i := (s.i + recordLen madt s.i) % 2 ^ 32 }
  | 5 => { s with i := (s.i + 0xC) % 2 ^ 32 }
  | _ => s

/-- `mpinit_uefi` up to its loop. -/
def mpinitStart (madt : Table) (s : Scan) : Scan :=
  { s with lapic := word madt 36, ncpu := 0, i := madtSize }

/-- `mpinit_uefi` returns, after turns of its loop in `visited`. -/
def MpinitUefi (madt : Table) (s : Scan) (visited : List Scan) (last : Scan) : Prop :=
  WhileLoops.Ends (fun s => continues madt s.i) (scanRecord madt) (mpinitStart madt s)
    visited last

/-- The body of the loop of `UefiMain`, but for what it prints. -/
def printRecord (madt : Table) (i : Nat) : Nat :=
  match (madt i).toNat with
  | 0 => (i + recordLen madt i) % 2 ^ 64
  | 1 => (i + recordLen madt i) % 2 ^ 64
  | 2 => (i + recordLen madt i) % 2 ^ 64
  | 4 => (i + recordLen madt i) % 2 ^ 64
  | 5 => (i + 0xC) % 2 ^ 64
  | _ => i

/-- The loop of `UefiMain` ends. -/
def PrintingEnds (madt : Table) : Prop :=
  ∃ visited last, WhileLoops.Ends (continues madt) (printRecord madt) 0x2C visited last

/-! ## What the tables are -/

/-- Records of at least two bytes tile the bytes from one offset to another; the list
has their starts. -/
inductive Tiles (madt : Table) : Nat → List Nat → Nat → Prop where
  | done (stop : Nat) : Tiles madt stop [] stop
  | record {start stop : Nat} {rest : List Nat} (long : 2 ≤ recordLen madt start)
      (tiles : Tiles madt (start + recordLen madt start) rest stop) :
      Tiles madt start (start :: rest) stop

/-- The ids in the records of type 0, in their order. -/
def lapicIds (madt : Table) (starts : List Nat) : List UInt8 :=
  (starts.filter fun start => madt start = 0).map fun start => madt (start + 3)

/-- The ids in the records of type 1, in their order. -/
def ioapicIds (madt : Table) (starts : List Nat) : List UInt8 :=
  (starts.filter fun start => madt start = 1).map fun start => madt (start + 2)

/-- `cpus[0]`, …, `cpus[ncpu - 1]`. -/
def Scan.apicids (s : Scan) : List UInt8 :=
  (List.range s.ncpu).map s.cpus

/-- `mpinit_uefi` returns with the processors and the I/O APIC of the table, and its
cursor was on the records only. -/
def ScannedExactly (madt : Table) (s : Scan) (starts : List Nat) : Prop :=
  ∃ visited last, MpinitUefi madt s visited last ∧
    visited.map Scan.i ++ [last.i] = starts ++ [len madt] ∧
    last.apicids = (lapicIds madt starts).take ncpuMax ∧
    last.ioapicid = (ioapicIds madt starts).getLastD s.ioapicid

/-- The loops advance by the length of the record. -/
def Regular (madt : Table) (start : Nat) : Prop :=
  (madt start).toNat ∈ [0, 1, 2, 4] ∨ ((madt start).toNat = 5 ∧ recordLen madt start = 12)

instance (madt : Table) (start : Nat) : Decidable (Regular madt start) :=
  inferInstanceAs (Decidable (_ ∨ _))

theorem len_lt (madt : Table) : len madt < 2 ^ 32 := by
  have first := (madt 4).toNat_lt
  have second := (madt 5).toNat_lt
  have third := (madt 6).toNat_lt
  have fourth := (madt 7).toNat_lt
  simp only [len, word, Nat.reduceAdd]
  omega

theorem Tiles.le {madt : Table} {start stop : Nat} {starts : List Nat}
    (tiles : Tiles madt start starts stop) : start ≤ stop := by
  induction tiles with
  | done => exact Nat.le_refl _
  | record _ _ ih => omega

theorem Tiles.head {madt : Table} {start stop : Nat} {starts : List Nat}
    (tiles : Tiles madt start starts stop) : (starts ++ [stop]).head? = some start := by
  cases tiles with
  | done => rfl
  | record => rfl

/-! ## One record -/

/-- Where both loops put the cursor. -/
def advance (madt : Table) (bound i : Nat) : Nat :=
  match (madt i).toNat with
  | 0 => (i + recordLen madt i) % bound
  | 1 => (i + recordLen madt i) % bound
  | 2 => (i + recordLen madt i) % bound
  | 4 => (i + recordLen madt i) % bound
  | 5 => (i + 0xC) % bound
  | _ => i

theorem scanRecord_i (madt : Table) (s : Scan) :
    (scanRecord madt s).i = advance madt (2 ^ 32) s.i := by
  unfold scanRecord advance
  split <;> rfl

/-- The cursor is on the next record exactly if the record is regular. -/
theorem advance_eq_iff {madt : Table} {bound i : Nat} (wide : 0xC ≤ bound)
    (long : 2 ≤ recordLen madt i) (fits : i + recordLen madt i < bound) :
    advance madt bound i = i + recordLen madt i ↔ Regular madt i := by
  have reached : (i + recordLen madt i) % bound = i + recordLen madt i :=
    Nat.mod_eq_of_lt fits
  unfold advance Regular
  split
  case h_1 type => simp [type, reached]
  case h_2 type => simp [type, reached]
  case h_3 type => simp [type, reached]
  case h_4 type => simp [type, reached]
  case h_5 type =>
    have notKnown : (madt i).toNat ∉ [0, 1, 2, 4] := by
      rw [type]
      decide
    rw [or_iff_right notKnown, and_iff_right type]
    constructor
    · intro jumped
      have low := Nat.mod_lt (i + 0xC) (by omega : bound > 0)
      rcases Nat.lt_or_ge (i + 0xC) bound with inside | beyond
      · rw [Nat.mod_eq_of_lt inside] at jumped
        omega
      · have wrapped : (i + 0xC) % bound ≤ i + 0xC - bound := by
          rw [Nat.mod_eq_sub_mod beyond]
          exact Nat.mod_le _ _
        omega
    · intro isTwelve
      rw [isTwelve] at reached
      rw [isTwelve, reached]
  case h_6 zero one two four five =>
    have notKnown : (madt i).toNat ∉ [0, 1, 2, 4] := by
      simp only [List.mem_cons, List.not_mem_nil, or_false, not_or]
      exact ⟨zero, one, two, four⟩
    constructor
    · intro stays
      omega
    · rintro (known | ⟨isFive, _⟩)
      · exact absurd known notKnown
      · exact absurd isFive five

theorem addCpu_apicids {s : Scan} (room : s.ncpu ≤ ncpuMax) (lapicId : UInt8)
    (later : List UInt8) :
    ((s.addCpu lapicId).apicids ++ later).take ncpuMax =
      (s.apicids ++ lapicId :: later).take ncpuMax := by
  have length : s.apicids.length = s.ncpu := by
    rw [Scan.apicids, List.length_map, List.length_range]
  unfold Scan.addCpu
  split
  · have others : (List.range s.ncpu).map (fun k => if k = s.ncpu then lapicId else s.cpus k) =
        s.apicids :=
      List.map_congr_left fun k inside => if_neg (Nat.ne_of_lt (List.mem_range.mp inside))
    rw [Scan.apicids, List.range_succ, List.map_append, others, List.append_assoc]
    simp
  · rename_i full
    have isFull : s.apicids.length = ncpuMax := by omega
    rw [List.take_left' isFull, List.take_left' isFull]

/-- One record adds its processor and replaces the I/O APIC. -/
theorem scanRecord_result (madt : Table) {s : Scan} (room : s.ncpu ≤ ncpuMax)
    (later : List UInt8) :
    (scanRecord madt s).ncpu ≤ ncpuMax ∧
      ((scanRecord madt s).apicids ++ later).take ncpuMax =
        (s.apicids ++ (lapicIds madt [s.i] ++ later)).take ncpuMax ∧
      (scanRecord madt s).ioapicid = (ioapicIds madt [s.i]).getLastD s.ioapicid := by
  have value (type : UInt8) : madt s.i = type ↔ (madt s.i).toNat = type.toNat :=
    UInt8.toNat_inj.symm
  have none (type : UInt8) (differs : (madt s.i).toNat ≠ type.toNat) :
      [s.i].filter (fun start => madt start = type) = [] := by
    simp [value, differs]
  have one (type : UInt8) (isType : (madt s.i).toNat = type.toNat) :
      [s.i].filter (fun start => madt start = type) = [s.i] := by
    simp [value, isType]
  have neither (notLapic : (madt s.i).toNat ≠ 0) (notIoapic : (madt s.i).toNat ≠ 1) :
      lapicIds madt [s.i] = [] ∧ ioapicIds madt [s.i] = [] := by
    rw [lapicIds, ioapicIds, none 0 notLapic, none 1 notIoapic]
    exact ⟨rfl, rfl⟩
  unfold scanRecord
  split
  case h_1 type =>
    have others : ioapicIds madt [s.i] = [] := by
      rw [ioapicIds, none 1 (by rw [type]; decide)]
      rfl
    have this : lapicIds madt [s.i] = [madt (s.i + 3)] := by
      rw [lapicIds, one 0 type]
      rfl
    rw [others, this]
    refine ⟨?_, addCpu_apicids room _ later, ?_⟩
    · change (s.addCpu _).ncpu ≤ ncpuMax
      unfold Scan.addCpu
      split
      · assumption
      · exact room
    · change (s.addCpu _).ioapicid = s.ioapicid
      unfold Scan.addCpu
      split <;> rfl
  case h_2 type =>
    have others : lapicIds madt [s.i] = [] := by
      rw [lapicIds, none 0 (by rw [type]; decide)]
      rfl
    have this : ioapicIds madt [s.i] = [madt (s.i + 2)] := by
      rw [ioapicIds, one 1 type]
      rfl
    rw [others, this]
    exact ⟨room, rfl, rfl⟩
  case h_3 type =>
    obtain ⟨lapics, ioapics⟩ := neither (by omega) (by omega)
    rw [lapics, ioapics]
    exact ⟨room, rfl, rfl⟩
  case h_4 type =>
    obtain ⟨lapics, ioapics⟩ := neither (by omega) (by omega)
    rw [lapics, ioapics]
    exact ⟨room, rfl, rfl⟩
  case h_5 type =>
    obtain ⟨lapics, ioapics⟩ := neither (by omega) (by omega)
    rw [lapics, ioapics]
    exact ⟨room, rfl, rfl⟩
  case h_6 zero one two four five =>
    obtain ⟨lapics, ioapics⟩ := neither zero one
    rw [lapics, ioapics]
    exact ⟨room, rfl, rfl⟩

theorem lapicIds_cons (madt : Table) (start : Nat) (rest : List Nat) :
    lapicIds madt (start :: rest) = lapicIds madt [start] ++ lapicIds madt rest := by
  rw [lapicIds, ← List.singleton_append, List.filter_append, List.map_append]
  rfl

theorem ioapicIds_cons (madt : Table) (start : Nat) (rest : List Nat) (before : UInt8) :
    (ioapicIds madt (start :: rest)).getLastD before =
      (ioapicIds madt rest).getLastD ((ioapicIds madt [start]).getLastD before) := by
  unfold ioapicIds
  by_cases isIoapic : madt start = 1
  · simp only [List.filter_cons, isIoapic, decide_true, if_true, List.filter_nil, List.map_cons,
      List.map_nil, List.getLastD_cons, List.getLastD_nil]
  · simp only [List.filter_cons, isIoapic, decide_false, Bool.false_eq_true, if_false,
      List.filter_nil, List.map_nil, List.getLastD_nil]

/-! ## The loops -/

theorem continues_iff {madt : Table} {i : Nat} : continues madt i = true ↔ i < len madt :=
  decide_eq_true_iff

/-- Over regular records `mpinit_uefi` collects what they hold. -/
theorem scan_of_regular {madt : Table} {start stop : Nat} {starts : List Nat}
    (tiles : Tiles madt start starts stop) (isLen : stop = len madt)
    (regular : ∀ start ∈ starts, Regular madt start) {s : Scan} (here : s.i = start)
    (room : s.ncpu ≤ ncpuMax) :
    ∃ visited last,
      WhileLoops.Ends (fun s => continues madt s.i) (scanRecord madt) s visited last ∧
        visited.map Scan.i ++ [last.i] = starts ++ [stop] ∧
        last.apicids = (s.apicids ++ lapicIds madt starts).take ncpuMax ∧
        last.ioapicid = (ioapicIds madt starts).getLastD s.ioapicid := by
  induction tiles generalizing s with
  | done stop =>
      have stopped : continues madt s.i = false := by
        rw [continues, here, isLen, decide_eq_false_iff_not]
        exact Nat.lt_irrefl _
      have length : s.apicids.length ≤ ncpuMax := by
        rw [Scan.apicids, List.length_map, List.length_range]
        exact room
      refine ⟨[], s, WhileLoops.ends_of_stop stopped, by rw [here]; rfl, ?_, rfl⟩
      rw [lapicIds, List.filter_nil, List.map_nil, List.append_nil, List.take_of_length_le length]
  | @record start stop rest long tiles ih =>
      obtain ⟨first, others⟩ := List.forall_mem_cons.mp regular
      have below := tiles.le
      have bound := len_lt madt
      have turn : continues madt s.i = true := continues_iff.mpr (by omega)
      have advanced : (scanRecord madt s).i = start + recordLen madt start := by
        rw [scanRecord_i, here, advance_eq_iff (by decide) long (by omega)]
        exact first
      subst here
      obtain ⟨roomAfter, apicids, ioapicid⟩ :=
        scanRecord_result madt room (lapicIds madt rest)
      obtain ⟨visited, last, ends, cursors, found, ioapic⟩ := ih isLen others advanced roomAfter
      refine ⟨s :: visited, last, ends.turn turn, ?_, ?_, ?_⟩
      · rw [List.map_cons, List.cons_append, List.cons_append, cursors]
      · rw [found, apicids, ← lapicIds_cons]
      · rw [ioapic, ioapicid, ← ioapicIds_cons]

/-- A loop whose cursor was on the records only has advanced by their lengths. -/
theorem regular_of_scan {madt : Table} {start stop : Nat} {starts : List Nat}
    (tiles : Tiles madt start starts stop) (isLen : stop = len madt) {s last : Scan}
    {visited : List Scan} (here : s.i = start)
    (ends : WhileLoops.Ends (fun s => continues madt s.i) (scanRecord madt) s visited last)
    (cursors : visited.map Scan.i ++ [last.i] = starts ++ [stop]) :
    ∀ start ∈ starts, Regular madt start := by
  induction tiles generalizing s visited with
  | done stop => exact nofun
  | @record start stop rest long tiles ih =>
      have below := tiles.le
      have bound := len_lt madt
      rcases ends.cases with ⟨stopped, _, _⟩ | ⟨_, later, rfl, after⟩
      · have turn : continues madt s.i = true := continues_iff.mpr (by omega)
        rw [turn] at stopped
        cases stopped
      · rw [List.map_cons, List.cons_append, List.cons_append] at cursors
        have tails := (List.cons.inj cursors).2
        have advanced : (scanRecord madt s).i = start + recordLen madt start := by
          have first := congrArg (Option.map Scan.i) after.head
          rw [← List.head?_map, List.map_append, List.map_singleton, tails, tiles.head] at first
          exact (Option.some.inj first).symm
        refine List.forall_mem_cons.mpr ⟨?_, ih isLen advanced after tails⟩
        rw [scanRecord_i, here, advance_eq_iff (by decide) long (by omega)] at advanced
        exact advanced

/-- Over regular records the loader's loop ends. -/
theorem printing_of_regular {madt : Table} {start stop : Nat} {starts : List Nat}
    (tiles : Tiles madt start starts stop) (isLen : stop = len madt)
    (regular : ∀ start ∈ starts, Regular madt start) :
    ∃ visited last,
      WhileLoops.Ends (continues madt) (printRecord madt) start visited last := by
  induction tiles with
  | done stop =>
      have stopped : continues madt stop = false := by
        rw [continues, isLen, decide_eq_false_iff_not]
        exact Nat.lt_irrefl _
      exact ⟨[], stop, WhileLoops.ends_of_stop stopped⟩
  | @record start stop rest long tiles ih =>
      obtain ⟨first, others⟩ := List.forall_mem_cons.mp regular
      have below := tiles.le
      have bound := len_lt madt
      have turn : continues madt start = true := continues_iff.mpr (by omega)
      have advanced : advance madt (2 ^ 64) start = start + recordLen madt start :=
        (advance_eq_iff (by decide) long (by omega)).mpr first
      obtain ⟨visited, last, ends⟩ := ih isLen others
      rw [← advanced] at ends
      exact ⟨start :: visited, last, ends.turn turn⟩

/-- `mpinit_uefi` returns what the table holds, and the loader prints it to its end,
exactly if every record has one of the types 0, 1, 2 and 4 or is of type 5 and twelve
bytes long. -/
theorem scannedExactly_iff {madt : Table} {starts : List Nat}
    (tiles : Tiles madt madtSize starts (len madt)) (s : Scan) :
    (ScannedExactly madt s starts ∧ PrintingEnds madt) ↔
      ∀ start ∈ starts, Regular madt start := by
  constructor
  · rintro ⟨⟨visited, last, returned, cursors, _, _⟩, _⟩
    exact regular_of_scan tiles rfl rfl returned cursors
  · intro regular
    exact ⟨scan_of_regular tiles rfl regular rfl (Nat.zero_le _),
      printing_of_regular tiles rfl regular⟩

/-- A table with one record behind its header, of 16 bytes. -/
def oneRecord (type : UInt8) : Table := fun offset =>
  if offset = 4 then 60 else if offset = 44 then type else if offset = 45 then 16
  else if offset = 47 then 3 else 0

theorem tiles_oneRecord (type : UInt8) :
    Tiles (oneRecord type) madtSize [44] (len (oneRecord type)) :=
  .record (show 2 ≤ 16 by decide) (.done 60)

/-- The globals before `mpinit_uefi`. -/
def bootScan : Scan where
  lapic := 0
  cpus := fun _ => 0
  ncpu := 0
  ioapicid := 0
  i := 0

/-- The processor 3 is found in a record of type 0. -/
theorem oneLapic_scannedExactly :
    ScannedExactly (oneRecord 0) bootScan [44] ∧ PrintingEnds (oneRecord 0) :=
  (scannedExactly_iff (tiles_oneRecord 0) bootScan).mpr (by decide)

/-- A record of type 9, for a processor with an id of 32 bits, stops both loops where
they are. -/
theorem x2apic_stuck :
    Tiles (oneRecord 9) madtSize [44] (len (oneRecord 9)) ∧
      (∀ s visited last, ¬MpinitUefi (oneRecord 9) s visited last) ∧
      ¬PrintingEnds (oneRecord 9) := by
  refine ⟨tiles_oneRecord 9, fun s visited last => ?_, ?_⟩
  · exact WhileLoops.not_ends_of_stuck
      (show continues (oneRecord 9) madtSize = true by decide) rfl
  · rintro ⟨visited, last, ends⟩
    exact WhileLoops.not_ends_of_stuck (by decide) rfl ends

end Xv6.Madt
