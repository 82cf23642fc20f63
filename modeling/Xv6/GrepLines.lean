import Xv6.GrepMatcher
import Xv6.StreamLines

/-!
# The lines that grep reads

`grep` reads into a buffer and keeps what is behind the last newline for the next
turn, except that it drops everything when there is no newline in the buffer.  So
its output depends on how the stream is split into reads: it is right exactly if
each read that some newline is still behind brings one itself.
-/

namespace Xv6.Grep

open StreamLines

/-- `sizeof(buf)` -/
abbrev bufSize : Nat := 1024

/-- `strchr`, as the distance from the first character. -/
def strchr (c : UInt8) : List UInt8 → Option Nat
  | [] => none
  | b :: s => if b = 0 then none else if b = c then some 0 else (strchr c s).map (· + 1)

/-- The inner loop of `grep` from the offset of `p` on: the lines that it writes,
and the offset where it ends. -/
def lineLoop (pattern buf : List UInt8) : Nat → Nat → List (List UInt8) × Nat
  | 0, p => ([], p)
  | fuel + 1, p =>
      match strchr newline (buf.drop p) with
      | none => ([], p)
      | some k =>
          let q := p + k
          let written :=
            if match' pattern ((buf.drop p).take k) then [(buf.drop p).take (q + 1 - p)] else []
          let (more, last) := lineLoop pattern buf fuel (q + 1)
          (written ++ more, last)

/-- One turn of the loop of `grep`, with the first `m` bytes of the buffer: the
lines that it writes, and what it leaves there. -/
def turn (pattern buf : List UInt8) : List (List UInt8) × List UInt8 :=
  let m := buf.length
  let (written, p) := lineLoop pattern buf buf.length 0
  let m := if p = 0 then 0 else m
  if m > 0 then
    let m := m - p
    (written, (buf.drop p).take m)
  else (written, [])

/-- The calls of `write` by `grep`, given what the calls of `read` return. -/
def grepFrom (pattern : List UInt8) : List UInt8 → List (List UInt8) → List (List UInt8)
  | _, [] => []
  | buf, piece :: reads =>
      let (written, buf) := turn pattern (buf ++ piece)
      written ++ grepFrom pattern buf reads

/-- `grep` -/
def grep (pattern : List UInt8) (reads : List (List UInt8)) : List (List UInt8) :=
  grepFrom pattern [] reads

/-- What `read` may return: some bytes, as many as there is room for.  What is left
in the buffer does not depend on the pattern. -/
def Delivered : List UInt8 → List (List UInt8) → Prop
  | _, [] => True
  | buf, piece :: reads =>
      piece ≠ [] ∧ buf.length + piece.length ≤ bufSize - 1 ∧
        Delivered (turn [] (buf ++ piece)).2 reads

/-- What `grep` is for: the lines that match, with their newlines. -/
def matchingLines (pattern stream : List UInt8) : List (List UInt8) :=
  ((split newline stream).1.filter fun line => match' pattern line).map (· ++ [newline])

/-- Each read that some newline is still behind brings a newline. -/
def Prompt (reads : List (List UInt8)) : Prop :=
  ∀ before piece after, reads = before ++ piece :: after → newline ∉ piece →
    newline ∉ after.flatten

/-! ## One turn -/

theorem strchr_of_notMem {s : List UInt8} {c : UInt8} (absent : c ∉ s) : strchr c s = none := by
  induction s with
  | nil => rfl
  | cons b s ih =>
      obtain ⟨other, later⟩ := List.ne_and_not_mem_of_not_mem_cons absent
      rw [strchr, if_neg (Ne.symm other), ih later]
      split <;> rfl

/-- The first character that is looked for. -/
theorem strchr_of_line {line rest : List UInt8} {c : UInt8} (absent : c ∉ line)
    (noNul : 0 ∉ line) (nonzero : c ≠ 0) : strchr c (line ++ c :: rest) = some line.length := by
  induction line with
  | nil => rw [List.nil_append, strchr, if_neg nonzero, if_pos rfl, List.length_nil]
  | cons b line ih =>
      obtain ⟨other, later⟩ := List.ne_and_not_mem_of_not_mem_cons absent
      obtain ⟨notNul, clean⟩ := List.ne_and_not_mem_of_not_mem_cons noNul
      rw [List.cons_append, strchr, if_neg (Ne.symm notNul), if_neg (Ne.symm other), ih later clean]
      rfl

/-- A text with a newline is a line and a rest. -/
theorem exists_line {s : List UInt8} (present : newline ∈ s) :
    ∃ line rest, s = line ++ newline :: rest ∧ newline ∉ line := by
  induction s with
  | nil => cases present
  | cons b s ih =>
      by_cases same : b = newline
      · exact ⟨[], s, by rw [same, List.nil_append], List.not_mem_nil⟩
      · have later := (List.mem_cons.mp present).resolve_left (Ne.symm same)
        obtain ⟨line, rest, rfl, absent⟩ := ih later
        refine ⟨b :: line, rest, rfl, ?_⟩
        exact List.not_mem_cons_of_ne_of_not_mem (Ne.symm same) absent

theorem matchingLines_of_notMem {stream : List UInt8} (pattern : List UInt8)
    (absent : newline ∉ stream) : matchingLines pattern stream = [] := by
  rw [matchingLines, split_of_notMem absent]
  rfl

theorem matchingLines_line {line : List UInt8} (pattern rest : List UInt8)
    (absent : newline ∉ line) :
    matchingLines pattern (line ++ newline :: rest) =
      (if match' pattern line then [line ++ [newline]] else []) ++ matchingLines pattern rest := by
  rw [matchingLines, split_line absent, List.filter_cons]
  split
  · rfl
  · rfl

/-- What is cut off a stream, and what is left of it with the next part. -/
theorem matchingLines_append (pattern s t : List UInt8) :
    matchingLines pattern (s ++ t) =
      matchingLines pattern s ++ matchingLines pattern ((split newline s).2 ++ t) := by
  rw [matchingLines, split_append, List.filter_append, List.map_append]
  rfl

/-- The inner loop of `grep` goes through the lines of the buffer. -/
theorem lineLoop_eq {pattern buf : List UInt8} {fuel p : Nat} (noNul : 0 ∉ buf)
    (inside : p ≤ buf.length) (enough : buf.length ≤ p + fuel) :
    lineLoop pattern buf fuel p =
      (matchingLines pattern (buf.drop p),
        buf.length - (split newline (buf.drop p)).2.length) := by
  induction fuel generalizing p with
  | zero =>
      have ended : buf.length = p := by omega
      rw [← ended, List.drop_length]
      rfl
  | succ fuel ih =>
      have clean : 0 ∉ buf.drop p := fun member => noNul (List.mem_of_mem_drop member)
      unfold lineLoop
      by_cases present : newline ∈ buf.drop p
      · obtain ⟨line, rest, front, absent⟩ := exists_line present
        have noNul' : 0 ∉ line := by
          intro member
          rw [front] at clean
          exact clean (List.mem_append_left _ member)
        have found : strchr newline (buf.drop p) = some line.length := by
          rw [front]
          exact strchr_of_line absent noNul' (by decide)
        have length := congrArg List.length front
        rw [List.length_drop, List.length_append, List.length_cons] at length
        have taken : (buf.drop p).take line.length = line := by
          rw [front]
          exact List.take_left
        have whole : (buf.drop p).take (p + line.length + 1 - p) = line ++ [newline] := by
          have count : p + line.length + 1 - p = (line ++ [newline]).length := by
            rw [List.length_append, List.length_singleton]
            omega
          have cut : buf.drop p = (line ++ [newline]) ++ rest := by
            rw [front, List.append_assoc, List.singleton_append]
          rw [count, cut]
          exact List.take_left
        have later : buf.drop (p + line.length + 1) = rest := by
          rw [Nat.add_assoc, ← List.drop_drop, front, ← List.drop_drop, List.drop_left]
          rfl
        rw [found]
        dsimp only
        rw [ih (by omega) (by omega), taken, whole, later, front,
          matchingLines_line pattern rest absent, split_line absent]
      · have last : (split newline (buf.drop p)).2 = buf.drop p := by
          rw [split_of_notMem present]
        rw [strchr_of_notMem present]
        dsimp only
        rw [matchingLines_of_notMem pattern present, last, List.length_drop]
        congr 1
        omega

/-- One turn writes the lines of the buffer; what is behind them stays only if there
were some. -/
theorem turn_eq {pattern buf : List UInt8} (noNul : 0 ∉ buf) :
    turn pattern buf =
      (matchingLines pattern buf, if newline ∈ buf then (split newline buf).2 else []) := by
  have loop : lineLoop pattern buf buf.length 0 = _ :=
    lineLoop_eq noNul (Nat.zero_le _) (Nat.le_add_left _ _)
  rw [List.drop_zero] at loop
  have suffix : (split newline buf).2 <:+ buf := last_suffix buf
  have shorter := suffix.length_le
  unfold turn
  rw [loop]
  dsimp only
  by_cases present : newline ∈ buf
  · have less : (split newline buf).2.length ≠ buf.length := by
      intro same
      have whole := suffix.eq_of_length same
      exact notMem_last buf (whole ▸ present)
    have moved : buf.length - (split newline buf).2.length ≠ 0 := by omega
    have some : 0 < buf.length := by omega
    rw [if_neg moved, if_pos some, if_pos present]
    have last := List.suffix_iff_eq_drop.mp suffix
    rw [← last, List.take_of_length_le (by omega)]
  · rw [split_of_notMem present, Nat.sub_self, if_pos rfl, if_neg (Nat.lt_irrefl 0), if_neg present]

/-! ## All reads -/

theorem grepFrom_cons {pattern buf piece : List UInt8} {reads : List (List UInt8)}
    (noNul : 0 ∉ buf ++ piece) :
    grepFrom pattern buf (piece :: reads) =
      matchingLines pattern (buf ++ piece) ++
        grepFrom pattern
          (if newline ∈ buf ++ piece then (split newline (buf ++ piece)).2 else []) reads := by
  rw [grepFrom, turn_eq noNul]

theorem Prompt.tail {piece : List UInt8} {reads : List (List UInt8)}
    (prompt : Prompt (piece :: reads)) : Prompt reads := by
  intro before other after split
  refine prompt (piece :: before) other after ?_
  rw [split, List.cons_append]

/-- Without a newline nothing is written. -/
theorem grepFrom_of_notMem {pattern buf : List UInt8} {reads : List (List UInt8)}
    (noNul : 0 ∉ buf) (noNuls : 0 ∉ reads.flatten) (absent : newline ∉ buf)
    (absents : newline ∉ reads.flatten) : grepFrom pattern buf reads = [] := by
  induction reads generalizing buf with
  | nil => rfl
  | cons piece reads ih =>
      rw [List.flatten_cons, List.mem_append, not_or] at noNuls absents
      have clean : 0 ∉ buf ++ piece := by
        rw [List.mem_append, not_or]
        exact ⟨noNul, noNuls.1⟩
      have plain : newline ∉ buf ++ piece := by
        rw [List.mem_append, not_or]
        exact ⟨absent, absents.1⟩
      rw [grepFrom_cons clean, matchingLines_of_notMem pattern plain, if_neg plain, List.nil_append]
      exact ih List.not_mem_nil noNuls.2 List.not_mem_nil absents.2

/-- Prompt reads are read as one stream. -/
theorem grepFrom_of_prompt {pattern buf : List UInt8} {reads : List (List UInt8)}
    (noNul : 0 ∉ buf) (noNuls : 0 ∉ reads.flatten) (absent : newline ∉ buf)
    (prompt : Prompt reads) :
    grepFrom pattern buf reads = matchingLines pattern (buf ++ reads.flatten) := by
  induction reads generalizing buf with
  | nil =>
      rw [List.flatten_nil, List.append_nil, matchingLines_of_notMem pattern absent]
      rfl
  | cons piece reads ih =>
      rw [List.flatten_cons, List.mem_append, not_or] at noNuls
      have clean : 0 ∉ buf ++ piece := by
        rw [List.mem_append, not_or]
        exact ⟨noNul, noNuls.1⟩
      by_cases present : newline ∈ piece
      · have kept : 0 ∉ (split newline (buf ++ piece)).2 :=
          fun member => clean ((last_suffix _).mem member)
        have rest := ih kept noNuls.2 (notMem_last _) prompt.tail
        rw [grepFrom_cons clean, if_pos (List.mem_append_right _ present), rest, List.flatten_cons,
          ← List.append_assoc]
        exact (matchingLines_append pattern (buf ++ piece) reads.flatten).symm
      · have later : newline ∉ reads.flatten := prompt [] piece reads rfl present
        have plain : newline ∉ buf ++ piece ++ reads.flatten := by
          simp only [List.mem_append, not_or]
          exact ⟨⟨absent, present⟩, later⟩
        have nothing : newline ∉ (piece :: reads).flatten := by
          rw [List.flatten_cons, List.mem_append, not_or]
          exact ⟨present, later⟩
        have noNuls' : 0 ∉ (piece :: reads).flatten := by
          rw [List.flatten_cons, List.mem_append, not_or]
          exact noNuls
        rw [grepFrom_of_notMem noNul noNuls' absent nothing, List.flatten_cons,
          ← List.append_assoc, matchingLines_of_notMem pattern plain]

/-! ## The empty pattern -/

/-- The number of characters that are written. -/
def outputLength (output : List (List UInt8)) : Nat :=
  (output.map List.length).sum

theorem matchFrom_nil (text : List UInt8) : matchFrom [] text = true := by
  cases text <;> rfl

/-- The empty pattern matches every line. -/
theorem outputLength_matchingLines (stream : List UInt8) :
    outputLength (matchingLines [] stream) + (split newline stream).2.length = stream.length := by
  have every : (split newline stream).1.filter (fun line => match' [] line) =
      (split newline stream).1 :=
    List.filter_eq_self.mpr fun line _ => matchFrom_nil line
  rw [← @lineLength_split _ _ newline stream, matchingLines, every, outputLength, lineLength,
    List.map_map]
  congr 3
  funext line
  exact List.length_append

theorem outputLength_append (first second : List (List UInt8)) :
    outputLength (first ++ second) = outputLength first + outputLength second := by
  rw [outputLength, List.map_append, List.sum_append]
  rfl

/-- Characters in front of a newline are part of a line. -/
theorem outputLength_front {s t : List UInt8} (absent : newline ∉ s) (present : newline ∈ t) :
    outputLength (matchingLines [] (s ++ t)) = s.length + outputLength (matchingLines [] t) := by
  obtain ⟨line, rest, rfl, plain⟩ := exists_line present
  have both : newline ∉ s ++ line := by
    rw [List.mem_append, not_or]
    exact ⟨absent, plain⟩
  have whole := outputLength_matchingLines (s ++ (line ++ newline :: rest))
  have part := outputLength_matchingLines (line ++ newline :: rest)
  rw [split_line plain] at part
  rw [← List.append_assoc, split_line both, List.append_assoc, List.length_append] at whole
  dsimp only at part whole
  omega

/-- Nothing is written but lines of the stream, or what is left of them. -/
theorem outputLength_le {buf : List UInt8} {reads : List (List UInt8)} (noNul : 0 ∉ buf)
    (noNuls : 0 ∉ reads.flatten) (absent : newline ∉ buf) :
    outputLength (grepFrom [] buf reads) ≤
      outputLength (matchingLines [] (buf ++ reads.flatten)) := by
  induction reads generalizing buf with
  | nil => exact Nat.zero_le _
  | cons piece reads ih =>
      rw [List.flatten_cons, List.mem_append, not_or] at noNuls
      have clean : 0 ∉ buf ++ piece := by
        rw [List.mem_append, not_or]
        exact ⟨noNul, noNuls.1⟩
      rw [grepFrom_cons clean, outputLength_append, List.flatten_cons, ← List.append_assoc]
      by_cases present : newline ∈ buf ++ piece
      · have kept : 0 ∉ (split newline (buf ++ piece)).2 :=
          fun member => clean ((last_suffix _).mem member)
        have rest := ih kept noNuls.2 (notMem_last _)
        rw [if_pos present, matchingLines_append [] (buf ++ piece) reads.flatten,
          outputLength_append]
        omega
      · have rest := ih List.not_mem_nil noNuls.2 List.not_mem_nil
        rw [List.nil_append] at rest
        rw [if_neg present, matchingLines_of_notMem [] present]
        by_cases later : newline ∈ reads.flatten
        · rw [outputLength_front present later]
          change 0 + _ ≤ _
          omega
        · rw [matchingLines_of_notMem [] later] at rest
          change 0 + _ ≤ _
          exact (Nat.zero_add _).le.trans (rest.trans (Nat.zero_le _))

/-- What is dropped in front of a newline is missing from the output. -/
theorem outputLength_lt {buf : List UInt8} {reads : List (List UInt8)} (noNul : 0 ∉ buf)
    (noNuls : 0 ∉ reads.flatten) (absent : newline ∉ buf) (some : ∀ piece ∈ reads, piece ≠ [])
    (late : ¬Prompt reads) :
    outputLength (grepFrom [] buf reads) <
      outputLength (matchingLines [] (buf ++ reads.flatten)) := by
  induction reads generalizing buf with
  | nil =>
      refine absurd (fun before piece after split => ?_) late
      cases before <;> cases split
  | cons piece reads ih =>
      rw [List.flatten_cons, List.mem_append, not_or] at noNuls
      have clean : 0 ∉ buf ++ piece := by
        rw [List.mem_append, not_or]
        exact ⟨noNul, noNuls.1⟩
      obtain ⟨nonempty, others⟩ := List.forall_mem_cons.mp some
      rw [grepFrom_cons clean, outputLength_append, List.flatten_cons, ← List.append_assoc]
      by_cases present : newline ∈ piece
      · have later : ¬Prompt reads := by
          intro prompt
          refine late fun before other after split missing => ?_
          cases before with
          | nil =>
              cases split
              exact absurd present missing
          | cons first before =>
              rw [List.cons_append, List.cons.injEq] at split
              obtain ⟨rfl, rfl⟩ := split
              exact prompt before other after rfl missing
        have here : newline ∈ buf ++ piece := List.mem_append_right _ present
        have kept : 0 ∉ (split newline (buf ++ piece)).2 :=
          fun member => clean ((last_suffix _).mem member)
        have rest := ih kept noNuls.2 (notMem_last _) others later
        rw [if_pos here, matchingLines_append [] (buf ++ piece) reads.flatten, outputLength_append]
        omega
      · have plain : newline ∉ buf ++ piece := by
          rw [List.mem_append, not_or]
          exact ⟨absent, present⟩
        have later : newline ∈ reads.flatten := by
          by_contra never
          refine late fun before other after split missing => ?_
          cases before with
          | nil =>
              cases split
              exact never
          | cons first before =>
              rw [List.cons_append, List.cons.injEq] at split
              obtain ⟨rfl, rfl⟩ := split
              intro member
              apply never
              rw [List.flatten_append, List.mem_append, List.flatten_cons, List.mem_append]
              exact .inr (.inr member)
        have rest := outputLength_le List.not_mem_nil noNuls.2 List.not_mem_nil
        have positive := List.length_pos_of_ne_nil nonempty
        rw [if_neg plain, matchingLines_of_notMem [] plain, outputLength_front plain later,
          List.length_append]
        rw [List.nil_append] at rest
        change 0 + _ < _
        omega

theorem Delivered.nonempty {buf : List UInt8} {reads : List (List UInt8)}
    (delivered : Delivered buf reads) : ∀ piece ∈ reads, piece ≠ [] := by
  induction reads generalizing buf with
  | nil => exact nofun
  | cons piece reads ih =>
      obtain ⟨nonempty, -, rest⟩ := delivered
      exact List.forall_mem_cons.mpr ⟨nonempty, ih rest⟩

/-- `grep` writes the matching lines of the stream, whatever the pattern is, exactly
if the reads are prompt. -/
theorem grep_iff {reads : List (List UInt8)} (noNuls : 0 ∉ reads.flatten)
    (delivered : Delivered [] reads) :
    (∀ pattern, grep pattern reads = matchingLines pattern reads.flatten) ↔ Prompt reads := by
  constructor
  · intro right
    by_contra late
    have less := outputLength_lt List.not_mem_nil noNuls List.not_mem_nil delivered.nonempty late
    rw [List.nil_append] at less
    exact less.ne (congrArg outputLength (right []))
  · intro prompt pattern
    exact grepFrom_of_prompt List.not_mem_nil noNuls List.not_mem_nil prompt

/-- Two lines in three reads, none of them without a newline. -/
theorem promptReads_iff :
    (∀ pattern, grep pattern [[97, 10, 98], [99, 10], [10]] =
      matchingLines pattern [97, 10, 98, 99, 10, 10]) ↔
        Prompt [[97, 10, 98], [99, 10], [10]] := by
  refine grep_iff (by decide) ?_
  refine ⟨by decide, by decide, by decide, by decide, by decide, by decide, trivial⟩

/-- The line "ab" is read in two pieces, and "b" does not match "a". -/
theorem splitLine_lost :
    Delivered [] [[97], [98, newline]] ∧
      grep [97] [[97], [98, newline]] = [] ∧
      matchingLines [97] [[97], [98, newline]].flatten = [[97, 98, newline]] := by
  refine ⟨⟨by decide, by decide, by decide, by decide, trivial⟩, by decide, by decide⟩

end Xv6.Grep
