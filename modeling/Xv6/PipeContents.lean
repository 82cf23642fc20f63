import Xv6.PipeModel

/-!
# The pipe is a bounded queue

Every step either leaves the buffer alone, puts one byte in where there is
room, or takes the oldest byte out.  So what the readers have taken out,
followed by what is in the buffer, is what the writers have put in, however
often the counters wrap around.
-/

namespace Xv6.Pipes

open LabelledRuns

variable {slots : Nat}

theorem pipesize_dvd : pipesize ∣ 2 ^ 32 := by decide

theorem Pipe.full_iff (pipe : Pipe slots) :
    pipe.Full ↔ RingBuffer.count pipe.nread pipe.nwrite = pipesize :=
  RingBuffer.eq_add_iff (by decide)

/-- What a step does to the bytes. -/
theorem step_bytes {s next : System slots} {label : Label slots}
    (stepped : s.step label = some next) :
    (next.pipe.data = s.pipe.data ∧ next.pipe.nread = s.pipe.nread ∧
        next.pipe.nwrite = s.pipe.nwrite ∧ next.stored = s.stored ∧
        next.handed = s.handed) ∨
      (∃ value, ¬ s.pipe.Full ∧ next.pipe = s.pipe.put value ∧
        next.stored = s.stored ++ [value] ∧ next.handed = s.handed) ∨
      (¬ s.pipe.Empty ∧ next.pipe = s.pipe.advance ∧
        next.stored = s.stored ∧ next.handed = s.handed ++ [s.pipe.front]) := by
  cases label with
  | run p =>
      simp only [System.step] at stepped
      split at stepped
      · unfold System.runCall at stepped
        split at stepped
        · cases stepped
        · rename_i pc c _
          cases pc with
          | acquire | reacquire =>
              simp only [System.pipewrite, System.acquire] at stepped
              split at stepped <;> cases stepped
              exact .inl ⟨rfl, rfl, rfl, rfl, rfl⟩
          | loop =>
              simp only [System.pipewrite] at stepped
              split at stepped
              · split at stepped
                · split at stepped <;> cases stepped
                  all_goals exact .inl ⟨rfl, rfl, rfl, rfl, rfl⟩
                · rename_i room
                  cases stepped
                  exact .inr (.inl ⟨c.addr c.i, room, rfl, rfl, rfl⟩)
              · cases stepped
                exact .inl ⟨rfl, rfl, rfl, rfl, rfl⟩
          | wakeReaders | sleep | woken | wake | release =>
              cases stepped
              exact .inl ⟨rfl, rfl, rfl, rfl, rfl⟩
        · rename_i pc c _
          cases pc with
          | acquire | reacquire =>
              simp only [System.piperead, System.acquire] at stepped
              split at stepped <;> cases stepped
              exact .inl ⟨rfl, rfl, rfl, rfl, rfl⟩
          | empty =>
              simp only [System.piperead] at stepped
              repeat' split at stepped
              all_goals cases stepped
              all_goals exact .inl ⟨rfl, rfl, rfl, rfl, rfl⟩
          | copy =>
              simp only [System.piperead] at stepped
              split at stepped <;> cases stepped
              · rename_i test
                exact .inr (.inr ⟨test.2, rfl, rfl, rfl⟩)
              · exact .inl ⟨rfl, rfl, rfl, rfl, rfl⟩
          | sleep | woken | wake | release =>
              cases stepped
              exact .inl ⟨rfl, rfl, rfl, rfl, rfl⟩
        · rename_i pc file _
          cases pc with
          | acquire =>
              simp only [System.pipeclose, System.acquire] at stepped
              split at stepped <;> cases stepped
              exact .inl ⟨rfl, rfl, rfl, rfl, rfl⟩
          | clear =>
              cases stepped
              cases file <;> exact .inl ⟨rfl, rfl, rfl, rfl, rfl⟩
          | wake =>
              cases stepped
              exact .inl ⟨rfl, rfl, rfl, rfl, rfl⟩
          | release =>
              simp only [System.pipeclose] at stepped
              split at stepped <;> cases stepped
              all_goals exact .inl ⟨rfl, rfl, rfl, rfl, rfl⟩
      · cases stepped
  | _ =>
      simp only [System.step] at stepped
      repeat' split at stepped
      all_goals cases stepped
      all_goals exact .inl ⟨rfl, rfl, rfl, rfl, rfl⟩

/-- The buffer holds at most `PIPESIZE` bytes, and nothing has been lost,
duplicated or reordered. -/
structure Fifo (s : System slots) : Prop where
  bounded : RingBuffer.count s.pipe.nread s.pipe.nwrite ≤ pipesize
  bytes : s.handed ++ s.pipe.contents = s.stored

theorem step_fifo {s next : System slots} {label : Label slots} (fifo : Fifo s)
    (stepped : s.step label = some next) : Fifo next := by
  rcases step_bytes stepped with ⟨data, nread, nwrite, stored, handed⟩ |
    ⟨value, room, pipe, stored, handed⟩ | ⟨nonempty, pipe, stored, handed⟩
  · refine ⟨?_, ?_⟩
    · rw [nread, nwrite]
      exact fifo.bounded
    · rw [handed, stored, ← fifo.bytes, Pipe.contents, data, nread, nwrite,
        Pipe.contents]
  · have less : RingBuffer.count s.pipe.nread s.pipe.nwrite < pipesize :=
      lt_of_le_of_ne fifo.bounded fun full => room (s.pipe.full_iff.mpr full)
    have fits : RingBuffer.count s.pipe.nread s.pipe.nwrite + 1 < 2 ^ 32 :=
      lt_of_le_of_lt less (by decide)
    refine ⟨?_, ?_⟩
    · rw [pipe]
      exact (RingBuffer.count_push fits).trans_le less
    · rw [handed, stored, pipe, ← fifo.bytes, List.append_assoc]
      congr 1
      exact RingBuffer.contents_push pipesize_dvd less fits value
  · have popped := RingBuffer.count_pop nonempty
    refine ⟨?_, ?_⟩
    · rw [pipe]
      have bounded := fifo.bounded
      change RingBuffer.count (s.pipe.nread + 1#32) s.pipe.nwrite ≤ pipesize
      omega
    · rw [handed, stored, pipe, ← fifo.bytes, List.append_assoc]
      congr 1
      exact (RingBuffer.contents_pop nonempty).symm

theorem start_fifo {s : System slots} (start : s.Start) : Fifo s := by
  have none : RingBuffer.count s.pipe.nread s.pipe.nwrite = 0 := by
    rw [start.nread, start.nwrite]
    exact RingBuffer.count_self 0
  refine ⟨none.trans_le (by decide), ?_⟩
  rw [start.handed, start.stored, Pipe.contents, RingBuffer.contents, none]
  rfl

/-- In every run of any processes over a pipe, the buffer is a queue of at most
`PIPESIZE` bytes. -/
theorem pipe_is_bounded_fifo {s last : System slots} {labels : List (Label slots)}
    (start : s.Start) (ran : run System.step s labels = some last) :
    (last.pipe.nwrite - last.pipe.nread).toNat ≤ pipesize ∧
      last.handed ++ last.pipe.contents = last.stored := by
  have fifo : Fifo last := invariant_of_run step_fifo (start_fifo start) ran
  exact ⟨fifo.bounded, fifo.bytes⟩

local instance readBeforeWrite_neZero : NeZero 2 := ⟨by decide⟩

/-- The second process asks for five bytes and sleeps, the first writes two, and
the second gets them. -/
def readBeforeWrite : List (Label 2) :=
  [Label.filedup 0 1 .reading, .read 1 5, .run 1, .run 1, .run 1,
    .write 0 (fun i => UInt8.ofNat (i + 7)) 2] ++ List.replicate 6 (Label.run 0) ++
    (Label.dispatch 1 :: List.replicate 8 (Label.run 1))

theorem readBeforeWrite_fifo :
    ∃ last, run System.step .twoProcesses readBeforeWrite = some last ∧
      last.handed = [7, 8] ∧ last.returned 1 = 2 ∧
      (last.pipe.nwrite - last.pipe.nread).toNat ≤ pipesize ∧
      last.handed ++ last.pipe.contents = last.stored := by
  have reached : ((run System.step .twoProcesses readBeforeWrite).map fun s =>
      (s.handed, s.returned 1)) = some ([7, 8], 2) := by
    decide +kernel
  obtain ⟨last, ran, fields⟩ := Option.map_eq_some_iff.mp reached
  obtain ⟨handed, returned⟩ := Prod.mk.inj fields
  exact ⟨last, ran, handed, returned,
    pipe_is_bounded_fifo System.twoProcesses_start ran⟩

end Xv6.Pipes
