import Mathlib.Algebra.GroupWithZero.Nat
import Xv6.LabelledRuns
import Xv6.ShellRuns

/-!
# The processes of the shell

All processes of the shell run at the same time.  A process that waits goes on
when one of its children has exited, and a program exits when it likes.
-/

namespace Xv6.Shell

/-! ## Jobs -/

/-- A process that runs, one that has exited, and one that its parent has waited for. -/
inductive JobState where
  | live (p : Process)
  | zombie
  | gone

/-- A process and its parent, which is `init` when there is none. -/
structure Job where
  parent : Option Nat
  state : JobState

/-- The processes in the order in which they were forked. -/
abbrev Pool := List Job

/-- What happens next. -/
inductive Act where
  /-- the process goes on -/
  | run (i : Nat)
  /-- the program exits -/
  | finish (i : Nat)
  /-- the process waits for this child -/
  | reap (i j : Nat)

/-- `exit`: the children get another parent. -/
def exitJob (pool : Pool) (i : Nat) (parent : Option Nat) : Pool :=
  (pool.map fun job => if job.parent = some i then { job with parent := none } else job).set i
    ⟨parent, .zombie⟩

/-- The number of children of a process. -/
def childCount (pool : Pool) (i : Nat) : Nat := pool.countP fun job => job.parent = some i

def step (pool : Pool) : Act → Option Pool
  | .run i =>
      match pool[i]? with
      | some ⟨parent, .live .exit⟩ => some (exitJob pool i parent)
      | some ⟨parent, .live (.print _ _ rest)⟩ => some (pool.set i ⟨parent, .live rest⟩)
      | some ⟨parent, .live (.fork child rest)⟩ =>
          some (pool.set i ⟨parent, .live rest⟩ ++ [⟨some i, .live child⟩])
      | some ⟨parent, .live (.wait _ _ rest)⟩ =>
          if childCount pool i = 0 then some (pool.set i ⟨parent, .live rest⟩) else none
      | _ => none
  | .finish i =>
      match pool[i]? with
      | some ⟨parent, .live (.program _ _ _)⟩ => some (exitJob pool i parent)
      | _ => none
  | .reap i j =>
      match pool[i]?, pool[j]? with
      | some ⟨parent, .live (.wait _ _ rest)⟩, some ⟨some k, .zombie⟩ =>
          if k = i then some ((pool.set i ⟨parent, .live rest⟩).set j ⟨none, .gone⟩) else none
      | _, _ => none

/-- The shell reads its first line. -/
def start (os : Os) (t : Table) (lines : List Text) : Pool :=
  [⟨none, .live (session os t 0 lines)⟩]

/-! ## What holds in every state -/

/-- With `n` children the process waits only when it has a child, and no program has
children of the shell. -/
def Process.Reaps : Nat → Process → Prop
  | _, .exit => True
  | n, .print _ _ rest => rest.Reaps n
  | n, .fork child parent => child.Reaps 0 ∧ parent.Reaps (n + 1)
  | 0, .wait _ _ _ => False
  | n + 1, .wait _ _ rest => rest.Reaps n
  | n, .program _ _ _ => n = 0

/-- The number of steps that the process and its children can take. -/
def Process.size : Process → Nat
  | .exit => 1
  | .print _ _ rest => rest.size + 1
  | .fork child parent => child.size + parent.size + 1
  | .wait _ _ rest => rest.size + 1
  | .program _ _ _ => 1

def Job.size (job : Job) : Nat :=
  match job.state with
  | .live p => p.size
  | _ => 0

def poolSize (pool : Pool) : Nat := (pool.map Job.size).sum

/-- The process has not exited. -/
def Alive (pool : Pool) (i : Nat) : Prop := ∃ parent p, pool[i]? = some ⟨parent, .live p⟩

/-- Parents are live and older than their children, every live process reaps what it
has forked, and pipes are closed where they are not used. -/
structure PoolOk (pool : Pool) : Prop where
  parents : ∀ (j i : Nat) (state : JobState), pool[j]? = some ⟨some i, state⟩ →
    i < j ∧ state ≠ .gone ∧ Alive pool i
  reaps : ∀ (i : Nat) (parent : Option Nat) (p : Process),
    pool[i]? = some ⟨parent, .live p⟩ → p.Reaps (childCount pool i) ∧ p.Always OwnEnds

/-! ## The processes of a session -/

section Sessions

variable {os : Os} {t : Table} {p0 p1 n : Nat} {place : Place}

theorem reaps_fork1 {child parent : Process} (first : child.Reaps 0)
    (second : parent.Reaps (n + 1)) : (fork1 os place t child parent).Reaps n := by
  unfold fork1
  split
  · exact ⟨first, second⟩
  · trivial

theorem runcmd_reaps (cmd : Cmd Text) : (runcmd os place cmd t).Reaps 0 := by
  induction cmd generalizing place t with
  | exec argv =>
      cases argv with
      | nil => trivial
      | cons name args =>
          unfold runcmd
          split
          · rfl
          · trivial
  | redir cmd file mode fd ih =>
      rw [runcmd]
      split
      · trivial
      · exact ih
  | list left right ihLeft ihRight =>
      rw [runcmd]
      apply reaps_fork1 ihLeft
      exact ihRight
  | pipe left right ihLeft ihRight =>
      rw [runcmd]
      split
      · trivial
      · apply reaps_fork1 ihLeft
        apply reaps_fork1 ihRight
        trivial
  | back cmd ih =>
      rw [runcmd]
      apply reaps_fork1 ih
      trivial

theorem runline_reaps (text : Text) : (runline os place text t).Reaps 0 := by
  unfold runline
  split
  · exact runcmd_reaps _
  · trivial
  · trivial

theorem session_reaps (lines : List Text) : (session os t n lines).Reaps 0 := by
  induction lines generalizing n with
  | nil => trivial
  | cons line lines ih =>
      change Process.Reaps 0 (if _ then _ else _)
      split
      · trivial
      · split
        · split
          · exact ih
          · exact ih
        · exact reaps_fork1 (runline_reaps line) ih

theorem runline_ownEnds (ready : Ready t p0 p1) (own : OwnEnds place t) (text : Text) :
    (runline os place text t).Always OwnEnds := by
  unfold runline
  split
  · next parsed => exact runcmd_ownEnds (plain_of_parsecmd parsed) ready own
  · trivial
  · trivial

theorem session_ownEnds (ready : Ready t p0 p1) (own : OwnEnds [] t) (lines : List Text) :
    (session os t n lines).Always OwnEnds := by
  induction lines generalizing n with
  | nil => trivial
  | cons line lines ih =>
      change Process.Always OwnEnds (if _ then _ else _)
      split
      · trivial
      · split
        · split
          · exact ih
          · exact ih
        · exact always_fork1 (runline_ownEnds ready (own.down n) line) ⟨own, ih⟩

end Sessions

/-! ## Steps -/

section Steps

variable {pool pool' : Pool} {i j k n : Nat} {parent : Option Nat} {p rest child : Process}

theorem split_pool {job : Job} (here : pool[i]? = some job) :
    ∃ before after, pool = before ++ job :: after ∧ before.length = i ∧
      ∀ job', pool.set i job' = before ++ job' :: after := by
  obtain ⟨less, rfl⟩ := List.getElem?_eq_some_iff.mp here
  refine ⟨pool.take i, pool.drop (i + 1), ?_, List.length_take_of_le less.le, ?_⟩
  · rw [List.getElem_cons_drop, List.take_append_drop]
  · intro job'
    rw [List.set_eq_take_append_cons_drop, if_pos less]

theorem poolSize_set {job : Job} (here : pool[i]? = some job) (job' : Job) :
    poolSize (pool.set i job') + job.size = poolSize pool + job'.size := by
  obtain ⟨before, after, rfl, -, changed⟩ := split_pool here
  rw [changed job']
  unfold poolSize
  simp only [List.map_append, List.map_cons, List.sum_append, List.sum_cons]
  omega

theorem childCount_set {job : Job} (here : pool[i]? = some job) (job' : Job) (k : Nat) :
    childCount (pool.set i job') k + (if job.parent = some k then 1 else 0) =
      childCount pool k + (if job'.parent = some k then 1 else 0) := by
  obtain ⟨before, after, rfl, -, changed⟩ := split_pool here
  rw [changed job']
  unfold childCount
  simp only [List.countP_append, List.countP_cons, decide_eq_true_eq]
  omega

theorem of_getElem?_set {job job' : Job} (found : (pool.set i job')[j]? = some job) :
    j = i ∧ job = job' ∨ j ≠ i ∧ pool[j]? = some job := by
  rw [List.getElem?_set] at found
  split at found
  · next isHere =>
    split at found
    · exact .inl ⟨isHere.symm, (Option.some.inj found).symm⟩
    · cases found
  · next other => exact .inr ⟨fun isHere => other isHere.symm, found⟩

theorem Alive.set (alive : Alive pool k) (here : pool[i]? = some ⟨parent, .live p⟩)
    (rest : Process) : Alive (pool.set i ⟨parent, .live rest⟩) k := by
  have less : i < pool.length := (List.getElem?_eq_some_iff.mp here).1
  by_cases isHere : i = k
  · subst isHere
    exact ⟨parent, rest, by rw [List.getElem?_set_self less]⟩
  · obtain ⟨parent', q, found⟩ := alive
    exact ⟨parent', q, by rw [List.getElem?_set_ne isHere, found]⟩

/-- The process goes on by itself. -/
theorem PoolOk.set (ok : PoolOk pool) (here : pool[i]? = some ⟨parent, .live p⟩)
    (reaps : rest.Reaps (childCount pool i)) (ends : rest.Always OwnEnds) :
    PoolOk (pool.set i ⟨parent, .live rest⟩) := by
  have counts (k : Nat) : childCount (pool.set i ⟨parent, .live rest⟩) k = childCount pool k :=
    Nat.add_right_cancel (childCount_set here ⟨parent, .live rest⟩ k)
  constructor
  · intro j k state found
    rcases of_getElem?_set found with ⟨rfl, same⟩ | ⟨-, before⟩
    · cases same
      obtain ⟨older, -, alive⟩ := ok.parents j k _ here
      refine ⟨older, ?_, alive.set here rest⟩
      rintro ⟨⟩
    · obtain ⟨older, waited, alive⟩ := ok.parents j k state before
      exact ⟨older, waited, alive.set here rest⟩
  · intro j parent' q found
    rw [counts]
    rcases of_getElem?_set found with ⟨rfl, same⟩ | ⟨-, before⟩
    · cases same
      exact ⟨reaps, ends⟩
    · exact ok.reaps j parent' q before

theorem of_getElem?_concat {job job' : Job} (found : (pool ++ [job'])[j]? = some job) :
    pool[j]? = some job ∨ j = pool.length ∧ job = job' := by
  rw [List.getElem?_append] at found
  split at found
  · exact .inl found
  · next notLess =>
    right
    rw [List.getElem?_singleton] at found
    split at found
    · next isLast => exact ⟨by omega, (Option.some.inj found).symm⟩
    · cases found

theorem Alive.concat (alive : Alive pool k) (job : Job) : Alive (pool ++ [job]) k := by
  obtain ⟨parent, q, found⟩ := alive
  have less : k < pool.length := (List.getElem?_eq_some_iff.mp found).1
  exact ⟨parent, q, by rw [List.getElem?_append_left less, found]⟩

theorem childCount_concat (pool : Pool) (job : Job) (k : Nat) :
    childCount (pool ++ [job]) k =
      childCount pool k + (if job.parent = some k then 1 else 0) := by
  unfold childCount
  simp only [List.countP_append, List.countP_singleton, decide_eq_true_eq]

/-- Nobody has a parent that does not exist. -/
theorem PoolOk.childCount_of_le (ok : PoolOk pool) (beyond : pool.length ≤ k) :
    childCount pool k = 0 := by
  unfold childCount
  rw [List.countP_eq_zero]
  intro job isHere isChild
  obtain ⟨j, less, rfl⟩ := List.mem_iff_getElem.mp isHere
  have found : pool[j]? = some ⟨some k, pool[j].state⟩ := by
    rw [List.getElem?_eq_getElem less, ← of_decide_eq_true isChild]
  have older := (ok.parents j k _ found).1
  omega

/-- The process forks. -/
theorem PoolOk.fork (ok : PoolOk pool) (here : pool[i]? = some ⟨parent, .live p⟩)
    (first : child.Reaps 0) (firstEnds : child.Always OwnEnds)
    (reaps : rest.Reaps (childCount pool i + 1)) (ends : rest.Always OwnEnds) :
    PoolOk (pool.set i ⟨parent, .live rest⟩ ++ [⟨some i, .live child⟩]) := by
  have less : i < pool.length := (List.getElem?_eq_some_iff.mp here).1
  have counts (k : Nat) : childCount (pool.set i ⟨parent, .live rest⟩) k = childCount pool k :=
    Nat.add_right_cancel (childCount_set here ⟨parent, .live rest⟩ k)
  have self : Alive pool i := ⟨parent, p, here⟩
  constructor
  · intro j k state found
    rcases of_getElem?_concat found with before | ⟨isLast, same⟩
    · rcases of_getElem?_set before with ⟨rfl, same⟩ | ⟨-, before⟩
      · cases same
        obtain ⟨older, -, alive⟩ := ok.parents j k _ here
        refine ⟨older, ?_, (alive.set here rest).concat _⟩
        rintro ⟨⟩
      · obtain ⟨older, waited, alive⟩ := ok.parents j k state before
        exact ⟨older, waited, (alive.set here rest).concat _⟩
    · cases same
      rw [List.length_set] at isLast
      refine ⟨by omega, ?_, (self.set here rest).concat _⟩
      rintro ⟨⟩
  · intro j parent' q found
    rw [childCount_concat, counts]
    rcases of_getElem?_concat found with before | ⟨isLast, same⟩
    · rcases of_getElem?_set before with ⟨rfl, same⟩ | ⟨other, before⟩
      · cases same
        rw [if_pos rfl]
        exact ⟨reaps, ends⟩
      · rw [if_neg fun isParent => other (Option.some.inj isParent).symm]
        exact ok.reaps j parent' q before
    · cases same
      rw [List.length_set] at isLast
      rw [ok.childCount_of_le (by omega), if_neg fun isParent => by
        have isSelf := Option.some.inj isParent
        omega]
      exact ⟨first, firstEnds⟩

/-- The process waits for a child that has exited. -/
theorem PoolOk.reap (ok : PoolOk pool) (here : pool[i]? = some ⟨parent, .live p⟩)
    (there : pool[j]? = some ⟨some i, .zombie⟩) (reaps : ∀ n, childCount pool i = n + 1 →
      rest.Reaps n) (ends : rest.Always OwnEnds) :
    PoolOk ((pool.set i ⟨parent, .live rest⟩).set j ⟨none, .gone⟩) := by
  have apart : i ≠ j := by
    rintro rfl
    rw [here] at there
    cases there
  have there' : (pool.set i ⟨parent, .live rest⟩)[j]? = some ⟨some i, .zombie⟩ := by
    rw [List.getElem?_set_ne apart, there]
  have counts (k : Nat) : childCount ((pool.set i ⟨parent, .live rest⟩).set j ⟨none, .gone⟩) k +
      (if i = k then 1 else 0) = childCount pool k := by
    have first := childCount_set here ⟨parent, .live rest⟩ k
    have second := childCount_set there' ⟨none, .gone⟩ k
    simp only [Option.some_inj, reduceCtorEq, if_false, add_zero] at first second
    omega
  have stays {k : Nat} (alive : Alive pool k) :
      Alive ((pool.set i ⟨parent, .live rest⟩).set j ⟨none, .gone⟩) k := by
    obtain ⟨parent', q, found⟩ := alive.set here rest
    have other : j ≠ k := by
      rintro rfl
      rw [there'] at found
      cases found
    exact ⟨parent', q, by rw [List.getElem?_set_ne other, found]⟩
  constructor
  · intro l k state found
    rcases of_getElem?_set found with ⟨-, same⟩ | ⟨-, before⟩
    · cases same
    · rcases of_getElem?_set before with ⟨rfl, same⟩ | ⟨-, before⟩
      · cases same
        obtain ⟨older, -, alive⟩ := ok.parents l k _ here
        refine ⟨older, ?_, stays alive⟩
        rintro ⟨⟩
      · obtain ⟨older, waited, alive⟩ := ok.parents l k state before
        exact ⟨older, waited, stays alive⟩
  · intro l parent' q found
    have count := counts l
    rcases of_getElem?_set found with ⟨-, same⟩ | ⟨-, before⟩
    · cases same
    · rcases of_getElem?_set before with ⟨rfl, same⟩ | ⟨other, before⟩
      · cases same
        rw [if_pos rfl] at count
        exact ⟨reaps _ count.symm, ends⟩
      · rw [if_neg fun isSelf => other isSelf.symm, add_zero] at count
        rw [count]
        exact ok.reaps l parent' q before

/-- What `exitJob` leaves of a process. -/
theorem of_getElem?_exitJob {job : Job} (found : (exitJob pool i parent)[j]? = some job) :
    j = i ∧ job = ⟨parent, .zombie⟩ ∨
      j ≠ i ∧ ∃ old, pool[j]? = some old ∧ job.state = old.state ∧
        job.parent = if old.parent = some i then none else old.parent := by
  unfold exitJob at found
  rcases of_getElem?_set found with isSelf | ⟨other, before⟩
  · exact .inl isSelf
  · refine .inr ⟨other, ?_⟩
    rw [List.getElem?_map, Option.map_eq_some_iff] at before
    obtain ⟨old, there, rfl⟩ := before
    refine ⟨old, there, ?_⟩
    split
    · exact ⟨rfl, rfl⟩
    · exact ⟨rfl, rfl⟩

theorem Alive.exitJob (alive : Alive pool k) (other : k ≠ i) :
    Alive (exitJob pool i parent) k := by
  obtain ⟨parent', q, found⟩ := alive
  unfold Shell.exitJob
  unfold Alive
  rw [List.getElem?_set_ne other.symm, List.getElem?_map, found, Option.map_some]
  split
  · exact ⟨none, q, rfl⟩
  · exact ⟨parent', q, rfl⟩

/-- The other processes keep their children. -/
theorem childCount_exitJob (here : pool[i]? = some ⟨parent, .live p⟩) (notSelf : parent ≠ some i)
    (other : k ≠ i) : childCount (exitJob pool i parent) k = childCount pool k := by
  have mapped : (pool.map fun job => if job.parent = some i then { job with parent := none }
      else job)[i]? = some ⟨parent, .live p⟩ := by
    rw [List.getElem?_map, here, Option.map_some, if_neg notSelf]
  have change' := Nat.add_right_cancel (childCount_set mapped ⟨parent, .zombie⟩ k)
  unfold exitJob
  rw [change']
  unfold childCount
  rw [List.countP_map]
  apply List.countP_congr
  intro job _
  simp only [Function.comp_apply, decide_eq_true_eq]
  split
  · next isChild =>
    rw [isChild, Option.some_inj]
    exact iff_of_false (by rintro ⟨⟩) other.symm
  · rfl

theorem poolSize_exitJob (here : pool[i]? = some ⟨parent, .live p⟩) :
    poolSize (exitJob pool i parent) + p.size = poolSize pool := by
  have sizes : (pool.map fun job => if job.parent = some i then { job with parent := none }
      else job).map Job.size = pool.map Job.size := by
    rw [List.map_map]
    apply List.map_congr_left
    intro job _
    rw [Function.comp_apply]
    split <;> rfl
  have mapped : ∃ parent', (pool.map fun job => if job.parent = some i then
      { job with parent := none } else job)[i]? = some ⟨parent', .live p⟩ := by
    rw [List.getElem?_map, here, Option.map_some]
    split
    · exact ⟨none, rfl⟩
    · exact ⟨parent, rfl⟩
  obtain ⟨parent', mapped⟩ := mapped
  have sum := poolSize_set mapped ⟨parent, .zombie⟩
  unfold poolSize at sum ⊢
  rw [sizes] at sum
  exact sum

/-- The process exits. -/
theorem PoolOk.exit (ok : PoolOk pool) (here : pool[i]? = some ⟨parent, .live p⟩) :
    PoolOk (exitJob pool i parent) := by
  have notSelf : parent ≠ some i := by
    rintro rfl
    exact absurd (ok.parents i i _ here).1 (Nat.lt_irrefl i)
  constructor
  · intro j k state found
    rcases of_getElem?_exitJob found with ⟨rfl, same⟩ | ⟨-, old, before, sameState, newParent⟩
    · cases same
      obtain ⟨older, -, alive⟩ := ok.parents j k _ here
      refine ⟨older, ?_, alive.exitJob (Nat.ne_of_lt older)⟩
      rintro ⟨⟩
    · split at newParent
      · cases newParent
      · next otherParent =>
        have before : pool[j]? = some ⟨some k, state⟩ := by
          rw [before]
          exact congrArg some (by rw [show old = ⟨old.parent, old.state⟩ from rfl, ← newParent,
            ← sameState])
        obtain ⟨older, waited, alive⟩ := ok.parents j k state before
        refine ⟨older, waited, alive.exitJob ?_⟩
        rintro rfl
        exact otherParent newParent.symm
  · intro j parent' q found
    rcases of_getElem?_exitJob found with ⟨-, same⟩ | ⟨other, old, before, sameState, -⟩
    · cases same
    · rw [childCount_exitJob here notSelf other]
      apply ok.reaps j old.parent q
      rw [before]
      exact congrArg some (by rw [show old = ⟨old.parent, old.state⟩ from rfl, ← sameState])

/-- One step. -/
theorem PoolOk.step (ok : PoolOk pool) {act : Act} (stepped : Shell.step pool act = some pool') :
    PoolOk pool' ∧ poolSize pool' + 1 = poolSize pool := by
  cases act with
  | run i =>
      simp only [Shell.step] at stepped
      split at stepped
      · next parent here =>
        cases stepped
        exact ⟨ok.exit here, poolSize_exitJob here⟩
      · next parent t message rest here =>
        cases stepped
        obtain ⟨reaps, ends⟩ := ok.reaps i parent _ here
        refine ⟨ok.set here reaps ends, ?_⟩
        have sizes := poolSize_set here ⟨parent, .live rest⟩
        simp only [Job.size, Process.size] at sizes
        omega
      · next parent child rest here =>
        cases stepped
        obtain ⟨reaps, ends⟩ := ok.reaps i parent _ here
        refine ⟨ok.fork here reaps.1 ends.1 reaps.2 ends.2, ?_⟩
        have sizes := poolSize_set here ⟨parent, .live rest⟩
        simp only [Job.size, Process.size] at sizes
        unfold poolSize at sizes ⊢
        rw [List.map_append, List.sum_append, List.map_singleton, List.sum_singleton]
        simp only [Job.size]
        omega
      · next parent place t rest here =>
        have reaps := (ok.reaps i parent _ here).1
        split at stepped
        · next alone =>
          rw [alone] at reaps
          exact reaps.elim
        · cases stepped
      · cases stepped
  | finish i =>
      simp only [Shell.step] at stepped
      split at stepped
      · next parent place t argv here =>
        cases stepped
        exact ⟨ok.exit here, poolSize_exitJob here⟩
      · cases stepped
  | reap i j =>
      simp only [Shell.step] at stepped
      split at stepped
      · next parent place t rest k here there =>
        split at stepped
        · next isParent =>
          subst isParent
          cases stepped
          obtain ⟨reaps, ends⟩ := ok.reaps k parent _ here
          refine ⟨ok.reap here there ?_ ends.2, ?_⟩
          · intro n count
            rw [count] at reaps
            exact reaps
          · have apart : k ≠ j := by
              rintro rfl
              rw [here] at there
              cases there
            have there' : (pool.set k ⟨parent, .live rest⟩)[j]? = some ⟨some k, .zombie⟩ := by
              rw [List.getElem?_set_ne apart, there]
            have first := poolSize_set here ⟨parent, .live rest⟩
            have second := poolSize_set there' ⟨none, .gone⟩
            simp only [Job.size, Process.size] at first second
            omega
        · cases stepped
      · cases stepped

end Steps

/-! ## Sessions -/

section Runs

variable {pool pool' : Pool} {acts : List Act}

theorem PoolOk.run (ok : PoolOk pool)
    (ran : LabelledRuns.run Shell.step pool acts = some pool') :
    PoolOk pool' ∧ poolSize pool' + acts.length = poolSize pool := by
  induction acts generalizing pool with
  | nil =>
      cases ran
      exact ⟨ok, rfl⟩
  | cons act acts ih =>
      obtain ⟨next, stepped, rest⟩ := LabelledRuns.run_cons_eq_some.mp ran
      obtain ⟨ok', size⟩ := ok.step stepped
      obtain ⟨last, sizes⟩ := ih ok' rest
      refine ⟨last, ?_⟩
      rw [List.length_cons]
      omega

/-- Where nothing can happen, no process is left: the youngest one that waits would
have a child that has exited. -/
theorem PoolOk.ended (ok : PoolOk pool) (stuck : ∀ act, Shell.step pool act = none)
    (i : Nat) : ¬Alive pool i := by
  induction left : pool.length - i using Nat.strong_induction_on generalizing i with
  | _ left ih =>
    rintro ⟨parent, p, here⟩
    have less : i < pool.length := (List.getElem?_eq_some_iff.mp here).1
    have goesOn := stuck (.run i)
    have finishes := stuck (.finish i)
    simp only [Shell.step, here] at goesOn finishes
    cases p with
    | exit | print _ _ _ | fork _ _ => cases goesOn
    | program place t argv => cases finishes
    | wait place t rest =>
        have reaps := (ok.reaps i parent _ here).1
        have notAlone : childCount pool i ≠ 0 := by
          intro alone
          rw [alone] at reaps
          exact reaps
        obtain ⟨job, isHere, isChild⟩ :=
          List.countP_pos_iff.mp (Nat.pos_of_ne_zero notAlone)
        obtain ⟨j, inside, rfl⟩ := List.mem_iff_getElem.mp isHere
        have found : pool[j]? = some ⟨some i, pool[j].state⟩ := by
          rw [List.getElem?_eq_getElem inside, ← of_decide_eq_true isChild]
        obtain ⟨older, notGone, -⟩ := ok.parents j i _ found
        cases state : pool[j].state with
        | live q =>
            rw [state] at found
            exact ih (pool.length - j) (by omega) j rfl ⟨_, q, found⟩
        | zombie =>
            rw [state] at found
            have reaped := stuck (.reap i j)
            simp only [Shell.step, here, found, if_true] at reaped
            cases reaped
        | gone => exact notGone state

theorem start_ok {os : Os} {t : Table} {p0 p1 : Nat} (ready : Ready t p0 p1)
    (own : OwnEnds [] t) (lines : List Text) : PoolOk (start os t lines) := by
  have only {j : Nat} {job : Job} (found : (start os t lines)[j]? = some job) :
      j = 0 ∧ job = ⟨none, .live (session os t 0 lines)⟩ := by
    unfold start at found
    rw [List.getElem?_singleton] at found
    split at found
    · next isFirst => exact ⟨isFirst, (Option.some.inj found).symm⟩
    · cases found
  constructor
  · intro j i state found
    cases (only found).2
  · intro i parent p found
    obtain ⟨rfl, same⟩ := only found
    cases same
    exact ⟨session_reaps lines, session_ownEnds ready own lines⟩

end Runs

/-- A session takes finitely many steps, in any order of its processes, and when
nothing can happen any more all of them have exited.  A process that waits has a child,
a program starts without children, and neither keeps an end of a pipe that belongs to
another one. -/
theorem session_ends (os : Os) {t : Table} {p0 p1 : Nat} (ready : Ready t p0 p1)
    (own : OwnEnds [] t) (lines : List Text) {acts : List Act} {pool : Pool}
    (ran : LabelledRuns.run step (start os t lines) acts = some pool) :
    acts.length ≤ (session os t 0 lines).size ∧
      ((∀ act, step pool act = none) → ∀ i, ¬Alive pool i) ∧
      (∀ (i : Nat) parent place t' rest,
        pool[i]? = some ⟨parent, .live (.wait place t' rest)⟩ →
          0 < childCount pool i ∧ OwnEnds place t') ∧
      ∀ (i : Nat) parent place t' argv,
        pool[i]? = some ⟨parent, .live (.program place t' argv)⟩ →
          childCount pool i = 0 ∧ OwnEnds place t' := by
  obtain ⟨ok, size⟩ := (start_ok ready own lines).run ran
  refine ⟨?_, fun stuck => ok.ended stuck, ?_, ?_⟩
  · change _ = (session os t 0 lines).size + 0 at size
    omega
  · intro i parent place t' rest here
    obtain ⟨reaps, ends⟩ := ok.reaps i parent _ here
    refine ⟨?_, ends.1⟩
    apply Nat.pos_of_ne_zero
    intro alone
    rw [alone] at reaps
    exact reaps
  · intro i parent place t' argv here
    exact ok.reaps i parent _ here

/-- A line with one program. -/
theorem console_session : ∃ pool,
    LabelledRuns.run step (start noFailure console ["a\n".toList])
      [.run 0, .run 0, .finish 1, .reap 0 1, .run 0, .run 0] = some pool ∧
    6 ≤ (session noFailure console 0 ["a\n".toList]).size ∧
      ((∀ act, step pool act = none) → ∀ i, ¬Alive pool i) := by
  have ends : ∃ pool, LabelledRuns.run step (start noFailure console ["a\n".toList])
      [.run 0, .run 0, .finish 1, .reap 0 1, .run 0, .run 0] = some pool := ⟨_, rfl⟩
  obtain ⟨pool, ran⟩ := ends
  have session := session_ends noFailure console_ready (console_ownEnds []) ["a\n".toList] ran
  exact ⟨pool, ran, session.1, session.2.1⟩

end Xv6.Shell
