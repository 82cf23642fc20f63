import Mathlib.Data.Fin.Basic
import Mathlib.Data.List.FinRange
import Mathlib.Logic.Function.Basic

/-!
# The process table

The entries of `ptable.proc` and the loops of `proc.c` over them, as they run
under `ptable.lock`.  The table may have any number of entries, and a channel
is a value of any type.
-/

namespace Xv6

/-- `enum procstate` -/
inductive ProcState where
  | unused
  | embryo
  | sleeping
  | runnable
  | running
  | zombie
  deriving DecidableEq, Repr

/-- `struct proc`, as far as the scheduler and the system calls on processes
use it.  `kstack` is the frame of the kernel stack. -/
structure Proc (slots : Nat) (Chan : Type) where
  state : ProcState
  pid : BitVec 32
  parent : Option (Fin slots)
  chan : Option Chan
  killed : Bool
  kstack : Option Nat
  scheduler : BitVec 32

/-- `ptable.proc` -/
abbrev ProcTable (slots : Nat) (Chan : Type) := Fin slots → Proc slots Chan

namespace ProcTable

variable {slots : Nat} {Chan : Type}

/-- The entry is asleep on the channel. -/
def Asleep (t : ProcTable slots Chan) (p : Fin slots) (chan : Chan) : Prop :=
  (t p).state = .sleeping ∧ (t p).chan = some chan

instance [DecidableEq Chan] (t : ProcTable slots Chan) (p : Fin slots)
    (chan : Chan) : Decidable (t.Asleep p chan) :=
  inferInstanceAs (Decidable (_ ∧ _))

def setState (t : ProcTable slots Chan) (p : Fin slots) (state : ProcState) :
    ProcTable slots Chan :=
  Function.update t p { t p with state := state }

/-- The first entry that meets a test, as a loop over the table finds it. -/
def first (t : ProcTable slots Chan) (test : Proc slots Chan → Bool) :
    Option (Fin slots) :=
  (List.finRange slots).find? fun p => test (t p)

/-- `wakeup1` -/
def wakeup1 [DecidableEq Chan] (t : ProcTable slots Chan) (chan : Chan) :
    ProcTable slots Chan :=
  fun p => if t.Asleep p chan then { t p with state := .runnable } else t p

/-- The body of the loop of `kill`, on the entry that it finds. -/
def killEntry (proc : Proc slots Chan) : Proc slots Chan :=
  { proc with
    killed := true
    state := if proc.state = .sleeping then .runnable else proc.state }

/-- `kill`: the new table and the returned value. -/
def kill (t : ProcTable slots Chan) (pid : BitVec 32) :
    ProcTable slots Chan × Int :=
  match t.first fun proc => proc.pid == pid with
  | some p => (Function.update t p (killEntry (t p)), 0)
  | none => (t, -1)

/-- The end of `sleep` before `sched`: `p->chan = chan`, `p->state = SLEEPING`. -/
def fallAsleep (t : ProcTable slots Chan) (p : Fin slots) (chan : Chan) :
    ProcTable slots Chan :=
  Function.update t p { t p with chan := some chan, state := .sleeping }

/-- `p->chan = 0` in `sleep`, after `sched` returns. -/
def tidyUp (t : ProcTable slots Chan) (p : Fin slots) : ProcTable slots Chan :=
  Function.update t p { t p with chan := none }

theorem first_eq_some {t : ProcTable slots Chan}
    {test : Proc slots Chan → Bool} {p : Fin slots}
    (found : t.first test = some p) : test (t p) = true := by
  have holds := List.find?_some found
  exact holds

theorem first_eq_none {t : ProcTable slots Chan}
    {test : Proc slots Chan → Bool} (missing : t.first test = none)
    (p : Fin slots) : test (t p) = false := by
  have absent := List.find?_eq_none.mp missing p (List.mem_finRange p)
  simpa using absent

theorem wakeup1_of_asleep [DecidableEq Chan] {t : ProcTable slots Chan}
    {p : Fin slots} {chan : Chan} (asleep : t.Asleep p chan) :
    t.wakeup1 chan p = { t p with state := .runnable } :=
  if_pos asleep

theorem wakeup1_of_not_asleep [DecidableEq Chan] {t : ProcTable slots Chan}
    {p : Fin slots} {chan : Chan} (awake : ¬ t.Asleep p chan) :
    t.wakeup1 chan p = t p :=
  if_neg awake

theorem not_asleep_wakeup1 [DecidableEq Chan] (t : ProcTable slots Chan)
    (p : Fin slots) (chan : Chan) : ¬ (t.wakeup1 chan).Asleep p chan := by
  rintro ⟨state, same⟩
  by_cases asleep : t.Asleep p chan
  · rw [wakeup1_of_asleep asleep] at state
    cases state
  · rw [wakeup1_of_not_asleep asleep] at state same
    exact asleep ⟨state, same⟩

theorem asleep_of_asleep_wakeup1 [DecidableEq Chan]
    {t : ProcTable slots Chan} {p : Fin slots} {chan other : Chan}
    (asleep : (t.wakeup1 other).Asleep p chan) : t.Asleep p chan := by
  obtain ⟨state, same⟩ := asleep
  by_cases woken : t.Asleep p other
  · rw [wakeup1_of_asleep woken] at state
    cases state
  · rw [wakeup1_of_not_asleep woken] at state same
    exact ⟨state, same⟩

theorem asleep_of_asleep_kill {t : ProcTable slots Chan} {pid : BitVec 32}
    {p : Fin slots} {chan : Chan} (asleep : (t.kill pid).1.Asleep p chan) :
    t.Asleep p chan := by
  unfold kill at asleep
  split at asleep
  · rename_i q found
    by_cases here : p = q
    · subst here
      simp only [Asleep, Function.update_self, killEntry] at asleep
      split at asleep
      · simp at asleep
      · exact asleep
    · simpa [Asleep, here] using asleep
  · exact asleep

theorem chan_kill (t : ProcTable slots Chan) (pid : BitVec 32)
    (p : Fin slots) : ((t.kill pid).1 p).chan = (t p).chan := by
  unfold kill
  split
  · rename_i q found
    by_cases here : p = q
    · subst here
      simp [killEntry]
    · simp [here]
  · rfl

theorem chan_setState (t : ProcTable slots Chan) (p q : Fin slots)
    (state : ProcState) : ((t.setState q state) p).chan = (t p).chan := by
  by_cases here : p = q
  · subst here
    simp [setState]
  · simp [setState, here]

theorem kstack_setState (t : ProcTable slots Chan) (p q : Fin slots)
    (state : ProcState) : ((t.setState q state) p).kstack = (t p).kstack := by
  by_cases here : p = q
  · subst here
    simp [setState]
  · simp [setState, here]

theorem state_setState_self (t : ProcTable slots Chan) (p : Fin slots)
    (state : ProcState) : ((t.setState p state) p).state = state := by
  simp [setState]

theorem state_setState_of_ne (t : ProcTable slots Chan) {p q : Fin slots}
    (state : ProcState) (other : p ≠ q) :
    ((t.setState q state) p).state = (t p).state := by
  simp [setState, other]

theorem asleep_of_asleep_setState {t : ProcTable slots Chan} {p q : Fin slots}
    {state : ProcState} {chan : Chan} (awake : state ≠ .sleeping)
    (asleep : (t.setState q state).Asleep p chan) : t.Asleep p chan := by
  by_cases here : p = q
  · subst here
    simp [Asleep, setState, awake] at asleep
  · simpa [Asleep, setState, here] using asleep

/-- A part of the entries that is the same in both tables. -/
def Keeps {α : Type} (field : Proc slots Chan → α)
    (t t' : ProcTable slots Chan) : Prop :=
  ∀ p, field (t' p) = field (t p)

theorem Keeps.refl {α : Type} {field : Proc slots Chan → α}
    (t : ProcTable slots Chan) : Keeps field t t :=
  fun _ => rfl

theorem Keeps.trans {α : Type} {field : Proc slots Chan → α}
    {t t' t'' : ProcTable slots Chan} (first : Keeps field t t')
    (second : Keeps field t' t'') : Keeps field t t'' :=
  fun p => (second p).trans (first p)

theorem Keeps.update {α : Type} {field : Proc slots Chan → α}
    {t : ProcTable slots Chan} {p : Fin slots} {proc : Proc slots Chan}
    (same : field proc = field (t p)) :
    Keeps field t (Function.update t p proc) := by
  intro q
  by_cases here : q = p
  · subst here
    rw [Function.update_self]
    exact same
  · rw [Function.update_of_ne here]

theorem keeps_wakeup1 [DecidableEq Chan] {α : Type} {field : Proc slots Chan → α}
    (ignores : ∀ proc state, field { proc with state := state } = field proc)
    (t : ProcTable slots Chan) (chan : Chan) : Keeps field t (t.wakeup1 chan) := by
  intro p
  by_cases asleep : t.Asleep p chan
  · rw [wakeup1_of_asleep asleep]
    exact ignores _ _
  · rw [wakeup1_of_not_asleep asleep]

theorem keeps_kill {α : Type} {field : Proc slots Chan → α}
    (ignores : ∀ proc, field (killEntry proc) = field proc)
    (t : ProcTable slots Chan) (pid : BitVec 32) :
    Keeps field t (t.kill pid).1 := by
  unfold kill
  split
  · exact .update (ignores _)
  · exact .refl t

theorem asleep_fallAsleep {t : ProcTable slots Chan} {p q : Fin slots}
    {chan other : Chan} (asleep : (t.fallAsleep q other).Asleep p chan) :
    p = q ∧ chan = other ∨ t.Asleep p chan := by
  by_cases here : p = q
  · subst here
    simp only [Asleep, fallAsleep, Function.update_self, Option.some.injEq,
      true_and] at asleep
    exact .inl ⟨rfl, asleep.symm⟩
  · simp only [Asleep, fallAsleep, Function.update_of_ne here] at asleep
    exact .inr asleep

end ProcTable

end Xv6
