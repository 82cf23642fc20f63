import Mathlib.Data.List.Basic
import Mathlib.Logic.Function.Basic

/-!
# Redo logs

A redo log holds new contents for a list of home addresses.  The list of
entries is the commit record: writing a non-empty list commits, copying each
logged block home installs, and writing the empty list erases.  A log is
recoverable to a target when installing what is logged produces the target;
each of the four kinds of disk write keeps the log recoverable.
-/

namespace RedoLog

variable {Addr Block : Type*}

section Replay

variable [DecidableEq Addr]

/-- Replay a list of updates, oldest first. -/
def replay (updates : List (Addr × Block)) (home : Addr → Block) :
    Addr → Block :=
  updates.foldl (fun home update => Function.update home update.1 update.2) home

@[simp]
theorem replay_nil (home : Addr → Block) : replay [] home = home :=
  rfl

theorem replay_append (first second : List (Addr × Block))
    (home : Addr → Block) :
    replay (first ++ second) home = replay second (replay first home) :=
  List.foldl_append

/-- Replaying leaves the other addresses alone. -/
theorem replay_of_not_mem {updates : List (Addr × Block)} {addr : Addr}
    (untouched : ∀ update ∈ updates, update.1 ≠ addr) (home : Addr → Block) :
    replay updates home addr = home addr := by
  induction updates generalizing home with
  | nil => rfl
  | cons update updates ih =>
      have apart : addr ≠ update.1 :=
        Ne.symm (untouched update List.mem_cons_self)
      calc replay (update :: updates) home addr
          = replay updates (Function.update home update.1 update.2) addr := rfl
        _ = Function.update home update.1 update.2 addr :=
          ih (fun other mem => untouched other (List.mem_cons_of_mem _ mem)) _
        _ = home addr := Function.update_of_ne apart _ _

end Replay

/-- Installing the logged blocks makes the home addresses equal the target. -/
structure Recoverable (IsHome : Addr → Prop) (entries : List Addr)
    (logged : Nat → Block) (home target : Addr → Block) : Prop where
  logged : ∀ k addr, entries[k]? = some addr → logged k = target addr
  rest : ∀ addr, IsHome addr → addr ∉ entries → home addr = target addr

namespace Recoverable

variable {IsHome : Addr → Prop} {entries : List Addr}
  {logged logged' : Nat → Block} {home home' target target' : Addr → Block}

/-- With an empty log the home addresses are the target. -/
theorem nil_iff : Recoverable IsHome [] logged home target ↔
    ∀ addr, IsHome addr → home addr = target addr :=
  ⟨fun ok addr isHome => ok.rest addr isHome List.not_mem_nil,
    fun same => ⟨fun _ _ none => by simp at none,
      fun addr isHome _ => same addr isHome⟩⟩

/-- The commit record makes the staged blocks the new target. -/
theorem commit (ok : Recoverable IsHome [] logged home target)
    (staged : ∀ k addr, entries[k]? = some addr → logged k = target' addr)
    (rest : ∀ addr, addr ∉ entries → target' addr = target addr) :
    Recoverable IsHome entries logged home target' :=
  ⟨staged, fun addr isHome outside =>
    (nil_iff.mp ok addr isHome).trans (rest addr outside).symm⟩

/-- Writing an entry's block home keeps the target. -/
theorem install [DecidableEq Addr] {addr : Addr}
    (ok : Recoverable IsHome entries logged home target)
    (mem : addr ∈ entries) (block : Block) :
    Recoverable IsHome entries logged (Function.update home addr block)
      target := by
  refine ⟨ok.logged, fun other isHome outside => ?_⟩
  have apart : other ≠ addr := fun eq => outside (eq ▸ mem)
  rw [Function.update_of_ne apart]
  exact ok.rest other isHome outside

/-- Once every entry is installed the log can be erased. -/
theorem erase (ok : Recoverable IsHome entries logged home target)
    (installed : ∀ addr ∈ entries, home addr = target addr) :
    Recoverable IsHome [] logged' home target := by
  refine nil_iff.mpr fun addr isHome => ?_
  by_cases mem : addr ∈ entries
  · exact installed addr mem
  · exact ok.rest addr isHome mem

end Recoverable

end RedoLog
