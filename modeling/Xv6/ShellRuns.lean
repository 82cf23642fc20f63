import Mathlib.Data.List.Sublists
import Mathlib.Logic.Function.Basic
import Xv6.ShellAcceptance

/-!
# What the shell runs

`runcmd` forks processes, moves descriptors with `close`, `dup`, `open` and
`pipe`, and becomes programs.  What the processes do is a tree that branches at
`fork`; the tables of descriptors are in its nodes.
-/

namespace Xv6.Shell

abbrev Text := List Char

/-- The way down from a line to a command of it. -/
abbrev Place := List Nat

/-! ## Descriptors -/

/-- What a descriptor stands for; a pipe has the place of its command. -/
inductive Open where
  | inherited (n : Nat)
  | file (name : Text) (mode : Nat)
  | readEnd (pipe : Place)
  | writeEnd (pipe : Place)
  deriving DecidableEq

/-- The descriptors of a process. -/
abbrev Table := Nat → Option Open

/-- `NOFILE` -/
abbrev nofile : Nat := 16

/-- The lowest descriptor that is not in use. -/
def fdalloc (t : Table) : Option Nat := (List.range nofile).find? fun fd => (t fd).isNone

/-- `close` -/
def close (t : Table) (fd : Nat) : Table := Function.update t fd none

/-- `dup` -/
def dup (t : Table) (fd : Nat) : Table :=
  match t fd, fdalloc t with
  | some file, some new => Function.update t new (some file)
  | _, _ => t

/-- `open`, of a file that can be opened or not. -/
def openFile (t : Table) (found : Bool) (file : Open) : Option Table :=
  if found then (fdalloc t).map fun fd => Function.update t fd (some file) else none

/-- `pipe`: the two descriptors. -/
def pipe (t : Table) (made : Bool) (place : Place) : Option (Nat × Nat × Table) :=
  if made then
    (fdalloc t).bind fun p0 =>
      let t := Function.update t p0 (some (.readEnd place))
      (fdalloc t).map fun p1 => (p0, p1, Function.update t p1 (some (.writeEnd place)))
  else none

/-! ## Processes -/

/-- What a process of the shell does from now on. -/
inductive Process where
  | exit
  /-- a message on descriptor 2 -/
  | print (t : Table) (message : Text) (rest : Process)
  | fork (child parent : Process)
  | wait (place : Place) (t : Table) (rest : Process)
  /-- the process is a program now -/
  | program (place : Place) (t : Table) (argv : List Text)

/-- Which system calls succeed, by the place of their command; `fork` by the place of
what the child runs. -/
structure Os where
  opens : Place → Bool
  execs : Place → Bool
  pipes : Place → Bool
  forks : Place → Bool
  chdirs : Place → Bool

/-- `panic` -/
def panic (t : Table) (message : Text) : Process := .print t (message ++ ['\n']) .exit

/-- `fork1` -/
def fork1 (os : Os) (place : Place) (t : Table) (child parent : Process) : Process :=
  if os.forks place then .fork child parent else panic t "fork".toList

/-- `runcmd` -/
def runcmd (os : Os) : Place → Cmd Text → Table → Process
  | _, .exec [], _ => .exit
  | place, .exec (name :: args), t =>
      if os.execs place then .program place t (name :: args)
      else .print t ("exec ".toList ++ name ++ " failed\n".toList) .exit
  | place, .redir cmd file mode fd, t =>
      match openFile (close t fd) (os.opens place) (.file file mode) with
      | none => .print (close t fd) ("open ".toList ++ file ++ " failed\n".toList) .exit
      | some t => runcmd os (place ++ [0]) cmd t
  | place, .list left right, t =>
      fork1 os (place ++ [0]) t (runcmd os (place ++ [0]) left t)
        (.wait place t (runcmd os (place ++ [1]) right t))
  | place, .pipe left right, t =>
      match pipe t (os.pipes place) place with
      | none => panic t "pipe".toList
      | some (p0, p1, t) =>
          fork1 os (place ++ [0]) t
            (runcmd os (place ++ [0]) left (close (close (dup (close t 1) p1) p0) p1))
            (fork1 os (place ++ [1]) t
              (runcmd os (place ++ [1]) right (close (close (dup (close t 0) p0) p0) p1))
              (.wait place (close (close t p0) p1)
                (.wait place (close (close t p0) p1) .exit)))
  | place, .back cmd, t =>
      fork1 os (place ++ [0]) t (runcmd os (place ++ [0]) cmd t) .exit

/-- The texts of the parser's panics. -/
def Panic.text : Panic → Text
  | .missingFile => "missing file for redirection".toList
  | .parseblock => "parseblock".toList
  | .missingParen => "syntax - missing )".toList
  | .badSyntax => "syntax".toList
  | .tooManyArgs => "too many args".toList

/-- The child of the shell that parses and runs a line. -/
def runline (os : Os) (place : Place) (text : Text) (t : Table) : Process :=
  match parsecmd (4 * (cstring text).length + 4) text with
  | .ok (cmd, buf) => runcmd os place (cmd.map (Word.read (cstring text).length buf)) t
  | .error (.panic message) => panic t message.text
  | .error .fuel => .exit

/-- `main`, with the lines that `gets` returns. -/
def session (os : Os) (t : Table) : Nat → List Text → Process
  | _, [] => .print t "$ ".toList .exit
  | n, buf :: rest =>
      .print t "$ ".toList (
        if cstring buf = [] then .exit
        else if buf.take 3 = "cd ".toList then
          if os.chdirs [n] then session os t (n + 1) rest
          else .print t ("cannot cd ".toList ++ (cstring buf).dropLast.drop 3 ++ ['\n'])
            (session os t (n + 1) rest)
        else fork1 os [n] t (runline os [n] buf t) (.wait [] t (session os t (n + 1) rest)))

/-! ## What is meant -/

/-- The programs of a command, each with its place, its descriptors and its arguments. -/
def programs : Place → Cmd Text → Table → List (Place × Table × List Text)
  | _, .exec [], _ => []
  | place, .exec (name :: args), t => [(place, t, name :: args)]
  | place, .redir cmd file mode fd, t =>
      programs (place ++ [0]) cmd (Function.update t fd (some (.file file mode)))
  | place, .list left right, t =>
      programs (place ++ [0]) left t ++ programs (place ++ [1]) right t
  | place, .pipe left right, t =>
      programs (place ++ [0]) left (Function.update t 1 (some (.writeEnd place))) ++
        programs (place ++ [1]) right (Function.update t 0 (some (.readEnd place)))
  | place, .back cmd, t => programs (place ++ [0]) cmd t

/-- The programs that the process and its children become. -/
def Process.started : Process → List (Place × Table × List Text)
  | .exit => []
  | .print _ _ rest => rest.started
  | .fork child parent => child.started ++ parent.started
  | .wait _ _ rest => rest.started
  | .program place t argv => [(place, t, argv)]

/-- What holds wherever a process waits or is a program. -/
def Process.Always (P : Place → Table → Prop) : Process → Prop
  | .exit => True
  | .print _ _ rest => rest.Always P
  | .fork child parent => child.Always P ∧ parent.Always P
  | .wait place t rest => P place t ∧ rest.Always P
  | .program place t _ => P place t

/-- Only what runs on the left of a pipe has its end for writing, and only what runs on
the right has its end for reading. -/
def OwnEnds (place : Place) (t : Table) : Prop :=
  ∀ fd pipe, (t fd = some (.writeEnd pipe) → pipe ++ [0] <+: place) ∧
    (t fd = some (.readEnd pipe) → pipe ++ [1] <+: place)

/-- Descriptors 0, 1 and 2 are open, and two others are the next ones. -/
structure Ready (t : Table) (p0 p1 : Nat) : Prop where
  standard : ∀ fd < 3, t fd ≠ none
  order : p0 < p1 ∧ p1 < nofile
  first : t p0 = none
  second : t p1 = none
  lowest : ∀ fd < p1, fd ≠ p0 → t fd ≠ none

/-- Redirections are of descriptors 0 and 1. -/
def Cmd.Plain {W : Type} : Cmd W → Prop
  | .exec _ => True
  | .redir cmd _ _ fd => cmd.Plain ∧ fd < 2
  | .pipe left right | .list left right => left.Plain ∧ right.Plain
  | .back cmd => cmd.Plain

/-- No system call fails. -/
structure Os.Succeeds (os : Os) : Prop where
  opens : ∀ place, os.opens place = true
  execs : ∀ place, os.execs place = true
  pipes : ∀ place, os.pipes place = true
  forks : ∀ place, os.forks place = true

/-! ## Descriptors that are moved -/

section Tables

variable {t : Table} {fd p0 p1 : Nat} {file : Open}

theorem fdalloc_eq (small : fd < nofile) (free : t fd = none) (below : ∀ i < fd, t i ≠ none) :
    fdalloc t = some fd := by
  unfold fdalloc
  rw [List.find?_range_eq_some]
  refine ⟨by rw [free]; rfl, List.mem_range.mpr small, ?_⟩
  intro i less
  cases used : t i with
  | none => exact absurd used (below i less)
  | some file => rfl

theorem Ready.three_le (ready : Ready t p0 p1) : 3 ≤ p0 := by
  by_contra less
  exact ready.standard p0 (by omega) ready.first

/-- Another file under one of the first descriptors. -/
theorem Ready.update (ready : Ready t p0 p1) (small : fd < 3) :
    Ready (Function.update t fd (some file)) p0 p1 := by
  have bound := ready.three_le
  have order := ready.order
  have stays {i : Nat} (used : t i ≠ none) : Function.update t fd (some file) i ≠ none := by
    by_cases isHere : i = fd
    · rw [isHere, Function.update_self]
      exact Option.some_ne_none file
    · rw [Function.update_of_ne isHere]
      exact used
  constructor
  · exact fun i less => stays (ready.standard i less)
  · exact order
  · rw [Function.update_of_ne (by omega)]
    exact ready.first
  · rw [Function.update_of_ne (by omega)]
    exact ready.second
  · exact fun i less other => stays (ready.lowest i less other)

/-- A closed descriptor is the one that is taken next. -/
theorem fdalloc_close (open' : ∀ i < fd, t i ≠ none) (small : fd < nofile) :
    fdalloc (close t fd) = some fd := by
  apply fdalloc_eq small
  · exact Function.update_self _ _ _
  · intro i less
    rw [close, Function.update_of_ne (by omega)]
    exact open' i less

theorem openFile_close (ready : Ready t p0 p1) (small : fd < 3) :
    openFile (close t fd) true file = some (Function.update t fd (some file)) := by
  unfold openFile
  rw [if_pos rfl, fdalloc_close (fun i less => ready.standard i (by omega))
    (small.trans (by decide)), Option.map_some, close, Function.update_idem]

/-- The table while the pipe is open at both ends. -/
def piped (t : Table) (p0 p1 : Nat) (place : Place) : Table :=
  Function.update (Function.update t p0 (some (.readEnd place))) p1 (some (.writeEnd place))

theorem pipe_ready (ready : Ready t p0 p1) (place : Place) :
    pipe t true place = some (p0, p1, piped t p0 p1 place) := by
  have order := ready.order
  have first : fdalloc t = some p0 := by
    apply fdalloc_eq (by omega) ready.first
    intro i less
    exact ready.lowest i (by omega) (by omega)
  have second : fdalloc (Function.update t p0 (some (.readEnd place))) = some p1 := by
    apply fdalloc_eq order.2
    · rw [Function.update_of_ne (by omega)]
      exact ready.second
    · intro i less
      by_cases isFirst : i = p0
      · rw [isFirst, Function.update_self]
        exact Option.some_ne_none _
      · rw [Function.update_of_ne isFirst]
        exact ready.lowest i less isFirst
  unfold pipe
  rw [if_pos rfl, first]
  simp only [Option.bind_some, second, Option.map_some]
  rfl

theorem piped_of_ne {place : Place} (notFirst : fd ≠ p0) (notSecond : fd ≠ p1) :
    piped t p0 p1 place fd = t fd := by
  unfold piped
  rw [Function.update_of_ne notSecond, Function.update_of_ne notFirst]

theorem piped_first (place : Place) (order : p0 < p1) :
    piped t p0 p1 place p0 = some (.readEnd place) := by
  unfold piped
  rw [Function.update_of_ne (by omega), Function.update_self]

theorem piped_second (place : Place) : piped t p0 p1 place p1 = some (.writeEnd place) := by
  unfold piped
  rw [Function.update_self]

/-- The parent keeps no end of the pipe. -/
theorem close_piped (ready : Ready t p0 p1) (place : Place) :
    close (close (piped t p0 p1 place) p0) p1 = t := by
  have order := ready.order
  ext1 fd
  unfold close
  by_cases isSecond : fd = p1
  · rw [isSecond, Function.update_self, ready.second]
  · rw [Function.update_of_ne isSecond]
    by_cases isFirst : fd = p0
    · rw [isFirst, Function.update_self, ready.first]
    · rw [Function.update_of_ne isFirst, piped_of_ne isFirst isSecond]

/-- A child has one end of the pipe, at the descriptor that it has closed. -/
theorem dup_piped (ready : Ready t p0 p1) {place : Place} {p : Nat} (small : fd < 3)
    (isEnd : p = p0 ∨ p = p1) (found : piped t p0 p1 place p = some file) :
    close (close (dup (close (piped t p0 p1 place) fd) p) p0) p1 =
      Function.update t fd (some file) := by
  have order := ready.order
  have bound := ready.three_le
  have next : fdalloc (close (piped t p0 p1 place) fd) = some fd := by
    apply fdalloc_close _ (small.trans (by decide))
    intro i less
    rw [piped_of_ne (by omega) (by omega)]
    exact ready.standard i (by omega)
  have end' : close (piped t p0 p1 place) fd p = some file := by
    rw [close, Function.update_of_ne (by omega), found]
  have copied : dup (close (piped t p0 p1 place) fd) p =
      Function.update (piped t p0 p1 place) fd (some file) := by
    unfold dup
    rw [end', next]
    exact Function.update_idem _ _ _
  ext1 i
  rw [copied]
  unfold close
  by_cases isSecond : i = p1
  · rw [isSecond, Function.update_self, Function.update_of_ne (by omega), ready.second]
  · rw [Function.update_of_ne isSecond]
    by_cases isFirst : i = p0
    · rw [isFirst, Function.update_self, Function.update_of_ne (by omega), ready.first]
    · rw [Function.update_of_ne isFirst]
      by_cases isHere : i = fd
      · rw [isHere, Function.update_self, Function.update_self]
      · rw [Function.update_of_ne isHere, Function.update_of_ne isHere,
          piped_of_ne isFirst isSecond]

end Tables

/-! ## Commands in a table that is ready -/

section Commands

variable {os : Os} {t : Table} {fd p0 p1 mode : Nat} {place : Place} {cmd left right : Cmd Text}
  {file : Text}

theorem runcmd_redir (ready : Ready t p0 p1) (small : fd < 3) :
    runcmd os place (.redir cmd file mode fd) t =
      if os.opens place then
        runcmd os (place ++ [0]) cmd (Function.update t fd (some (.file file mode)))
      else .print (close t fd) ("open ".toList ++ file ++ " failed\n".toList) .exit := by
  rw [runcmd]
  cases os.opens place with
  | true => rw [openFile_close ready small, if_pos rfl]
  | false => rfl

theorem runcmd_pipe (ready : Ready t p0 p1) :
    runcmd os place (.pipe left right) t =
      if os.pipes place then
        fork1 os (place ++ [0]) (piped t p0 p1 place)
          (runcmd os (place ++ [0]) left (Function.update t 1 (some (.writeEnd place))))
          (fork1 os (place ++ [1]) (piped t p0 p1 place)
            (runcmd os (place ++ [1]) right (Function.update t 0 (some (.readEnd place))))
            (.wait place t (.wait place t .exit)))
      else panic t "pipe".toList := by
  rw [runcmd]
  cases os.pipes place with
  | true =>
      simp only [pipe_ready ready, if_true]
      rw [dup_piped ready (by decide) (.inr rfl) (piped_second place),
        dup_piped ready (by decide) (.inl rfl) (piped_first place ready.order.1),
        close_piped ready place]
  | false => rfl

theorem started_fork1 {child parent : Process} {first second : List (Place × Table × List Text)}
    (isFirst : child.started.Sublist first) (isSecond : parent.started.Sublist second) :
    (fork1 os place t child parent).started.Sublist (first ++ second) := by
  unfold fork1
  split
  · exact isFirst.append isSecond
  · exact List.nil_sublist _

/-- Every program that the command starts is one of its programs, with the descriptors
that it is meant to have. -/
theorem started_sublist (plain : cmd.Plain) (ready : Ready t p0 p1) :
    (runcmd os place cmd t).started.Sublist (programs place cmd t) := by
  induction cmd generalizing place t with
  | exec argv =>
      cases argv with
      | nil => exact List.nil_sublist _
      | cons name args =>
          unfold runcmd programs
          split
          · exact List.Sublist.refl _
          · exact List.nil_sublist _
  | redir cmd file mode fd ih =>
      have small : fd < 3 := plain.2.trans (by decide)
      rw [runcmd_redir ready small, programs]
      split
      · exact ih plain.1 (ready.update small)
      · exact List.nil_sublist _
  | list left right ihLeft ihRight =>
      rw [runcmd, programs]
      exact started_fork1 (ihLeft plain.1 ready) (ihRight plain.2 ready)
  | pipe left right ihLeft ihRight =>
      rw [runcmd_pipe ready, programs]
      split
      · rw [← List.append_nil (programs (place ++ [1]) _ _)]
        apply started_fork1 (ihLeft plain.1 (ready.update (by decide)))
        exact started_fork1 (ihRight plain.2 (ready.update (by decide))) (List.nil_sublist [])
      · exact List.nil_sublist _
  | back cmd ih =>
      rw [runcmd, programs, ← List.append_nil (programs _ _ _)]
      exact started_fork1 (ih plain ready) (List.nil_sublist [])

theorem fork1_succeeds (succeeds : os.Succeeds) (child parent : Process) :
    fork1 os place t child parent = .fork child parent :=
  if_pos (succeeds.forks place)

/-- Where no call fails, all programs of the command are started. -/
theorem started_eq (succeeds : os.Succeeds) (plain : cmd.Plain) (ready : Ready t p0 p1) :
    (runcmd os place cmd t).started = programs place cmd t := by
  induction cmd generalizing place t with
  | exec argv =>
      cases argv with
      | nil => rfl
      | cons name args =>
          rw [runcmd, if_pos (succeeds.execs place)]
          rfl
  | redir cmd file mode fd ih =>
      have small : fd < 3 := plain.2.trans (by decide)
      rw [runcmd_redir ready small, if_pos (succeeds.opens place), programs]
      exact ih plain.1 (ready.update small)
  | list left right ihLeft ihRight =>
      rw [runcmd, fork1_succeeds succeeds, Process.started, ihLeft plain.1 ready,
        Process.started, ihRight plain.2 ready, programs]
  | pipe left right ihLeft ihRight =>
      rw [runcmd_pipe ready, if_pos (succeeds.pipes place), fork1_succeeds succeeds,
        fork1_succeeds succeeds, Process.started, Process.started,
        ihLeft plain.1 (ready.update (by decide)), ihRight plain.2 (ready.update (by decide)),
        programs]
      exact congrArg _ (List.append_nil _)
  | back cmd ih =>
      rw [runcmd, fork1_succeeds succeeds, Process.started, ih plain ready, programs]
      exact List.append_nil _

theorem always_fork1 {P : Place → Table → Prop} {child parent : Process}
    (first : child.Always P) (second : parent.Always P) :
    (fork1 os place t child parent).Always P := by
  unfold fork1
  split
  · exact ⟨first, second⟩
  · trivial

theorem OwnEnds.down (own : OwnEnds place t) (side : Nat) : OwnEnds (place ++ [side]) t := by
  intro fd pipe
  have wider : place <+: place ++ [side] := List.prefix_append _ _
  exact ⟨fun isEnd => ((own fd pipe).1 isEnd).trans wider,
    fun isEnd => ((own fd pipe).2 isEnd).trans wider⟩

theorem OwnEnds.update (own : OwnEnds place t) {file : Open}
    (fits : ∀ pipe, (file = .writeEnd pipe → pipe ++ [0] <+: place) ∧
      (file = .readEnd pipe → pipe ++ [1] <+: place)) :
    OwnEnds place (Function.update t fd (some file)) := by
  intro i pipe
  by_cases isHere : i = fd
  · rw [isHere, Function.update_self]
    exact ⟨fun isEnd => (fits pipe).1 (Option.some.inj isEnd),
      fun isEnd => (fits pipe).2 (Option.some.inj isEnd)⟩
  · rw [Function.update_of_ne isHere]
    exact own i pipe

/-- No process that waits and no program has an end of a pipe that it is not meant
to have. -/
theorem runcmd_ownEnds (plain : cmd.Plain) (ready : Ready t p0 p1) (own : OwnEnds place t) :
    (runcmd os place cmd t).Always OwnEnds := by
  induction cmd generalizing place t with
  | exec argv =>
      cases argv with
      | nil => trivial
      | cons name args =>
          unfold runcmd
          split
          · exact own
          · trivial
  | redir cmd file mode fd ih =>
      have small : fd < 3 := plain.2.trans (by decide)
      rw [runcmd_redir ready small]
      split
      · apply ih plain.1 (ready.update small) ((own.down 0).update _)
        intro pipe
        constructor <;> (intro isEnd; cases isEnd)
      · trivial
  | list left right ihLeft ihRight =>
      rw [runcmd]
      apply always_fork1 (ihLeft plain.1 ready (own.down 0))
      exact ⟨own, ihRight plain.2 ready (own.down 1)⟩
  | pipe left right ihLeft ihRight =>
      rw [runcmd_pipe ready]
      split
      · apply always_fork1
        · apply ihLeft plain.1 (ready.update (by decide)) ((own.down 0).update _)
          intro pipe
          constructor <;> (intro isEnd; cases isEnd)
          exact List.prefix_refl _
        · apply always_fork1
          · apply ihRight plain.2 (ready.update (by decide)) ((own.down 1).update _)
            intro pipe
            constructor <;> (intro isEnd; cases isEnd)
            exact List.prefix_refl _
          · exact ⟨own, own, trivial⟩
      · trivial
  | back cmd ih =>
      rw [runcmd]
      exact always_fork1 (ih plain ready (own.down 0)) trivial

end Commands

/-! ## Commands of a line -/

theorem plain_wrap {W : Type} {cmd : Cmd W} {rs : List (Redir W)} (plain : cmd.Plain)
    (few : ∀ r ∈ rs, r.fd < 2) : (cmd.wrap rs).Plain := by
  induction rs generalizing cmd with
  | nil => exact plain
  | cons r rs ih =>
      exact ih ⟨plain, few r List.mem_cons_self⟩ fun s isHere =>
        few s (List.mem_cons_of_mem r isHere)

theorem plain_backs {W : Type} {cmd : Cmd W} (n : Nat) (plain : cmd.Plain) :
    (backs n cmd).Plain := by
  induction n generalizing cmd with
  | zero => exact plain
  | succ n ih =>
      have more : (Cmd.back cmd).Plain := plain
      exact ih more

theorem fd_of_redirs {ts : List Token} {rs : List (Redir Text)} (redirs : Redirs ts rs) :
    ∀ r ∈ rs, r.fd < 2 := by
  induction redirs with
  | nil =>
      intro r isHere
      cases isHere
  | input _ ih | output _ ih | append _ ih =>
      intro r isHere
      rcases List.mem_cons.mp isHere with rfl | isHere
      · simp
      · exact ih r isHere

theorem fd_of_args {ts : List Token} {words : List Text} {rs : List (Redir Text)}
    (args : Args ts words rs) : ∀ r ∈ rs, r.fd < 2 := by
  induction args with
  | nil =>
      intro r isHere
      cases isHere
  | cons redirs _ ih =>
      intro r isHere
      rcases List.mem_append.mp isHere with isHere | isHere
      · exact fd_of_redirs redirs r isHere
      · exact ih r isHere

/-- The grammar redirects descriptors 0 and 1 only. -/
theorem plain_of_derives {kind : Nonterminal} {ts : List Token} {cmd : Cmd Text}
    (derived : Derives kind ts cmd) : cmd.Plain := by
  induction derived with
  | line n _ ih => exact plain_backs n ih
  | list n _ _ ih ihRest => exact ⟨plain_backs n ih, ihRest⟩
  | exec _ ih => exact ih
  | pipe _ _ ih ihRest => exact ⟨ih, ihRest⟩
  | block _ redirs ih => exact plain_wrap ih (fd_of_redirs redirs)
  | @simple _ _ words _ _ redirs args _ =>
      have plain : (Cmd.exec words).Plain := trivial
      apply plain_wrap plain
      intro r isHere
      rcases List.mem_append.mp isHere with isHere | isHere
      · exact fd_of_redirs redirs r isHere
      · exact fd_of_args args r isHere

theorem plain_of_parsecmd {fuel : Nat} {text : Text} {cmd : Cmd Word} {buf : Buffer}
    (parsed : parsecmd fuel text = .ok (cmd, buf)) :
    (cmd.map (Word.read (cstring text).length buf)).Plain := by
  rw [parsecmd_eq] at parsed
  obtain ⟨⟨cmd', ps⟩, line, parsed⟩ := bind_eq_ok.mp parsed
  obtain ⟨used, -, derived, within⟩ := (parse_sound fuel).1 line
  split at parsed
  · cases parsed
  · cases parsed
    rw [map_read (not_nul_cstring text) within]
    exact plain_of_derives derived

/-- The processes of a line that `parsecmd` accepts start the programs of its command
with the descriptors that they are meant to have, and all of them where no call
fails; no end of a pipe is open in another program or in a process that waits. -/
theorem runcmd_wiring {fuel : Nat} {text : Text} {cmd : Cmd Word} {buf : Buffer}
    (parsed : parsecmd fuel text = .ok (cmd, buf)) (os : Os) {place : Place} {t : Table}
    {p0 p1 : Nat} (ready : Ready t p0 p1) (own : OwnEnds place t) :
    let tree := cmd.map (Word.read (cstring text).length buf)
    (runcmd os place tree t).started.Sublist (programs place tree t) ∧
      (os.Succeeds → (runcmd os place tree t).started = programs place tree t) ∧
      (runcmd os place tree t).Always OwnEnds := by
  have plain := plain_of_parsecmd parsed
  exact ⟨started_sublist plain ready, fun succeeds => started_eq succeeds plain ready,
    runcmd_ownEnds plain ready own⟩

/-- The descriptors 0, 1 and 2 only. -/
def console : Table := fun fd => if fd < 3 then some (.inherited fd) else none

theorem console_ready : Ready console 3 4 := by
  constructor
  · intro fd small
    unfold console
    rw [if_pos small]
    exact Option.some_ne_none _
  · decide
  · rfl
  · rfl
  · intro fd less other
    unfold console
    rw [if_pos (by omega)]
    exact Option.some_ne_none _

theorem console_ownEnds (place : Place) : OwnEnds place console := by
  intro fd pipe
  unfold console
  split
  · constructor <;> (intro isEnd; cases isEnd)
  · constructor <;> (intro isEnd; cases isEnd)

/-- Every call succeeds. -/
def noFailure : Os :=
  ⟨fun _ => true, fun _ => true, fun _ => true, fun _ => true, fun _ => true⟩

/-- A pipe with a redirection on its left. -/
theorem console_wiring : ∃ cmd buf, parsecmd 40 "a<f|b".toList = .ok (cmd, buf) ∧
    (runcmd noFailure [0]
      (cmd.map (Word.read (cstring "a<f|b".toList).length buf)) console).started =
    programs [0] (cmd.map (Word.read (cstring "a<f|b".toList).length buf)) console := by
  have accepted : ∃ cmd buf, parsecmd 40 "a<f|b".toList = .ok (cmd, buf) := ⟨_, _, rfl⟩
  obtain ⟨cmd, buf, parsed⟩ := accepted
  have wiring := runcmd_wiring parsed noFailure console_ready (console_ownEnds [0])
  exact ⟨cmd, buf, parsed, wiring.2.1 ⟨fun _ => rfl, fun _ => rfl, fun _ => rfl, fun _ => rfl⟩⟩

end Xv6.Shell
