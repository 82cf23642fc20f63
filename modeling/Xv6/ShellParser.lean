import Mathlib.Data.List.Basic

/-!
# The parser of the shell

`gettoken`, `peek` and the parsing functions of `sh.c`.  A pointer into the
line is the text from there to the end of the line, so that the pointer `es` is
the empty text and the character at a pointer is its first one, or the NUL that
ends the line.  The functions call each other without a bound of their own;
here each call takes fuel, and `parsecmd` says how much is enough.
-/

namespace Xv6.Shell

/-- A pointer into the line. -/
abbrev Ptr := List Char

/-- `MAXARGS` -/
abbrev maxargs : Nat := 10

/-- The characters of `whitespace`. -/
def isWhitespace (c : Char) : Bool :=
  c = ' ' ∨ c = '\t' ∨ c = '\r' ∨ c = '\n' ∨ c = '\x0b'

/-- The characters of `symbols`. -/
def isSymbol (c : Char) : Bool :=
  c = '<' ∨ c = '|' ∨ c = '>' ∨ c = '&' ∨ c = ';' ∨ c = '(' ∨ c = ')'

/-- The characters of a word. -/
def isWordChar (c : Char) : Bool :=
  !isWhitespace c && !isSymbol c

/-- A word of the line: the pointers to its first character and behind its last
one. -/
structure Word where
  start : Ptr
  stop : Ptr
  deriving DecidableEq

/-- A redirection, with the mode and the descriptor of `struct redircmd`. -/
structure Redir (W : Type) where
  file : W
  mode : Nat
  fd : Nat
  deriving DecidableEq

/-- `struct cmd` and what extends it, over a type of words. -/
inductive Cmd (W : Type) where
  | exec (argv : List W)
  | redir (cmd : Cmd W) (file : W) (mode fd : Nat)
  | pipe (left right : Cmd W)
  | list (left right : Cmd W)
  | back (cmd : Cmd W)
  deriving DecidableEq

/-- The commands that `redircmd` makes around a command, one after another. -/
def Cmd.wrap {W : Type} (cmd : Cmd W) : List (Redir W) → Cmd W
  | [] => cmd
  | r :: rest => (Cmd.redir cmd r.file r.mode r.fd).wrap rest

/-- The messages of `panic`. -/
inductive Panic where
  | missingFile
  | parseblock
  | missingParen
  | badSyntax
  | tooManyArgs
  deriving DecidableEq

/-- Why the parser does not return: a panic, or the fuel of the model. -/
inductive Stop where
  | panic (message : Panic)
  | fuel
  deriving DecidableEq

abbrev oRdonly : Nat := 0x000
abbrev oWronly : Nat := 0x001
abbrev oCreate : Nat := 0x200

/-! ## Tokens -/

/-- What `gettoken` returns: the kind of the token, `q` and `eq`, and the
pointer behind the token and the white space after it. -/
structure Got where
  kind : Char
  q : Ptr
  eq : Ptr
  ps : Ptr

/-- The word that `q` and `eq` delimit. -/
def Got.word (token : Got) : Word :=
  ⟨token.q, token.eq⟩

/-- The end of `gettoken`. -/
def got (kind : Char) (q eq : Ptr) : Got :=
  ⟨kind, q, eq, eq.dropWhile isWhitespace⟩

def gettoken (ps : Ptr) : Got :=
  let s := ps.dropWhile isWhitespace
  match s with
  | [] => got '\x00' s s
  | '>' :: '>' :: rest => got '+' s rest
  | c :: rest =>
      if c = '|' ∨ c = '(' ∨ c = ')' ∨ c = ';' ∨ c = '&' ∨ c = '<' ∨ c = '>' then got c s rest
      else got 'a' s (s.dropWhile isWordChar)

/-- `peek`: whether one of these characters is next, and the pointer to it. -/
def peek (ps : Ptr) (toks : List Char) : Bool × Ptr :=
  let s := ps.dropWhile isWhitespace
  match s with
  | [] => (false, s)
  | c :: _ => (toks.contains c, s)

/-! ## Commands -/

/-- What `parseredirs` makes of the token of a redirection. -/
def redirOf (tok : Char) (file : Word) : List (Redir Word) :=
  if tok = '<' then [⟨file, oRdonly, 0⟩]
  else if tok = '>' then [⟨file, oWronly ||| oCreate, 1⟩]
  else if tok = '+' then [⟨file, oWronly ||| oCreate, 1⟩]
  else []

/-- `parseredirs`; the redirections that it makes around its command. -/
def parseredirs : Nat → Ptr → Except Stop (List (Redir Word) × Ptr)
  | 0, _ => throw .fuel
  | fuel + 1, ps => do
      let (more, ps) := peek ps ['<', '>']
      if more then
        let tok := gettoken ps
        let file := gettoken tok.ps
        if file.kind ≠ 'a' then throw (.panic .missingFile)
        else
          let (redirs, ps) ← parseredirs fuel file.ps
          pure (redirOf tok.kind file.word ++ redirs, ps)
      else pure ([], ps)

/-- The loop of `parseexec`: the words, and the redirections around the
command. -/
def parseargs : Nat → Nat → Ptr → Except Stop (List Word × List (Redir Word) × Ptr)
  | 0, _, _ => throw .fuel
  | fuel + 1, argc, ps => do
      let (stop, ps) := peek ps ['|', ')', '&', ';']
      if stop then pure ([], [], ps)
      else
        let tok := gettoken ps
        if tok.kind = '\x00' then pure ([], [], tok.ps)
        else if tok.kind ≠ 'a' then throw (.panic .badSyntax)
        else if maxargs ≤ argc + 1 then throw (.panic .tooManyArgs)
        else
          let (redirs, ps) ← parseredirs fuel tok.ps
          let (words, more, ps) ← parseargs fuel (argc + 1) ps
          pure (tok.word :: words, redirs ++ more, ps)

/-- The loop of `parseline` over the tokens `&`. -/
def parsebacks : Nat → Cmd Word → Ptr → Except Stop (Cmd Word × Ptr)
  | 0, _, _ => throw .fuel
  | fuel + 1, cmd, ps =>
      let (more, ps) := peek ps ['&']
      if more then parsebacks fuel (.back cmd) (gettoken ps).ps
      else pure (cmd, ps)

mutual

def parseline : Nat → Ptr → Except Stop (Cmd Word × Ptr)
  | 0, _ => throw .fuel
  | fuel + 1, ps => do
      let (cmd, ps) ← parsepipe fuel ps
      let (cmd, ps) ← parsebacks fuel cmd ps
      let (more, ps) := peek ps [';']
      if more then
        let (rest, ps) ← parseline fuel (gettoken ps).ps
        pure (.list cmd rest, ps)
      else pure (cmd, ps)

def parsepipe : Nat → Ptr → Except Stop (Cmd Word × Ptr)
  | 0, _ => throw .fuel
  | fuel + 1, ps => do
      let (cmd, ps) ← parseexec fuel ps
      let (more, ps) := peek ps ['|']
      if more then
        let (rest, ps) ← parsepipe fuel (gettoken ps).ps
        pure (.pipe cmd rest, ps)
      else pure (cmd, ps)

def parseblock : Nat → Ptr → Except Stop (Cmd Word × Ptr)
  | 0, _ => throw .fuel
  | fuel + 1, ps => do
      let (open', ps) := peek ps ['(']
      if ¬ open' then throw (.panic .parseblock)
      else
        let (cmd, ps) ← parseline fuel (gettoken ps).ps
        let (close, ps) := peek ps [')']
        if ¬ close then throw (.panic .missingParen)
        else
          let (redirs, ps) ← parseredirs fuel (gettoken ps).ps
          pure (cmd.wrap redirs, ps)

def parseexec : Nat → Ptr → Except Stop (Cmd Word × Ptr)
  | 0, _ => throw .fuel
  | fuel + 1, ps => do
      let (open', ps) := peek ps ['(']
      if open' then parseblock fuel ps
      else
        let (first, ps) ← parseredirs fuel ps
        let (words, redirs, ps) ← parseargs fuel 0 ps
        pure ((Cmd.exec words).wrap (first ++ redirs), ps)

end

/-! ## The line in memory -/

/-- The line with the NUL behind it. -/
abbrev Buffer := List Char

/-- Store a NUL at a pointer into a line of this length. -/
def terminate (length : Nat) (ptr : Ptr) (buf : Buffer) : Buffer :=
  buf.set (length - ptr.length) '\x00'

/-- `nulterminate`, for a line of this length. -/
def nulterminate (length : Nat) : Cmd Word → Buffer → Buffer
  | .exec argv, buf => argv.foldl (fun buf word => terminate length word.stop buf) buf
  | .redir cmd file _ _, buf => terminate length file.stop (nulterminate length cmd buf)
  | .pipe left right, buf => nulterminate length right (nulterminate length left buf)
  | .list left right, buf => nulterminate length right (nulterminate length left buf)
  | .back cmd, buf => nulterminate length cmd buf

/-- The text up to the first NUL. -/
def cstring (text : List Char) : List Char :=
  text.takeWhile (· ≠ '\x00')

/-- `parsecmd`: the command, and the line as `nulterminate` leaves it. -/
def parsecmd (fuel : Nat) (text : List Char) : Except Stop (Cmd Word × Buffer) := do
  let line := cstring text
  let (cmd, ps) ← parseline fuel line
  let (_, ps) := peek ps []
  if ps ≠ [] then throw (.panic .badSyntax)
  else pure (cmd, nulterminate line.length cmd (line ++ ['\x00']))

/-- The string that a word points to in the line of this length. -/
def Word.read (length : Nat) (buf : Buffer) (word : Word) : List Char :=
  cstring (buf.drop (length - word.start.length))

namespace Cmd

variable {V W : Type}

/-- A command with its words replaced. -/
def map (f : V → W) : Cmd V → Cmd W
  | exec argv => exec (argv.map f)
  | redir cmd file mode fd => redir (cmd.map f) (f file) mode fd
  | pipe left right => pipe (left.map f) (right.map f)
  | list left right => list (left.map f) (right.map f)
  | back cmd => back (cmd.map f)

/-- All words of a command. -/
def All (P : W → Prop) : Cmd W → Prop
  | exec argv => ∀ word ∈ argv, P word
  | redir cmd file _ _ => cmd.All P ∧ P file
  | pipe left right => left.All P ∧ right.All P
  | list left right => left.All P ∧ right.All P
  | back cmd => cmd.All P

end Cmd

end Xv6.Shell
