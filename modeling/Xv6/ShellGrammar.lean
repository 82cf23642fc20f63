import Xv6.ShellParser
import Mathlib.Data.List.DropRight
import Mathlib.Data.List.TakeWhile
import Mathlib.Tactic.Common

/-!
# The grammar of the shell

The token sequence of a line and the grammar over it, with the tree of each
derivation.  What the parser takes from a line is derived, and what it returns,
with the text of its words, is the tree.
-/

namespace Xv6.Shell

/-! ## The grammar -/

/-- A token, with the text of a word. -/
inductive Token where
  | word (text : List Char)
  | pipe
  | lparen
  | rparen
  | semi
  | amp
  | lt
  | gt
  | append
  deriving DecidableEq

/-- The tokens of one character. -/
def symbol : Char → Option Token
  | '|' => some .pipe
  | '(' => some .lparen
  | ')' => some .rparen
  | ';' => some .semi
  | '&' => some .amp
  | '<' => some .lt
  | '>' => some .gt
  | _ => none

/-- The first token of a line, and what follows it. -/
def lex (line : List Char) : Option (Token × List Char) :=
  match line.dropWhile isWhitespace with
  | [] => none
  | '>' :: '>' :: rest => some (.append, rest)
  | c :: rest =>
      match symbol c with
      | some token => some (token, rest)
      | none => some (.word ((c :: rest).takeWhile isWordChar), (c :: rest).dropWhile isWordChar)

theorem isSymbol_eq_false {c : Char} (none : symbol c = none) : isSymbol c = false := by
  unfold symbol at none
  split at none
  case h_8 pipe lparen rparen semi amp lt gt =>
    simp only [isSymbol, decide_eq_false_iff_not, not_or]
    exact ⟨lt, pipe, gt, amp, semi, lparen, rparen⟩
  all_goals cases none

/-- What white space leaves starts with a character of a token. -/
theorem isWhitespace_of_dropWhile {line rest : List Char} {c : Char}
    (left : line.dropWhile isWhitespace = c :: rest) : isWhitespace c = false := by
  have head := List.head?_dropWhile_not isWhitespace line
  rw [left] at head
  exact head

theorem isWordChar_of_first {line rest : List Char} {c : Char}
    (left : line.dropWhile isWhitespace = c :: rest) (none : symbol c = none) :
    isWordChar c = true := by
  simp [isWordChar, isWhitespace_of_dropWhile left, isSymbol_eq_false none]

theorem length_lex {line rest : List Char} {token : Token}
    (lexed : lex line = some (token, rest)) : rest.length < line.length := by
  have shorter := List.length_dropWhile_le isWhitespace line
  unfold lex at lexed
  split at lexed
  case h_1 => cases lexed
  case h_2 left =>
    cases lexed
    rw [left, List.length_cons, List.length_cons] at shorter
    omega
  case h_3 c tail _ left =>
    rw [left, List.length_cons] at shorter
    split at lexed
    case h_1 =>
      cases lexed
      omega
    case h_2 plain =>
      cases lexed
      rw [List.dropWhile_cons_of_pos (isWordChar_of_first left plain)]
      have behind := List.length_dropWhile_le isWordChar tail
      omega

/-- The token sequence of a line. -/
def tokens (line : List Char) : List Token :=
  match lexed : lex line with
  | none => []
  | some (token, rest) =>
      have := length_lex lexed
      token :: tokens rest
termination_by line.length

/-- The redirections `redir*`. -/
inductive Redirs : List Token → List (Redir (List Char)) → Prop
  | nil : Redirs [] []
  | input {file : List Char} {ts : List Token} {rs : List (Redir (List Char))} :
      Redirs ts rs → Redirs (.lt :: .word file :: ts) (⟨file, oRdonly, 0⟩ :: rs)
  | output {file : List Char} {ts : List Token} {rs : List (Redir (List Char))} :
      Redirs ts rs → Redirs (.gt :: .word file :: ts) (⟨file, oWronly ||| oCreate, 1⟩ :: rs)
  | append {file : List Char} {ts : List Token} {rs : List (Redir (List Char))} :
      Redirs ts rs →
      Redirs (.append :: .word file :: ts) (⟨file, oWronly ||| oCreate, 1⟩ :: rs)

/-- The words with redirections `(word redir*)*`. -/
inductive Args : List Token → List (List Char) → List (Redir (List Char)) → Prop
  | nil : Args [] [] []
  | cons {text : List Char} {ts us : List Token} {words : List (List Char)}
      {rs more : List (Redir (List Char))} : Redirs ts rs → Args us words more →
      Args (.word text :: ts ++ us) (text :: words) (rs ++ more)

inductive Nonterminal where
  | line
  | pipe
  | exec

/-- The commands that `backcmd` makes around a command. -/
def backs {W : Type} : Nat → Cmd W → Cmd W
  | 0, cmd => cmd
  | n + 1, cmd => backs n (.back cmd)

/-- The grammar, with the tree of a derivation. -/
inductive Derives : Nonterminal → List Token → Cmd (List Char) → Prop
  | line {ts : List Token} {cmd : Cmd (List Char)} (n : Nat) : Derives .pipe ts cmd →
      Derives .line (ts ++ List.replicate n .amp) (backs n cmd)
  | list {ts us : List Token} {cmd rest : Cmd (List Char)} (n : Nat) : Derives .pipe ts cmd →
      Derives .line us rest →
      Derives .line (ts ++ List.replicate n .amp ++ .semi :: us) (.list (backs n cmd) rest)
  | exec {ts : List Token} {cmd : Cmd (List Char)} : Derives .exec ts cmd →
      Derives .pipe ts cmd
  | pipe {ts us : List Token} {cmd rest : Cmd (List Char)} : Derives .exec ts cmd →
      Derives .pipe us rest → Derives .pipe (ts ++ .pipe :: us) (.pipe cmd rest)
  | block {ts us : List Token} {cmd : Cmd (List Char)} {rs : List (Redir (List Char))} :
      Derives .line ts cmd → Redirs us rs →
      Derives .exec (.lparen :: ts ++ .rparen :: us) (cmd.wrap rs)
  | simple {ts us : List Token} {words : List (List Char)} {rs more : List (Redir (List Char))} :
      Redirs ts rs → Args us words more → words.length ≤ maxargs - 1 →
      Derives .exec (ts ++ us) ((Cmd.exec words).wrap (rs ++ more))

/-! ## The parser sees the token sequence -/

theorem tokens_of_none {line : List Char} (lexed : lex line = none) : tokens line = [] := by
  rw [tokens]
  split
  · rfl
  case h_2 token rest found =>
    rw [lexed] at found
    cases found

theorem tokens_of_some {line rest : List Char} {token : Token}
    (lexed : lex line = some (token, rest)) : tokens line = token :: tokens rest := by
  rw [tokens]
  split
  case h_1 found =>
    rw [lexed] at found
    cases found
  case h_2 token' rest' found =>
    rw [lexed] at found
    cases found
    rfl

/-- White space before a token does not matter. -/
theorem tokens_dropWhile (line : List Char) :
    tokens (line.dropWhile isWhitespace) = tokens line := by
  have same : lex (line.dropWhile isWhitespace) = lex line := by
    unfold lex
    rw [List.dropWhile_idempotent]
  cases lexed : lex line with
  | none => rw [tokens_of_none lexed, tokens_of_none (same.trans lexed)]
  | some found =>
      obtain ⟨token, rest⟩ := found
      rw [tokens_of_some lexed, tokens_of_some (same.trans lexed)]

namespace Token

/-- What `gettoken` returns for a token. -/
def kind : Token → Char
  | word _ => 'a'
  | pipe => '|'
  | lparen => '('
  | rparen => ')'
  | semi => ';'
  | amp => '&'
  | lt => '<'
  | gt => '>'
  | append => '+'

/-- Whether `peek` sees a token of these. -/
def leads : Token → List Char → Bool
  | word _, _ => false
  | append, toks => toks.contains '>'
  | token, toks => toks.contains token.kind

end Token

theorem symbol_kind {c : Char} {token : Token} (found : symbol c = some token) :
    token.kind = c ∧ (∀ text, token ≠ .word text) ∧ (∀ toks, token.leads toks = toks.contains c) ∧
      (c = '|' ∨ c = '(' ∨ c = ')' ∨ c = ';' ∨ c = '&' ∨ c = '<' ∨ c = '>') := by
  unfold symbol at found
  split at found
  all_goals cases found
  all_goals exact ⟨rfl, fun text isWord => (by cases isWord), fun toks => rfl, by decide⟩

theorem symbol_none {c : Char} (none : symbol c = none) :
    ¬ (c = '|' ∨ c = '(' ∨ c = ')' ∨ c = ';' ∨ c = '&' ∨ c = '<' ∨ c = '>') := by
  have notSymbol := isSymbol_eq_false none
  simp only [isSymbol, decide_eq_false_iff_not] at notSymbol
  tauto

/-- The text of a word in the line. -/
def Word.text (word : Word) : List Char :=
  word.start.take (word.start.length - word.stop.length)

/-- The word is a maximal run of characters of words, up to its end. -/
structure Word.Formed (word : Word) : Prop where
  split : word.start = word.text ++ word.stop
  chars : ∀ c ∈ word.text, isWordChar c = true
  stops : ∀ c rest, word.stop = c :: rest → isWordChar c = false

theorem gettoken_of_none {ps : Ptr} (lexed : lex ps = none) :
    (gettoken ps).kind = '\x00' ∧ (gettoken ps).ps = [] := by
  unfold lex at lexed
  split at lexed
  case h_1 left => simp [gettoken, left, got]
  case h_2 => cases lexed
  case h_3 =>
    split at lexed
    · cases lexed
    · cases lexed

/-- `gettoken` at a character that does not start `>>`. -/
theorem gettoken_cons {ps rest : Ptr} {c : Char} (left : ps.dropWhile isWhitespace = c :: rest)
    (single : ∀ tail, c = '>' → rest = '>' :: tail → False) :
    gettoken ps =
      if c = '|' ∨ c = '(' ∨ c = ')' ∨ c = ';' ∨ c = '&' ∨ c = '<' ∨ c = '>' then
        got c (c :: rest) rest
      else got 'a' (c :: rest) ((c :: rest).dropWhile isWordChar) := by
  unfold gettoken
  simp only [left]

/-- A word and what follows it. -/
theorem formed_of_takeWhile (q : Ptr) :
    (⟨q, q.dropWhile isWordChar⟩ : Word).Formed ∧
      (⟨q, q.dropWhile isWordChar⟩ : Word).text = q.takeWhile isWordChar := by
  have whole := List.takeWhile_append_dropWhile (p := isWordChar) (l := q)
  have text : (⟨q, q.dropWhile isWordChar⟩ : Word).text = q.takeWhile isWordChar := by
    have length := congrArg List.length whole
    rw [List.length_append] at length
    have count : q.length - (q.dropWhile isWordChar).length =
        (q.takeWhile isWordChar).length := by omega
    rw [Word.text, count]
    nth_rewrite 2 [← whole]
    exact List.take_left
  refine ⟨⟨?_, fun c inside => ?_, fun c rest left => ?_⟩, text⟩
  · rw [text]
    exact whole.symm
  · rw [text] at inside
    exact List.mem_takeWhile_imp inside
  · have head := List.head?_dropWhile_not isWordChar q
    rw [show q.dropWhile isWordChar = c :: rest from left] at head
    exact head

theorem gettoken_of_some {ps rest : Ptr} {token : Token} (lexed : lex ps = some (token, rest)) :
    (gettoken ps).kind = token.kind ∧ (gettoken ps).ps = rest.dropWhile isWhitespace ∧
      ∀ text, token = .word text → (gettoken ps).word.Formed ∧
        (gettoken ps).word.text = text := by
  unfold lex at lexed
  split at lexed
  case h_1 => cases lexed
  case h_2 rest' left =>
    cases lexed
    simp only [gettoken, left]
    exact ⟨rfl, rfl, fun text isWord => by cases isWord⟩
  case h_3 c tail single left =>
    rw [gettoken_cons left single]
    split at lexed
    case h_1 token' found =>
      cases lexed
      obtain ⟨kind, notWord, -, among⟩ := symbol_kind found
      rw [if_pos among]
      exact ⟨kind.symm, rfl, fun text isWord => absurd isWord (notWord text)⟩
    case h_2 none =>
      cases lexed
      rw [if_neg (symbol_none none)]
      refine ⟨rfl, rfl, fun text isWord => ?_⟩
      cases isWord
      exact formed_of_takeWhile (c :: tail)

theorem peek_of_none {ps : Ptr} (lexed : lex ps = none) (toks : List Char) :
    (peek ps toks).1 = false := by
  unfold lex at lexed
  split at lexed
  case h_1 left => simp [peek, left]
  case h_2 => cases lexed
  case h_3 =>
    split at lexed
    · cases lexed
    · cases lexed

/-- `peek` for characters of symbols looks at the first token. -/
theorem peek_of_some {ps rest : Ptr} {token : Token} (lexed : lex ps = some (token, rest))
    {toks : List Char} (symbols : ∀ c ∈ toks, isSymbol c = true) :
    (peek ps toks).1 = token.leads toks := by
  unfold lex at lexed
  split at lexed
  case h_1 => cases lexed
  case h_2 rest' left =>
    cases lexed
    simp [peek, left, Token.leads]
  case h_3 c tail single left =>
    simp only [peek, left]
    split at lexed
    case h_1 token' found =>
      cases lexed
      obtain ⟨-, -, leads, -⟩ := symbol_kind found
      rw [leads]
    case h_2 none =>
      cases lexed
      have notSymbol := isSymbol_eq_false none
      rw [Token.leads, List.contains_eq_mem, decide_eq_false_iff_not]
      intro inside
      rw [symbols c inside] at notSymbol
      cases notSymbol

section Tokens

variable {ps : Ptr} {token : Token} {ts : List Token}

theorem lex_of_tokens (seen : tokens ps = token :: ts) :
    ∃ rest, lex ps = some (token, rest) ∧ tokens rest = ts := by
  cases lexed : lex ps with
  | none =>
      rw [tokens_of_none lexed] at seen
      cases seen
  | some found =>
      obtain ⟨token', rest⟩ := found
      rw [tokens_of_some lexed] at seen
      cases seen
      exact ⟨rest, rfl, rfl⟩

theorem lex_of_tokens_nil (seen : tokens ps = []) : lex ps = none := by
  cases lexed : lex ps with
  | none => rfl
  | some found =>
      rw [tokens_of_some lexed] at seen
      cases seen

theorem gettoken_end (seen : tokens ps = []) :
    (gettoken ps).kind = '\x00' ∧ tokens (gettoken ps).ps = [] := by
  obtain ⟨kind, rest⟩ := gettoken_of_none (lex_of_tokens_nil seen)
  refine ⟨kind, ?_⟩
  rw [rest]
  exact tokens_of_none rfl

theorem gettoken_tokens (seen : tokens ps = token :: ts) :
    (gettoken ps).kind = token.kind ∧ tokens (gettoken ps).ps = ts ∧
      ∀ text, token = .word text → (gettoken ps).word.Formed ∧
        (gettoken ps).word.text = text := by
  obtain ⟨rest, lexed, left⟩ := lex_of_tokens seen
  obtain ⟨kind, ps', word⟩ := gettoken_of_some lexed
  refine ⟨kind, ?_, word⟩
  rw [ps', tokens_dropWhile, left]

theorem peek_end (seen : tokens ps = []) (toks : List Char) : (peek ps toks).1 = false :=
  peek_of_none (lex_of_tokens_nil seen) toks

theorem peek_tokens (seen : tokens ps = token :: ts) {toks : List Char}
    (symbols : ∀ c ∈ toks, isSymbol c = true) : (peek ps toks).1 = token.leads toks := by
  obtain ⟨rest, lexed, -⟩ := lex_of_tokens seen
  exact peek_of_some lexed symbols

/-- `peek` moves the pointer over white space only. -/
theorem peek_snd (ps : Ptr) (toks : List Char) :
    (peek ps toks).2 = ps.dropWhile isWhitespace := by
  unfold peek
  dsimp only
  split
  · rfl
  · rfl

theorem tokens_peek (ps : Ptr) (toks : List Char) : tokens (peek ps toks).2 = tokens ps := by
  rw [peek_snd, tokens_dropWhile]

end Tokens

/-! ## What the parser returns is derived -/

theorem bind_eq_ok {α β : Type} {first : Except Stop α} {next : α → Except Stop β} {result : β} :
    (first >>= next) = .ok result ↔ ∃ middle, first = .ok middle ∧ next middle = .ok result := by
  cases first with
  | error stop => simp [bind, Except.bind]
  | ok middle => simp [bind, Except.bind]

theorem word_of_kind {token : Token} (kind : token.kind = 'a') : ∃ text, token = .word text := by
  cases token with
  | word text => exact ⟨text, rfl⟩
  | pipe | lparen | rparen | semi | amp | lt | gt | append => exact absurd kind (by decide)

/-- A word of the line from a pointer on. -/
def Word.Within (ps : Ptr) (word : Word) : Prop :=
  word.Formed ∧ word.start <:+ ps

theorem Word.Within.mono {ps ps' : Ptr} {word : Word} (within : word.Within ps')
    (later : ps' <:+ ps) : word.Within ps :=
  ⟨within.1, within.2.trans later⟩

/-- A redirection with the text of its file. -/
def Redir.text (r : Redir Word) : Redir (List Char) :=
  ⟨r.file.text, r.mode, r.fd⟩

theorem suffix_gettoken (ps : Ptr) : (gettoken ps).ps <:+ ps ∧ (gettoken ps).q <:+ ps := by
  have skipped (eq : Ptr) : eq.dropWhile isWhitespace <:+ eq := List.dropWhile_suffix _
  have start := skipped ps
  unfold gettoken
  dsimp only
  split
  case h_1 left => exact ⟨(skipped _).trans start, start⟩
  case h_2 rest left =>
    refine ⟨(skipped rest).trans ?_, start⟩
    rw [left] at start
    exact ((List.suffix_cons _ _).trans (List.suffix_cons _ _)).trans start
  case h_3 c rest _ left =>
    split
    · refine ⟨(skipped rest).trans ?_, start⟩
      rw [left] at start
      exact (List.suffix_cons _ _).trans start
    · exact ⟨((skipped _).trans (List.dropWhile_suffix _)).trans start, start⟩

theorem symbols_of_all {toks : List Char} (all : toks.all isSymbol = true) :
    ∀ c ∈ toks, isSymbol c = true :=
  List.all_eq_true.mp all

theorem peek_true {ps : Ptr} {toks : List Char} (symbols : ∀ c ∈ toks, isSymbol c = true)
    (seen : (peek ps toks).1 = true) :
    ∃ token ts, tokens ps = token :: ts ∧ token.leads toks = true := by
  cases all : tokens ps with
  | nil =>
      rw [peek_end all] at seen
      cases seen
  | cons token ts =>
      rw [peek_tokens all symbols] at seen
      exact ⟨token, ts, rfl, seen⟩

/-- The word that `gettoken` returned. -/
theorem word_of_gettoken {ps : Ptr} (kind : (gettoken ps).kind = 'a') :
    tokens ps = .word (gettoken ps).word.text ::
        tokens (gettoken ps).ps ∧
      (gettoken ps).word.Within ps := by
  cases all : tokens ps with
  | nil =>
      rw [(gettoken_end all).1] at kind
      exact absurd kind (by decide)
  | cons token ts =>
      obtain ⟨same, left, word⟩ := gettoken_tokens all
      obtain ⟨text, rfl⟩ := word_of_kind (same.symm.trans kind)
      obtain ⟨formed, isText⟩ := word text rfl
      rw [isText, left]
      exact ⟨rfl, formed, (suffix_gettoken ps).2⟩

theorem suffix_peek (ps : Ptr) (toks : List Char) : (peek ps toks).2 <:+ ps := by
  rw [peek_snd]
  exact List.dropWhile_suffix isWhitespace

theorem parseredirs_succ (fuel : Nat) (ps : Ptr) :
    parseredirs (fuel + 1) ps =
      if (peek ps ['<', '>']).1 then
        let tok := gettoken (peek ps ['<', '>']).2
        let file := gettoken tok.ps
        if file.kind ≠ 'a' then throw (.panic .missingFile)
        else
          parseredirs fuel file.ps >>= fun result =>
            pure (redirOf tok.kind file.word ++ result.1, result.2)
      else pure ([], (peek ps ['<', '>']).2) :=
  rfl

/-- The tokens of a redirection, as `parseredirs` takes them. -/
theorem redirs_of_redirOf {token : Token} (leads : token.leads ['<', '>'] = true) (file : Word)
    {ts : List Token} {rs : List (Redir Word)} (rest : Redirs ts (rs.map Redir.text)) :
    Redirs (token :: .word file.text :: ts) ((redirOf token.kind file ++ rs).map Redir.text) := by
  cases token with
  | lt => exact .input rest
  | gt => exact .output rest
  | append => exact .append rest
  | word text => cases leads
  | pipe | lparen | rparen | semi | amp => exact absurd leads (by decide)

theorem mem_redirOf {tok : Char} {file : Word} {r : Redir Word} (inside : r ∈ redirOf tok file) :
    r.file = file := by
  unfold redirOf at inside
  split at inside
  · rw [List.mem_singleton.mp inside]
  · split at inside
    · rw [List.mem_singleton.mp inside]
    · split at inside
      · rw [List.mem_singleton.mp inside]
      · cases inside

/-- What a parsing function took: the rest of the line is behind it. -/
structure Took (ps ps' : Ptr) (used : List Token) : Prop where
  suffix : ps' <:+ ps
  tokens : tokens ps = used ++ tokens ps'

theorem parseredirs_sound {fuel : Nat} {ps ps' : Ptr} {rs : List (Redir Word)}
    (parsed : parseredirs fuel ps = .ok (rs, ps')) :
    ∃ used, Took ps ps' used ∧ Redirs used (rs.map Redir.text) ∧ ∀ r ∈ rs, r.file.Within ps := by
  induction fuel generalizing ps rs with
  | zero => cases parsed
  | succ fuel ih =>
      rw [parseredirs_succ] at parsed
      split at parsed
      case isFalse =>
        cases parsed
        refine ⟨[], ⟨suffix_peek ps _, (tokens_peek ps _).symm⟩, .nil, fun r inside => ?_⟩
        cases inside
      case isTrue more =>
        dsimp only at parsed
        split at parsed
        case isTrue => cases parsed
        case isFalse isWord =>
          rw [not_not] at isWord
          obtain ⟨⟨redirs, rest⟩, looped, result⟩ := bind_eq_ok.mp parsed
          cases result
          obtain ⟨token, ts, all, leads⟩ := peek_true (symbols_of_all (by decide)) more
          rw [← tokens_peek ps ['<', '>']] at all
          obtain ⟨kind, behind, -⟩ := gettoken_tokens all
          obtain ⟨word, within⟩ := word_of_gettoken isWord
          obtain ⟨used, took, derived, inside⟩ := ih looped
          have first := (suffix_gettoken (peek ps ['<', '>']).2).1.trans (suffix_peek ps _)
          have second := (suffix_gettoken _).1.trans first
          have whole := redirs_of_redirOf leads (gettoken (gettoken (peek ps ['<', '>']).2).ps).word
            derived
          rw [← kind] at whole
          refine ⟨_, ⟨took.suffix.trans second, ?_⟩, whole, fun r member => ?_⟩
          · rw [← tokens_peek ps ['<', '>'], all, ← behind, word, took.tokens]
            rfl
          · rcases List.mem_append.mp member with here | later
            · rw [mem_redirOf here]
              exact within.mono first
            · exact (inside r later).mono second

theorem Took.trans {ps₁ ps₂ ps₃ : Ptr} {used more : List Token} (one : Took ps₁ ps₂ used)
    (two : Took ps₂ ps₃ more) : Took ps₁ ps₃ (used ++ more) := by
  refine ⟨two.suffix.trans one.suffix, ?_⟩
  rw [one.tokens, two.tokens, List.append_assoc]

theorem took_peek (ps : Ptr) (toks : List Char) : Took ps (peek ps toks).2 [] :=
  ⟨suffix_peek ps toks, (tokens_peek ps toks).symm⟩

/-- The token that `peek` saw, taken by `gettoken`. -/
theorem took_token {ps : Ptr} {token : Token} {ts : List Token} (toks : List Char)
    (all : tokens ps = token :: ts) : Took ps (gettoken (peek ps toks).2).ps [token] := by
  refine ⟨(suffix_gettoken _).1.trans (suffix_peek ps toks), ?_⟩
  rw [← tokens_peek ps toks] at all
  rw [(gettoken_tokens all).2.1, ← tokens_peek ps toks, all]
  rfl

theorem parseargs_succ (fuel argc : Nat) (ps : Ptr) :
    parseargs (fuel + 1) argc ps =
      if (peek ps ['|', ')', '&', ';']).1 then pure ([], [], (peek ps ['|', ')', '&', ';']).2)
      else
        let tok := gettoken (peek ps ['|', ')', '&', ';']).2
        if tok.kind = '\x00' then pure ([], [], tok.ps)
        else if tok.kind ≠ 'a' then throw (.panic .badSyntax)
        else if maxargs ≤ argc + 1 then throw (.panic .tooManyArgs)
        else
          parseredirs fuel tok.ps >>= fun redirs =>
            parseargs fuel (argc + 1) redirs.2 >>= fun rest =>
              pure (tok.word :: rest.1, redirs.1 ++ rest.2.1, rest.2.2) :=
  rfl

/-- `gettoken` that returns 0 is at the end of the line. -/
theorem tokens_of_zero {ps : Ptr} (kind : (gettoken ps).kind = '\x00') : tokens ps = [] := by
  cases all : tokens ps with
  | nil => rfl
  | cons token ts =>
      rw [(gettoken_tokens all).1] at kind
      cases token <;> exact absurd kind (by simp [Token.kind])

theorem parseargs_sound {fuel argc : Nat} {ps ps' : Ptr} {words : List Word}
    {rs : List (Redir Word)} (parsed : parseargs fuel argc ps = .ok (words, rs, ps')) :
    ∃ used, Took ps ps' used ∧ Args used (words.map Word.text) (rs.map Redir.text) ∧
      (words = [] ∨ argc + words.length ≤ maxargs - 1) ∧ (∀ word ∈ words, word.Within ps) ∧
      ∀ r ∈ rs, r.file.Within ps := by
  induction fuel generalizing argc ps words rs with
  | zero => cases parsed
  | succ fuel ih =>
      rw [parseargs_succ] at parsed
      split at parsed
      case isTrue =>
        cases parsed
        exact ⟨[], took_peek ps _, .nil, .inl rfl, by simp, by simp⟩
      case isFalse =>
        dsimp only at parsed
        split at parsed
        case isTrue zero =>
          cases parsed
          have none := tokens_of_zero zero
          refine ⟨[], ⟨(suffix_gettoken _).1.trans (suffix_peek ps _), ?_⟩, .nil, .inl rfl,
            by simp, by simp⟩
          rw [(gettoken_end none).2, ← tokens_peek ps ['|', ')', '&', ';'], none]
          rfl
        case isFalse =>
          split at parsed
          case isTrue => cases parsed
          case isFalse isWord =>
            rw [not_not] at isWord
            split at parsed
            case isTrue => cases parsed
            case isFalse room =>
              obtain ⟨⟨redirs, ps₁⟩, redirected, parsed⟩ := bind_eq_ok.mp parsed
              obtain ⟨⟨rest, more, ps₂⟩, looped, result⟩ := bind_eq_ok.mp parsed
              cases result
              obtain ⟨word, within⟩ := word_of_gettoken isWord
              obtain ⟨used₁, took₁, derived₁, inside₁⟩ := parseredirs_sound redirected
              obtain ⟨used₂, took₂, derived₂, count, inside₂, others⟩ := ih looped
              have tookWord := took_token ['|', ')', '&', ';']
                ((tokens_peek ps _).symm.trans word)
              refine ⟨_, (tookWord.trans took₁).trans took₂, ?_, ?_, ?_, ?_⟩
              · rw [List.map_append]
                exact .cons derived₁ derived₂
              · right
                rcases count with rfl | count
                · simp only [List.length_cons, List.length_nil]
                  omega
                · simp only [List.length_cons]
                  omega
              · intro member inside
                rcases List.mem_cons.mp inside with rfl | later
                · exact within.mono (suffix_peek ps _)
                · exact (inside₂ member later).mono (took₁.suffix.trans tookWord.suffix)
              · intro r inside
                rcases List.mem_append.mp inside with here | later
                · exact (inside₁ r here).mono tookWord.suffix
                · exact (others r later).mono (took₁.suffix.trans tookWord.suffix)

/-- The only token that `peek` takes for one character. -/
theorem eq_of_leads {c : Char} {token seen : Token} (isToken : symbol c = some token)
    (single : c ≠ '>') (leads : seen.leads [c] = true) : seen = token := by
  cases seen with
  | word text => cases leads
  | append =>
      simp only [Token.leads, List.contains_cons, List.contains_nil, Bool.or_false,
        beq_iff_eq] at leads
      exact absurd leads.symm single
  | pipe | lparen | rparen | semi | amp | lt | gt =>
      simp only [Token.leads, Token.kind, List.contains_cons, List.contains_nil, Bool.or_false,
        beq_iff_eq] at leads
      subst leads
      cases isToken
      rfl

/-- `peek` for one character and `gettoken` take its token. -/
theorem took_symbol {ps : Ptr} {c : Char} {token : Token} (isToken : symbol c = some token)
    (single : c ≠ '>') (seen : (peek ps [c]).1 = true) :
    Took ps (gettoken (peek ps [c]).2).ps [token] := by
  have symbols : ∀ d ∈ [c], isSymbol d = true := by
    intro d inside
    rw [List.mem_singleton.mp inside]
    have among := (symbol_kind isToken).2.2.2
    simp only [isSymbol, decide_eq_true_eq]
    tauto
  obtain ⟨first, ts, all, leads⟩ := peek_true symbols seen
  rw [eq_of_leads isToken single leads] at all
  exact took_token [c] all

theorem parsebacks_succ (fuel : Nat) (cmd : Cmd Word) (ps : Ptr) :
    parsebacks (fuel + 1) cmd ps =
      if (peek ps ['&']).1 then parsebacks fuel (.back cmd) (gettoken (peek ps ['&']).2).ps
      else pure (cmd, (peek ps ['&']).2) :=
  rfl

theorem parsebacks_sound {fuel : Nat} {cmd last : Cmd Word} {ps ps' : Ptr}
    (parsed : parsebacks fuel cmd ps = .ok (last, ps')) :
    ∃ n, last = backs n cmd ∧ Took ps ps' (List.replicate n .amp) := by
  induction fuel generalizing cmd ps with
  | zero => cases parsed
  | succ fuel ih =>
      rw [parsebacks_succ] at parsed
      split at parsed
      case isFalse =>
        cases parsed
        exact ⟨0, rfl, took_peek ps _⟩
      case isTrue more =>
        obtain ⟨n, isLast, took⟩ := ih parsed
        exact ⟨n + 1, isLast, (took_symbol rfl (by decide) more).trans took⟩

/-! The functions that call each other -/

theorem map_wrap {cmd : Cmd Word} (rs : List (Redir Word)) :
    (cmd.wrap rs).map Word.text = (cmd.map Word.text).wrap (rs.map Redir.text) := by
  induction rs generalizing cmd with
  | nil => rfl
  | cons r rest ih => exact ih

theorem all_wrap {P : Word → Prop} {cmd : Cmd Word} {rs : List (Redir Word)} (base : cmd.All P)
    (files : ∀ r ∈ rs, P r.file) : (cmd.wrap rs).All P := by
  induction rs generalizing cmd with
  | nil => exact base
  | cons r rest ih =>
      exact ih ⟨base, files r List.mem_cons_self⟩ fun r' later =>
        files r' (List.mem_cons_of_mem r later)

theorem map_backs (n : Nat) (cmd : Cmd Word) :
    (backs n cmd).map Word.text = backs n (cmd.map Word.text) := by
  induction n generalizing cmd with
  | zero => rfl
  | succ n ih => exact ih (.back cmd)

theorem all_backs {P : Word → Prop} (n : Nat) {cmd : Cmd Word} (base : cmd.All P) :
    (backs n cmd).All P := by
  induction n generalizing cmd with
  | zero => exact base
  | succ n ih => exact ih base

theorem all_mono {P Q : Word → Prop} (weaker : ∀ word, P word → Q word) {cmd : Cmd Word}
    (all : cmd.All P) : cmd.All Q := by
  induction cmd with
  | exec argv => exact fun word inside => weaker word (all word inside)
  | redir cmd file mode fd ih => exact ⟨ih all.1, weaker file all.2⟩
  | pipe left right first second => exact ⟨first all.1, second all.2⟩
  | list left right first second => exact ⟨first all.1, second all.2⟩
  | back cmd ih => exact ih all

theorem parseline_succ (fuel : Nat) (ps : Ptr) :
    parseline (fuel + 1) ps =
      parsepipe fuel ps >>= fun first =>
        parsebacks fuel first.1 first.2 >>= fun backed =>
          if (peek backed.2 [';']).1 then
            parseline fuel (gettoken (peek backed.2 [';']).2).ps >>= fun rest =>
              pure (.list backed.1 rest.1, rest.2)
          else pure (backed.1, (peek backed.2 [';']).2) := by
  rw [parseline]

theorem parsepipe_succ (fuel : Nat) (ps : Ptr) :
    parsepipe (fuel + 1) ps =
      parseexec fuel ps >>= fun first =>
        if (peek first.2 ['|']).1 then
          parsepipe fuel (gettoken (peek first.2 ['|']).2).ps >>= fun rest =>
            pure (.pipe first.1 rest.1, rest.2)
        else pure (first.1, (peek first.2 ['|']).2) := by
  rw [parsepipe]

theorem parseblock_succ (fuel : Nat) (ps : Ptr) :
    parseblock (fuel + 1) ps =
      if ¬ (peek ps ['(']).1 then throw (.panic .parseblock)
      else
        parseline fuel (gettoken (peek ps ['(']).2).ps >>= fun line =>
          if ¬ (peek line.2 [')']).1 then throw (.panic .missingParen)
          else
            parseredirs fuel (gettoken (peek line.2 [')']).2).ps >>= fun redirs =>
              pure (line.1.wrap redirs.1, redirs.2) := by
  rw [parseblock]

theorem parseexec_succ (fuel : Nat) (ps : Ptr) :
    parseexec (fuel + 1) ps =
      if (peek ps ['(']).1 then parseblock fuel (peek ps ['(']).2
      else
        parseredirs fuel (peek ps ['(']).2 >>= fun first =>
          parseargs fuel 0 first.2 >>= fun args =>
            pure ((Cmd.exec args.1).wrap (first.1 ++ args.2.1), args.2.2) := by
  rw [parseexec]

/-- What the function returns is derived from this nonterminal. -/
def Sound (nonterminal : Nonterminal) (parse : Ptr → Except Stop (Cmd Word × Ptr)) : Prop :=
  ∀ {ps ps' : Ptr} {cmd : Cmd Word}, parse ps = .ok (cmd, ps') →
    ∃ used, Took ps ps' used ∧ Derives nonterminal used (cmd.map Word.text) ∧
      cmd.All (Word.Within ps)

theorem sound_parseline {fuel : Nat} (pipe : Sound .pipe (parsepipe fuel))
    (line : Sound .line (parseline fuel)) : Sound .line (parseline (fuel + 1)) := by
  intro ps ps' cmd parsed
  rw [parseline_succ] at parsed
  obtain ⟨⟨first, ps₁⟩, piped, parsed⟩ := bind_eq_ok.mp parsed
  obtain ⟨⟨backed, ps₂⟩, looped, parsed⟩ := bind_eq_ok.mp parsed
  obtain ⟨used₁, took₁, derived₁, all₁⟩ := pipe piped
  obtain ⟨n, rfl, took₂⟩ := parsebacks_sound looped
  split at parsed
  case isFalse =>
    cases parsed
    refine ⟨_, took₁.trans (took₂.trans (took_peek ps₂ _)), ?_, all_backs n all₁⟩
    rw [List.append_nil, map_backs]
    exact .line n derived₁
  case isTrue more =>
    obtain ⟨⟨rest, ps₃⟩, parsedRest, result⟩ := bind_eq_ok.mp parsed
    cases result
    obtain ⟨used₃, took₃, derived₃, all₃⟩ := line parsedRest
    have semi : Took ps₂ _ [.semi] := took_symbol rfl (by decide) more
    have before := (took₁.trans took₂).trans semi
    refine ⟨_, before.trans took₃, ?_, all_backs n all₁, all_mono (fun word within =>
      within.mono before.suffix) all₃⟩
    rw [Cmd.map, map_backs, List.append_assoc (used₁ ++ _)]
    exact .list n derived₁ derived₃

theorem sound_parsepipe {fuel : Nat} (exec : Sound .exec (parseexec fuel))
    (pipe : Sound .pipe (parsepipe fuel)) : Sound .pipe (parsepipe (fuel + 1)) := by
  intro ps ps' cmd parsed
  rw [parsepipe_succ] at parsed
  obtain ⟨⟨first, ps₁⟩, executed, parsed⟩ := bind_eq_ok.mp parsed
  obtain ⟨used₁, took₁, derived₁, all₁⟩ := exec executed
  split at parsed
  case isFalse =>
    cases parsed
    refine ⟨_, took₁.trans (took_peek ps₁ _), ?_, all₁⟩
    rw [List.append_nil]
    exact .exec derived₁
  case isTrue more =>
    obtain ⟨⟨rest, ps₂⟩, parsedRest, result⟩ := bind_eq_ok.mp parsed
    cases result
    obtain ⟨used₂, took₂, derived₂, all₂⟩ := pipe parsedRest
    have bar : Took ps₁ _ [.pipe] := took_symbol rfl (by decide) more
    have before := took₁.trans bar
    refine ⟨_, before.trans took₂, ?_, all₁, all_mono (fun word within =>
      within.mono before.suffix) all₂⟩
    rw [Cmd.map, List.append_assoc]
    exact .pipe derived₁ derived₂

theorem sound_parseblock {fuel : Nat} (line : Sound .line (parseline fuel)) :
    Sound .exec (parseblock (fuel + 1)) := by
  intro ps ps' cmd parsed
  rw [parseblock_succ] at parsed
  split at parsed
  case isTrue => cases parsed
  case isFalse opened =>
    rw [not_not] at opened
    obtain ⟨⟨inner, ps₁⟩, parsedLine, parsed⟩ := bind_eq_ok.mp parsed
    split at parsed
    case isTrue => cases parsed
    case isFalse closed =>
      rw [not_not] at closed
      obtain ⟨⟨redirs, ps₂⟩, redirected, result⟩ := bind_eq_ok.mp parsed
      cases result
      obtain ⟨used₁, took₁, derived₁, all₁⟩ := line parsedLine
      obtain ⟨used₂, took₂, derived₂, files⟩ := parseredirs_sound redirected
      have left : Took ps _ [.lparen] := took_symbol rfl (by decide) opened
      have right : Took ps₁ _ [.rparen] := took_symbol rfl (by decide) closed
      have before := (left.trans took₁).trans right
      refine ⟨_, before.trans took₂, ?_, all_wrap (all_mono (fun word within =>
        within.mono left.suffix) all₁) fun r inside => (files r inside).mono before.suffix⟩
      rw [map_wrap, List.append_assoc]
      exact .block derived₁ derived₂

theorem sound_parseexec {fuel : Nat} (block : Sound .exec (parseblock fuel)) :
    Sound .exec (parseexec (fuel + 1)) := by
  intro ps ps' cmd parsed
  rw [parseexec_succ] at parsed
  split at parsed
  case isTrue =>
    obtain ⟨used, took, derived, all⟩ := block parsed
    exact ⟨_, (took_peek ps _).trans took, derived, all_mono (fun word within =>
      within.mono (suffix_peek ps _)) all⟩
  case isFalse =>
    obtain ⟨⟨first, ps₁⟩, redirected, parsed⟩ := bind_eq_ok.mp parsed
    obtain ⟨⟨words, rs, ps₂⟩, looped, result⟩ := bind_eq_ok.mp parsed
    cases result
    obtain ⟨used₁, took₁, derived₁, files₁⟩ := parseredirs_sound redirected
    obtain ⟨used₂, took₂, derived₂, count, inside, files₂⟩ := parseargs_sound looped
    have before := (took_peek ps ['(']).trans took₁
    refine ⟨_, before.trans took₂, ?_, all_wrap (fun word member =>
      (inside word member).mono before.suffix) fun r member => ?_⟩
    · rw [map_wrap, List.map_append]
      refine .simple derived₁ derived₂ ?_
      rw [List.length_map]
      rcases count with rfl | count
      · exact Nat.zero_le _
      · dsimp only
        omega
    · rcases List.mem_append.mp member with here | later
      · exact (files₁ r here).mono (suffix_peek ps _)
      · exact (files₂ r later).mono before.suffix

theorem parse_sound (fuel : Nat) :
    Sound .line (parseline fuel) ∧ Sound .pipe (parsepipe fuel) ∧
      Sound .exec (parseblock fuel) ∧ Sound .exec (parseexec fuel) := by
  induction fuel with
  | zero =>
      refine ⟨?_, ?_, ?_, ?_⟩
      · intro ps ps' cmd parsed
        rw [parseline] at parsed
        cases parsed
      · intro ps ps' cmd parsed
        rw [parsepipe] at parsed
        cases parsed
      · intro ps ps' cmd parsed
        rw [parseblock] at parsed
        cases parsed
      · intro ps ps' cmd parsed
        rw [parseexec] at parsed
        cases parsed
  | succ fuel ih =>
      obtain ⟨line, pipe, block, exec⟩ := ih
      exact ⟨sound_parseline pipe line, sound_parsepipe exec pipe, sound_parseblock line,
        sound_parseexec block⟩

end Xv6.Shell
