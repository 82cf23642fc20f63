import Xv6.ShellGrammar

/-!
# The lines that the shell accepts

The parser ends on every line, it refuses no line that the grammar derives, and
`nulterminate` leaves every word of the command as its own string.  With what
the parser returns being derived, `parsecmd` returns exactly on the lines of the
grammar, with the trees of their derivations.
-/

namespace Xv6.Shell

/-! ## What is derived is parsed -/

/-- The first token is none that `peek` looks for. -/
def Avoids (toks : List Char) (ts : List Token) : Prop :=
  ∀ token rest, ts = token :: rest → token.leads toks = false

theorem peek_avoids {ps : Ptr} {toks : List Char} {ts : List Token} (all : tokens ps = ts)
    (avoids : Avoids toks ts) (symbols : ∀ c ∈ toks, isSymbol c = true) :
    (peek ps toks).1 = false := by
  cases seen : tokens ps with
  | nil => exact peek_end seen toks
  | cons token rest =>
      rw [peek_tokens seen symbols]
      exact avoids token rest (all.symm.trans seen)

/-- The tokens that may follow a part of a line. -/
def follows : Nonterminal → Token → Bool
  | .line, .rparen => true
  | .pipe, .rparen | .pipe, .amp | .pipe, .semi => true
  | .exec, .rparen | .exec, .amp | .exec, .semi | .exec, .pipe => true
  | _, _ => false

/-- The part ends where these tokens start. -/
def Stops (nonterminal : Nonterminal) (ts : List Token) : Prop :=
  ∀ token rest, ts = token :: rest → follows nonterminal token = true

/-- The tokens other than words. -/
def symbols : List Token :=
  [.pipe, .lparen, .rparen, .semi, .amp, .lt, .gt, .append]

theorem mem_symbols {nonterminal : Nonterminal} {token : Token}
    (next : follows nonterminal token = true) : token ∈ symbols := by
  cases token with
  | word text => cases nonterminal <;> cases next
  | pipe | lparen | rparen | semi | amp | lt | gt | append => decide

theorem Stops.avoids {nonterminal : Nonterminal} {toks : List Char} {ts : List Token}
    (stops : Stops nonterminal ts)
    (apart : ∀ token ∈ symbols, follows nonterminal token = true → token.leads toks = false) :
    Avoids toks ts :=
  fun token rest seen =>
    have next := stops token rest seen
    apart token (mem_symbols next) next

theorem stops_cons {nonterminal : Nonterminal} {token : Token} {ts : List Token}
    (next : follows nonterminal token = true) : Stops nonterminal (token :: ts) := by
  intro token' rest seen
  cases seen
  exact next

theorem parseredirs_step {ps : Ptr} {token : Token} {file : List Char} {ts : List Token}
    (leads : token.leads ['<', '>'] = true) (all : tokens ps = token :: .word file :: ts) :
    ∃ word ps₁, Word.text word = file ∧ tokens ps₁ = ts ∧
      ∀ fuel, parseredirs (fuel + 1) ps = parseredirs fuel ps₁ >>= fun result =>
        pure (redirOf token.kind word ++ result.1, result.2) := by
  have seen : (peek ps ['<', '>']).1 = true := by
    rw [peek_tokens all (symbols_of_all (by decide)), leads]
  rw [← tokens_peek ps ['<', '>']] at all
  obtain ⟨kind, behind, -⟩ := gettoken_tokens all
  obtain ⟨isWord, rest, text⟩ := gettoken_tokens behind
  refine ⟨(gettoken (gettoken (peek ps ['<', '>']).2).ps).word, _, (text file rfl).2, rest,
    fun fuel => ?_⟩
  rw [parseredirs_succ, if_pos seen]
  dsimp only
  rw [if_neg (by rw [isWord]; exact fun differ => differ rfl), kind]

/-- What `parseredirs` returns for redirections followed by other tokens. -/
def RedirsParsed (fuel : Nat) (ps : Ptr) (rs : List (Redir (List Char))) (more : List Token) :
    Prop :=
  ∃ redirs ps', parseredirs fuel ps = .ok (redirs, ps') ∧ redirs.map Redir.text = rs ∧
    tokens ps' = more

theorem redirsParsed_cons {fuel : Nat} {ps : Ptr} {token : Token} {file : List Char}
    {ts more : List Token} {r : Redir (List Char)} {rs : List (Redir (List Char))}
    (leads : token.leads ['<', '>'] = true) (all : tokens ps = token :: .word file :: ts)
    (made : ∀ word : Word, word.text = file → (redirOf token.kind word).map Redir.text = [r])
    (rest : ∀ ps₁, tokens ps₁ = ts → RedirsParsed fuel ps₁ rs more) :
    RedirsParsed (fuel + 1) ps (r :: rs) more := by
  obtain ⟨word, ps₁, text, left, step⟩ := parseredirs_step leads all
  obtain ⟨redirs, ps', parsed, texts, after⟩ := rest ps₁ left
  refine ⟨redirOf token.kind word ++ redirs, ps', ?_, ?_, after⟩
  · rw [step, parsed]
    rfl
  · rw [List.map_append, made word text, texts]
    rfl

theorem redirs_complete {used : List Token} {rs : List (Redir (List Char))}
    (derived : Redirs used rs) {fuel : Nat} {ps : Ptr} {more : List Token}
    (all : tokens ps = used ++ more) (avoids : Avoids ['<', '>'] more)
    (enough : used.length + 1 ≤ fuel) : RedirsParsed fuel ps rs more := by
  induction derived generalizing ps fuel with
  | nil =>
      obtain ⟨fuel, rfl⟩ : ∃ n, fuel = n + 1 := ⟨fuel - 1, by omega⟩
      refine ⟨[], (peek ps ['<', '>']).2, ?_, rfl, (tokens_peek ps _).trans all⟩
      rw [parseredirs_succ, peek_avoids all avoids (symbols_of_all (by decide))]
      rfl
  | input rest ih | output rest ih | append rest ih =>
      obtain ⟨fuel, rfl⟩ : ∃ n, fuel = n + 1 := ⟨fuel - 1, by omega⟩
      simp only [List.length_cons] at enough
      refine redirsParsed_cons rfl all (fun word text => ?_) fun ps₁ left => ih left (by omega)
      simp [redirOf, Token.kind, Redir.text, text]

/-- The tokens of words and redirections, and then of what follows them. -/
theorem avoids_args {us more : List Token} {words : List (List Char)}
    {rs : List (Redir (List Char))} (derived : Args us words rs) (stops : Stops .exec more) :
    Avoids ['<', '>'] (us ++ more) := by
  cases derived with
  | nil =>
      exact stops.avoids (by decide)
  | cons redirs args =>
      intro token rest seen
      cases seen
      rfl

theorem parseargs_step {ps : Ptr} {text : List Char} {ts : List Token}
    (all : tokens ps = .word text :: ts) :
    ∃ word ps₁, Word.text word = text ∧ tokens ps₁ = ts ∧
      ∀ fuel argc, argc + 1 < maxargs → parseargs (fuel + 1) argc ps =
        parseredirs fuel ps₁ >>= fun redirs =>
          parseargs fuel (argc + 1) redirs.2 >>= fun rest =>
            pure (word :: rest.1, redirs.1 ++ rest.2.1, rest.2.2) := by
  have unseen : (peek ps ['|', ')', '&', ';']).1 = false := by
    rw [peek_tokens all (symbols_of_all (by decide))]
    rfl
  rw [← tokens_peek ps ['|', ')', '&', ';']] at all
  obtain ⟨kind, behind, word⟩ := gettoken_tokens all
  refine ⟨_, _, (word text rfl).2, behind, fun fuel argc room => ?_⟩
  have isWord : (gettoken (peek ps ['|', ')', '&', ';']).2).kind = 'a' := kind
  rw [parseargs_succ, unseen, if_neg Bool.false_ne_true]
  dsimp only
  rw [isWord, if_neg (by decide), if_neg (fun differ => differ rfl), if_neg (by omega)]

/-- What the loop of `parseexec` returns for words and redirections followed by
other tokens. -/
def ArgsParsed (fuel argc : Nat) (ps : Ptr) (words : List (List Char))
    (rs : List (Redir (List Char))) (more : List Token) : Prop :=
  ∃ args redirs ps', parseargs fuel argc ps = .ok (args, redirs, ps') ∧
    args.map Word.text = words ∧ redirs.map Redir.text = rs ∧ tokens ps' = more

theorem args_complete {used : List Token} {words : List (List Char)}
    {rs : List (Redir (List Char))} (derived : Args used words rs) {fuel argc : Nat} {ps : Ptr}
    {more : List Token} (all : tokens ps = used ++ more) (stops : Stops .exec more)
    (room : argc + words.length < maxargs) (enough : used.length + 1 ≤ fuel) :
    ArgsParsed fuel argc ps words rs more := by
  induction derived generalizing ps fuel argc with
  | nil =>
      obtain ⟨fuel, rfl⟩ : ∃ n, fuel = n + 1 := ⟨fuel - 1, by omega⟩
      cases more with
      | nil =>
          have none : tokens (peek ps ['|', ')', '&', ';']).2 = [] := (tokens_peek ps _).trans all
          refine ⟨[], [], (gettoken (peek ps ['|', ')', '&', ';']).2).ps, ?_, rfl, rfl,
            (gettoken_end none).2⟩
          rw [parseargs_succ, peek_end all, if_neg Bool.false_ne_true]
          dsimp only
          rw [if_pos (gettoken_end none).1]
          rfl
      | cons token rest =>
          have next := stops token rest rfl
          have leads : ∀ token ∈ symbols, follows .exec token = true →
              token.leads ['|', ')', '&', ';'] = true := by decide
          refine ⟨[], [], (peek ps ['|', ')', '&', ';']).2, ?_, rfl, rfl,
            (tokens_peek ps _).trans all⟩
          rw [parseargs_succ, peek_tokens all (symbols_of_all (by decide)),
            leads token (mem_symbols next) next]
          rfl
  | @cons text ts us words rs more' redirs args ih =>
      obtain ⟨fuel, rfl⟩ : ∃ n, fuel = n + 1 := ⟨fuel - 1, by omega⟩
      simp only [List.length_cons, List.length_append, List.cons_append] at enough room
      rw [List.append_assoc] at all
      obtain ⟨word, ps₁, isText, behind, step⟩ := parseargs_step all
      obtain ⟨first, ps₂, parsed₁, texts₁, left₁⟩ :=
        redirs_complete redirs behind (avoids_args args stops) (by omega : ts.length + 1 ≤ fuel)
      obtain ⟨rest, others, ps₃, parsed₂, texts₂, texts₃, left₂⟩ :=
        ih left₁ (by omega : argc + 1 + words.length < maxargs) (by omega : us.length + 1 ≤ fuel)
      refine ⟨word :: rest, first ++ others, ps₃, ?_, ?_, ?_, left₂⟩
      · rw [step fuel argc (by omega), parsed₁]
        change (parseargs fuel (argc + 1) ps₂ >>= _) = _
        rw [parsed₂]
        rfl
      · rw [List.map_cons, isText, texts₂]
      · rw [List.map_append, texts₁, texts₃]

/-- `peek` for one character where its token is next, and `gettoken`. -/
theorem gettoken_symbol {ps : Ptr} {c : Char} {token : Token} {ts : List Token}
    (isToken : symbol c = some token) (all : tokens ps = token :: ts) :
    (peek ps [c]).1 = true ∧ tokens (gettoken (peek ps [c]).2).ps = ts := by
  obtain ⟨-, -, leads, among⟩ := symbol_kind isToken
  have symbols : ∀ d ∈ [c], isSymbol d = true := by
    intro d inside
    rw [List.mem_singleton.mp inside]
    simp only [isSymbol, decide_eq_true_eq]
    tauto
  refine ⟨?_, ?_⟩
  · rw [peek_tokens all symbols, leads]
    simp
  · rw [← tokens_peek ps [c]] at all
    exact (gettoken_tokens all).2.1

theorem backs_complete {n fuel : Nat} {ps : Ptr} {more : List Token} (cmd : Cmd Word)
    (all : tokens ps = List.replicate n .amp ++ more) (avoids : Avoids ['&'] more)
    (enough : n + 1 ≤ fuel) :
    ∃ ps', parsebacks fuel cmd ps = .ok (backs n cmd, ps') ∧ tokens ps' = more := by
  induction n generalizing ps fuel cmd with
  | zero =>
      obtain ⟨fuel, rfl⟩ : ∃ n, fuel = n + 1 := ⟨fuel - 1, by omega⟩
      refine ⟨(peek ps ['&']).2, ?_, (tokens_peek ps _).trans all⟩
      rw [parsebacks_succ, peek_avoids all avoids (symbols_of_all (by decide))]
      rfl
  | succ n ih =>
      obtain ⟨fuel, rfl⟩ : ∃ n, fuel = n + 1 := ⟨fuel - 1, by omega⟩
      obtain ⟨seen, behind⟩ := gettoken_symbol (c := '&') rfl all
      obtain ⟨ps', parsed, left⟩ := ih (.back cmd) behind (by omega : n + 1 ≤ fuel)
      refine ⟨ps', ?_, left⟩
      rw [parsebacks_succ, if_pos seen, parsed]
      rfl

/-- The function of a nonterminal. -/
def parse : Nonterminal → Nat → Ptr → Except Stop (Cmd Word × Ptr)
  | .line => parseline
  | .pipe => parsepipe
  | .exec => parseexec

/-- The fuel that is enough for so many tokens. -/
def needed : Nonterminal → Nat → Nat
  | .line, n => 4 * n + 4
  | .pipe, n => 4 * n + 3
  | .exec, n => 4 * n + 2

/-- The function returns the tree and stops before these tokens. -/
def Parsed (nonterminal : Nonterminal) (fuel : Nat) (ps : Ptr) (tree : Cmd (List Char))
    (more : List Token) : Prop :=
  ∃ cmd ps', parse nonterminal fuel ps = .ok (cmd, ps') ∧ cmd.map Word.text = tree ∧
    tokens ps' = more

/-- A part of a line with this tree is parsed wherever it stops. -/
def Complete (nonterminal : Nonterminal) (used : List Token) (tree : Cmd (List Char)) : Prop :=
  ∀ {fuel : Nat} {ps : Ptr} {more : List Token}, tokens ps = used ++ more →
    Stops nonterminal more → needed nonterminal used.length ≤ fuel →
    Parsed nonterminal fuel ps tree more

theorem stops_amps (n : Nat) {more : List Token} (stops : Stops .pipe more) :
    Stops .pipe (List.replicate n .amp ++ more) := by
  cases n with
  | zero => exact stops
  | succ n => exact stops_cons rfl

/-- The part of `parseline` before the token `;`. -/
theorem parseline_head {ts more : List Token} {tree : Cmd (List Char)} (n : Nat)
    (complete : Complete .pipe ts tree) {fuel : Nat} {ps : Ptr}
    (all : tokens ps = ts ++ (List.replicate n .amp ++ more)) (stops : Stops .pipe more)
    (avoids : Avoids ['&'] more) (enough : 4 * (ts.length + n) + 4 ≤ fuel + 1) :
    ∃ cmd ps₂, cmd.map Word.text = backs n tree ∧ tokens ps₂ = more ∧
      parseline (fuel + 1) ps =
        if (peek ps₂ [';']).1 then
          parseline fuel (gettoken (peek ps₂ [';']).2).ps >>= fun rest =>
            pure (.list cmd rest.1, rest.2)
        else pure (cmd, (peek ps₂ [';']).2) := by
  obtain ⟨cmd, ps₁, piped, text, left₁⟩ :=
    complete all (stops_amps n stops) (by simp only [needed]; omega : _ ≤ fuel)
  obtain ⟨ps₂, backed, left₂⟩ := backs_complete cmd left₁ avoids (by omega : n + 1 ≤ fuel)
  refine ⟨backs n cmd, ps₂, by rw [map_backs, text], left₂, ?_⟩
  have piped : parsepipe fuel ps = .ok (cmd, ps₁) := piped
  rw [parseline_succ, piped]
  change (parsebacks fuel cmd ps₁ >>= _) = _
  rw [backed]
  rfl

theorem complete_line {ts : List Token} {tree : Cmd (List Char)} (n : Nat)
    (complete : Complete .pipe ts tree) :
    Complete .line (ts ++ List.replicate n .amp) (backs n tree) := by
  intro fuel ps more all stops enough
  simp only [needed, List.length_append, List.length_replicate] at enough
  obtain ⟨fuel, rfl⟩ : ∃ n, fuel = n + 1 := ⟨fuel - 1, by omega⟩
  rw [List.append_assoc] at all
  have stops' : Stops .pipe more := by
    intro token rest seen
    have next := stops token rest seen
    have wider : ∀ token ∈ symbols, follows .line token = true → follows .pipe token = true := by
      decide
    exact wider token (mem_symbols next) next
  obtain ⟨cmd, ps₂, text, left, step⟩ :=
    parseline_head n complete all stops' (stops.avoids (by decide))
      (by omega : 4 * (ts.length + n) + 4 ≤ fuel + 1)
  refine ⟨cmd, (peek ps₂ [';']).2, ?_, text, (tokens_peek ps₂ _).trans left⟩
  change parseline (fuel + 1) ps = _
  rw [step, peek_avoids left (stops.avoids (by decide)) (symbols_of_all (by decide))]
  rfl

theorem complete_list {ts us : List Token} {tree rest : Cmd (List Char)} (n : Nat)
    (complete : Complete .pipe ts tree) (others : Complete .line us rest) :
    Complete .line (ts ++ List.replicate n .amp ++ .semi :: us) (.list (backs n tree) rest) := by
  intro fuel ps more all stops enough
  simp only [needed, List.length_append, List.length_replicate, List.length_cons] at enough
  obtain ⟨fuel, rfl⟩ : ∃ n, fuel = n + 1 := ⟨fuel - 1, by omega⟩
  rw [List.append_assoc, List.append_assoc] at all
  have avoids : Avoids ['&'] (.semi :: us ++ more) := by
    intro token rest seen
    cases seen
    rfl
  obtain ⟨cmd, ps₂, text, left, step⟩ :=
    parseline_head n complete all (stops_cons rfl) avoids
      (by omega : 4 * (ts.length + n) + 4 ≤ fuel + 1)
  obtain ⟨seen, behind⟩ := gettoken_symbol (c := ';') rfl left
  obtain ⟨tail, ps₃, parsed, texts, left₃⟩ :=
    others behind stops (by simp only [needed]; omega : _ ≤ fuel)
  have parsed : parseline fuel (gettoken (peek ps₂ [';']).2).ps = .ok (tail, ps₃) := parsed
  refine ⟨.list cmd tail, ps₃, ?_, ?_, left₃⟩
  · change parseline (fuel + 1) ps = _
    rw [step, if_pos seen, parsed]
    rfl
  · rw [Cmd.map, text, texts]

theorem complete_exec {ts : List Token} {tree : Cmd (List Char)}
    (complete : Complete .exec ts tree) : Complete .pipe ts tree := by
  intro fuel ps more all stops enough
  simp only [needed] at enough
  obtain ⟨fuel, rfl⟩ : ∃ n, fuel = n + 1 := ⟨fuel - 1, by omega⟩
  have stops' : Stops .exec more := by
    intro token rest seen
    have next := stops token rest seen
    have wider : ∀ token ∈ symbols, follows .pipe token = true → follows .exec token = true := by
      decide
    exact wider token (mem_symbols next) next
  obtain ⟨cmd, ps₁, parsed, text, left⟩ :=
    complete all stops' (by simp only [needed]; omega : _ ≤ fuel)
  have parsed : parseexec fuel ps = .ok (cmd, ps₁) := parsed
  refine ⟨cmd, (peek ps₁ ['|']).2, ?_, text, (tokens_peek ps₁ _).trans left⟩
  change parsepipe (fuel + 1) ps = _
  rw [parsepipe_succ, parsed]
  change (if (peek ps₁ ['|']).1 then _ else _) = _
  rw [peek_avoids left (stops.avoids (by decide)) (symbols_of_all (by decide))]
  rfl

theorem complete_pipe {ts us : List Token} {tree rest : Cmd (List Char)}
    (complete : Complete .exec ts tree) (others : Complete .pipe us rest) :
    Complete .pipe (ts ++ .pipe :: us) (.pipe tree rest) := by
  intro fuel ps more all stops enough
  simp only [needed, List.length_append, List.length_cons] at enough
  obtain ⟨fuel, rfl⟩ : ∃ n, fuel = n + 1 := ⟨fuel - 1, by omega⟩
  rw [List.append_assoc] at all
  obtain ⟨cmd, ps₁, parsed₁, text₁, left₁⟩ :=
    complete all (stops_cons rfl) (by simp only [needed]; omega : _ ≤ fuel)
  obtain ⟨seen, behind⟩ := gettoken_symbol (c := '|') rfl left₁
  obtain ⟨tail, ps₂, parsed₂, text₂, left₂⟩ :=
    others behind stops (by simp only [needed]; omega : _ ≤ fuel)
  have parsed₁ : parseexec fuel ps = .ok (cmd, ps₁) := parsed₁
  have parsed₂ : parsepipe fuel (gettoken (peek ps₁ ['|']).2).ps = .ok (tail, ps₂) := parsed₂
  refine ⟨.pipe cmd tail, ps₂, ?_, ?_, left₂⟩
  · change parsepipe (fuel + 1) ps = _
    rw [parsepipe_succ, parsed₁]
    change (if (peek ps₁ ['|']).1 then _ else _) = _
    rw [if_pos seen, parsed₂]
    rfl
  · rw [Cmd.map, text₁, text₂]

theorem complete_block {ts us : List Token} {tree : Cmd (List Char)}
    {rs : List (Redir (List Char))} (complete : Complete .line ts tree) (redirs : Redirs us rs) :
    Complete .exec (.lparen :: ts ++ .rparen :: us) (tree.wrap rs) := by
  intro fuel ps more all stops enough
  simp only [needed, List.length_append, List.length_cons] at enough
  obtain ⟨fuel, rfl⟩ : ∃ n, fuel = n + 2 := ⟨fuel - 2, by omega⟩
  rw [List.append_assoc, List.cons_append] at all
  have again : tokens (peek ps ['(']).2 = .lparen :: (ts ++ (.rparen :: us ++ more)) :=
    (tokens_peek ps _).trans all
  obtain ⟨opened, -⟩ := gettoken_symbol (c := '(') rfl all
  obtain ⟨opened', behind⟩ := gettoken_symbol (c := '(') rfl again
  obtain ⟨cmd, ps₁, parsed, text, left⟩ :=
    complete behind (stops_cons rfl) (by simp only [needed]; omega : _ ≤ fuel)
  obtain ⟨closed, behind₁⟩ := gettoken_symbol (c := ')') rfl left
  obtain ⟨files, ps₂, redirected, texts, left₂⟩ :=
    redirs_complete redirs behind₁ (stops.avoids (by decide)) (by omega : us.length + 1 ≤ fuel)
  have parsed : parseline fuel (gettoken (peek (peek ps ['(']).2 ['(']).2).ps =
    .ok (cmd, ps₁) := parsed
  refine ⟨cmd.wrap files, ps₂, ?_, ?_, left₂⟩
  · change parseexec (fuel + 1 + 1) ps = _
    rw [parseexec_succ, if_pos opened, parseblock_succ, if_neg (fun not => not opened'), parsed]
    change (if ¬ (peek ps₁ [')']).1 then _ else _) = _
    rw [if_neg (fun not => not closed), redirected]
    rfl
  · rw [map_wrap, text, texts]

theorem avoids_lparen {ts us more : List Token} {words : List (List Char)}
    {rs others : List (Redir (List Char))} (redirs : Redirs ts rs) (args : Args us words others)
    (stops : Stops .exec more) : Avoids ['('] (ts ++ (us ++ more)) := by
  cases redirs with
  | nil =>
      cases args with
      | nil => exact stops.avoids (by decide)
      | cons first rest =>
          intro token tail seen
          cases seen
          rfl
  | input rest | output rest | append rest =>
      intro token tail seen
      cases seen
      rfl

theorem complete_simple {ts us : List Token} {words : List (List Char)}
    {rs others : List (Redir (List Char))} (redirs : Redirs ts rs) (args : Args us words others)
    (room : words.length ≤ maxargs - 1) :
    Complete .exec (ts ++ us) ((Cmd.exec words).wrap (rs ++ others)) := by
  intro fuel ps more all stops enough
  simp only [needed, List.length_append] at enough
  obtain ⟨fuel, rfl⟩ : ∃ n, fuel = n + 1 := ⟨fuel - 1, by omega⟩
  rw [List.append_assoc] at all
  have unseen := peek_avoids all (avoids_lparen redirs args stops) (symbols_of_all (by decide))
  have again := (tokens_peek ps ['(']).trans all
  obtain ⟨first, ps₁, parsed₁, texts₁, left₁⟩ :=
    redirs_complete redirs again (avoids_args args stops) (by omega : ts.length + 1 ≤ fuel)
  obtain ⟨found, files, ps₂, parsed₂, texts₂, texts₃, left₂⟩ :=
    args_complete args left₁ stops (by simp only [maxargs] at *; omega : 0 + words.length < maxargs)
      (by omega : us.length + 1 ≤ fuel)
  refine ⟨(Cmd.exec found).wrap (first ++ files), ps₂, ?_, ?_, left₂⟩
  · change parseexec (fuel + 1) ps = _
    rw [parseexec_succ, unseen, if_neg Bool.false_ne_true, parsed₁]
    change (parseargs fuel 0 ps₁ >>= _) = _
    rw [parsed₂]
    rfl
  · rw [map_wrap, List.map_append, texts₁, texts₃, Cmd.map, texts₂]

theorem parse_complete {nonterminal : Nonterminal} {used : List Token} {tree : Cmd (List Char)}
    (derived : Derives nonterminal used tree) : Complete nonterminal used tree := by
  induction derived with
  | line n _ pipe => exact complete_line n pipe
  | list n _ _ pipe line => exact complete_list n pipe line
  | exec _ exec => exact complete_exec exec
  | pipe _ _ exec pipe => exact complete_pipe exec pipe
  | block _ redirs line => exact complete_block line redirs
  | simple redirs args room => exact complete_simple redirs args room

/-! ## The parser ends -/

theorem bind_eq_fuel {α β : Type} {first : Except Stop α} {next : α → Except Stop β}
    (stopped : (first >>= next) = .error .fuel) :
    first = .error .fuel ∨ ∃ middle, first = .ok middle ∧ next middle = .error .fuel := by
  cases first with
  | error stop =>
      cases stopped
      exact .inl rfl
  | ok middle => exact .inr ⟨middle, rfl, stopped⟩

theorem Took.length {ps ps' : Ptr} {used : List Token} (took : Took ps ps' used) :
    used.length + (Shell.tokens ps').length = (Shell.tokens ps).length := by
  rw [took.tokens, List.length_append]

theorem parseredirs_ends {fuel : Nat} {ps : Ptr} (enough : (tokens ps).length + 1 ≤ fuel) :
    parseredirs fuel ps ≠ .error .fuel := by
  induction fuel generalizing ps with
  | zero => omega
  | succ fuel ih =>
      intro stopped
      rw [parseredirs_succ] at stopped
      split at stopped
      case isFalse => cases stopped
      case isTrue more =>
        dsimp only at stopped
        split at stopped
        case isTrue => cases stopped
        case isFalse isWord =>
          rw [not_not] at isWord
          obtain ⟨token, ts, all, -⟩ := peek_true (symbols_of_all (by decide)) more
          have one := (took_token ['<', '>'] all).length
          have two := congrArg List.length (word_of_gettoken isWord).1
          simp only [List.length_cons, List.length_nil] at one two
          rcases bind_eq_fuel stopped with inner | ⟨result, -, inner⟩
          · exact ih (by omega) inner
          · cases inner

theorem parseargs_ends {fuel argc : Nat} {ps : Ptr} (enough : (tokens ps).length + 1 ≤ fuel) :
    parseargs fuel argc ps ≠ .error .fuel := by
  induction fuel generalizing ps argc with
  | zero => omega
  | succ fuel ih =>
      intro stopped
      rw [parseargs_succ] at stopped
      split at stopped
      case isTrue => cases stopped
      case isFalse =>
        dsimp only at stopped
        split at stopped
        case isTrue => cases stopped
        case isFalse =>
          split at stopped
          case isTrue => cases stopped
          case isFalse isWord =>
            rw [not_not] at isWord
            split at stopped
            case isTrue => cases stopped
            case isFalse =>
              have one := congrArg List.length (word_of_gettoken isWord).1
              rw [tokens_peek, List.length_cons] at one
              rcases bind_eq_fuel stopped with inner | ⟨redirs, parsed, inner⟩
              · exact parseredirs_ends (by omega) inner
              · obtain ⟨used, took, -⟩ := parseredirs_sound parsed
                have two := took.length
                rcases bind_eq_fuel inner with inner | ⟨rest, -, inner⟩
                · exact ih (by omega) inner
                · cases inner

theorem parsebacks_ends {fuel : Nat} {cmd : Cmd Word} {ps : Ptr}
    (enough : (tokens ps).length + 1 ≤ fuel) : parsebacks fuel cmd ps ≠ .error .fuel := by
  induction fuel generalizing ps cmd with
  | zero => omega
  | succ fuel ih =>
      intro stopped
      rw [parsebacks_succ] at stopped
      split at stopped
      case isFalse => cases stopped
      case isTrue more =>
        obtain ⟨token, ts, all, -⟩ := peek_true (symbols_of_all (by decide)) more
        have one := (took_token ['&'] all).length
        simp only [List.length_cons, List.length_nil] at one
        exact ih (by omega) stopped

/-- With enough fuel the function returns or panics. -/
def EndsAt (parse : Nat → Ptr → Except Stop (Cmd Word × Ptr)) (more fuel : Nat) : Prop :=
  ∀ {ps : Ptr}, 4 * (tokens ps).length + more ≤ fuel → parse fuel ps ≠ .error .fuel

theorem ends_parseline {fuel : Nat} (line : EndsAt parseline 4 fuel)
    (pipe : EndsAt parsepipe 3 fuel) : EndsAt parseline 4 (fuel + 1) := by
  intro ps enough stopped
  rw [parseline_succ] at stopped
  rcases bind_eq_fuel stopped with inner | ⟨first, parsed, inner⟩
  · exact pipe (by omega) inner
  · obtain ⟨used₁, took₁, -⟩ := (parse_sound fuel).2.1 parsed
    have one := took₁.length
    rcases bind_eq_fuel inner with inner | ⟨backed, looped, inner⟩
    · exact parsebacks_ends (by omega) inner
    · obtain ⟨n, -, took₂⟩ := parsebacks_sound looped
      have two := took₂.length
      split at inner
      case isFalse => cases inner
      case isTrue more =>
        obtain ⟨token, ts, all, -⟩ := peek_true (symbols_of_all (by decide)) more
        have three := (took_token [';'] all).length
        simp only [List.length_cons, List.length_nil] at three
        rcases bind_eq_fuel inner with inner | ⟨rest, -, inner⟩
        · exact line (by omega) inner
        · cases inner

theorem ends_parsepipe {fuel : Nat} (pipe : EndsAt parsepipe 3 fuel)
    (exec : EndsAt parseexec 2 fuel) : EndsAt parsepipe 3 (fuel + 1) := by
  intro ps enough stopped
  rw [parsepipe_succ] at stopped
  rcases bind_eq_fuel stopped with inner | ⟨first, parsed, inner⟩
  · exact exec (by omega) inner
  · obtain ⟨used, took, -⟩ := (parse_sound fuel).2.2.2 parsed
    have one := took.length
    split at inner
    case isFalse => cases inner
    case isTrue more =>
      obtain ⟨token, ts, all, -⟩ := peek_true (symbols_of_all (by decide)) more
      have two := (took_token ['|'] all).length
      simp only [List.length_cons, List.length_nil] at two
      rcases bind_eq_fuel inner with inner | ⟨rest, -, inner⟩
      · exact pipe (by omega) inner
      · cases inner

theorem ends_parseblock {fuel : Nat} (line : EndsAt parseline 4 fuel) :
    EndsAt parseblock 1 (fuel + 1) := by
  intro ps enough stopped
  rw [parseblock_succ] at stopped
  split at stopped
  case isTrue => cases stopped
  case isFalse opened =>
    rw [not_not] at opened
    obtain ⟨token, ts, all, -⟩ := peek_true (symbols_of_all (by decide)) opened
    have one := (took_token ['('] all).length
    simp only [List.length_cons, List.length_nil] at one
    rcases bind_eq_fuel stopped with inner | ⟨inside, parsed, inner⟩
    · exact line (by omega) inner
    · obtain ⟨used, took, -⟩ := (parse_sound fuel).1 parsed
      have two := took.length
      split at inner
      case isTrue => cases inner
      case isFalse closed =>
        rw [not_not] at closed
        obtain ⟨token', ts', all', -⟩ := peek_true (symbols_of_all (by decide)) closed
        have three := (took_token [')'] all').length
        simp only [List.length_cons, List.length_nil] at three
        rcases bind_eq_fuel inner with inner | ⟨redirs, -, inner⟩
        · exact parseredirs_ends (by omega) inner
        · cases inner

theorem ends_parseexec {fuel : Nat} (block : EndsAt parseblock 1 fuel) :
    EndsAt parseexec 2 (fuel + 1) := by
  intro ps enough stopped
  have same := congrArg List.length (tokens_peek ps ['('])
  rw [parseexec_succ] at stopped
  split at stopped
  case isTrue => exact block (by omega) stopped
  case isFalse =>
    rcases bind_eq_fuel stopped with inner | ⟨first, parsed, inner⟩
    · exact parseredirs_ends (by omega) inner
    · obtain ⟨used, took, -⟩ := parseredirs_sound parsed
      have one := took.length
      rcases bind_eq_fuel inner with inner | ⟨args, -, inner⟩
      · exact parseargs_ends (by omega) inner
      · cases inner

theorem parse_ends (fuel : Nat) :
    EndsAt parseline 4 fuel ∧ EndsAt parsepipe 3 fuel ∧
      EndsAt parseblock 1 fuel ∧ EndsAt parseexec 2 fuel := by
  induction fuel with
  | zero =>
      refine ⟨?_, ?_, ?_, ?_⟩
      all_goals
        intro ps enough
        omega
  | succ fuel ih =>
      obtain ⟨line, pipe, block, exec⟩ := ih
      exact ⟨ends_parseline line pipe, ends_parsepipe pipe exec, ends_parseblock line,
        ends_parseexec block⟩

/-! ## The strings after `nulterminate` -/

section Strings

variable {line : List Char} {buf : Buffer} {word : Word} {cmd : Cmd Word}

/-- The line, with NULs only where no character of a word is. -/
structure Cut (line : List Char) (buf : Buffer) : Prop where
  length : buf.length = line.length + 1
  kept : ∀ (i : Nat) (c : Char), (line)[i]? = some c → isWordChar c = true → buf[i]? = some c

/-- A NUL is at this pointer. -/
def NulAt (line : List Char) (buf : Buffer) (ptr : Ptr) : Prop :=
  buf[line.length - ptr.length]? = some '\x00'

theorem cut_line (line : List Char) : Cut line (line ++ ['\x00']) := by
  refine ⟨by simp, fun i c here _ => ?_⟩
  have inside : i < line.length := (List.getElem?_eq_some_iff.mp here).1
  rw [List.getElem?_append_left inside, here]

theorem Word.Within.stop_suffix (within : word.Within line) : word.stop <:+ line :=
  List.IsSuffix.trans ⟨word.text, within.1.split.symm⟩ within.2

/-- The character at a pointer into the line. -/
theorem getElem?_ptr {ptr : Ptr} (suffix : ptr <:+ line) (k : Nat) :
    (line)[line.length - ptr.length + k]? = ptr[k]? := by
  obtain ⟨before, rfl⟩ := suffix
  rw [List.length_append, Nat.add_sub_cancel, List.getElem?_append_right (Nat.le_add_right _ _),
    Nat.add_sub_cancel_left]

/-- No character of a word is behind a word. -/
theorem Word.Within.stop_not_word (within : word.Within line) {c : Char}
    (here : (line)[line.length - word.stop.length]? = some c) : isWordChar c = false := by
  have first := getElem?_ptr within.stop_suffix 0
  rw [Nat.add_zero, here] at first
  cases left : word.stop with
  | nil =>
      rw [left] at first
      cases first
  | cons d rest =>
      rw [left] at first
      cases first
      exact within.1.stops c rest left

theorem Cut.terminate (cut : Cut line buf) (within : word.Within line) :
    Cut line (terminate line.length word.stop buf) := by
  refine ⟨by rw [Shell.terminate, List.length_set, cut.length], fun i c here isWord => ?_⟩
  have other : i ≠ line.length - word.stop.length := by
    rintro rfl
    rw [within.stop_not_word here] at isWord
    cases isWord
  rw [Shell.terminate, List.getElem?_set_ne other.symm]
  exact cut.kept i c here isWord

theorem nulAt_terminate (cut : Cut line buf) (ptr : Ptr) :
    NulAt line (terminate line.length ptr buf) ptr := by
  have inside : line.length - ptr.length < buf.length := by
    rw [cut.length]
    omega
  rw [NulAt, Shell.terminate, List.getElem?_set_self inside]

theorem NulAt.terminate {ptr other : Ptr} (nul : NulAt line buf ptr) :
    NulAt line (terminate line.length other buf) ptr := by
  rw [NulAt, Shell.terminate]
  by_cases same : line.length - other.length = line.length - ptr.length
  · have inside := (List.getElem?_eq_some_iff.mp nul).1
    rw [same, List.getElem?_set_self inside]
  · rw [List.getElem?_set_ne same]
    exact nul

/-- What `nulterminate` does to the line. -/
structure Terminated (line : List Char) (cmd : Cmd Word) (buf buf' : Buffer) : Prop where
  cut : Cut line buf'
  stays : ∀ ptr, NulAt line buf ptr → NulAt line buf' ptr
  words : cmd.All fun word => NulAt line buf' word.stop

theorem terminated_argv (cut : Cut line buf) (argv : List Word)
    (within : ∀ word ∈ argv, word.Within line) :
    Terminated line (.exec argv) buf (nulterminate line.length (.exec argv) buf) := by
  induction argv generalizing buf with
  | nil => exact ⟨cut, fun _ nul => nul, fun _ none => by cases none⟩
  | cons word rest ih =>
      have here := within word List.mem_cons_self
      have later := ih (cut.terminate here) fun word' inside =>
        within word' (List.mem_cons_of_mem word inside)
      refine ⟨later.cut, fun ptr nul => later.stays ptr nul.terminate, fun word' inside => ?_⟩
      rcases List.mem_cons.mp inside with rfl | inside
      · exact later.stays _ (nulAt_terminate cut _)
      · exact later.words word' inside

theorem all_terminated {buf' : Buffer} (stays : ∀ ptr, NulAt line buf ptr → NulAt line buf' ptr)
    (words : cmd.All fun word => NulAt line buf word.stop) :
    cmd.All fun word => NulAt line buf' word.stop :=
  all_mono (fun word nul => stays word.stop nul) words

theorem terminated (cut : Cut line buf) (within : cmd.All (Word.Within line)) :
    Terminated line cmd buf (nulterminate line.length cmd buf) := by
  induction cmd generalizing buf with
  | exec argv => exact terminated_argv cut argv within
  | redir cmd file mode fd ih =>
      have inner := ih cut within.1
      exact ⟨inner.cut.terminate within.2, fun ptr nul => (inner.stays ptr nul).terminate,
        all_terminated (fun ptr nul => nul.terminate) inner.words, nulAt_terminate inner.cut _⟩
  | pipe left right first second | list left right first second =>
      have one := first cut within.1
      have two := second one.cut within.2
      exact ⟨two.cut, fun ptr nul => two.stays ptr (one.stays ptr nul),
        all_terminated two.stays one.words, two.words⟩
  | back cmd ih =>
      have inner := ih cut within
      exact ⟨inner.cut, inner.stays, inner.words⟩

theorem takeWhile_append_cons {p : Char → Bool} {first rest : List Char} {c : Char}
    (all : ∀ d ∈ first, p d = true) (stop : p c = false) :
    (first ++ c :: rest).takeWhile p = first := by
  rw [List.takeWhile_append_of_pos all, List.takeWhile_cons_of_neg (by rw [stop]; decide),
    List.append_nil]

/-- A terminated word is read as its text. -/
theorem read_eq_text (cut : Cut line buf) (noNul : '\x00' ∉ line) (within : word.Within line)
    (nul : NulAt line buf word.stop) : word.read line.length buf = word.text := by
  obtain ⟨⟨split, chars, -⟩, suffix⟩ := within
  have lengths := congrArg List.length split
  rw [List.length_append] at lengths
  have fits := suffix.length_le
  have stop : line.length - word.start.length + word.text.length =
      line.length - word.stop.length := by omega
  have whole : buf.drop (line.length - word.start.length) =
      word.text ++ '\x00' :: buf.drop (line.length - word.stop.length + 1) := by
    refine List.ext_getElem? fun k => ?_
    rw [List.getElem?_drop]
    rcases Nat.lt_trichotomy k word.text.length with inside | rfl | outside
    · have here := getElem?_ptr suffix k
      rw [split, List.getElem?_append_left inside, List.getElem?_eq_getElem inside, ← split] at here
      rw [List.getElem?_append_left inside, List.getElem?_eq_getElem inside]
      exact cut.kept _ _ here (chars _ (List.getElem_mem inside))
    · rw [stop, List.getElem?_append_right (Nat.le_refl _), Nat.sub_self]
      exact nul
    · rw [List.getElem?_append_right (Nat.le_of_lt outside)]
      obtain ⟨j, rfl⟩ : ∃ j, k = word.text.length + 1 + j :=
        ⟨k - (word.text.length + 1), by omega⟩
      have index : word.text.length + 1 + j - word.text.length = j + 1 := by omega
      rw [index, List.getElem?_cons_succ, List.getElem?_drop]
      congr 1
      omega
  have clean : ∀ c ∈ word.text, decide (c ≠ '\x00') = true := by
    intro c inside
    refine decide_eq_true ?_
    rintro rfl
    refine noNul (suffix.subset ?_)
    rw [split]
    exact List.mem_append_left _ inside
  rw [Word.read, cstring, whole]
  exact takeWhile_append_cons clean (by decide)

theorem map_congr {f g : Word → List Char} (same : cmd.All fun word => f word = g word) :
    cmd.map f = cmd.map g := by
  induction cmd with
  | exec argv => exact congrArg Cmd.exec (List.map_congr_left same)
  | redir cmd file mode fd ih => rw [Cmd.map, Cmd.map, ih same.1, same.2]
  | pipe left right first second => rw [Cmd.map, Cmd.map, first same.1, second same.2]
  | list left right first second => rw [Cmd.map, Cmd.map, first same.1, second same.2]
  | back cmd ih => rw [Cmd.map, Cmd.map, ih same]

theorem all_and {P Q : Word → Prop} (first : cmd.All P) (second : cmd.All Q) :
    cmd.All fun word => P word ∧ Q word := by
  induction cmd with
  | exec argv => exact fun word inside => ⟨first word inside, second word inside⟩
  | redir cmd file mode fd ih => exact ⟨ih first.1 second.1, first.2, second.2⟩
  | pipe left right one two => exact ⟨one first.1 second.1, two first.2 second.2⟩
  | list left right one two => exact ⟨one first.1 second.1, two first.2 second.2⟩
  | back cmd ih => exact ih first second

/-- The words of a command, read from the line after `nulterminate`. -/
theorem map_read (noNul : '\x00' ∉ line) (within : cmd.All (Word.Within line)) :
    cmd.map (Word.read line.length (nulterminate line.length cmd (line ++ ['\x00']))) =
      cmd.map Word.text := by
  have done := terminated (cut_line line) within
  exact map_congr (all_mono (fun word both => read_eq_text done.cut noNul both.1 both.2)
    (all_and within done.words))

end Strings

theorem length_tokens (line : List Char) : (tokens line).length ≤ line.length := by
  induction all : tokens line generalizing line with
  | nil => exact Nat.zero_le _
  | cons token ts ih =>
      obtain ⟨rest, lexed, left⟩ := lex_of_tokens all
      have shorter := length_lex lexed
      have before := ih rest left
      rw [List.length_cons]
      omega

theorem not_nul_cstring (text : List Char) : '\x00' ∉ cstring text := by
  intro inside
  have passed := List.mem_takeWhile_imp inside
  exact absurd passed (by decide)

/-- Nothing but white space is left where there are no tokens. -/
theorem peek_snd_eq_nil_iff {ps : Ptr} {toks : List Char} :
    (peek ps toks).2 = [] ↔ tokens ps = [] := by
  rw [peek_snd]
  constructor
  · intro none
    rw [← tokens_dropWhile, none]
    exact tokens_of_none rfl
  · intro none
    have lexed := lex_of_tokens_nil none
    unfold lex at lexed
    split at lexed
    case h_1 left => exact left
    case h_2 => cases lexed
    case h_3 =>
      split at lexed
      · cases lexed
      · cases lexed

theorem parsecmd_eq (fuel : Nat) (text : List Char) :
    parsecmd fuel text = parseline fuel (cstring text) >>= fun result =>
      if (peek result.2 []).2 ≠ [] then throw (.panic .badSyntax)
      else pure (result.1, nulterminate (cstring text).length result.1
        (cstring text ++ ['\x00'])) :=
  rfl

/-- The parser ends on every line, and it returns a command exactly when the
grammar derives the tokens of the line; the command, with its words read from
the line, is then the tree of the derivation. -/
theorem parsecmd_iff_derives (text : List Char) {fuel : Nat}
    (enough : 4 * (cstring text).length + 4 ≤ fuel) :
    parsecmd fuel text ≠ .error .fuel ∧
      ∀ tree, (∃ cmd buf, parsecmd fuel text = .ok (cmd, buf) ∧
        cmd.map (Word.read (cstring text).length buf) = tree) ↔
        Derives .line (tokens (cstring text)) tree := by
  have count := length_tokens (cstring text)
  refine ⟨fun stopped => ?_, fun tree => ⟨?_, fun derived => ?_⟩⟩
  · rw [parsecmd_eq] at stopped
    rcases bind_eq_fuel stopped with inner | ⟨result, -, inner⟩
    · exact (parse_ends fuel).1 (by omega) inner
    · split at inner
      · cases inner
      · cases inner
  · rintro ⟨cmd, buf, parsed, rfl⟩
    rw [parsecmd_eq] at parsed
    obtain ⟨⟨cmd', ps⟩, line, parsed⟩ := bind_eq_ok.mp parsed
    split at parsed
    case isTrue => cases parsed
    case isFalse none =>
      rw [not_not, peek_snd_eq_nil_iff] at none
      cases parsed
      obtain ⟨used, took, derived, within⟩ := (parse_sound fuel).1 line
      rw [map_read (not_nul_cstring text) within, took.tokens, none, List.append_nil]
      exact derived
  · have all : tokens (cstring text) = tokens (cstring text) ++ [] := (List.append_nil _).symm
    obtain ⟨cmd, ps, parsed, text', left⟩ := parse_complete derived all
      (fun token rest none => by cases none) (by simp only [needed]; omega : _ ≤ fuel)
    have parsed : parseline fuel (cstring text) = .ok (cmd, ps) := parsed
    obtain ⟨used, took, -, within⟩ := (parse_sound fuel).1 parsed
    refine ⟨cmd, nulterminate (cstring text).length cmd (cstring text ++ ['\x00']), ?_, ?_⟩
    · rw [parsecmd_eq, parsed]
      change (if (peek ps []).2 ≠ [] then throw (Stop.panic .badSyntax) else pure (cmd, _)) = _
      rw [if_neg (not_not.mpr (peek_snd_eq_nil_iff.mpr left))]
      rfl
    · rw [map_read (not_nul_cstring text) within]
      exact text'

/-- A block in the background, with a redirection inside. -/
theorem derives_block : Derives .line
    (tokens (cstring ['(', 'a', ' ', '<', 'b', ';', 'c', ')', '&']))
    (.back (.list (.redir (.exec [['a']]) ['b'] 0 0) (.exec [['c']]))) :=
  ((parsecmd_iff_derives _ (Nat.le_refl 40)).2 _).mp ⟨_, _, rfl, rfl⟩

end Xv6.Shell
