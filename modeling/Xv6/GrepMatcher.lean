import Xv6.PrefixLanguages

/-!
# The matcher of grep

`match` and the functions it calls, on the characters in front of the NUL.  A
pattern is read as an optional caret, items and an optional dollar; the matcher
decides whether a part of the text is in the language of the items.
-/

namespace Xv6.Grep

open Computability PrefixLanguages

abbrev dot : UInt8 := 46
abbrev star : UInt8 := 42
abbrev caret : UInt8 := 94
abbrev dollar : UInt8 := 36
abbrev newline : UInt8 := 10

/-- `matchstar`, where `here` is `matchhere` for the pattern behind the star. -/
def matchstar (here : List UInt8 → Bool) (c : UInt8) : List UInt8 → Bool
  | [] => here []
  | t :: text => here (t :: text) || ((t == c || c == dot) && matchstar here c text)

/-- `matchhere` -/
def matchhere : List UInt8 → List UInt8 → Bool
  | [], _ => true
  | [c], text =>
      if c = dollar then text.isEmpty
      else
        match text with
        | [] => false
        | t :: _ => c == dot || c == t
  | c :: d :: re, text =>
      if d = star then matchstar (matchhere re) c text
      else
        match text with
        | [] => false
        | t :: text => (c == dot || c == t) && matchhere (d :: re) text

/-- The loop of `match`. -/
def matchFrom (re : List UInt8) : List UInt8 → Bool
  | [] => matchhere re []
  | t :: text => matchhere re (t :: text) || matchFrom re text

/-- `match` -/
def match' (re text : List UInt8) : Bool :=
  match re with
  | [] => matchFrom [] text
  | c :: rest => if c = caret then matchhere rest text else matchFrom (c :: rest) text

/-! ## Patterns -/

/-- A character or a dot, perhaps with a star. -/
structure Item where
  char : UInt8
  starred : Bool

/-- A pattern: a caret, items and a dollar. -/
structure Pattern where
  anchored : Bool
  items : List Item
  ended : Bool

def parseItems : List UInt8 → List Item × Bool
  | [] => ([], false)
  | [c] => if c = dollar then ([], true) else ([⟨c, false⟩], false)
  | c :: d :: re =>
      if d = star then
        let (items, ended) := parseItems re
        (⟨c, true⟩ :: items, ended)
      else
        let (items, ended) := parseItems (d :: re)
        (⟨c, false⟩ :: items, ended)

def parse (re : List UInt8) : Pattern :=
  match re with
  | [] => ⟨false, [], false⟩
  | c :: rest =>
      if c = caret then
        let (items, ended) := parseItems rest
        ⟨true, items, ended⟩
      else
        let (items, ended) := parseItems (c :: rest)
        ⟨false, items, ended⟩

/-- The characters of a pattern. -/
def Item.chars (item : Item) : List UInt8 :=
  item.char :: if item.starred then [star] else []

def Pattern.chars (pattern : Pattern) : List UInt8 :=
  (if pattern.anchored then [caret] else []) ++ pattern.items.flatMap Item.chars ++
    if pattern.ended then [dollar] else []

/-- The character is matched by a character of a pattern. -/
def Admits (c t : UInt8) : Prop := c = dot ∨ c = t

instance (c t : UInt8) : Decidable (Admits c t) := inferInstanceAs (Decidable (_ ∨ _))

def Item.language (item : Item) : Language UInt8 :=
  if item.starred then (letters (Admits item.char))∗ else letters (Admits item.char)

def languageOf (items : List Item) : Language UInt8 :=
  (items.map Item.language).prod

/-- A part of the text is in the language of the items, at the beginning if there
is a caret and up to the end if there is a dollar. -/
def Pattern.Matches (pattern : Pattern) (text : List UInt8) : Prop :=
  ∃ before part after, text = before ++ part ++ after ∧
    (pattern.anchored = true → before = []) ∧ (pattern.ended = true → after = []) ∧
    part ∈ languageOf pattern.items

theorem parseItems_star (c : UInt8) (re : List UInt8) :
    parseItems (c :: star :: re) = (⟨c, true⟩ :: (parseItems re).1, (parseItems re).2) := by
  rw [parseItems, if_pos rfl]

theorem parseItems_char {c d : UInt8} (re : List UInt8) (notStar : d ≠ star) :
    parseItems (c :: d :: re) =
      (⟨c, false⟩ :: (parseItems (d :: re)).1, (parseItems (d :: re)).2) := by
  rw [parseItems, if_neg notStar]

/-- The items have all characters of the pattern. -/
theorem chars_parseItems (re : List UInt8) :
    (parseItems re).1.flatMap Item.chars ++ (if (parseItems re).2 then [dollar] else []) = re := by
  fun_induction parseItems re with
  | case1 => rfl
  | case2 => rfl
  | case3 => rfl
  | case4 c re items ended parsed ih =>
      rw [parsed] at ih
      rw [List.flatMap_cons, List.append_assoc, ih]
      rfl
  | case5 c d re notStar items ended parsed ih =>
      rw [parsed] at ih
      rw [List.flatMap_cons, List.append_assoc, ih]
      rfl

theorem chars_parse (re : List UInt8) : (parse re).chars = re := by
  cases re with
  | nil => rfl
  | cons c rest =>
      unfold parse Pattern.chars
      dsimp only
      split
      · rename_i isCaret
        rw [if_pos rfl, List.append_assoc, chars_parseItems, isCaret]
        rfl
      · rw [if_neg Bool.false_ne_true, List.nil_append, chars_parseItems]

/-! ## The matcher decides the language -/

theorem languageOf_cons (item : Item) (items : List Item) :
    languageOf (item :: items) = item.language * languageOf items :=
  List.prod_cons

/-- `matchstar` tries every number of characters. -/
theorem matchstar_iff {here : List UInt8 → Bool} {rest : List UInt8 → Prop}
    (spec : ∀ text, here text = true ↔ rest text) (c : UInt8) (text : List UInt8) :
    matchstar here c text = true ↔ Leads (letters (Admits c))∗ rest text := by
  induction text with
  | nil => rw [matchstar, leads_kstar_letters_nil, spec]
  | cons t text ih =>
      have admits : (t == c || c == dot) = true ↔ Admits c t := by
        rw [Bool.or_eq_true, beq_iff_eq, beq_iff_eq, Admits, or_comm, eq_comm (a := t)]
      rw [matchstar, leads_kstar_letters_cons, Bool.or_eq_true, Bool.and_eq_true, spec, ih, admits]

theorem admits_iff {c t : UInt8} : (c == dot || c == t) = true ↔ Admits c t := by
  rw [Bool.or_eq_true, beq_iff_eq, beq_iff_eq, Admits]

theorem matchhere_last (c : UInt8) (text : List UInt8) :
    matchhere [c] text =
      if c = dollar then text.isEmpty
      else
        match text with
        | [] => false
        | t :: _ => c == dot || c == t := by
  cases text <;> rfl

theorem matchhere_star (c : UInt8) (re text : List UInt8) :
    matchhere (c :: star :: re) text = matchstar (matchhere re) c text := by
  cases text <;> rfl

theorem not_matchhere_nil {c d : UInt8} (re : List UInt8) (notStar : d ≠ star) :
    matchhere (c :: d :: re) [] = false :=
  if_neg notStar

theorem matchhere_char {c d t : UInt8} (re text : List UInt8) (notStar : d ≠ star) :
    matchhere (c :: d :: re) (t :: text) = ((c == dot || c == t) && matchhere (d :: re) text) :=
  if_neg notStar

/-- `matchhere` finds a word of the items at the front of the text. -/
theorem matchhere_iff (re text : List UInt8) :
    matchhere re text = true ↔
      Leads (languageOf (parseItems re).1) (fun after => (parseItems re).2 = true → after = [])
        text := by
  induction re using parseItems.induct generalizing text with
  | case1 =>
      have free : Leads 1 (fun after => false = true → after = []) text := leads_one.mpr nofun
      exact iff_of_true rfl free
  | case2 =>
      rw [matchhere_last, if_pos rfl, List.isEmpty_iff]
      change text = [] ↔ Leads 1 (fun after => true = true → after = []) text
      rw [leads_one]
      exact ⟨fun empty _ => empty, fun holds => holds rfl⟩
  | case3 c notDollar =>
      have parsed : parseItems [c] = ([⟨c, false⟩], false) := by
        rw [parseItems, if_neg notDollar]
      rw [matchhere_last, if_neg notDollar, parsed]
      change _ ↔ Leads (letters (Admits c) * 1) (fun after => false = true → after = []) text
      rw [leads_mul]
      cases text with
      | nil => exact iff_of_false Bool.false_ne_true not_leads_letters_nil
      | cons t text =>
          rw [leads_letters_cons, leads_one]
          dsimp only
          rw [admits_iff]
          exact ⟨fun admits => ⟨admits, nofun⟩, fun both => both.1⟩
  | case4 c re _ _ _ ih =>
      rw [matchhere_star, parseItems_star, languageOf_cons, leads_mul]
      exact matchstar_iff ih c text
  | case5 c d re notStar _ _ _ ih =>
      rw [parseItems_char re notStar, languageOf_cons, leads_mul]
      change _ ↔ Leads (letters (Admits c)) _ text
      cases text with
      | nil =>
          rw [not_matchhere_nil re notStar]
          exact iff_of_false Bool.false_ne_true not_leads_letters_nil
      | cons t text =>
          rw [matchhere_char re text notStar, leads_letters_cons, Bool.and_eq_true, admits_iff, ih]

/-- `match` tries every place in the text. -/
theorem matchFrom_iff (re text : List UInt8) :
    matchFrom re text = true ↔ ∃ before rest, text = before ++ rest ∧ matchhere re rest = true := by
  induction text with
  | nil =>
      rw [matchFrom]
      constructor
      · intro found
        exact ⟨[], [], rfl, found⟩
      · rintro ⟨before, rest, split, found⟩
        obtain ⟨-, rfl⟩ := List.append_eq_nil_iff.mp split.symm
        exact found
  | cons t text ih =>
      rw [matchFrom, Bool.or_eq_true, ih]
      constructor
      · rintro (found | ⟨before, rest, rfl, found⟩)
        · exact ⟨[], t :: text, rfl, found⟩
        · exact ⟨t :: before, rest, rfl, found⟩
      · rintro ⟨before, rest, split, found⟩
        cases before with
        | nil =>
            rw [List.nil_append] at split
            exact .inl (split ▸ found)
        | cons first before =>
            cases split
            exact .inr ⟨before, rest, rfl, found⟩

/-- The matcher decides whether a part of the text, between the ends that the
pattern asks for, is in the language of the items. -/
theorem matches_iff (re text : List UInt8) :
    match' re text = true ↔ (parse re).Matches text := by
  have anywhere (re : List UInt8) : matchFrom re text = true ↔
      Pattern.Matches ⟨false, (parseItems re).1, (parseItems re).2⟩ text := by
    rw [matchFrom_iff]
    constructor
    · rintro ⟨before, rest, rfl, found⟩
      obtain ⟨part, after, rfl, isPart, ended⟩ := (matchhere_iff re rest).mp found
      exact ⟨before, part, after, (List.append_assoc ..).symm, nofun, ended, isPart⟩
    · rintro ⟨before, part, after, rfl, -, ended, isPart⟩
      refine ⟨before, part ++ after, List.append_assoc .., ?_⟩
      exact (matchhere_iff re _).mpr ⟨part, after, rfl, isPart, ended⟩
  cases re with
  | nil => exact anywhere []
  | cons c rest =>
      unfold match' parse
      dsimp only
      split
      · rw [matchhere_iff]
        constructor
        · rintro ⟨part, after, rfl, isPart, ended⟩
          exact ⟨[], part, after, rfl, fun _ => rfl, ended, isPart⟩
        · rintro ⟨before, part, after, rfl, anchored, ended, isPart⟩
          rw [anchored rfl, List.nil_append]
          exact ⟨part, after, rfl, isPart, ended⟩
      · exact anywhere (c :: rest)

/-- `^a*.$` -/
example : match' [caret, 97, star, dot, dollar] [97, 97, 98] = true ∧
    match' [caret, 97, star, dot, dollar] [98, 97, 98] = false := by
  decide

end Xv6.Grep
