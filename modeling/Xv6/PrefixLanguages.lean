import Mathlib.Computability.Language

/-!
# Words that begin in a language

`Leads l rest text` says that the text begins with a word of the language and
that what is behind it meets a condition.  Products of languages are conditions
one behind the other, and a language of single letters, or the words over some
letters, is followed along the text one letter at a time.
-/

namespace PrefixLanguages

open Computability

variable {α : Type}

/-- The text is a word of the language and a rest that meets a condition. -/
def Leads (l : Language α) (rest : List α → Prop) (text : List α) : Prop :=
  ∃ front back, text = front ++ back ∧ front ∈ l ∧ rest back

/-- The letters with a property, as words. -/
def letters (admits : α → Prop) : Language α :=
  {word | ∃ letter, admits letter ∧ word = [letter]}

variable {l m : Language α} {rest : List α → Prop} {admits : α → Prop} {letter : α}
  {text : List α}

/-- The words over some letters. -/
theorem mem_kstar_letters {word : List α} :
    word ∈ (letters admits)∗ ↔ ∀ letter ∈ word, admits letter := by
  rw [Language.mem_kstar]
  constructor
  · rintro ⟨words, rfl, each⟩ letter member
    obtain ⟨word, isWord, here⟩ := List.mem_flatten.mp member
    obtain ⟨only, allowed, rfl⟩ := each word isWord
    rwa [List.mem_singleton.mp here]
  · intro every
    refine ⟨word.map fun letter => [letter], ?_, ?_⟩
    · induction word with
      | nil => rfl
      | cons letter word ih =>
          have rest := ih fun letter member => every letter (List.mem_cons_of_mem _ member)
          rw [List.map_cons, List.flatten_cons, ← rest]
          rfl
    · intro single member
      obtain ⟨letter, isLetter, rfl⟩ := List.mem_map.mp member
      exact ⟨letter, every letter isLetter, rfl⟩

theorem leads_one : Leads 1 rest text ↔ rest text := by
  constructor
  · rintro ⟨front, back, rfl, isNil, holds⟩
    rw [Language.mem_one] at isNil
    rwa [isNil, List.nil_append]
  · intro holds
    exact ⟨[], text, rfl, Language.nil_mem_one, holds⟩

theorem leads_mul : Leads (l * m) rest text ↔ Leads l (Leads m rest) text := by
  constructor
  · rintro ⟨_, back, rfl, product, holds⟩
    obtain ⟨first, isFirst, second, isSecond, rfl⟩ := Language.mem_mul.mp product
    exact ⟨first, second ++ back, List.append_assoc .., isFirst, second, back, rfl, isSecond, holds⟩
  · rintro ⟨first, _, rfl, isFirst, second, back, rfl, isSecond, holds⟩
    refine ⟨first ++ second, back, (List.append_assoc ..).symm, ?_, holds⟩
    exact Language.append_mem_mul isFirst isSecond

theorem not_leads_letters_nil : ¬Leads (letters admits) rest [] := by
  rintro ⟨front, back, split, ⟨letter, _, rfl⟩, _⟩
  cases split

theorem leads_letters_cons :
    Leads (letters admits) rest (letter :: text) ↔ admits letter ∧ rest text := by
  constructor
  · rintro ⟨front, back, split, ⟨first, allowed, rfl⟩, holds⟩
    cases split
    exact ⟨allowed, holds⟩
  · rintro ⟨allowed, holds⟩
    exact ⟨[letter], text, rfl, ⟨letter, allowed, rfl⟩, holds⟩

theorem leads_kstar_letters_nil : Leads (letters admits)∗ rest [] ↔ rest [] := by
  constructor
  · rintro ⟨front, back, split, _, holds⟩
    obtain ⟨-, rfl⟩ := List.append_eq_nil_iff.mp split.symm
    exact holds
  · intro holds
    exact ⟨[], [], rfl, Language.nil_mem_kstar _, holds⟩

/-- The word is over, or it goes on with one of the letters. -/
theorem leads_kstar_letters_cons :
    Leads (letters admits)∗ rest (letter :: text) ↔
      rest (letter :: text) ∨ admits letter ∧ Leads (letters admits)∗ rest text := by
  constructor
  · rintro ⟨front, back, split, inStar, holds⟩
    rw [mem_kstar_letters] at inStar
    cases front with
    | nil =>
        rw [List.nil_append] at split
        exact .inl (split ▸ holds)
    | cons first front =>
        cases split
        have allowed := inStar letter List.mem_cons_self
        refine .inr ⟨allowed, front, back, rfl, ?_, holds⟩
        exact mem_kstar_letters.mpr fun other member => inStar other (List.mem_cons_of_mem _ member)
  · rintro (holds | ⟨allowed, front, back, rfl, inStar, holds⟩)
    · exact ⟨[], letter :: text, rfl, Language.nil_mem_kstar _, holds⟩
    · refine ⟨letter :: front, back, rfl, ?_, holds⟩
      rw [mem_kstar_letters] at inStar ⊢
      intro other member
      rcases List.mem_cons.mp member with rfl | later
      · exact allowed
      · exact inStar other later

theorem Leads.congr {rest' : List α → Prop} (same : ∀ back, rest back ↔ rest' back) :
    Leads l rest text ↔ Leads l rest' text := by
  unfold Leads
  simp only [same]

end PrefixLanguages
