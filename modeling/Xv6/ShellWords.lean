import Xv6.ShellAcceptance

/-!
# Words in the terminated line

`nulterminate` ends the words of a command where they stand: the pointers of all
words lead into one line, and the NUL behind a word overwrites the blank, the symbol
or the NUL that is there.  A word ends before a character that belongs to no word,
so none of these NULs falls inside a word, and every word is read as its text.
-/

namespace Xv6.Shell

/-- The index in the line of what a pointer leads to. -/
def position (line : List Char) (ptr : Ptr) : Nat :=
  line.length - ptr.length

/-- The character at this index is one of the word. -/
def Word.Covers (line : List Char) (word : Word) (i : Nat) : Prop :=
  position line word.start ≤ i ∧ i < position line word.stop

/-- What is left of a word in the line: it is a token of the line and is read as its
text, the characters at its indices are its own, and a NUL is behind it. -/
structure Word.Survives (line : List Char) (buf : Buffer) (word : Word) : Prop where
  within : word.Within line
  read : word.read line.length buf = word.text
  kept : ∀ i, word.Covers line i → buf[i]? = (line)[i]?
  ended : buf[position line word.stop]? = some '\x00'

section Line

variable {line : List Char} {buf : Buffer} {word other : Word} {cmd : Cmd Word}

/-- The characters at the indices of a word are characters of words. -/
theorem Word.Covers.isWordChar {i : Nat} (covers : word.Covers line i)
    (within : word.Within line) : ∃ c, (line)[i]? = some c ∧ isWordChar c = true := by
  obtain ⟨⟨split, chars, -⟩, suffix⟩ := within
  have lengths := congrArg List.length split
  rw [List.length_append] at lengths
  have fits := suffix.length_le
  unfold Covers position at covers
  obtain ⟨k, rfl⟩ : ∃ k, i = line.length - word.start.length + k := Nat.exists_eq_add_of_le covers.1
  have inside : k < word.text.length := by omega
  have here := getElem?_ptr suffix k
  rw [split, List.getElem?_append_left inside, List.getElem?_eq_getElem inside, ← split] at here
  exact ⟨_, here, chars _ (List.getElem_mem inside)⟩

/-- The NUL behind a word is at no index of a word. -/
theorem not_covers_stop (within : word.Within line) (within' : other.Within line) :
    ¬word.Covers line (position line other.stop) := by
  intro covers
  obtain ⟨c, here, isWord⟩ := covers.isWordChar within
  rw [within'.stop_not_word here] at isWord
  cases isWord

/-- A word of the terminated line survives. -/
theorem survives (cut : Cut line buf) (noNul : '\x00' ∉ line) (within : word.Within line)
    (nul : NulAt line buf word.stop) : word.Survives line buf := by
  have kept (i : Nat) (covers : word.Covers line i) : buf[i]? = (line)[i]? := by
    obtain ⟨c, here, isWord⟩ := covers.isWordChar within
    rw [here, cut.kept i c here isWord]
  exact ⟨within, read_eq_text cut noNul within nul, kept, nul⟩

/-- The words of a command that `parsecmd` returns are words of its line, and the
line is the terminated one. -/
theorem parsecmd_ok {fuel : Nat} {text : List Char} (parsed : parsecmd fuel text = .ok (cmd, buf)) :
    cmd.All (Word.Within (cstring text)) ∧
      buf = nulterminate (cstring text).length cmd (cstring text ++ ['\x00']) := by
  rw [parsecmd_eq] at parsed
  obtain ⟨⟨cmd', ps⟩, line, parsed⟩ := bind_eq_ok.mp parsed
  obtain ⟨used, -, -, within⟩ := (parse_sound fuel).1 line
  split at parsed
  · cases parsed
  · cases parsed
    exact ⟨within, rfl⟩

end Line

end Xv6.Shell
