import EvmAccess.Text.Blank

/-!
# Words of a text

The first word of a text is what is left of it when the blanks before the word and all that follows
it are taken away. A text that has no word has the empty one.

## Main definitions

- `FirstWord`: how a text is made up of blanks, a word and the rest.

## Main results

- `firstWord_takeWord`: what is taken off a text is its first word.
- `FirstWord.takeWord_eq`: a text has no other first word.
-/

namespace EvmAccess

variable {text word rest : List Char}

/-- A text without blanks that is not empty. -/
def IsWord (cs : List Char) : Prop := cs ≠ [] ∧ ∀ c ∈ cs, isBlank c = false

instance (cs : List Char) : Decidable (IsWord cs) :=
  decidable_of_iff (cs.isEmpty = false ∧ cs.all (fun c => !isBlank c) = true) (by simp [IsWord])

theorem IsWord.append {cs ds : List Char} (h : IsWord cs) (hds : ∀ c ∈ ds, isBlank c = false) :
    IsWord (cs ++ ds) := by
  refine ⟨List.append_ne_nil_of_left_ne_nil h.1 ds, fun c hc => ?_⟩
  rcases List.mem_append.1 hc with hc | hc
  · exact h.2 c hc
  · exact hds c hc

/-- The visible characters of ASCII are no blanks. -/
theorem isBlank_eq_false {c : Char} (hlow : 32 < c.toNat) (hhigh : c.toNat < 127) :
    isBlank c = false := by
  simp only [isBlank, blankRanges, List.any_cons, List.any_nil, Bool.or_false, Bool.or_eq_false_iff,
    Bool.and_eq_false_iff, decide_eq_false_iff_not]
  omega

/-- A text starts, after blanks, with a word, and goes on with `rest`. -/
structure FirstWord (text word rest : List Char) : Prop where
  /-- Only blanks stand before the word. -/
  split : ∃ blanks, text = blanks ++ (word ++ rest) ∧ ∀ c ∈ blanks, isBlank c = true
  /-- The word has no blank in it. -/
  solid : ∀ c ∈ word, isBlank c = false
  /-- It ends at a blank, or at the end of the text. -/
  ends : ∀ c ∈ rest.head?, isBlank c = true
  /-- It is empty only at the end of the text. -/
  proper : word = [] → rest = []

/-- What is left where a condition stops to hold starts with something that does not meet it. -/
theorem of_mem_head?_dropWhile {p : Char → Bool} {cs : List Char} {c : Char}
    (h : c ∈ (cs.dropWhile p).head?) : p c = false := by
  have hnot := List.head?_dropWhile_not p cs
  rw [Option.mem_def.1 h] at hnot
  exact hnot

theorem firstWord_takeWord (text : List Char) :
    FirstWord text (takeWord text).1 (takeWord text).2 where
  split := ⟨text.takeWhile isBlank, by simp [takeWord], List.all_eq_true.1 List.all_takeWhile⟩
  solid c hc := by simpa using List.all_eq_true.1 List.all_takeWhile c hc
  ends c hc := by simpa using of_mem_head?_dropWhile hc
  proper h := by
    -- The text behind the blanks does not start with a blank, so no word means no text.
    cases hstart : text.dropWhile isBlank with
    | nil => simp [takeWord, hstart]
    | cons c cs =>
      have hhead : c ∈ (text.dropWhile isBlank).head? := by rw [hstart]; rfl
      simp [takeWord, hstart, of_mem_head?_dropWhile hhead] at h

theorem FirstWord.takeWord_eq (h : FirstWord text word rest) : takeWord text = (word, rest) := by
  obtain ⟨⟨blanks, rfl, hblanks⟩, hsolid, hends, hproper⟩ := h
  have hsolid' : ∀ c ∈ word, (!isBlank c) = true := fun c hc => by simp [hsolid c hc]
  have hrest : rest.takeWhile (!isBlank ·) = [] ∧ rest.dropWhile (!isBlank ·) = rest := by
    cases rest with
    | nil => exact ⟨rfl, rfl⟩
    | cons c cs => simp [hends c rfl]
  have hstart : (word ++ rest).dropWhile isBlank = word ++ rest := by
    cases word with
    | nil => rw [hproper rfl]; rfl
    | cons c cs => simp [hsolid c List.mem_cons_self]
  rw [takeWord, List.dropWhile_append_of_pos hblanks, hstart,
    List.takeWhile_append_of_pos hsolid', List.dropWhile_append_of_pos hsolid', hrest.1, hrest.2,
    List.append_nil]

/-- Behind blanks, a word is the first one, if it ends where it should. -/
theorem IsWord.firstWord (h : IsWord word) (blanks rest : List Char)
    (hblanks : ∀ c ∈ blanks, isBlank c = true) (hends : ∀ c ∈ rest.head?, isBlank c = true) :
    FirstWord (blanks ++ (word ++ rest)) word rest where
  split := ⟨blanks, rfl, hblanks⟩
  solid := h.2
  ends := hends
  proper hnil := absurd hnil h.1

theorem firstWord_nil : FirstWord [] [] [] := firstWord_takeWord []

end EvmAccess
