import EvmAccess.Text.Numeral

/-!
# Decimal numerals

The numerals of base ten, said by their digits alone: an optional `+` and one or more digits, whose
value is that of the digits. A reader accepts exactly these, as far as its limit allows, and what is
written for a number is one of them.

## Main definitions

- `Numeral.Decimal`: the texts of a number.

## Main results

- `Numeral.read_ten_eq_ok_iff`, `Numeral.read?_ten_eq_some_iff`: a reader with a limit reads the
  texts of the numbers up to it.
- `Numeral.read64?_eq_some_iff`, `Numeral.read32?_eq_some_iff`: the readers of machine words.
- `Numeral.decimal_toString`: what is written for a number is a text of it.
-/

namespace EvmAccess

namespace Numeral

variable {limit n m : Nat} {cs : List Char} {text : String}

/-- A text of a number: an optional `+` and one or more digits. -/
def Decimal (text : String) (n : Nat) : Prop :=
  ∃ digits, (text.toList = digits ∨ text.toList = '+' :: digits) ∧ digits ≠ [] ∧
    (∀ c ∈ digits, c.isDigit = true) ∧ Nat.ofDigitChars 10 digits 0 = n

/-- The digits of base ten, and their values. -/
theorem digit?_ten (c : Char) :
    digit? 10 c = if c.isDigit then some (c.toNat - '0'.toNat) else none := by
  have hle : ∀ {a b : Char}, a ≤ b ↔ a.toNat ≤ b.toNat := UInt32.le_iff_toNat_le
  simp only [digit?, hle, Char.isDigit_iff_toNat, Char.reduceToNat]
  by_cases hc : 48 ≤ c.toNat ∧ c.toNat ≤ 57
  · have hlt : c.toNat - 48 < 10 := by omega
    simp [hc, hlt]
  · -- Letters stand for ten and above.
    have hten : ∀ k, (some (k + 10)).filter (fun d => decide (d < 10)) = none := by simp
    rw [if_neg hc, if_neg hc]
    split
    · exact hten _
    · split
      · exact hten _
      · rfl

/-- The value of a run of digits that continues a numeral. -/
theorem value?_ten_eq_some_iff : value? 10 n cs = some m ↔
    (∀ c ∈ cs, c.isDigit = true) ∧ Nat.ofDigitChars 10 cs n = m := by
  induction cs generalizing n with
  | nil => simp [value?]
  | cons c rest ih =>
    rw [value?, digit?_ten]
    by_cases hc : c.isDigit = true
    · simp [hc, ih, Nat.ofDigitChars_cons, Nat.mul_comm]
    · simp [hc]

theorem toOption_eq_some_iff {r : Except Fault Nat} : r.toOption = some n ↔ r = .ok n := by
  cases r with
  | error fault => simp [Except.toOption]
  | ok value => simp [Except.toOption]

theorem read_ten_eq_ok_iff :
    read 10 limit cs = .ok n ↔ Decimal (String.ofList cs) n ∧ n ≤ limit := by
  rw [read_eq_ok_iff (by decide) (by decide)]
  simp only [Decimal, value?_ten_eq_some_iff, String.toList_ofList]
  constructor
  · rintro ⟨digits, hcs, hne, ⟨hdigits, hvalue⟩, hlimit⟩
    exact ⟨⟨digits, hcs, hne, hdigits, hvalue⟩, hlimit⟩
  · rintro ⟨⟨digits, hcs, hne, hdigits, hvalue⟩, hlimit⟩
    exact ⟨digits, hcs, hne, ⟨hdigits, hvalue⟩, hlimit⟩

/-- A reader with a limit reads the texts of the numbers up to it. -/
theorem read?_ten_eq_some_iff : read? 10 limit text = some n ↔ Decimal text n ∧ n ≤ limit := by
  rw [read?, toOption_eq_some_iff, read_ten_eq_ok_iff, String.ofList_toList]

/-- A reader whose limit is the largest word reads the texts of the words. -/
theorem read?_eq_some_iff_of_words {ω : Type} {toNat : ω → Nat}
    (hwords : ∀ n, n ≤ limit ↔ ∃ w, n = toNat w) :
    read? 10 limit text = some n ↔ ∃ w, n = toNat w ∧ Decimal text (toNat w) := by
  rw [read?_ten_eq_some_iff, hwords]
  constructor
  · rintro ⟨htext, w, rfl⟩
    exact ⟨w, rfl, htext⟩
  · rintro ⟨w, rfl, htext⟩
    exact ⟨htext, w, rfl⟩

theorem read64?_eq_some_iff :
    read64? text = some n ↔ ∃ w : UInt64, n = w.toNat ∧ Decimal text w.toNat := by
  refine read?_eq_some_iff_of_words fun n => ⟨fun h => ?_, ?_⟩
  · exact ⟨UInt64.ofNat n, (UInt64.toNat_ofNat_of_lt (Nat.lt_succ_of_le h)).symm⟩
  · rintro ⟨w, rfl⟩
    exact Nat.le_of_lt_succ w.toNat_lt_size

theorem read32?_eq_some_iff :
    read32? text = some n ↔ ∃ w : UInt32, n = w.toNat ∧ Decimal text w.toNat := by
  refine read?_eq_some_iff_of_words fun n => ⟨fun h => ?_, ?_⟩
  · exact ⟨UInt32.ofNat n, (UInt32.toNat_ofNat_of_lt (Nat.lt_succ_of_le h)).symm⟩
  · rintro ⟨w, rfl⟩
    exact Nat.le_of_lt_succ w.toNat_lt_size

/-- What is written for a number is a text of it. -/
theorem decimal_toString (n : Nat) : Decimal (toString n) n :=
  ⟨Nat.toDigits 10 n, Or.inl (by simp), Nat.toDigits_ne_nil,
    fun _ hc => Nat.isDigit_of_mem_toDigits (by decide) (by decide) hc,
    Nat.ofDigitChars_ten_toDigits⟩

/-- A text of a number has digits in it, and at most a plus besides. -/
theorem Decimal.of_mem {c : Char} (h : Decimal text n) (hc : c ∈ text.toList) :
    c = '+' ∨ c.isDigit = true := by
  obtain ⟨digits, htext | htext, -, hdigits, -⟩ := h
  · exact Or.inr (hdigits c (htext ▸ hc))
  · rw [htext, List.mem_cons] at hc
    exact hc.imp_right (hdigits c)

theorem Decimal.not_mem (h : Decimal text n) (c : Char) (hplus : c ≠ '+')
    (hdigit : c.isDigit = false) : ¬ c ∈ text.toList := by
  intro hmem
  rcases h.of_mem hmem with heq | hc
  · exact hplus heq
  · rw [hdigit] at hc
    cases hc

end Numeral

end EvmAccess
