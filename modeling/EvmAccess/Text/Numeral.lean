/-!
# Unsigned numerals

Reading and writing unsigned numbers. A numeral is an optional `+` followed by one or more digits
of the base; leading zeros are allowed, signs other than one `+`, blanks and separators are not.
A reader has an upper limit and refuses numerals above it. Of several faults the leftmost one is
reported: characters are taken from left to right, and a digit that exceeds the limit is a fault
at that digit.

## Main results

- `Numeral.read_eq_ok_iff`: a text is read as `n` exactly when it is an optional `+` followed by
  a non-empty run of digits whose value is `n`, and `n` is within the limit.
-/

namespace EvmAccess

namespace Numeral

/-- Why a text is not a numeral. -/
inductive Fault where
  /-- There is no character at all. -/
  | empty
  /-- Something that is not a digit, or a sign without digits. -/
  | badDigit
  /-- The value is above the limit. -/
  | tooLarge
  deriving DecidableEq, Repr

/-- The wording of a fault. -/
def Fault.message : Fault → String
  | .empty => "cannot parse integer from empty string"
  | .badDigit => "invalid digit found in string"
  | .tooLarge => "number too large to fit in target type"

/-- The value of a digit of the given base; letters of both cases stand for ten and above. -/
def digit? (base : Nat) (c : Char) : Option Nat :=
  let value? : Option Nat :=
    if '0' ≤ c ∧ c ≤ '9' then some (c.toNat - '0'.toNat)
    else if 'a' ≤ c ∧ c ≤ 'z' then some (c.toNat - 'a'.toNat + 10)
    else if 'A' ≤ c ∧ c ≤ 'Z' then some (c.toNat - 'A'.toNat + 10)
    else none
  value?.filter (· < base)

/-- Read the remaining digits of a numeral whose first digits have the value `n`. -/
def readDigits (base limit : Nat) : Nat → List Char → Except Fault Nat
  | n, [] => .ok n
  | n, c :: rest =>
    match digit? base c with
    | none => .error .badDigit
    | some d =>
      if n * base + d ≤ limit then readDigits base limit (n * base + d) rest
      else .error .tooLarge

/-- Read a numeral of the given base that is at most `limit`. -/
def read (base limit : Nat) : List Char → Except Fault Nat
  | [] => .error .empty
  | ['+'] => .error .badDigit
  | '+' :: digits => readDigits base limit 0 digits
  | digits => readDigits base limit 0 digits

/-- Read a numeral, forgetting why it failed. -/
def read? (base limit : Nat) (text : String) : Option Nat :=
  (read base limit text.toList).toOption

/-- The largest number of 64 bits. -/
def max64 : Nat := 0xffffffffffffffff

/-- The largest number of 32 bits. -/
def max32 : Nat := 0xffffffff

/-- Read a decimal numeral of at most 64 bits. -/
def read64? (text : String) : Option Nat := read? 10 max64 text

/-- Read a decimal numeral of at most 32 bits. -/
def read32? (text : String) : Option Nat := read? 10 max32 text

/-- The value of a run of digits that continues a numeral of value `n`. -/
def value? (base : Nat) : Nat → List Char → Option Nat
  | n, [] => some n
  | n, c :: rest => (digit? base c).bind fun d => value? base (n * base + d) rest

/-- Continuing a numeral never lowers its value. -/
theorem le_of_value? {base n m : Nat} {cs : List Char} (hb : 0 < base)
    (h : value? base n cs = some m) : n ≤ m := by
  induction cs generalizing n with
  | nil => cases h; exact Nat.le_refl _
  | cons c rest ih =>
    obtain ⟨d, _, hd⟩ := Option.bind_eq_some_iff.1 h
    have hn : n ≤ n * base := Nat.le_mul_of_pos_right n hb
    have := ih hd
    omega

/-- Digits are read as their value when it is within the limit, and refused otherwise. -/
theorem readDigits_eq_ok_iff {base limit n m : Nat} {cs : List Char} (hb : 0 < base)
    (hn : n ≤ limit) :
    readDigits base limit n cs = .ok m ↔ value? base n cs = some m ∧ m ≤ limit := by
  induction cs generalizing n with
  | nil =>
    simp only [readDigits, value?, Except.ok.injEq, Option.some.injEq]
    constructor
    · rintro rfl; exact ⟨rfl, hn⟩
    · exact And.left
  | cons c rest ih =>
    rw [readDigits, value?]
    cases hd : digit? base c with
    | none => simp
    | some d =>
      simp only [Option.bind_some]
      split
      · rename_i hle
        exact ih hle
      · rename_i hgt
        simp only [reduceCtorEq, false_iff, not_and]
        intro h hm
        have := le_of_value? hb h
        omega

/-- Exactly the texts made of an optional `+` and a non-empty run of digits are read, each as the
value of its digits, provided that it is within the limit. -/
theorem read_eq_ok_iff {base limit n : Nat} {cs : List Char} (hb : 0 < base)
    (hplus : digit? base '+' = none) :
    read base limit cs = .ok n ↔
      ∃ digits, (cs = digits ∨ cs = '+' :: digits) ∧ digits ≠ [] ∧
        value? base 0 digits = some n ∧ n ≤ limit := by
  have key : ∀ {digits}, readDigits base limit 0 digits = .ok n ↔
      value? base 0 digits = some n ∧ n ≤ limit :=
    readDigits_eq_ok_iff hb (Nat.zero_le _)
  have nope : ∀ {rest}, ¬ value? base 0 ('+' :: rest) = some n := by simp [value?, hplus]
  unfold read
  split
  · simp
  · simp only [reduceCtorEq, false_iff]
    rintro ⟨digits, rfl | h, hne, hv, _⟩
    · exact nope hv
    · simp only [List.cons.injEq, true_and] at h
      exact hne h.symm
  · rename_i rest hrest
    rw [key]
    constructor
    · rintro ⟨hv, hn⟩
      exact ⟨rest, Or.inr rfl, fun h => hrest h, hv, hn⟩
    · rintro ⟨digits, rfl | h, _, hv, hn⟩
      · exact absurd hv nope
      · simp only [List.cons.injEq, true_and] at h
        subst h
        exact ⟨hv, hn⟩
  · rename_i hne hplus1 hplus2
    rw [key]
    constructor
    · rintro ⟨hv, hn⟩
      exact ⟨cs, Or.inl rfl, fun h => hne h, hv, hn⟩
    · rintro ⟨digits, rfl | h, _, hv, hn⟩
      · exact ⟨hv, hn⟩
      · exact absurd h (hplus2 digits)

end Numeral

end EvmAccess
