import EvmAccess.Evm.Opcode
import EvmAccess.Proofs.Text.Numeral
import EvmAccess.Proofs.Text.Words
import Mathlib.Data.List.Basic

/-!
# Names of opcodes

An opcode without a number is known by its mnemonic, three of them by an older name as well. An
opcode with a number is known by the stem of its family and a decimal numeral, which may have a plus
and leading zeros. The reader tries the older names, the table of mnemonics and the four families
one after the other. No name belongs to two of these, so the order does not matter.

## Main definitions

- `Opcode.Named`: the names of an opcode.

## Main results

- `Opcode.ofName?_eq_some_iff`: an opcode is read from its names, and from nothing else.
- `Opcode.named_render`: what is written for an opcode is a name of it.
- `Opcode.Named.isWord`: a name is a single word.
-/

namespace EvmAccess

open Numeral (Decimal)

namespace Opcode

/-- The names of an opcode. The numbers of the families are 0 to 32, 1 to 16, 1 to 16 and 0 to 4. -/
inductive Named : String → Opcode → Prop
  | fixed {o : Opcode} : o ∈ fixed → Named o.mnemonic o
  | sha3 : Named "SHA3" .keccak256
  | difficulty : Named "DIFFICULTY" .prevrandao
  | assertfail : Named "ASSERTFAIL" .invalid
  | push {digits : String} {width : Fin 33} :
      Decimal digits width.val → Named ("PUSH" ++ digits) (.push width)
  | dup {digits : String} {below : Fin 16} :
      Decimal digits (below.val + 1) → Named ("DUP" ++ digits) (.dup below)
  | swap {digits : String} {below : Fin 16} :
      Decimal digits (below.val + 1) → Named ("SWAP" ++ digits) (.swap below)
  | log {digits : String} {topics : Fin 5} :
      Decimal digits topics.val → Named ("LOG" ++ digits) (.log topics)

variable {stem name digits : String} {o : Opcode} {n : Nat}

/-! ### The tables of names -/

/-- The names without a number. -/
def plainNames : List String := fixed.map mnemonic ++ aliases.map Prod.fst

/-- The stems of the names with a number. -/
def stems : List String := ["PUSH", "DUP", "SWAP", "LOG"]

theorem isWord_plainName :
    ∀ name ∈ plainNames, IsWord name.toList ∧ ∀ stem ∈ stems, ¬ stem.toList <+: name.toList := by
  decide +kernel

theorem isWord_stem : ∀ stem ∈ stems, IsWord stem.toList := by
  decide +kernel

/-- Every mnemonic is found, at its own opcode. -/
theorem ofName?_mnemonic : ∀ o ∈ fixed, ofName? o.mnemonic = some o := by
  decide +kernel

/-! ### Numbered names -/

/-- The number behind a stem is read from its texts, up to the limit of a byte. -/
theorem number?_eq_some_iff :
    number? stem name = some n ↔ ∃ digits, name = stem ++ digits ∧ Decimal digits n ∧ n ≤ 255 := by
  simp only [number?, Option.bind_eq_some_iff, List.isPrefixOf?_eq_some_iff_append_eq,
    Numeral.toOption_eq_some_iff, Numeral.read_ten_eq_ok_iff]
  constructor
  · rintro ⟨cs, hname, hn⟩
    refine ⟨String.ofList cs, ?_, hn⟩
    rw [← String.toList_inj, ← hname, String.toList_append, String.toList_ofList]
  · rintro ⟨digits, rfl, hn⟩
    exact ⟨digits.toList, String.toList_append.symm, by rwa [String.ofList_toList]⟩

theorem number?_stem (hdigits : Decimal digits n) (hn : n ≤ 255) :
    number? stem (stem ++ digits) = some n :=
  number?_eq_some_iff.2 ⟨digits, rfl, hdigits, hn⟩

/-- No number is found behind the stem of another family. -/
theorem number?_of_ne (stem other : String)
    (h : stem ∈ stems ∧ other ∈ stems ∧ stem ≠ other) :
    number? stem (other ++ digits) = none := by
  obtain ⟨hstem, hother, hne⟩ := h
  refine Option.eq_none_iff_forall_ne_some.2 fun n hn => ?_
  obtain ⟨digits', heq, -⟩ := number?_eq_some_iff.1 hn
  -- The stems differ in their first letters already.
  have hhead : (other ++ digits).toList.head? = (stem ++ digits').toList.head? := by rw [heq]
  simp only [stems, List.mem_cons, List.not_mem_nil, or_false] at hstem hother
  rcases hstem with rfl | rfl | rfl | rfl <;> rcases hother with rfl | rfl | rfl | rfl <;>
    simp at hne hhead

/-- A numbered name is neither a mnemonic nor an older name. -/
theorem ofName?_of_stem (hstem : stem ∈ stems) :
    ofName? (stem ++ digits) = ofNumberedName? (stem ++ digits) := by
  have hne : ∀ name ∈ plainNames, name ≠ stem ++ digits := fun name hname heq =>
    (isWord_plainName name hname).2 stem hstem ⟨digits.toList, by rw [heq, String.toList_append]⟩
  have halias : aliases.lookup (stem ++ digits) = none := by
    refine List.lookup_eq_none_iff.2 fun entry hentry => ?_
    have := hne entry.1 (List.mem_append_right _ (List.mem_map_of_mem hentry))
    simpa using this.symm
  have hfixed : fixed.find? (·.mnemonic = stem ++ digits) = none := by
    refine List.find?_eq_none.2 fun o ho => ?_
    have := hne o.mnemonic (List.mem_append_left _ (List.mem_map_of_mem ho))
    simpa using this
  rw [ofName?, halias, hfixed]
  rfl

/-! ### Reading and writing names -/

theorem ofName?_of_named (h : Named name o) : ofName? name = some o := by
  cases h with
  | fixed ho => exact ofName?_mnemonic o ho
  | sha3 => decide +kernel
  | difficulty => decide +kernel
  | assertfail => decide +kernel
  | push hdigits =>
    rw [ofName?_of_stem (by decide), ofNumberedName?, number?_stem hdigits (by omega)]
    simp
  | dup hdigits =>
    rw [ofName?_of_stem (by decide), ofNumberedName?, number?_stem hdigits (by omega)]
    simp [number?_of_ne "PUSH" "DUP" (by decide)]
  | swap hdigits =>
    rw [ofName?_of_stem (by decide), ofNumberedName?, number?_stem hdigits (by omega)]
    simp [number?_of_ne "PUSH" "SWAP" (by decide), number?_of_ne "DUP" "SWAP" (by decide)]
  | log hdigits =>
    rw [ofName?_of_stem (by decide), ofNumberedName?, number?_stem hdigits (by omega)]
    simp [number?_of_ne "PUSH" "LOG" (by decide), number?_of_ne "DUP" "LOG" (by decide),
      number?_of_ne "SWAP" "LOG" (by decide)]

theorem named_of_ofNumberedName? (h : ofNumberedName? name = some o) : Named name o := by
  simp only [ofNumberedName?, Option.orElse_eq_orElse, Option.orElse_eq_or, Option.or_eq_some_iff,
    Option.bind_eq_some_iff, number?_eq_some_iff] at h
  obtain ⟨n, ⟨digits, rfl, hdigits, -⟩, hn⟩ | ⟨-, ⟨n, ⟨digits, rfl, hdigits, -⟩, hn⟩ |
    ⟨-, ⟨n, ⟨digits, rfl, hdigits, -⟩, hn⟩ | ⟨-, n, ⟨digits, rfl, hdigits, -⟩, hn⟩⟩⟩ := h
  · obtain ⟨hlt, ⟨⟩⟩ := Option.dite_none_right_eq_some.1 hn
    exact .push hdigits
  · obtain ⟨hrange, ⟨⟩⟩ := Option.dite_none_right_eq_some.1 hn
    exact .dup (by rwa [Nat.sub_add_cancel hrange.1])
  · obtain ⟨hrange, ⟨⟩⟩ := Option.dite_none_right_eq_some.1 hn
    exact .swap (by rwa [Nat.sub_add_cancel hrange.1])
  · obtain ⟨hlt, ⟨⟩⟩ := Option.dite_none_right_eq_some.1 hn
    exact .log hdigits

theorem named_of_ofName? (h : ofName? name = some o) : Named name o := by
  simp only [ofName?, Option.orElse_eq_orElse, Option.orElse_eq_or, Option.or_eq_some_iff] at h
  obtain halias | ⟨-, hfixed | ⟨-, hnumbered⟩⟩ := h
  · obtain ⟨before, after, haliases, -⟩ := List.lookup_eq_some_iff.1 halias
    have hmem : (name, o) ∈ aliases := by simp [haliases]
    simp only [aliases, List.mem_cons, Prod.mk.injEq, List.not_mem_nil, or_false] at hmem
    obtain ⟨rfl, rfl⟩ | ⟨rfl, rfl⟩ | ⟨rfl, rfl⟩ := hmem
    · exact .sha3
    · exact .difficulty
    · exact .assertfail
  · have hname : o.mnemonic = name := by simpa using List.find?_some hfixed
    exact hname ▸ .fixed (List.mem_of_find?_eq_some hfixed)
  · exact named_of_ofNumberedName? hnumbered

/-- An opcode is read from its names, and from nothing else. -/
theorem ofName?_eq_some_iff : ofName? name = some o ↔ Named name o :=
  ⟨named_of_ofName?, ofName?_of_named⟩

/-- An opcode without a number is written as its mnemonic. -/
theorem render_of_mem_fixed (h : o ∈ fixed) : o.render = o.mnemonic := by
  cases o with
  | push width | dup below | swap below | log topics => simp [fixed] at h
  | _ => rfl

/-- What is written for an opcode is a name of it. -/
theorem named_render (o : Opcode) : Named o.render o := by
  rcases o.mem_fixed_or with h | ⟨width, rfl⟩ | ⟨below, rfl⟩ | ⟨below, rfl⟩ | ⟨topics, rfl⟩
  · rw [render_of_mem_fixed h]
    exact .fixed h
  · exact .push (Numeral.decimal_toString _)
  · exact .dup (Numeral.decimal_toString _)
  · exact .swap (Numeral.decimal_toString _)
  · exact .log (Numeral.decimal_toString _)

theorem isWord_numbered (hstem : stem ∈ stems) (hdigits : Decimal digits n) :
    IsWord (stem ++ digits).toList := by
  rw [String.toList_append]
  refine (isWord_stem stem hstem).append fun c hc => ?_
  rcases hdigits.of_mem hc with rfl | hdigit
  · decide
  · have hrange := Char.isDigit_iff_toNat.1 hdigit
    simp only [Char.reduceToNat] at hrange
    exact isBlank_eq_false (by omega) (by omega)

/-- A name is a single word. -/
theorem Named.isWord (h : Named name o) : IsWord name.toList := by
  cases h with
  | fixed ho => exact (isWord_plainName _ (List.mem_append_left _ (List.mem_map_of_mem ho))).1
  | sha3 | difficulty | assertfail =>
    exact (isWord_plainName _ (List.mem_append_right _ (by decide))).1
  | push hdigits | dup hdigits | swap hdigits | log hdigits =>
    exact isWord_numbered (by decide) hdigits

end Opcode

end EvmAccess
