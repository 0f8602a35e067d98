import EvmAccess.Text.Listing
import EvmAccess.Text.Numeral

/-!
# Block names

A block is named by the address of its first instruction. A block that was duplicated to keep
incoming stacks apart carries the number of the copy as well. Names are ordered by address, the
block without a copy number first, and written `address` or `address_copy`.
-/

namespace EvmAccess

open Std

/-- The name of a basic block. -/
structure BlockId where
  /-- The address of the first instruction. -/
  address : UInt64
  /-- The number of the copy, if the block is one. -/
  copy : Option UInt32
  deriving DecidableEq, Repr

namespace BlockId

instance : Ord BlockId := ⟨compareLex (compareOn address) (compareOn copy)⟩

instance : TransOrd BlockId :=
  inferInstanceAs (TransCmp (compareLex (compareOn address) (compareOn copy)))

instance : LawfulEqOrd BlockId where
  compare_self {b} := by
    change (compare b.address b.address).then (compare b.copy b.copy) = .eq
    simp
  eq_of_compare {b c} h := by
    change (compare b.address c.address).then (compare b.copy c.copy) = .eq at h
    rw [Ordering.then_eq_eq] at h
    obtain ⟨a, m⟩ := b
    obtain ⟨a', m'⟩ := c
    obtain rfl : a = a' := LawfulEqCmp.eq_of_compare h.1
    obtain rfl : m = m' := LawfulEqCmp.eq_of_compare h.2
    rfl

/-- The name as text. -/
def render (b : BlockId) : String :=
  match b.copy with
  | none => s!"{b.address.toNat}"
  | some copy => s!"{b.address.toNat}_{copy.toNat}"

instance : ToString BlockId := ⟨render⟩

/-- Read a name: the text is cut at its first underscore, if it has one. -/
def read? (text : String) : Option BlockId :=
  match cut? '_' text.toList with
  | none => (Numeral.read64? text).map fun a => ⟨.ofNat a, none⟩
  | some (address, copy) =>
    match Numeral.read64? (String.ofList address), Numeral.read32? (String.ofList copy) with
    | some a, some c => some ⟨.ofNat a, some (.ofNat c)⟩
    | _, _ => none

end BlockId

end EvmAccess
