/-!
# Offsets

An offset is a position relative to some base, as far as it is known: an exact number, a number
beyond the bound up to which numbers are followed, or any number at all. Offsets are ordered with
the exact ones first, by value.

## Main definitions

- `Offset.plus`: the sum of two offsets under a bound.
-/

namespace EvmAccess

open Std

/-- A position relative to some base. -/
inductive Offset where
  /-- Exactly this number. -/
  | exact (value : Nat)
  /-- Some number above the bound. -/
  | beyond
  /-- Any number. -/
  | any
  deriving DecidableEq, Repr

namespace Offset

/-- The key by which offsets are ordered. -/
def key : Offset → List Nat
  | .exact value => [0, value]
  | .beyond => [1]
  | .any => [2]

theorem key_injective {a b : Offset} (h : a.key = b.key) : a = b := by
  cases a <;> cases b <;> simp_all [key]

instance : Ord Offset := ⟨compareOn key⟩

instance : TransOrd Offset := inferInstanceAs (TransCmp (compareOn key))

instance : LawfulEqOrd Offset where
  compare_self {a} := by
    change compare a.key a.key = .eq
    simp
  eq_of_compare {a b} h := by
    change compare a.key b.key = .eq at h
    exact key_injective (LawfulEqCmp.eq_of_compare h)

/-- The offset as text. -/
def render : Offset → String
  | .exact value => s!"{value}"
  | .beyond => "+"
  | .any => "*"

instance : ToString Offset := ⟨render⟩

/-- Whether the offset is not an exact number. -/
def isImprecise : Offset → Bool
  | .exact _ => false
  | _ => true

/-- The sum of two offsets. Sums above the bound, and sums with a number above the bound, are
beyond it. -/
def plus (bound : Nat) : Offset → Offset → Offset
  | .any, _ => .any
  | _, .any => .any
  | .beyond, _ => .beyond
  | _, .beyond => .beyond
  | .exact a, .exact b => if a + b ≤ bound then .exact (a + b) else .beyond

end Offset

end EvmAccess
