import EvmAccess.Text.Listing
import EvmAccess.Text.Numeral
import EvmAccess.Text.Quoted

/-!
# Program points

A program point names an operation: the block it stands in and its position there, counted from
zero. Points are ordered by block and then by position, and written `block:index`.
-/

namespace EvmAccess

open Std

/-- The position of an operation inside a block. -/
structure Point (ι : Type) where
  /-- The block. -/
  block : ι
  /-- The position in the block, counted from zero. -/
  index : Nat
  deriving DecidableEq, Repr

namespace Point

variable {ι ε : Type}

instance [Ord ι] : Ord (Point ι) :=
  ⟨compareLex (compareOn Point.block) (compareOn Point.index)⟩

instance [Ord ι] [TransOrd ι] : TransOrd (Point ι) :=
  inferInstanceAs (TransCmp (compareLex (compareOn Point.block) (compareOn Point.index)))

instance [Ord ι] [LawfulEqOrd ι] : LawfulEqOrd (Point ι) where
  compare_self {p} := by
    change (compare p.block p.block).then (compare p.index p.index) = .eq
    simp
  eq_of_compare {p q} h := by
    change (compare p.block q.block).then (compare p.index q.index) = .eq at h
    rw [Ordering.then_eq_eq] at h
    obtain ⟨b, i⟩ := p
    obtain ⟨c, j⟩ := q
    obtain rfl : b = c := LawfulEqCmp.eq_of_compare h.1
    obtain rfl : i = j := LawfulEqCmp.eq_of_compare h.2
    rfl

/-- The point, written `block:index`. -/
def render [ToString ι] (p : Point ι) : String := s!"{p.block}:{p.index}"

instance [ToString ι] : ToString (Point ι) := ⟨render⟩

/-- Why a text is not a program point, `ε` being the faults of block names. -/
inductive Fault (ε : Type) where
  /-- There is no colon. -/
  | missingSeparator (text : String)
  /-- The part before the colon does not name a block. -/
  | block (fault : ε)
  /-- The part after the colon is not a position. -/
  | index (text : String)
  deriving DecidableEq, Repr

/-- The wording of a fault. -/
def Fault.message (blockMessage : ε → String) : Fault ε → String
  | .missingSeparator text => s!"program point {quoted text} has no ':' separator"
  | .block fault => s!"invalid block id in program point: {blockMessage fault}"
  | .index text => s!"invalid operation index in program point {quoted text}"

/-- Read a point: the text is cut at its first colon, and the part before it is left to the reader
of block names. -/
def read (readBlock : String → Except ε ι) (text : String) : Except (Fault ε) (Point ι) :=
  match cut? ':' text.toList with
  | none => .error (.missingSeparator text)
  | some (block, index) =>
    match readBlock (String.ofList block) with
    | .error fault => .error (.block fault)
    | .ok b =>
      match Numeral.read64? (String.ofList index) with
      | none => .error (.index text)
      | some i => .ok ⟨b, i⟩

end Point

end EvmAccess
