import EvmAccess.Access.Offset
import EvmAccess.Ordered.Set
import EvmAccess.Text.Listing

/-!
# Sets of offsets

The offsets that a value may be. Such a set is never empty, and if it has the member `any` then it
has no other. `OffsetSet.normal` brings any set into this form; joins and sums are the union and
the set of pairwise sums in this form.

## Main results

- `OffsetSet.mem_normal`: the members of a set in normal form.
-/

namespace EvmAccess

/-- The offsets that a value may be. -/
structure OffsetSet where
  /-- The members. -/
  items : OrdSet Offset
  /-- There is a member. -/
  nonempty : items.isEmpty = false
  /-- The member `any` stands alone. -/
  absorbing : .any ∈ items → items = OrdSet.singleton .any

namespace OffsetSet

theorem ext {s t : OffsetSet} (h : s.items = t.items) : s = t := by
  cases s; cases t; cases h; rfl

instance : DecidableEq OffsetSet := fun s t =>
  if h : s.items = t.items then isTrue (ext h) else isFalse fun e => h (e ▸ rfl)

/-- The set with one member. -/
def singleton (o : Offset) : OffsetSet where
  items := OrdSet.singleton o
  nonempty := rfl
  absorbing h := by rw [OrdSet.mem_singleton.1 h]

/-- Nothing is known. -/
def top : OffsetSet := singleton .any

instance : Inhabited OffsetSet := ⟨top⟩

/-- The normal form of a set: nothing is known if it is empty or has the member `any`. -/
def normal (s : OrdSet Offset) : OffsetSet :=
  if h : s.isEmpty = true ∨ .any ∈ s then top
  else ⟨s, by simpa using fun e => h (Or.inl e), fun e => absurd (Or.inr e) h⟩

/-- The offsets of a list. -/
def ofList (l : List Offset) : OffsetSet := normal (OrdSet.ofList l)

/-- The members, in order. -/
def toList (s : OffsetSet) : List Offset := s.items.toList

instance : Membership Offset OffsetSet where
  mem s o := o ∈ s.items

instance (o : Offset) (s : OffsetSet) : Decidable (o ∈ s) :=
  inferInstanceAs (Decidable (o ∈ s.items))

/-- Whether nothing is known. -/
def isTop (s : OffsetSet) : Bool := Offset.any ∈ s

/-- The set as text. -/
def render (s : OffsetSet) : String := braced (s.toList.map toString)

/-- The number, if only one is possible. -/
def constant? (s : OffsetSet) : Option Nat :=
  match s.toList with
  | [.exact value] => some value
  | _ => none

/-- Whether only exact numbers are possible. -/
def isExact (s : OffsetSet) : Bool := s.items.all (!·.isImprecise)

/-- Whether the second set covers the first. -/
def leq (s t : OffsetSet) : Bool := t.isTop || s.items.isSubset t.items

/-- What either set allows. -/
def join (s t : OffsetSet) : OffsetSet := normal (s.items ∪ t.items)

/-- The sums of a member of each set, under a bound. -/
def plus (bound : Nat) (s t : OffsetSet) : OffsetSet :=
  ofList (s.toList.flatMap fun a => t.toList.map fun b => a.plus bound b)

/-- The members of a set in normal form. -/
theorem mem_normal {s : OrdSet Offset} {o : Offset} :
    o ∈ normal s ↔
      if s.isEmpty = true ∨ .any ∈ s then o = .any else o ∈ s := by
  unfold normal
  split
  · exact OrdSet.mem_singleton
  · exact Iff.rfl

end OffsetSet

end EvmAccess
