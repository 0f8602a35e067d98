import EvmAccess.Access.Offset
import EvmAccess.Ordered.Set

/-!
# Access tokens

A token describes a location that an instruction reads or writes, as far as it is known: one of the
memory words with a fixed role, a cell of an allocation, or a storage key. Two tokens are compared
in two ways: `Token.mayAlias` asks whether they can mean a common location, and `Token.relation`
whether they certainly mean the same location, certainly different ones, or neither is certain.

## Main definitions

- `Slot`, `Cell`, `Region`, `Token`.
- `Token.mayAlias`, `Token.relation`, `Token.relationOfSets`.
-/

namespace EvmAccess

open Std

/-! ### Allocations -/

/-- An allocation of memory. -/
structure Slot where
  /-- Allocations are numbered in the order in which they are found. There is no largest number; a
  counter of 32 bits would run out after `2 ^ 32` allocations. -/
  number : Nat
  deriving DecidableEq, Repr

namespace Slot

instance : Ord Slot := ⟨compareOn number⟩

instance : TransOrd Slot := inferInstanceAs (TransCmp (compareOn number))

instance : LawfulEqOrd Slot where
  compare_self {s} := by
    change compare s.number s.number = .eq
    simp
  eq_of_compare {s t} h := by
    change compare s.number t.number = .eq at h
    obtain ⟨n⟩ := s
    obtain ⟨m⟩ := t
    obtain rfl : n = m := LawfulEqCmp.eq_of_compare h
    rfl

/-- The allocation as text. -/
def render (s : Slot) : String := s!"slot{s.number}"

instance : ToString Slot := ⟨render⟩

end Slot

/-- A position inside an allocation. -/
structure Cell where
  /-- The allocation. -/
  slot : Slot
  /-- The position, counted in bytes. -/
  offset : Offset
  deriving DecidableEq, Repr

namespace Cell

instance : Ord Cell := ⟨compareLex (compareOn slot) (compareOn offset)⟩

instance : TransOrd Cell :=
  inferInstanceAs (TransCmp (compareLex (compareOn slot) (compareOn offset)))

instance : LawfulEqOrd Cell where
  compare_self {a} := by
    change (compare a.slot a.slot).then (compare a.offset a.offset) = .eq
    simp
  eq_of_compare {a b} h := by
    change (compare a.slot b.slot).then (compare a.offset b.offset) = .eq at h
    rw [Ordering.then_eq_eq] at h
    obtain ⟨s, o⟩ := a
    obtain ⟨t, q⟩ := b
    obtain rfl : s = t := LawfulEqCmp.eq_of_compare h.1
    obtain rfl : o = q := LawfulEqCmp.eq_of_compare h.2
    rfl

/-- The cell as text. -/
def render (a : Cell) : String := s!"<{a.slot},{a.offset}>"

instance : ToString Cell := ⟨render⟩

/-- The whole of an allocation. -/
def whole (slot : Slot) : Cell := ⟨slot, .any⟩

/-- Whether every location that `a` may mean is one that `b` may mean. -/
def leq (a b : Cell) : Bool := a.slot = b.slot ∧ (b.offset = .any ∨ a.offset = b.offset)

/-- Shift an offset. Sums beyond the bound are not followed, and sums that are not word aligned
may be anything. -/
def shiftOffset (bound : Nat) : Offset → Offset → Offset
  | .any, _ => .any
  | _, .any => .any
  | .beyond, _ => .beyond
  | _, .beyond => .beyond
  | .exact a, .exact b =>
    if a + b > bound then .beyond
    else if (a + b) % 32 ≠ 0 then .any
    else .exact (a + b)

/-- Shift a cell inside its allocation. -/
def shift (a : Cell) (offset : Offset) (bound : Nat) : Cell :=
  ⟨a.slot, shiftOffset bound a.offset offset⟩

end Cell

/-! ### Tokens -/

/-- Memory words with a fixed role in compiled code. -/
inductive Region where
  /-- The scratch word at 0. -/
  | mem0
  /-- The word at 4. -/
  | mem4
  /-- The scratch word at 32. -/
  | mem32
  /-- The free memory pointer at 64. -/
  | mem40
  /-- Memory of which nothing is known. -/
  | unknown
  deriving DecidableEq, Repr

namespace Region

/-- The number by which regions are ordered. -/
def rank : Region → Nat
  | .mem0 => 0
  | .mem4 => 1
  | .mem32 => 2
  | .mem40 => 3
  | .unknown => 4

/-- The region as text. -/
def render : Region → String
  | .mem0 => "mem0"
  | .mem4 => "mem4"
  | .mem32 => "mem32"
  | .mem40 => "mem40"
  | .unknown => "unknown"

end Region

/-- A location that an instruction reads or writes. -/
inductive Token where
  /-- A memory word with a fixed role. -/
  | region (r : Region)
  /-- Memory of an allocation. -/
  | cell (c : Cell)
  /-- A storage key. -/
  | key (k : Offset)
  deriving DecidableEq, Repr

namespace Token

/-- The key by which tokens are ordered: regions, then cells, then storage keys. -/
def sortKey : Token → List Nat
  | .region r => [0, r.rank]
  | .cell c => 1 :: c.slot.number :: c.offset.key
  | .key k => 2 :: k.key

theorem sortKey_injective {a b : Token} (h : a.sortKey = b.sortKey) : a = b := by
  cases a with
  | region r =>
    cases b with
    | region s =>
      simp only [sortKey, List.cons.injEq, and_true, true_and] at h
      cases r <;> cases s <;> simp_all [Region.rank]
    | cell c => simp [sortKey] at h
    | key k => simp [sortKey] at h
  | cell c =>
    cases b with
    | region s => simp [sortKey] at h
    | cell d =>
      simp only [sortKey, List.cons.injEq, true_and] at h
      obtain ⟨⟨n⟩, o⟩ := c
      obtain ⟨⟨m⟩, q⟩ := d
      obtain rfl := h.1
      obtain rfl := Offset.key_injective h.2
      rfl
    | key k => simp [sortKey] at h
  | key k =>
    cases b with
    | region s => simp [sortKey] at h
    | cell d => simp [sortKey] at h
    | key l =>
      simp only [sortKey, List.cons.injEq, true_and] at h
      rw [Offset.key_injective h]

instance : Ord Token := ⟨compareOn sortKey⟩

instance : TransOrd Token := inferInstanceAs (TransCmp (compareOn sortKey))

instance : LawfulEqOrd Token where
  compare_self {a} := by
    change compare a.sortKey a.sortKey = .eq
    simp
  eq_of_compare {a b} h := by
    change compare a.sortKey b.sortKey = .eq at h
    exact sortKey_injective (LawfulEqCmp.eq_of_compare h)

/-- The token as text. -/
def render : Token → String
  | .region r => r.render
  | .cell c => c.render
  | .key k => s!"[{k}]"

instance : ToString Token := ⟨render⟩

/-- Whether the token means memory. -/
def isMemory : Token → Bool
  | .key _ => false
  | _ => true

/-- Whether the token means memory of which nothing is known. -/
def isUnknownMemory (t : Token) : Bool := t = .region .unknown

/-! ### Comparison -/

/-- Whether two tokens may mean a common location. Unknown memory may be any memory. -/
def mayAlias (a b : Token) : Bool :=
  if a.isUnknownMemory || b.isUnknownMemory then a.isMemory && b.isMemory
  else
    match a, b with
    | .region r, .region s => r = s
    | .cell c, .cell d =>
      c.slot = d.slot ∧ (c.offset = d.offset ∨ c.offset = .any ∨ d.offset = .any)
    | .key k, .key l => k = l ∨ k = .any ∨ l = .any
    | _, _ => false

end Token

/-- What is certain about two locations. -/
inductive Relation where
  /-- They are the same. -/
  | equal
  /-- They are different. -/
  | notEqual
  /-- Nothing. -/
  | unknown
  deriving DecidableEq, Repr

/-- The relation as text. -/
def Relation.render : Relation → String
  | .equal => "=="
  | .notEqual => "!="
  | .unknown => "UNK"

/-- What is certain about two offsets from one base. -/
def Offset.relation (a b : Offset) : Relation :=
  if a.isImprecise || b.isImprecise then .unknown
  else if a = b then .equal
  else .notEqual

namespace Token

/-- What is certain about the locations of two tokens. -/
def relation (a b : Token) : Relation :=
  if (a.isUnknownMemory || b.isUnknownMemory) && a.isMemory && b.isMemory then .unknown
  else
    match a, b with
    | .region r, .region s => if r = s then .equal else .notEqual
    | .cell c, .cell d => if c.slot = d.slot then c.offset.relation d.offset else .notEqual
    | .key k, .key l => k.relation l
    | _, _ => .notEqual

/-- What is certain about two sets of tokens, each standing for one location. Two single tokens are
compared; otherwise the locations are certainly different if all tokens are. -/
def relationOfSets (s t : OrdSet Token) : Relation :=
  match s.toList, t.toList with
  | [a], [b] => a.relation b
  | as, bs =>
    if as.any fun a => bs.any fun b => a.relation b ≠ .notEqual then .unknown else .notEqual

end Token

end EvmAccess
