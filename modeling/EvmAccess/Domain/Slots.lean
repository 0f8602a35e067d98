import EvmAccess.Access.Ledger
import EvmAccess.Flow.Journal

/-!
# Open allocations

Compiled code allocates memory through the free memory pointer, the word at 64. Reading the pointer
opens an allocation; writing it, or leaving the call, closes every open one. Reading the pointer
again before it is written refers to the allocations that are open already.

The state tells which allocations are open, which points opened what each closing point closes, and
which allocations each opening point stands for. Allocations are numbered by their opening point, so
that executing a point again gives the same number.

## Main definitions

- `Allocations.fresh`: the allocation opened at a point.
- `SlotState`, `Slots.domain`.
-/

namespace EvmAccess

/-- The memory word that holds the free memory pointer. -/
def freeMemoryPointer : Nat := 64

/-! ### Numbering allocations -/

/-- The allocation opened at each point. -/
structure Allocations where
  /-- The points met so far. -/
  byPoint : OrdMap CodePoint Slot
  deriving DecidableEq

namespace Allocations

/-- No allocation. -/
def empty : Allocations := ⟨∅⟩

/-- The allocation opened at a point: the one that was given to it before, or the next number. -/
def fresh (a : Allocations) (p : CodePoint) : Slot × Allocations :=
  match a.byPoint.get? p with
  | some slot => (slot, a)
  | none =>
    let slot : Slot := ⟨a.byPoint.size⟩
    (slot, ⟨a.byPoint.insert p slot⟩)

end Allocations

/-! ### States -/

/-- Which allocations are open. -/
structure SlotState where
  /-- The points that opened what is open now. -/
  opened : OrdSet CodePoint
  /-- For each closing point, the points that opened what it closed. -/
  closings : OrdMap CodePoint (OrdSet CodePoint)
  /-- For each opening point, the allocations it stands for. -/
  slots : OrdMap CodePoint (OrdSet Slot)
  deriving DecidableEq

namespace SlotState

/-- Nothing is open. -/
def initial : SlotState := ⟨∅, ∅, ∅⟩

/-- The state as text. -/
def render (s : SlotState) : String :=
  let points (ps : OrdSet CodePoint) : String := braced (ps.toList.map toString)
  let closings := s.closings.toList.map fun e => s!"{e.1}: {points e.2}"
  let slots := s.slots.toList.map fun e => s!"{e.1}: {braced (e.2.toList.map toString)}"
  s!"opened {points s.opened} :: closing_pairs {braced closings} :: pc_slot {braced slots}"

/-- Whether every entry of the first table is included in the second. -/
def tableLeq {α : Type} [Ord α] [DecidableEq α] (m n : OrdMap CodePoint (OrdSet α)) : Bool :=
  m.all fun p s =>
    match n.get? p with
    | none => false
    | some t => s.isSubset t

/-- Whether the second state covers the first. -/
def leq (s t : SlotState) : Bool :=
  s.opened.isSubset t.opened && tableLeq s.slots t.slots && tableLeq s.closings t.closings

/-- What may be open in either state. -/
def join (s t : SlotState) : SlotState where
  opened := s.opened ∪ t.opened
  closings := s.closings.unionWith (· ∪ ·) t.closings
  slots := s.slots.unionWith (· ∪ ·) t.slots

/-- The allocations that are open. -/
def openSlots (s : SlotState) : OrdSet Slot :=
  OrdSet.ofList (s.opened.toList.flatMap fun p => ((s.slots.get? p).getD ∅).toList)

/-- Open the given allocations at a point. -/
def openAt (s : SlotState) (p : CodePoint) (slots : OrdSet Slot) : SlotState :=
  { s with opened := s.opened.insert p, slots := s.slots.insert p slots }

/-- Close everything at a point. -/
def closeAt (s : SlotState) (p : CodePoint) : SlotState :=
  { s with opened := ∅, closings := s.closings.insert p s.opened }

end SlotState

/-! ### The domain -/

namespace Instruction

/-- Whether the instruction reads the free memory pointer. -/
def opensAllocation (i : Instruction) : Bool :=
  i.opcode = .mload ∧ i.annotatedAddress? = some freeMemoryPointer

/-- Whether the instruction writes the free memory pointer or leaves the call. -/
def closesAllocations (i : Instruction) : Bool :=
  match i.opcode with
  | .mstore => i.annotatedAddress? = some freeMemoryPointer
  | .ret | .revert | .stop | .selfdestruct => true
  | _ => false

end Instruction

namespace Slots

/-- What the domain keeps through a run: the numbering, and the ledger of accesses. -/
structure Context where
  /-- The numbering of allocations. -/
  allocations : Allocations
  /-- The ledger of accesses. -/
  ledger : Ledger
  deriving DecidableEq

/-- Execute one instruction. -/
def step (i : Instruction) (p : CodePoint) (s : SlotState) (c : Context) : SlotState × Context :=
  if i.opensAllocation then
    let (slots, allocations) :=
      if s.opened.isEmpty then
        let (slot, allocations) := c.allocations.fresh p
        (OrdSet.singleton slot, allocations)
      else (s.openSlots, c.allocations)
    (s.openAt p slots, ⟨allocations, c.ledger.noteAll p (slots.toList.map .opens)⟩)
  else if i.closesAllocations then
    (s.closeAt p, { c with ledger := c.ledger.noteAll p (s.openSlots.toList.map .closes) })
  else (s, c)

/-- The domain of open allocations. -/
def domain : Domain BlockId Instruction SlotState Context where
  leq := SlotState.leq
  join := SlotState.join
  step := step

/-- What the domain remarks: closing several allocations at once is unusual, except when the call
returns. -/
def commentary : Commentary BlockId Instruction SlotState Context where
  showOp := Instruction.render
  showState := SlotState.render
  onLeq _ _ := []
  onJoin _ _ := []
  onStep i p s _ :=
    if i.closesAllocations && 1 < s.opened.size && i.opcode ≠ .ret then
      [⟨.warn, s!"More than one slot closed at {p}: {braced (s.opened.toList.map toString)}"⟩]
    else []

end Slots

end EvmAccess
