import EvmAccess.Domain.CellSet
import EvmAccess.Domain.Offsets
import EvmAccess.Domain.Slots

/-!
# Memory addresses

This domain follows memory addresses, as cells of allocations, through the stack and through memory,
and tells which locations each instruction reads and writes. It uses what was found before: the
allocations that each read of the free memory pointer stands for, and the constants on the stack.

A stack position that is not listed is not known to be an address. An instruction that reads memory
through such an operand may read anything, unless the operand is known to be a plain number.

## Main definitions

- `Memory.Evidence`: the results of the earlier analyses.
- `MemoryState`, `Memory.next`, `Memory.accesses`, `Memory.domain`.
-/

namespace EvmAccess

/-- Which stack positions and which memory cells hold addresses. -/
structure MemoryState where
  /-- The height of the stack. -/
  height : Nat
  /-- The addresses on the stack, by position from the bottom. -/
  stack : OrdMap Nat CellSet
  /-- The addresses in memory. -/
  memory : AbstractMemory
  deriving DecidableEq

namespace MemoryState

/-- Nothing is on the stack, and no address is in memory. -/
def initial : MemoryState := ⟨0, ∅, ∅⟩

/-- The state as text. -/
def render (s : MemoryState) : String :=
  let cells (c : CellSet) : String := braced (c.toList.map toString)
  let stack := s.stack.toList.map fun e => s!"{e.1}: {cells e.2}"
  let memory := s.memory.toList.map fun e => s!"{e.1}: {cells e.2}"
  s!"stack^{s.height} = {braced stack} :: memory = {braced memory}"

/-- The addresses at a position, if the position exists and is tracked. -/
def tracked? (s : MemoryState) (position : Option Nat) : Option CellSet :=
  position.bind s.stack.get?

/-- The addresses `depth` items below the top, if they are tracked. -/
def fromTop? (s : MemoryState) (depth : Nat) : Option CellSet :=
  s.tracked? (stackItem? s.height depth)

/-- Whether the second state covers the first. -/
def leq (s t : MemoryState) : Bool :=
  (s.stack.all fun p c =>
    match t.stack.get? p with
    | none => false
    | some d => c.leq d) &&
  s.memory.leq t.memory

/-- What either state allows. The height is that of the first. -/
def join (s t : MemoryState) : MemoryState where
  height := s.height
  stack := s.stack.unionWith CellSet.join t.stack
  memory := s.memory.join t.memory

end MemoryState

namespace Memory

/-! ### What is known from the earlier analyses -/

/-- The results of the earlier analyses. -/
structure Evidence where
  /-- The open allocations. -/
  slots : Run BlockId SlotState
  /-- The constants on the stack. -/
  offsets : Run BlockId OffsetState

namespace Evidence

/-- The constants at a stack position before a point. -/
def constants? (ev : Evidence) (p : CodePoint) (position : Option Nat) : Option OffsetSet :=
  match ev.offsets.stateBefore p with
  | .error _ => none
  | .ok s => s.value? position

/-- Whether a stack position is known to hold a plain number before a point. -/
def isNumber (ev : Evidence) (p : CodePoint) (position : Option Nat) : Bool :=
  match ev.constants? p position with
  | none => false
  | some set => set.isExact

/-- The allocations that a read of the free memory pointer stands for. -/
def slotsAt? (ev : Evidence) (p : CodePoint) : Option (OrdSet Slot) :=
  match ev.slots.stateAt p 0 with
  | .error _ => none
  | .ok s => s.slots.get? p

/-- The start of each allocation that a read of the free memory pointer stands for. -/
def freshCells (ev : Evidence) (p : CodePoint) : CellSet :=
  ((ev.slotsAt? p).getD ∅).map fun slot => ⟨slot, .exact 0⟩

end Evidence

/-! ### The next state -/

/-- The entries of the stack that an opcode does not consume. Copies and exchanges consume
nothing. -/
def kept (o : Opcode) (s : MemoryState) : OrdMap Nat CellSet :=
  match o with
  | .dup _ | .swap _ => s.stack
  | o => s.stack.filter fun p _ => !(o.base s.height ≤ p && p < s.height)

/-- Put addresses at a position, unless there are none. -/
def put (m : OrdMap Nat CellSet) (position : Option Nat) (cells : CellSet) :
    OrdMap Nat CellSet :=
  match position with
  | some p => if cells.isEmpty then m else m.insert p cells
  | none => m

/-- The stack after an instruction; positions above the new height may still be listed. -/
def nextStack (ev : Evidence) (i : Instruction) (p : CodePoint) (s : MemoryState) :
    OrdMap Nat CellSet :=
  let kept := kept i.opcode s
  match i.opcode with
  | .mload =>
    if i.annotatedAddress? = some freeMemoryPointer then
      put kept (stackItem? s.height 0) (ev.freshCells p)
    else
      put kept (stackItem? s.height 0) (s.memory.load ((s.fromTop? 0).getD ∅))
  | .dup below =>
    match s.fromTop? below with
    | some cells => kept.insert s.height cells
    | none => kept
  | .swap below =>
    match stackItem? s.height 0, stackItem? s.height (below + 1) with
    | some top, some other =>
      (kept.assign top (s.stack.get? other)).assign other (s.stack.get? top)
    | _, _ => kept
  | .add =>
    match stackItem? s.height 1 with
    | none => kept
    | some result =>
      match s.fromTop? 0, s.fromTop? 1 with
      | _, some cells =>
        kept.insert result
          (cells.shift ((ev.constants? p (stackItem? s.height 0)).getD .top))
      | some cells, none =>
        kept.insert result
          (cells.shift ((ev.constants? p (stackItem? s.height 1)).getD .top))
      | none, none => kept
  | .sub =>
    match s.fromTop? 0, s.fromTop? 1, stackItem? s.height 1 with
    | some cells, none, some result => kept.insert result (cells.shift .top)
    | _, _, _ => kept
  | .mul | .div | .and | .or | .exp | .shl | .shr =>
    match stackItem? s.height 1 with
    | none => kept
    | some result =>
      let cells := (s.fromTop? 0).getD ∅ ∪ (s.fromTop? 1).getD ∅
      if cells.isEmpty then kept else kept.insert result (cells.shift .top)
  | _ => kept

/-- Whether the instruction stores through the address on top of the stack. Stores whose address is
written behind them as one of the words with a fixed role do not. -/
def storesThroughTop (i : Instruction) : Bool :=
  i.opcode = .mstore ∧ ¬ i.annotatedAddress? ∈ [some freeMemoryPointer, some 4, some 32, some 0]

/-- The addresses in memory after an instruction. -/
def nextMemory (i : Instruction) (s : MemoryState) : AbstractMemory :=
  if storesThroughTop i then
    match s.fromTop? 0, s.fromTop? 1 with
    | some addresses, some values => s.memory.store addresses values
    | _, _ => s.memory
  else s.memory

/-- The state after an instruction. -/
def next (ev : Evidence) (i : Instruction) (p : CodePoint) (s : MemoryState) : MemoryState :=
  let height := i.opcode.heightAfter s.height
  { height := height
    stack := (nextStack ev i p s).filter fun q _ => q < height
    memory := nextMemory i s }

/-! ### Accesses -/

/-- The cells at a position, or unknown memory. -/
def preciseTokens (s : MemoryState) (position : Option Nat) : List Token :=
  match s.tracked? position with
  | some cells => cells.toList.map .cell
  | none => [.region .unknown]

/-- The whole of each allocation at a position. -/
def wholeTokens (s : MemoryState) (position : Option Nat) : List Token :=
  ((s.tracked? position).getD ∅).toList.map fun c => .cell (.whole c.slot)

/-- What an instruction reads through an operand: the whole of each allocation, and unknown memory
if the operand is neither tracked nor known to be a number. -/
def operandTokens (ev : Evidence) (p : CodePoint) (s : MemoryState) (position : Option Nat) :
    List Token :=
  if (s.tracked? position).isSome then wholeTokens s position
  else if ev.isNumber p position then []
  else [.region .unknown]

/-- The locations that an instruction reads. -/
def readTokens (ev : Evidence) (i : Instruction) (p : CodePoint) (s : MemoryState) :
    List Token :=
  let operand (depth : Nat) : List Token := operandTokens ev p s (stackItem? s.height depth)
  match i.opcode with
  | .mload =>
    if i.annotatedAddress? = some freeMemoryPointer then [.region .mem40]
    else preciseTokens s (stackItem? s.height 0)
  | .ret | .revert | .log _ => operand 0
  | .keccak256 =>
    if (s.fromTop? 0).isSome then wholeTokens s (stackItem? s.height 0)
    else
      match ev.constants? p (stackItem? s.height 1) with
      | some length =>
        if Offset.exact 64 ∈ length then [.region .mem0, .region .mem32] else [.region .mem0]
      | none => [.region .mem0]
  | .call | .callcode => operand 3
  | .staticcall | .delegatecall => operand 2
  | .mcopy | .create | .create2 => operand 1
  | _ => []

/-- The locations that an instruction writes. -/
def writeTokens (i : Instruction) (s : MemoryState) : List Token :=
  let whole (depth : Nat) : List Token := wholeTokens s (stackItem? s.height depth)
  match i.opcode with
  | .mstore8 => if (s.fromTop? 0).isSome then whole 0 else [.region .unknown]
  | .mstore =>
    match i.annotatedAddress? with
    | some 64 => [.region .mem40]
    | some 4 => [.region .mem4]
    | some 32 => [.region .mem32]
    | some 0 => [.region .mem0]
    | _ => preciseTokens s (stackItem? s.height 0)
  | .call | .callcode => whole 5
  | .staticcall | .delegatecall => whole 4
  | .calldatacopy | .codecopy | .returndatacopy | .mcopy => whole 0
  | .extcodecopy => whole 1
  | _ => []

/-- Whether an instruction subtracts a number from an address, which may leave the allocation. -/
def strays (i : Instruction) (s : MemoryState) : Bool :=
  i.opcode = .sub && (s.fromTop? 0).isSome && (s.fromTop? 1).isNone &&
    (stackItem? s.height 1).isSome

/-- What an instruction accesses. -/
def accesses (ev : Evidence) (i : Instruction) (p : CodePoint) (s : MemoryState) : List Access :=
  (readTokens ev i p s).map .read ++ (writeTokens i s).map .write ++
    if strays i s then [.stray] else []

/-! ### The domain -/

/-- The domain of memory addresses. The context is the ledger of accesses. -/
def domain (ev : Evidence) : Domain BlockId Instruction MemoryState Ledger where
  leq := MemoryState.leq
  join := MemoryState.join
  step i p s l := (next ev i p s, l.noteAll p (accesses ev i p s))

/-! ### Messages -/

/-- The remark on constants that are looked up where there are none. -/
def offsetMessages (ev : Evidence) (p : CodePoint) : List Message :=
  match ev.offsets.stateBefore p with
  | .error fault => [⟨.warn, s!"{p}: no offset information: {fault.message}"⟩]
  | .ok _ => []

/-- The remark on allocations that are looked up where there are none. -/
def slotMessages (ev : Evidence) (p : CodePoint) : List Message :=
  match ev.slots.stateAt p 0 with
  | .error fault => [⟨.warn, s!"{p}: no slot information: {fault.message}"⟩]
  | .ok _ => []

/-- Remarks on a step: missing results of the earlier analyses, and subtraction from an address. -/
def stepMessages (ev : Evidence) (i : Instruction) (p : CodePoint) (s : MemoryState) :
    List Message :=
  let operand (depth : Nat) : List Message :=
    if (s.fromTop? depth).isSome then [] else offsetMessages ev p
  match i.opcode with
  | .mload =>
    if i.annotatedAddress? = some freeMemoryPointer then slotMessages ev p else []
  | .add =>
    match stackItem? s.height 1 with
    | none => []
    | some _ => offsetMessages ev p ++ offsetMessages ev p
  | .sub =>
    if strays i s then
      let cells := braced (((s.fromTop? 0).getD ∅).toList.map toString)
      [⟨.warn, s!"{p}: subtracting a number from slot {cells}, dead stores are not reported"⟩]
    else []
  | .ret | .revert | .log _ | .keccak256 => operand 0
  | .call | .callcode => operand 3
  | .staticcall | .delegatecall => operand 2
  | .mcopy | .create | .create2 => operand 1
  | _ => []

/-- What the domain remarks. -/
def commentary (ev : Evidence) : Commentary BlockId Instruction MemoryState Ledger where
  showOp := Instruction.render
  showState := MemoryState.render
  onLeq _ _ := []
  onJoin s t :=
    (if s.height = t.height then []
      else [⟨.warn, s!"Different stacks in memory lub: {s.render} vs {t.render}"⟩]) ++
      [⟨.debug, s!"Memory lub result: {(s.join t).render}"⟩]
  onStep i p s _ := stepMessages ev i p s

end Memory

end EvmAccess
