import EvmAccess.Access.Ledger
import EvmAccess.Domain.OffsetSet
import EvmAccess.Evm.Stack
import EvmAccess.Flow.Journal

/-!
# Constants on the stack

This domain follows small constants: from the push that makes them through copies, exchanges and
additions, and through the memory words at 0, 32 and 64. Of a stack position that is not listed
nothing was ever learnt; of a memory word that is not listed nothing is known.

It comes in two flavours. For memory, only multiples of 32 are followed, and not far. For storage,
all small numbers are, and the keys of storage accesses are entered in a ledger if there is one.

## Main definitions

- `OffsetState`, `Offsets.domain`.
-/

namespace EvmAccess

/-- What the constants are followed for. -/
inductive Target where
  /-- Memory addresses. -/
  | memory
  /-- Storage keys. -/
  | storage
  deriving DecidableEq, Repr

namespace Target

/-- The largest number that is followed. -/
def bound : Target → Nat
  | .memory => 128
  | .storage => 256

/-- Only multiples of this number are followed. -/
def granularity : Target → Nat
  | .memory => 32
  | .storage => 1

/-- The target in messages. -/
def name : Target → String
  | .memory => "Memory"
  | .storage => "Storage"

/-- What is known of a pushed value. Constants have to be below the bound. -/
def abstract (t : Target) (value? : Option Nat) : OffsetSet :=
  match value? with
  | some value =>
    if value < t.bound ∧ value % t.granularity = 0 then .singleton (.exact value) else .top
  | none => .top

end Target

/-- What is known of the constants at a point. -/
structure OffsetState where
  /-- What the constants are followed for. -/
  target : Target
  /-- The height of the stack. -/
  height : Nat
  /-- What is known of stack positions, counted from the bottom. -/
  stack : OrdMap Nat OffsetSet
  /-- What is known of memory words. -/
  words : OrdMap Nat OffsetSet
  deriving DecidableEq

namespace OffsetState

/-- Nothing is on the stack, and nothing is known of memory. -/
def initial (target : Target) : OffsetState := ⟨target, 0, ∅, ∅⟩

/-- The state as text. -/
def render (s : OffsetState) : String :=
  let entries (m : OrdMap Nat OffsetSet) : String :=
    braced (m.toList.map fun e => s!"{e.1}: {e.2.render}")
  s!"stack^{s.height} = {entries s.stack}" ++
    if s.words.isEmpty then "" else s!" :: memory = {entries s.words}"

/-- What is known of the value at a position, if the position exists. -/
def value? (s : OffsetState) (position : Option Nat) : Option OffsetSet :=
  position.bind s.stack.get?

/-- What is known of the value `depth` items below the top. -/
def fromTop? (s : OffsetState) (depth : Nat) : Option OffsetSet :=
  s.value? (stackItem? s.height depth)

/-- Whether the second state covers the first. It has to cover every stack position of the first,
and may only know words that the first knows. -/
def leq (s t : OffsetState) : Bool :=
  (s.stack.all fun p v =>
    match t.stack.get? p with
    | none => false
    | some w => v.leq w) &&
  t.words.all fun a w =>
    match s.words.get? a with
    | none => false
    | some v => v.leq w

/-- What is known in both states. The height is that of the first. -/
def join (s t : OffsetState) : OffsetState where
  target := s.target
  height := s.height
  stack := s.stack.unionWith OffsetSet.join t.stack
  words := s.words.interWith OffsetSet.join t.words

end OffsetState

/-! ### The domain -/

namespace Offsets

/-- The memory words whose content is followed. -/
def followedWords : List Nat := [0, 32, 64]

/-- The address of a memory access: the one written behind the instruction, or else the one on top
of the stack, if it is a single constant. -/
def address? (i : Instruction) (s : OffsetState) : Option Nat :=
  i.annotatedAddress?.or ((s.fromTop? 0).bind OffsetSet.constant?)

/-- Set all positions that an opcode produces to unknown values. -/
def produceUnknown (o : Opcode) (s : OffsetState) : OrdMap Nat OffsetSet :=
  (List.range' (o.base s.height) o.pushes).foldl (fun m p => m.insert p .top) s.stack

/-- The stack after an instruction; positions above the new height may still be listed. -/
def nextStack (i : Instruction) (s : OffsetState) : OrdMap Nat OffsetSet :=
  match i.opcode with
  | .push _ => s.stack.insert s.height (s.target.abstract i.pushValue?)
  | .dup below =>
    match s.fromTop? below with
    | some value => s.stack.insert s.height value
    | none => s.stack
  | .swap below =>
    match stackItem? s.height 0, stackItem? s.height (below + 1) with
    | some top, some other =>
      (s.stack.assign top (s.stack.get? other)).assign other (s.stack.get? top)
    | some top, none => s.stack.erase top
    | none, _ => s.stack
  | .add =>
    match stackItem? s.height 1 with
    | some result =>
      s.stack.insert result
        (OffsetSet.plus s.target.bound ((s.fromTop? 0).getD .top) ((s.fromTop? 1).getD .top))
    | none => s.stack
  | .mload =>
    match stackItem? s.height 0 with
    | some top => s.stack.insert top (((address? i s).bind s.words.get?).getD .top)
    | none => s.stack
  | .mstore => s.stack
  | o => produceUnknown o s

/-- The memory words after an instruction. -/
def nextWords (i : Instruction) (s : OffsetState) : OrdMap Nat OffsetSet :=
  match i.opcode with
  | .mstore =>
    match address? i s with
    | some address =>
      if address ∈ followedWords then s.words.insert address ((s.fromTop? 1).getD .top) else ∅
    | none => ∅
  | .mstore8 | .mcopy | .calldatacopy | .codecopy | .returndatacopy | .extcodecopy
  | .call | .callcode | .delegatecall | .staticcall => ∅
  | _ => s.words

/-- The state after an instruction. -/
def next (i : Instruction) (s : OffsetState) : OffsetState :=
  let height := i.opcode.heightAfter s.height
  { target := s.target
    height := height
    stack := (nextStack i s).filter fun p _ => p < height
    words := nextWords i s }

/-- The storage keys that an instruction accesses. -/
def accesses (i : Instruction) (s : OffsetState) : List Access :=
  let keys := ((s.fromTop? 0).getD .top).toList.map Token.key
  match i.opcode with
  | .sload => keys.map .read
  | .sstore => keys.map .write
  | _ => []

/-- The domain of constants. The context is a ledger of storage accesses, if one is kept. -/
def domain : Domain BlockId Instruction OffsetState (Option Ledger) where
  leq := OffsetState.leq
  join := OffsetState.join
  step i p s c := (next i s, c.map fun l => l.noteAll p (accesses i s))

/-! ### Messages -/

/-- Remarks on a step: a stack that is too low, and operands of which nothing was ever learnt. -/
def stepMessages (i : Instruction) (p : CodePoint) (s : OffsetState) : List Message :=
  let warn (text : String) : Message := ⟨.warn, s!"{p}: {text} in offset analysis"⟩
  let absent (position : Option Nat) : Bool := (s.value? position).isNone
  (if i.opcode.underflows s.height then [warn s!"stack underflow at {i}"] else []) ++
  match i.opcode with
  | .dup below =>
    if absent (stackItem? s.height below) then [warn s!"{i} copying an absent value"] else []
  | .swap below =>
    match stackItem? s.height 0, stackItem? s.height (below + 1) with
    | some top, some other =>
      if absent (some top) || absent (some other) then [warn s!"{i} moving an absent value"] else []
    | _, _ => [warn s!"{i} below the bottom of the stack"]
  | .add =>
    ([stackItem? s.height 0, stackItem? s.height 1].filter absent).map fun _ =>
      warn "ADD of an absent stack value"
  | _ => []

/-- What the domain remarks. -/
def commentary : Commentary BlockId Instruction OffsetState (Option Ledger) where
  showOp := Instruction.render
  showState := OffsetState.render
  onLeq s t :=
    if s.height = t.height then []
    else [⟨.warn, s!"Different stacks in offset leq: {s.render} vs {t.render}"⟩]
  onJoin s t :=
    ⟨.debug, s!"Offset lub: {s.render} and {t.render}"⟩ ::
      (if s.height = t.height then []
        else [⟨.warn, s!"Different stacks in offset lub: {s.render} vs {t.render}"⟩]) ++
      [⟨.debug, s!"Offset lub result: {(s.join t).render}"⟩]
  onStep i p s _ := stepMessages i p s

end Offsets

end EvmAccess
