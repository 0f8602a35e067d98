import EvmAccess.Evm.Opcode

/-!
# Stack positions

Positions on the evaluation stack are counted from the bottom, so a position keeps its number while
items are pushed and popped above it.
-/

namespace EvmAccess

/-- The position of the item that lies `depth` items below the top of a stack of the given height,
if the stack is that high. -/
def stackItem? (height depth : Nat) : Option Nat :=
  if depth < height then some (height - (depth + 1)) else none

/-- The height of the stack after an opcode. A stack that is too low ends up empty. -/
def Opcode.heightAfter (o : Opcode) (height : Nat) : Nat := (height + o.pushes) - o.pops

/-- Whether the stack is too low for an opcode. -/
def Opcode.underflows (o : Opcode) (height : Nat) : Bool := height + o.pushes < o.pops

/-- The position of the first item that an opcode consumes. -/
def Opcode.base (o : Opcode) (height : Nat) : Nat := height - o.pops

end EvmAccess
