import EvmAccess.Evm.BlockId
import EvmAccess.Text.Quoted

/-!
# Faults of a program

What can be wrong with the text of a program, or with the graph built from its blocks.
-/

namespace EvmAccess

/-- How a block ends. -/
inductive BlockKind where
  /-- It leaves the program. -/
  | terminal
  /-- It jumps or goes on with the next block. -/
  | conditional
  /-- It jumps. -/
  | unconditional
  /-- It goes on with the next block. -/
  | fallsTo
  deriving DecidableEq, Repr

/-- The name of a kind in messages. -/
def BlockKind.name : BlockKind → String
  | .terminal => "Terminal"
  | .conditional => "Conditional"
  | .unconditional => "Unconditional"
  | .fallsTo => "FallsTo"

/-- Why the edges of a block do not fit its kind. -/
inductive ShapeFault where
  | outgoingEdges
  | noJumpTarget
  | noFallThrough
  | jumpTarget
  | fallThrough
  deriving DecidableEq, Repr

/-- The wording of a shape fault. -/
def ShapeFault.reason : ShapeFault → String
  | .outgoingEdges => "has outgoing edges"
  | .noJumpTarget => "has no jump target"
  | .noFallThrough => "has no fall-through"
  | .jumpTarget => "has a jump target"
  | .fallThrough => "has a fall-through"

/-- What is wrong with a program. -/
inductive CodeError where
  /-- No opcode has this name. -/
  | unknownOpcode (word : String)
  /-- The text does not name a block. -/
  | malformedBlockId (text : String)
  /-- The text is not a program point. -/
  | malformedPoint (text : String)
  /-- Two blocks have this name. -/
  | duplicateBlock (block : BlockId)
  /-- An edge leads to a block that is not there. -/
  | danglingEdge (source target : BlockId)
  /-- The edges of a block do not fit its kind. -/
  | badShape (block : BlockId) (kind : BlockKind) (fault : ShapeFault)
  deriving DecidableEq, Repr

/-- The wording of an error. -/
def CodeError.message : CodeError → String
  | .unknownOpcode word => s!"unknown opcode {quoted word}"
  | .malformedBlockId text => s!"malformed block id {quoted text}"
  | .malformedPoint text => s!"malformed program point {quoted text}"
  | .duplicateBlock block => s!"block {block} is defined more than once"
  | .danglingEdge source target =>
    s!"block {source} has an edge to {target}, which is not defined"
  | .badShape block kind fault => s!"{kind.name} block {block} {fault.reason}"

/-- Read a block name. -/
def BlockId.read (text : String) : Except CodeError BlockId :=
  match BlockId.read? text with
  | none => .error (.malformedBlockId text)
  | some id => .ok id

end EvmAccess
