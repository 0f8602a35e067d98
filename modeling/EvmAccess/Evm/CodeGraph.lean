import EvmAccess.Evm.Instruction
import EvmAccess.Flow.Graph
import EvmAccess.Flow.Point
import EvmAccess.Ordered.Set

/-!
# Code graphs

A program as basic blocks and the edges between them. A `CodeGraph` is known to be in order: its
blocks are sorted by name, no name occurs twice, the edges of each block fit its kind, and every
edge leads to a block of the graph. `CodeGraph.build` checks this and reports the first fault.

## Main results

- `CodeGraph.fault?_eq_none_iff`: the checks pass exactly for the lists of blocks that make a graph.
-/

namespace EvmAccess

open Std

/-- Where the jump at the end of a block leads. -/
inductive JumpTarget where
  /-- The block does not jump. -/
  | none
  /-- The block jumps, but the destination is not statically known. -/
  | unresolved
  /-- The block jumps to the named block. -/
  | block (id : BlockId)
  deriving DecidableEq, Repr

/-- A basic block. -/
structure BasicBlock where
  /-- Its name. -/
  id : BlockId
  /-- The address of its first instruction. -/
  start : UInt64
  /-- The address of its last instruction. -/
  stop : UInt64
  /-- How it ends. -/
  kind : BlockKind
  /-- Its instructions. -/
  code : List Instruction
  /-- Where its jump leads. -/
  jump : JumpTarget
  /-- The block that it falls through to. -/
  next : Option BlockId
  /-- Every possible destination of a jump with several ones. This is kept for reporting only. -/
  destinations : OrdSet BlockId
  deriving DecidableEq

namespace BasicBlock

/-- The blocks that may be executed next: the destination of the jump, if it is known, then the
block that this one falls through to. -/
def successors (b : BasicBlock) : List BlockId :=
  (match b.jump with
    | .block id => [id]
    | _ => []) ++ b.next.toList

/-- The last opcode of the block. -/
def lastOpcode? (b : BasicBlock) : Option Opcode := b.code.getLast?.map (·.opcode)

/-- Why the edges of a block do not fit its kind. -/
def shapeFault? (b : BasicBlock) : Option ShapeFault :=
  let jumps := b.jump ≠ .none
  let falls := b.next.isSome
  match b.kind with
  | .terminal => if jumps ∨ falls then some .outgoingEdges else none
  | .conditional =>
    if ¬ jumps then some .noJumpTarget else if ¬ falls then some .noFallThrough else none
  | .unconditional =>
    if ¬ jumps then some .noJumpTarget else if falls then some .fallThrough else none
  | .fallsTo =>
    if jumps then some .jumpTarget else if ¬ falls then some .noFallThrough else none

/-- The block as the fixpoint engine sees it. -/
def node (b : BasicBlock) : Node BlockId Instruction := ⟨b.id, b.code, b.successors⟩

end BasicBlock

/-- A program as a graph of basic blocks. -/
structure CodeGraph where
  /-- The blocks, in the order of their names. -/
  blocks : List BasicBlock
  /-- Names increase, so no name occurs twice. -/
  increasing : blocks.Pairwise fun a b => compare a.id b.id = .lt
  /-- The edges of each block fit its kind. -/
  shaped : ∀ b ∈ blocks, b.shapeFault? = none
  /-- Every edge leads to a block of the graph. -/
  closed : ∀ b ∈ blocks, ∀ id ∈ b.successors, id ∈ blocks.map (·.id)

namespace CodeGraph

/-! ### Building a graph -/

/-- The first block whose edges do not fit its kind, or whose name is that of an earlier block;
`seen` holds the names of the blocks before these. -/
def blockFault? (seen : List BlockId) : List BasicBlock → Option CodeError
  | [] => none
  | b :: rest =>
    match b.shapeFault? with
    | some fault => some (.badShape b.id b.kind fault)
    | none => if b.id ∈ seen then some (.duplicateBlock b.id) else blockFault? (b.id :: seen) rest

/-- The first edge that leads to none of the names `ids`. -/
def edgeFault? (ids : List BlockId) : List BasicBlock → Option CodeError
  | [] => none
  | b :: rest =>
    match b.successors.find? (¬ · ∈ ids) with
    | some target => some (.danglingEdge b.id target)
    | none => edgeFault? ids rest

/-- The first fault of a list of blocks: those of single blocks come before those of edges. -/
def fault? (blocks : List BasicBlock) : Option CodeError :=
  (blockFault? [] blocks).or (edgeFault? (blocks.map (·.id)) blocks)

theorem blockFault?_eq_none_iff {seen : List BlockId} {blocks : List BasicBlock} :
    blockFault? seen blocks = none ↔
      (∀ b ∈ blocks, b.shapeFault? = none) ∧ (∀ b ∈ blocks, ¬ b.id ∈ seen) ∧
        (blocks.map (·.id)).Nodup := by
  induction blocks generalizing seen with
  | nil => simp [blockFault?]
  | cons b rest ih =>
    rw [blockFault?]
    cases hs : b.shapeFault? with
    | some fault => simp [hs]
    | none =>
      simp only
      split
      · rename_i hseen
        simp [hs, hseen]
      · rename_i hseen
        rw [ih]
        simp only [List.mem_cons, forall_eq_or_imp, hs, true_and, hseen, not_false_eq_true,
          not_or, List.map_cons, List.nodup_cons, List.mem_map, not_exists, not_and]
        constructor
        · rintro ⟨h1, h2, h3⟩
          exact ⟨h1, fun c hc => (h2 c hc).2, fun c hc => (h2 c hc).1, h3⟩
        · rintro ⟨h1, h2, h3, h4⟩
          exact ⟨h1, fun c hc => ⟨h3 c hc, h2 c hc⟩, h4⟩

theorem edgeFault?_eq_none_iff {ids : List BlockId} {blocks : List BasicBlock} :
    edgeFault? ids blocks = none ↔ ∀ b ∈ blocks, ∀ id ∈ b.successors, id ∈ ids := by
  induction blocks with
  | nil => simp [edgeFault?]
  | cons b rest ih =>
    rw [edgeFault?]
    cases hf : b.successors.find? (¬ · ∈ ids) with
    | some target =>
      simp only [reduceCtorEq, List.mem_cons, forall_eq_or_imp, false_iff, not_and]
      intro h
      have h1 := List.mem_of_find?_eq_some hf
      have h2 := List.find?_some hf
      simp only [decide_not, Bool.not_eq_eq_eq_not, Bool.not_true, decide_eq_false_iff_not] at h2
      exact absurd (h target h1) h2
    | none =>
      simp only [List.mem_cons, forall_eq_or_imp, ih, iff_and_self]
      intro _ id hid
      have := List.find?_eq_none.1 hf id hid
      simpa using this

/-- A list of blocks passes the checks exactly when each block has the edges of its kind, no name
occurs twice, and every edge leads to one of the blocks. -/
theorem fault?_eq_none_iff {blocks : List BasicBlock} :
    fault? blocks = none ↔
      (∀ b ∈ blocks, b.shapeFault? = none) ∧ (blocks.map (·.id)).Nodup ∧
        ∀ b ∈ blocks, ∀ id ∈ b.successors, id ∈ blocks.map (·.id) := by
  rw [fault?, Option.or_eq_none_iff, blockFault?_eq_none_iff, edgeFault?_eq_none_iff]
  simp [and_assoc]

/-- The blocks in the order of their names. -/
def inOrder (blocks : List BasicBlock) : List BasicBlock :=
  blocks.mergeSort fun a b => (compare a.id b.id).isLE

theorem increasing_inOrder {blocks : List BasicBlock}
    (h : ((inOrder blocks).map (·.id)).Nodup) :
    (inOrder blocks).Pairwise fun a b => compare a.id b.id = .lt := by
  have hle : (inOrder blocks).Pairwise fun a b => (compare a.id b.id).isLE = true :=
    List.pairwise_mergeSort (fun a b c => TransCmp.isLE_trans)
      (fun a b => by
        cases hab : compare a.id b.id with
        | lt => rfl
        | eq => rfl
        | gt => simp [OrientedCmp.gt_iff_lt.1 hab]) blocks
  have hne : (inOrder blocks).Pairwise fun a b => a.id ≠ b.id := List.pairwise_map.1 h
  refine (hle.and hne).imp fun {a b} hab => ?_
  cases hc : compare a.id b.id with
  | lt => rfl
  | eq => exact absurd (LawfulEqCmp.eq_of_compare hc) hab.2
  | gt => simp [hc] at hab

/-- Make a graph of a list of blocks, in any order, or report the first fault that shows when the
blocks are in the order of their names. -/
def build (blocks : List BasicBlock) : Except CodeError CodeGraph :=
  match h : fault? (inOrder blocks) with
  | some e => .error e
  | none =>
    have ok := fault?_eq_none_iff.1 h
    .ok ⟨inOrder blocks, increasing_inOrder ok.2.1, ok.1, ok.2.2⟩

/-! ### Looking at a graph -/

/-- The graph as the fixpoint engine sees it. -/
def flow (g : CodeGraph) : Graph BlockId Instruction := ⟨g.blocks.map BasicBlock.node⟩

/-- The block with the given name. -/
def block? (g : CodeGraph) (id : BlockId) : Option BasicBlock := g.blocks.find? (·.id = id)

/-- The position of the block with the given name. -/
def indexOf? (g : CodeGraph) (id : BlockId) : Option Nat := g.blocks.findIdx? (·.id = id)

/-- The number of instructions. -/
def size (g : CodeGraph) : Nat := (g.blocks.flatMap (·.code)).length

end CodeGraph

/-- A position in a program. -/
abbrev CodePoint := Point BlockId

/-- Read a position in a program. -/
def CodePoint.read (text : String) : Except CodeError CodePoint :=
  match Point.read BlockId.read text with
  | .error _ => .error (.malformedPoint text)
  | .ok p => .ok p

namespace CodeGraph

/-- The instruction at a point. -/
def instruction? (g : CodeGraph) (p : CodePoint) : Option Instruction :=
  (g.block? p.block).bind fun b => b.code[p.index]?

end CodeGraph

end EvmAccess
