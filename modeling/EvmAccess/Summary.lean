import EvmAccess.Access.DeadStore
import EvmAccess.Domain.Offsets

/-!
# Facts for an optimiser

What was found, block by block, in a form that an optimiser can act on: which two accesses of a
block certainly mean the same location or certainly different ones, which stores are dead, and which
accesses have a constant address.

## Main definitions

- `BlockFacts`, `Summary`.
- `Summary.relateMemory`, `Summary.relateStorage`, `Summary.addDeadWrites`,
  `Summary.addConstants`.
-/

namespace EvmAccess

open Std

/-- Two program points, the lower one first. -/
structure PointPair where
  /-- The lower point. -/
  first : CodePoint
  /-- The upper point. -/
  second : CodePoint
  deriving DecidableEq, Repr

namespace PointPair

instance : Ord PointPair := ⟨compareLex (compareOn first) (compareOn second)⟩

instance : TransOrd PointPair :=
  inferInstanceAs (TransCmp (compareLex (compareOn first) (compareOn second)))

instance : LawfulEqOrd PointPair where
  compare_self {a} := by
    change (compare a.first a.first).then (compare a.second a.second) = .eq
    simp
  eq_of_compare {a b} h := by
    change (compare a.first b.first).then (compare a.second b.second) = .eq at h
    rw [Ordering.then_eq_eq] at h
    obtain ⟨p, q⟩ := a
    obtain ⟨p', q'⟩ := b
    obtain rfl : p = p' := LawfulEqCmp.eq_of_compare h.1
    obtain rfl : q = q' := LawfulEqCmp.eq_of_compare h.2
    rfl

/-- Two points in order. -/
def ofPoints (p q : CodePoint) : PointPair :=
  if (compare p q).isLE then ⟨p, q⟩ else ⟨q, p⟩

/-- The pair as text. -/
def render (a : PointPair) : String := s!"({a.first}, {a.second})"

end PointPair

/-- Pairs of accesses whose locations are certainly the same, and pairs whose locations are
certainly different. -/
structure PairFacts where
  /-- The same location. -/
  equal : OrdSet PointPair
  /-- Different locations. -/
  nonequal : OrdSet PointPair
  deriving DecidableEq

namespace PairFacts

/-- No pairs. -/
def empty : PairFacts := ⟨∅, ∅⟩

/-- Enter what is certain about the accesses at two points. -/
def note (f : PairFacts) (p q : CodePoint) : Relation → PairFacts
  | .equal => { f with equal := f.equal.insert (.ofPoints p q) }
  | .notEqual => { f with nonequal := f.nonequal.insert (.ofPoints p q) }
  | .unknown => f

/-- Compare every write of a block with every access at another point of the block. -/
def relate (l : Ledger) (block : BlockId) (f : PairFacts) : PairFacts :=
  let writes := l.writes.inBlock block
  let others := l.reads.inBlock block ++ writes
  writes.foldl (fun f w =>
    others.foldl (fun f o =>
      if o.1 = w.1 then f else f.note w.1 o.1 (Token.relationOfSets w.2 o.2)) f) f

end PairFacts

/-- The facts of one block. -/
structure BlockFacts where
  /-- Pairs of memory accesses. -/
  memory : PairFacts
  /-- Pairs of storage accesses. -/
  storage : PairFacts
  /-- Stores of which some value is never seen. -/
  deadWrites : OrdSet CodePoint
  /-- Accesses whose address is a constant. -/
  constants : OrdMap CodePoint Nat
  deriving DecidableEq

namespace BlockFacts

/-- No facts. -/
def empty : BlockFacts := ⟨.empty, .empty, ∅, ∅⟩

/-- Whether there are no facts. -/
def isEmpty (f : BlockFacts) : Bool := f = empty

end BlockFacts

/-- The facts of all blocks of a program. -/
abbrev Summary := OrdMap BlockId BlockFacts

namespace Summary

/-- No facts on any block of the program. -/
def initial (g : CodeGraph) : Summary :=
  OrdMap.ofList (g.blocks.map fun b => (b.id, BlockFacts.empty))

/-- Relate the memory accesses of each block. -/
def relateMemory (l : Ledger) (s : Summary) : Summary :=
  s.map fun id f => { f with memory := f.memory.relate l id }

/-- Relate the storage accesses of each block. -/
def relateStorage (l : Ledger) (s : Summary) : Summary :=
  s.map fun id f => { f with storage := f.storage.relate l id }

/-- Enter a dead store. -/
def addDeadWrite (s : Summary) (p : CodePoint) : Summary :=
  s.alter p.block fun f? => f?.map fun f => { f with deadWrites := f.deadWrites.insert p }

/-- Enter the dead stores among the given ones. -/
def addDeadWrites (reports : List StoreReport) (s : Summary) : Summary :=
  (reports.filter (·.isDead)).foldl (fun s r => s.addDeadWrite r.point) s

/-- Whether an opcode accesses what constants are followed for. -/
def isRelevant : Target → Opcode → Bool
  | .memory, .mload => true
  | .memory, .mstore => true
  | .storage, .sload => true
  | .storage, .sstore => true
  | _, _ => false

/-- The constant address of an access, if it is known before the instruction. -/
def constantAddress? (offsets : Run BlockId OffsetState) (p : CodePoint) (i : Instruction) :
    Option Nat :=
  match offsets.stateBefore p with
  | .error _ => none
  | .ok s =>
    if isRelevant s.target i.opcode then (s.fromTop? 0).bind OffsetSet.constant? else none

/-- The accesses of a block whose address is a constant, with their instructions. -/
def constantAccesses (offsets : Run BlockId OffsetState) (b : BasicBlock) :
    List (CodePoint × Instruction × Nat) :=
  b.code.zipIdx.filterMap fun e =>
    let p : CodePoint := ⟨b.id, e.2⟩
    (constantAddress? offsets p e.1).map fun address => (p, e.1, address)

/-- Enter the accesses whose address is a constant. -/
def addConstants (g : CodeGraph) (offsets : Run BlockId OffsetState) (s : Summary) : Summary :=
  s.map fun id f =>
    match g.block? id with
    | none => f
    | some b =>
      { f with
        constants :=
          (constantAccesses offsets b).foldl (fun m e => m.insert e.1 e.2.2) f.constants }

/-- The messages of entering the accesses whose address is a constant. -/
def constantMessages (g : CodeGraph) (offsets : Run BlockId OffsetState) : List Message :=
  g.blocks.flatMap fun b => (constantAccesses offsets b).map fun e =>
    ⟨.debug, s!"{e.1}: {e.2.1} accesses constant address {e.2.2}"⟩

/-! ### Text -/

/-- A line of pairs, if there are any. -/
def pairLine (title : String) (pairs : OrdSet PointPair) : String :=
  if pairs.isEmpty then ""
  else s!"  {title}: " ++ " ".intercalate (pairs.toList.map PointPair.render) ++ "\n"

/-- The facts of a block as text. -/
def renderBlock (id : BlockId) (f : BlockFacts) : String :=
  s!"Block {id}:\n" ++
    pairLine "memory equal" f.memory.equal ++
    pairLine "memory non-equal" f.memory.nonequal ++
    pairLine "storage equal" f.storage.equal ++
    pairLine "storage non-equal" f.storage.nonequal ++
    (if f.deadWrites.isEmpty then ""
      else "  dead writes: " ++ " ".intercalate (f.deadWrites.toList.map toString) ++ "\n") ++
    if f.constants.isEmpty then ""
    else
      "  constant addresses: " ++
        " ".intercalate (f.constants.toList.map fun e => s!"{e.1}={e.2}") ++ "\n"

/-- The facts as text, block by block; blocks without facts are left out. -/
def render (s : Summary) : String :=
  String.join ((s.toList.filter fun e => !e.2.isEmpty).map fun e => renderBlock e.1 e.2)

end Summary

end EvmAccess
