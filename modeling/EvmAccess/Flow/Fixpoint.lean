import EvmAccess.Flow.Domain
import EvmAccess.Flow.Graph
import EvmAccess.Ordered.Map

/-!
# The fixpoint engine

For every block that can be reached from an entry the engine computes an input state that covers
what its predecessors hand over. It keeps a stack of pending blocks. A turn takes the block on top,
executes it from its input state, and delivers the final state to each successor: a block that was
not reached before starts with that state, any other block joins it to its input unless its input
covers it already. A block whose input is new or has grown becomes pending.

Whether this ends depends on the domain, so the loop has a fuel argument. Independently of fuel, a
node limit may stop a run after a given number of visits per block.

## Main definitions

- `Facts`: what is known of one block.
- `Run`: an analysis under way; it can be stopped and resumed.
- `Engine.visit`: one turn of the loop; `Engine.analyze`: the loop.
- `Run.stateAt`, `Run.stateBefore`: the results by program point.
- `Engine.isFixpoint`: whether one more round over all blocks would change nothing.
-/

namespace EvmAccess

open Std

/-! ### Faults -/

/-- Why an analysis, or a question about its results, failed. -/
inductive Fault (ι : Type) where
  /-- The entry is not in the graph. -/
  | missingEntry (entry : ι)
  /-- An edge leaves the graph. -/
  | missingSuccessor (source target : ι)
  /-- The block was not reached. -/
  | unknownBlock (block : ι)
  /-- The block has no state at that position. -/
  | outOfRange (block : ι) (index : Int) (length : Nat)
  /-- The node limit was hit. -/
  | noConvergence (visits : Nat)
  /-- The fuel ran out. -/
  | exhausted (visits : Nat)
  deriving DecidableEq, Repr

/-- The wording of a fault. -/
def Fault.message {ι : Type} [ToString ι] : Fault ι → String
  | .missingEntry entry => s!"entry block {entry} is not part of the control flow graph"
  | .missingSuccessor source target =>
    s!"block {source} has an edge to {target}, which is not part of the control flow graph"
  | .unknownBlock block => s!"block {block} was never reached by the analysis"
  | .outOfRange block index length =>
    s!"no state at index {index} of block {block}, which has {length} operations"
  | .noConvergence visits => s!"analysis did not converge after processing {visits} blocks"
  | .exhausted visits => s!"analysis ran out of fuel after processing {visits} blocks"

/-! ### What is known of a block -/

/-- The states of one block. -/
structure Facts (σ : Type) where
  /-- The state at the start of the block. -/
  input : σ
  /-- The final state of the last execution. -/
  output : Option σ
  /-- The state after each operation; empty if the input has grown since the last execution. -/
  states : List σ
  deriving DecidableEq, Repr

namespace Facts

variable {ι ω σ γ : Type}

/-- A block that was reached with state `s` and not executed yet. -/
def start (s : σ) : Facts σ := ⟨s, none, []⟩

/-- The state after the operation at a position. -/
def stateAt? (f : Facts σ) (index : Nat) : Option σ := f.states[index]?

/-- Take in one more incoming state. There is no result if the input covers it already; otherwise
the input grows and the states inside the block are forgotten. -/
def receive? (o : JoinOrder σ) (incoming : σ) (f : Facts σ) : Option (Facts σ) :=
  if o.leq incoming f.input then none
  else some { f with input := o.join f.input incoming, states := [] }

/-- Execute the block from its input. -/
def execute (d : Domain ι ω σ γ) (id : ι) (ops : List ω) (f : Facts σ) (c : γ) : Facts σ × γ :=
  let (states, c) := d.trace id 0 ops f.input c
  (⟨f.input, some (Domain.final f.input states), states⟩, c)

end Facts

/-! ### Runs -/

/-- An analysis under way. -/
structure Run (ι σ : Type) [Ord ι] where
  /-- What is known of each block reached so far. -/
  facts : OrdMap ι (Facts σ)
  /-- The blocks to execute, the next one first. -/
  pending : List ι
  /-- The number of blocks executed so far, repetitions included. -/
  visits : Nat

namespace Run

variable {ι ω σ γ : Type} [Ord ι] [TransOrd ι] [LawfulEqOrd ι] [DecidableEq ι]

/-- A fresh analysis of `g` that starts at `entry` with state `s`. -/
def start (g : Graph ι ω) (entry : ι) (s : σ) : Except (Fault ι) (Run ι σ) :=
  if g.contains entry then
    .ok
      { facts := (∅ : OrdMap ι (Facts σ)).insert entry (.start s)
        pending := [entry]
        visits := 0 }
  else
    .error (.missingEntry entry)

/-- Hand a state over to a block. -/
def deliver (o : JoinOrder σ) (target : ι) (s : σ) (r : Run ι σ) : Run ι σ :=
  match r.facts.get? target with
  | none =>
    { r with facts := r.facts.insert target (.start s), pending := target :: r.pending }
  | some f =>
    match f.receive? o s with
    | none => r
    | some f => { r with facts := r.facts.insert target f, pending := target :: r.pending }

/-! ### Results by program point -/

/-- A position as a signed number of 64 bits: in the upper half of the range, positions count back
from its end. Positions that 64 bits cannot hold stay as they are. -/
def signedIndex (index : Nat) : Int :=
  if 0x8000000000000000 ≤ index ∧ index < 0x10000000000000000 then
    (index : Int) - 0x10000000000000000
  else index

/-- The state after the operation `relative` positions after `p`. The two are added without bound. A
sum of signed numbers of 64 bits may overflow, but no block is so long that there is a state at
either result, so only the index in the fault would be another one. -/
def stateAt (r : Run ι σ) (p : Point ι) (relative : Int) : Except (Fault ι) σ :=
  match r.facts.get? p.block with
  | none => .error (.unknownBlock p.block)
  | some f =>
    let index := signedIndex p.index + relative
    match (if 0 ≤ index then f.stateAt? index.toNat else none) with
    | none => .error (.outOfRange p.block index f.states.length)
    | some s => .ok s

/-- The state before the operation at `p`. -/
def stateBefore (r : Run ι σ) (p : Point ι) : Except (Fault ι) σ :=
  if p.index = 0 then
    match r.facts.get? p.block with
    | none => .error (.unknownBlock p.block)
    | some f => .ok f.input
  else
    r.stateAt p (-1)

end Run

/-! ### The loop -/

/-- A domain at work on a graph. -/
structure Engine (ι ω σ γ : Type) where
  /-- The graph. -/
  graph : Graph ι ω
  /-- The domain. -/
  domain : Domain ι ω σ γ
  /-- The number of visits per block after which a run is given up; zero is no limit. -/
  nodeLimit : Nat

namespace Engine

variable {ι ω σ γ : Type} [Ord ι] [TransOrd ι] [LawfulEqOrd ι] [DecidableEq ι]

/-- The number of visits after which a run is given up; zero is no limit. -/
def visitLimit (e : Engine ι ω σ γ) : Nat := e.nodeLimit * e.graph.nodes.length

/-- Hand the final state of `source` over to its successors, until one is not in the graph. -/
def deliverAll (e : Engine ι ω σ γ) (source : ι) (s : σ) :
    List ι → Run ι σ → Run ι σ × Except (Fault ι) Unit
  | [], r => (r, .ok ())
  | target :: rest, r =>
    if e.graph.contains target then
      e.deliverAll source s rest (r.deliver e.domain.toJoinOrder target s)
    else (r, .error (.missingSuccessor source target))

/-- Execute a block and hand its final state over. -/
def visit (e : Engine ι ω σ γ) (id : ι) (r : Run ι σ) (c : γ) :
    (Run ι σ × γ) × Except (Fault ι) Unit :=
  match e.graph.node? id, r.facts.get? id with
  | some n, some f =>
    let (f, c) := f.execute e.domain id n.ops c
    let r := { r with facts := r.facts.insert id f, visits := r.visits + 1 }
    let (r, result) := e.deliverAll id (f.output.getD f.input) n.succs r
    ((r, c), result)
  | _, _ => ((r, c), .error (.unknownBlock id))

/-- Whether the node limit forbids another visit. -/
def atLimit (e : Engine ι ω σ γ) (r : Run ι σ) : Bool :=
  0 < e.visitLimit && e.visitLimit ≤ r.visits

/-- Visit pending blocks until there is none left, or something fails. The block on top of the
stack is taken off before the node limit is looked at. -/
def analyze (e : Engine ι ω σ γ) (fuel : Nat) (r : Run ι σ) (c : γ) :
    (Run ι σ × γ) × Except (Fault ι) Unit :=
  match fuel, r.pending with
  | _, [] => ((r, c), .ok ())
  | 0, _ :: _ => ((r, c), .error (.exhausted r.visits))
  | fuel + 1, id :: rest =>
    let r := { r with pending := rest }
    if e.atLimit r then ((r, c), .error (.noConvergence r.visits))
    else
      match e.visit id r c with
      | ((r, c), .error fault) => ((r, c), .error fault)
      | ((r, c), .ok ()) => e.analyze fuel r c

/-! ### The final check -/

/-- Whether every successor was reached and its input covers `s`. -/
def covers (e : Engine ι ω σ γ) (r : Run ι σ) (s : σ) (succs : List ι) : Bool :=
  succs.all fun target =>
    match r.facts.get? target with
    | none => false
    | some f => e.domain.leq s f.input

/-- Execute the given blocks once more, until one hands over a state that some successor does not
cover. -/
def isStable (e : Engine ι ω σ γ) (r : Run ι σ) : List (ι × Facts σ) → γ → Bool × γ
  | [], c => (true, c)
  | (id, f) :: rest, c =>
    match e.graph.node? id with
    | none => (false, c)
    | some n =>
      let (s, c) := e.domain.replay id n.ops f.input c
      if e.covers r s n.succs then e.isStable r rest c else (false, c)

/-- Whether one more execution of every reached block changes no input. -/
def isFixpoint (e : Engine ι ω σ γ) (r : Run ι σ) (c : γ) : Bool × γ :=
  e.isStable r r.facts.toList c

end Engine

end EvmAccess
