import EvmAccess.Flow.Fixpoint
import EvmAccess.Journal

/-!
# The journal of a run

What the engine tells of a run: each execution of a block with the state after every operation,
each block whose input has grown, and the end. Messages of the domain itself stand where the engine
consults it. The functions here follow the loop of the engine and call it for the results.
-/

namespace EvmAccess

open Std

/-- What a domain has to say when it is consulted, and how its states and operations are shown. -/
structure Commentary (ι ω σ γ : Type) where
  /-- An operation in a message. -/
  showOp : ω → String
  /-- A state in a message. -/
  showState : σ → String
  /-- Remarks on a comparison. -/
  onLeq : σ → σ → List Message
  /-- Remarks on a join. -/
  onJoin : σ → σ → List Message
  /-- Remarks on a step. -/
  onStep : ω → Point ι → σ → γ → List Message

namespace Commentary

variable {ι ω σ γ : Type} [ToString ι]

/-- The level at which executions are told. -/
def visitLevel (verbose : Bool) : Level := if verbose then .debug else .trace

/-- The messages of executing operations from position `i` of a block on. -/
def trace (k : Commentary ι ω σ γ) (d : Domain ι ω σ γ) (level : Level) (id : ι) :
    Nat → List ω → σ → γ → List Message
  | _, [], _, _ => []
  | i, op :: ops, s, c =>
    let p : Point ι := ⟨id, i⟩
    let (after, c') := d.step op p s c
    k.onStep op p s c ++
      ⟨level, s!"      -- {p} {k.showOp op} -- {k.showState after}"⟩ ::
        k.trace d level id (i + 1) ops after c'

/-- The messages of executing a block. -/
def execute (k : Commentary ι ω σ γ) (d : Domain ι ω σ γ) (verbose : Bool) (id : ι)
    (ops : List ω) (f : Facts σ) (c : γ) : List Message :=
  let level := visitLevel verbose
  ⟨level, s!"Processing {id} :: {k.showState f.input}"⟩ :: k.trace d level id 0 ops f.input c

/-- The messages of taking in one more state. -/
def receive (k : Commentary ι ω σ γ) (o : JoinOrder σ) (incoming : σ) (f : Facts σ) :
    List Message :=
  k.onLeq incoming f.input ++
    if o.leq incoming f.input then [] else k.onJoin f.input incoming

variable [Ord ι] [TransOrd ι] [LawfulEqOrd ι] [DecidableEq ι]

/-- The messages of handing a state over to a block. -/
def deliver (k : Commentary ι ω σ γ) (o : JoinOrder σ) (source target : ι) (s : σ)
    (r : Run ι σ) : List Message :=
  match r.facts.get? target with
  | none => []
  | some f =>
    k.receive o s f ++
      if o.leq s f.input then [] else [⟨.debug, s!"Revisiting block {target} from {source}"⟩]

/-- The messages of handing a state over to all successors. -/
def deliverAll (k : Commentary ι ω σ γ) (e : Engine ι ω σ γ) (source : ι) (s : σ) :
    List ι → Run ι σ → List Message
  | [], _ => []
  | target :: rest, r =>
    if e.graph.contains target then
      k.deliver e.domain.toJoinOrder source target s r ++
        k.deliverAll e source s rest (r.deliver e.domain.toJoinOrder target s)
    else []

/-- The messages of visiting a block. -/
def visit (k : Commentary ι ω σ γ) (e : Engine ι ω σ γ) (verbose : Bool) (id : ι)
    (r : Run ι σ) (c : γ) : List Message :=
  match e.graph.node? id, r.facts.get? id with
  | some n, some f =>
    let f' := (f.execute e.domain id n.ops c).1
    k.execute e.domain verbose id n.ops f c ++
      k.deliverAll e id (f'.output.getD f'.input) n.succs
        { r with facts := r.facts.insert id f', visits := r.visits + 1 }
  | _, _ => []

/-- The messages of the loop. -/
def analyze (k : Commentary ι ω σ γ) (e : Engine ι ω σ γ) (verbose : Bool) (fuel : Nat)
    (r : Run ι σ) (c : γ) : List Message :=
  match fuel, r.pending with
  | _, [] =>
    [⟨.debug,
      s!"Fixpoint reached after {r.visits} block visits over {r.facts.size} blocks"⟩]
  | 0, _ :: _ => []
  | fuel + 1, id :: rest =>
    let r := { r with pending := rest }
    if e.atLimit r then []
    else
      k.visit e verbose id r c ++
        match e.visit id r c with
        | (_, .error _) => []
        | ((r, c), .ok ()) => k.analyze e verbose fuel r c

end Commentary

end EvmAccess
