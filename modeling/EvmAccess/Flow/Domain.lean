import EvmAccess.Flow.Point
import EvmAccess.Ordered.Set

/-!
# Abstract domains

A domain describes what an analysis knows at a program point. Its states are compared and joined
(`JoinOrder`), and each operation turns the state before it into the state after it (`Domain`).
Besides the state a step may change a context, which is carried through a whole run: the place for
facts that are reported while executing.

States are never compared for equality; only the order decides whether something new was learnt.
-/

namespace EvmAccess

/-- An order with a join. `leq a b` says that `b` covers `a`. -/
structure JoinOrder (σ : Type) where
  /-- Whether the second state covers the first. -/
  leq : σ → σ → Bool
  /-- A state that covers both. -/
  join : σ → σ → σ

namespace JoinOrder

/-- Truth values: `false` is below `true`, and the join is disjunction. -/
def bool : JoinOrder Bool where
  leq a b := !a || b
  join a b := a || b

/-- The order with one state. -/
def unit : JoinOrder Unit where
  leq _ _ := true
  join _ _ := ()

/-- Sets ordered by inclusion, with union as the join. -/
def powerset {α : Type} [Ord α] [Std.TransOrd α] [Std.LawfulEqOrd α] [DecidableEq α] :
    JoinOrder (OrdSet α) where
  leq a b := a.isSubset b
  join a b := a ∪ b

end JoinOrder

/-- An abstract domain over operations `ω` in blocks named by `ι`, with states `σ` and context
`γ`. -/
structure Domain (ι ω σ γ : Type) extends JoinOrder σ where
  /-- The state after an operation at a point, and the context after it. -/
  step : ω → Point ι → σ → γ → σ × γ

namespace Domain

variable {ι ω σ γ : Type}

/-- Execute operations from position `i` of a block on: the state after each of them, and the
context after the last. -/
def trace (d : Domain ι ω σ γ) (id : ι) : Nat → List ω → σ → γ → List σ × γ
  | _, [], _, c => ([], c)
  | i, op :: ops, s, c =>
    let (s, c) := d.step op ⟨id, i⟩ s c
    let (rest, c) := d.trace id (i + 1) ops s c
    (s :: rest, c)

/-- The state after a sequence of operations that passed through `states`, started at `s`. -/
def final (s : σ) (states : List σ) : σ := states.getLast?.getD s

/-- Execute a whole block: its final state, and the context afterwards. -/
def replay (d : Domain ι ω σ γ) (id : ι) (ops : List ω) (s : σ) (c : γ) : σ × γ :=
  let (states, c) := d.trace id 0 ops s c
  (final s states, c)

end Domain

end EvmAccess
