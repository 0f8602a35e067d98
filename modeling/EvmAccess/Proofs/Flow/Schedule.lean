import EvmAccess.Proofs.Flow.PostFixpoint
import EvmAccess.Proofs.Flow.Reached

/-!
# The order of visits does not matter

A run by any order of visits is a sequence of turns after which nothing is pending. Such a run has
reached exactly the blocks that paths lead to, and if the domain is monotone with least upper
bounds, its inputs are the least solution: no input is larger than that of any other assignment of
states to blocks that covers the initial state and is closed under executing blocks. Two least
solutions cover each other, so all orders agree.

Leastness does not come for free from the shape of the loop. A block starts with what its first
predecessor hands over, not with a least state, and is skipped when it covers what comes in. What
carries the proof is that each input is below the solution at every turn.

## Main results

- `Engine.leq_of_solves`: every input is below every solution.
- `Engine.solves_inputs`: the inputs are a solution.
- `Engine.leastSolution_of_analyze`: least solutions, whatever the order.
-/

namespace EvmAccess

open Std

variable {ι ω σ γ : Type}

/-! ### Monotone domains -/

namespace Domain

/-- A larger state leads to a larger state. -/
def Monotone (d : Domain ι ω σ γ) : Prop :=
  ∀ op p s t c, d.leq s t = true → d.leq (d.step op p s c).1 (d.step op p t c).1 = true

/-- A larger input leads to a larger final state. -/
theorem Monotone.final_trace {d : Domain ι ω σ γ} (hmono : d.Monotone) (hfree : d.ContextFree)
    (id : ι) (i : Nat) (ops : List ω) {s t : σ} (c c' : γ) (h : d.leq s t = true) :
    d.leq (final s (d.trace id i ops s c).1) (final t (d.trace id i ops t c').1) = true := by
  induction ops generalizing i s t c c' with
  | nil => exact h
  | cons op ops ih =>
    have hstep : d.leq (d.step op ⟨id, i⟩ s c).1 (d.step op ⟨id, i⟩ t c').1 = true := by
      rw [hfree op ⟨id, i⟩ t c' c]
      exact hmono op ⟨id, i⟩ s t c h
    simp only [trace, final_cons]
    exact ih (i + 1) _ _ hstep

end Domain

variable [DecidableEq ι] [Ord ι] [TransOrd ι] [LawfulEqOrd ι]

/-! ### Properties of inputs -/

namespace Run

/-- The input of every reached block has the property. -/
def InputsHave (r : Run ι σ) (P : ι → σ → Prop) : Prop :=
  ∀ b f, r.facts.get? b = some f → P b f.input

end Run

namespace Engine

variable {e : Engine ι ω σ γ}

/-- A turn keeps a property of all inputs, if executing a block leads to states that have it at the
successors, and joining keeps it. -/
theorem inputsHave_visit {P : ι → σ → Prop}
    (hjoin : ∀ b s t, P b s → P b t → P b (e.domain.join s t))
    (hstep : ∀ b n s c, e.graph.node? b = some n → P b s → ∀ t ∈ n.succs,
      e.graph.contains t = true → P t (Domain.final s (e.domain.trace b 0 n.ops s c).1))
    {id : ι} {rest : List ι} {r r' : Run ι σ} {c c' : γ} (h : r.InputsHave P)
    (hv : e.visit id { r with pending := rest } c = ((r', c'), .ok ())) : r'.InputsHave P := by
  refine every_visit (P := fun b f => P b f.input) h hv (fun _ _ _ hin => hin) ?_
  intro n f t hn hin ht hcontains
  have hfin := hstep id n f.input c hn hin t ht hcontains
  exact ⟨hfin, fun f' hf' => hjoin t f'.input _ hf' hfin⟩

/-! ### Solutions -/

/-- An assignment of states to blocks that covers the initial state, and that executing a block
does not leave. Only blocks that paths lead to count. -/
structure Solves (e : Engine ι ω σ γ) (entry : ι) (s₀ : σ) (X : ι → σ) : Prop where
  initial : e.domain.leq s₀ (X entry) = true
  closed : ∀ {b t n}, e.graph.Path entry b → e.graph.node? b = some n → t ∈ n.succs →
    e.graph.Path entry t → ∀ c, e.domain.leq (e.domain.replay b n.ops (X b) c).1 (X t) = true

/-- **Every input is below every solution.** This holds at every turn: a block starts with a state
that is below the solution, and joins of such states are below it too, because they are least. -/
theorem leq_of_solves {entry : ι} {s₀ : σ} {r₀ r : Run ι σ} {c c' : γ}
    (ho : e.domain.Semilattice) (hmono : e.domain.Monotone) (hfree : e.domain.ContextFree)
    (hstart : Run.start e.graph entry s₀ = .ok r₀)
    (hturns : e.Turns (r₀, c) (r, c')) {X : ι → σ} (hX : e.Solves entry s₀ X) :
    r.InputsHave fun b s => e.graph.Path entry b ∧ e.domain.leq s (X b) = true := by
  refine hturns.induct
    (P := fun r => r.InputsHave fun b s => e.graph.Path entry b ∧ e.domain.leq s (X b) = true)
    ?_ ?_
  · intro id rest r c r' c' h _ hv
    refine inputsHave_visit ?_ ?_ h hv
    · intro b s t hs ht
      exact ⟨hs.1, ho.join_leq hs.2 ht.2⟩
    · intro b n s c hn hb t ht hcontains
      have hpath : e.graph.Path entry t := .edge hb.1 hn ht hcontains
      have hbelow : e.domain.leq (Domain.final s (e.domain.trace b 0 n.ops s c).1)
          (e.domain.replay b n.ops (X b) c).1 = true :=
        hmono.final_trace hfree b 0 n.ops c c hb.2
      exact ⟨hpath, ho.trans hbelow (hX.closed hb.1 hn ht hpath c)⟩
  · exact every_start hstart fun hentry => ⟨.refl hentry, hX.initial⟩

end Engine

/-- The inputs of a run as an assignment of states to blocks. -/
def Run.inputs (r : Run ι σ) (s₀ : σ) (b : ι) : σ := (r.facts.get? b).elim s₀ (·.input)

omit [DecidableEq ι] [TransOrd ι] [LawfulEqOrd ι] in
theorem Run.inputs_of_get? {r : Run ι σ} {s₀ : σ} {b : ι} {f : Facts σ}
    (hf : r.facts.get? b = some f) : r.inputs s₀ b = f.input := by
  rw [inputs, hf, Option.elim_some]

/-- Two runs have reached the same blocks, with inputs that cover each other. -/
def Run.Agrees (o : JoinOrder σ) (r r' : Run ι σ) : Prop :=
  ∀ b, Option.Rel (fun f f' => o.Equivalent f.input f'.input) (r.facts.get? b) (r'.facts.get? b)

namespace Engine

variable {e : Engine ι ω σ γ} {entry : ι} {s₀ : σ} {r₀ r r' : Run ι σ} {c c' k k' : γ}

/-- **The inputs are a solution**, once nothing is pending. -/
theorem solves_inputs (ho : e.domain.Lawful) (hfree : e.domain.ContextFree)
    (hstart : Run.start e.graph entry s₀ = .ok r₀) (hturns : e.Turns (r₀, c) (r, c'))
    (hdone : r.pending = []) : e.Solves entry s₀ (r.inputs s₀) where
  initial := by
    obtain ⟨f, hf, hle⟩ := covers_entry_of_turns ho hstart hturns
    rw [Run.inputs_of_get? hf]
    exact hle
  closed {b t n} hb hn ht _ k := by
    obtain ⟨f, hf⟩ := Option.isSome_iff_exists.1
      ((reached_iff_path hstart hturns hdone).2 hb)
    obtain ⟨n', hn', hall⟩ := (settled_of_turns ho hstart hturns hdone hf).complete hfree
    obtain rfl := Option.some.inj (hn.symm.trans hn')
    obtain ⟨ft, hft, hle⟩ := (hall k).2.2 t ht
    rw [Run.inputs_of_get? hf, Run.inputs_of_get? hft]
    exact hle

/-- Runs in any two orders agree: each is the least solution, and the other one is a solution. -/
theorem agrees_of_turns (ho : e.domain.Semilattice) (hmono : e.domain.Monotone)
    (hfree : e.domain.ContextFree) (hstart : Run.start e.graph entry s₀ = .ok r₀)
    (hturns : e.Turns (r₀, c) (r, c')) (hdone : r.pending = [])
    (hturns' : e.Turns (r₀, k) (r', k')) (hdone' : r'.pending = []) :
    r.Agrees e.domain.toJoinOrder r' := by
  have hsame : ∀ b, (r.facts.get? b).isSome = true ↔ (r'.facts.get? b).isSome = true := fun b =>
    (reached_iff_path hstart hturns hdone).trans
      (reached_iff_path hstart hturns' hdone').symm
  have hsol := solves_inputs ho.toLawful hfree hstart hturns hdone
  have hsol' := solves_inputs ho.toLawful hfree hstart hturns' hdone'
  intro b
  cases hf : r.facts.get? b with
  | none =>
    cases hf' : r'.facts.get? b with
    | none => exact .none
    | some f' => simpa [hf, hf'] using hsame b
  | some f =>
    cases hf' : r'.facts.get? b with
    | none => simpa [hf, hf'] using hsame b
    | some f' =>
      have hle := (leq_of_solves ho hmono hfree hstart hturns hsol' b f hf).2
      have hle' := (leq_of_solves ho hmono hfree hstart hturns' hsol b f' hf').2
      rw [Run.inputs_of_get? hf'] at hle
      rw [Run.inputs_of_get? hf] at hle'
      exact .some ⟨hle, hle'⟩

/-- **Least solutions, whatever the order.** Let the domain be monotone, with least upper bounds,
and let its states not depend on the context. If a run succeeds, the input of every reached block is
below every solution. And a run that takes pending blocks in any other order, in any context,
reaches the same blocks with inputs that cover each other, if it comes to an end. -/
theorem leastSolution_of_analyze (ho : e.domain.Semilattice) (hmono : e.domain.Monotone)
    (hfree : e.domain.ContextFree) {fuel : Nat}
    (hstart : Run.start e.graph entry s₀ = .ok r₀)
    (hrun : e.analyze fuel r₀ c = ((r, c'), .ok ())) :
    (∀ X, e.Solves entry s₀ X →
      ∀ b f, r.facts.get? b = some f → e.domain.leq f.input (X b) = true) ∧
    ∀ r' k k', e.Turns (r₀, k) (r', k') → r'.pending = [] →
      r.Agrees e.domain.toJoinOrder r' := by
  obtain ⟨hturns, hdone⟩ := turns_of_analyze hrun
  constructor
  · intro X hX b f hf
    exact (leq_of_solves ho hmono hfree hstart hturns hX b f hf).2
  · intro r' k k' hturns' hdone'
    exact agrees_of_turns ho hmono hfree hstart hturns hdone hturns' hdone'

/-- A block with two successors, which are each other's successor. Every operation adds its number
to the state, and counts in the context. -/
def gathering : Engine Nat Nat (OrdSet Nat) Nat where
  graph := ⟨[⟨0, [0], [1, 2]⟩, ⟨1, [1], [2]⟩, ⟨2, [2], [1]⟩]⟩
  domain := { JoinOrder.powerset with step := fun op _ s count => (s.insert op, count + 1) }
  nodeLimit := 0

/-- A fresh run of the three blocks. -/
def gatheringStart : Run Nat (OrdSet Nat) := ⟨(∅ : OrdMap Nat _).insert 0 (.start ∅), [0], 0⟩

/-- The two successors are served in the order in which they became pending, while the engine takes
the later one first. -/
theorem turns_gathering :
    ∃ r count, gathering.Turns (gatheringStart, 0) (r, count) ∧ r.pending = [] ∧ r.visits = 6 := by
  have h₀ : gathering.Turns (gatheringStart, 0) (gatheringStart, 0) := .refl
  have h₁ := h₀.tail (turn_of_visit 0 [] (by decide) rfl)
  have h₂ := h₁.tail (turn_of_visit 1 [2] (by decide) rfl)
  have h₃ := h₂.tail (turn_of_visit 2 [2] (by decide) rfl)
  have h₄ := h₃.tail (turn_of_visit 2 [1] (by decide) rfl)
  have h₅ := h₄.tail (turn_of_visit 1 [] (by decide) rfl)
  have h₆ := h₅.tail (turn_of_visit 2 [] (by decide) rfl)
  exact ⟨_, _, h₆, rfl, rfl⟩

/-- The engine's run of the three blocks is below every solution, and agrees with the run in the
other order. -/
theorem leastSolution_gathering :
    let result := gathering.analyze 6 gatheringStart 0
    result.2 = .ok () ∧
      (∀ X, gathering.Solves 0 ∅ X → ∀ b f, result.1.1.facts.get? b = some f →
        gathering.domain.leq f.input (X b) = true) ∧
      ∃ r count, gathering.Turns (gatheringStart, 0) (r, count) ∧ r.pending = [] ∧
        result.1.1.Agrees gathering.domain.toJoinOrder r := by
  have hok : (gathering.analyze 6 gatheringStart 0).2 = .ok () := rfl
  have hmono : gathering.domain.Monotone := by
    intro op p s t c h
    refine OrdSet.subset_iff.2 fun a ha => ?_
    rcases OrdSet.mem_insert.1 ha with rfl | ha
    · exact OrdSet.mem_insert.2 (Or.inl rfl)
    · exact OrdSet.mem_insert.2 (Or.inr (OrdSet.subset_iff.1 h a ha))
  obtain ⟨hleast, hagrees⟩ := leastSolution_of_analyze JoinOrder.semilattice_powerset hmono
    (fun _ _ _ _ _ => rfl) (Run.start_eq_ok_iff.2 ⟨rfl, rfl⟩) (Prod.ext rfl hok)
  obtain ⟨r, count, hturns, hdone, -⟩ := turns_gathering
  exact ⟨hok, hleast, r, count, hturns, hdone, hagrees r 0 count hturns hdone⟩

end Engine

end EvmAccess
