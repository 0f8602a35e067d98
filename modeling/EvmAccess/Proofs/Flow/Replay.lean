import EvmAccess.Proofs.Flow.Context
import EvmAccess.Proofs.Flow.Results

/-!
# Executing everything once more

At the end of a run, its inputs are stable: one more execution of a block hands over nothing new.
The context is another matter, since it was written to in all executions, also in those from inputs
that have grown since. It is stable too if the domain can repeat itself: an operation that was
executed once, and is executed again from the same state, leads to the same state and leaves the
context as it is, whatever else was executed in between. Then the context of the end knows the last
execution of every block, and all of them can be repeated there.

## Main results

- `Domain.trace_eq_of_repeats`: if each operation of a block repeats itself, its execution does.
- `Engine.isStable_of_replay`: when the final check succeeds and leaves the context as it is.
- `Engine.closedUnderReplay_of_noted`: the results of a run are closed under replay.
-/

namespace EvmAccess

open Std

variable {ι ω σ γ : Type}

namespace Domain

/-- Executed at the point, the operation leads from the first state to the second, and leaves the
context as it is. -/
def Repeats (d : Domain ι ω σ γ) (op : ω) (p : Point ι) (s t : σ) (c : γ) : Prop :=
  d.step op p s c = (t, c)

/-- If each operation repeats itself, the execution of the block does. -/
theorem trace_eq_of_repeats {d : Domain ι ω σ γ} {id : ι} {ops : List ω} {states : List σ} {i : Nat}
    {s : σ} {c : γ} (hlength : states.length = ops.length)
    (hrepeats : ∀ j op u t, ops[j]? = some op → (s :: states)[j]? = some u →
      (s :: states)[j + 1]? = some t → d.Repeats op ⟨id, i + j⟩ u t c) :
    d.trace id i ops s c = (states, c) := by
  induction ops generalizing i s states with
  | nil => rw [List.length_eq_zero_iff.1 hlength, trace]
  | cons op ops ih =>
    obtain ⟨t, rest, rfl⟩ := List.exists_cons_of_length_eq_add_one hlength
    have hfirst : d.step op ⟨id, i⟩ s c = (t, c) := hrepeats 0 op s t rfl rfl rfl
    have hrest : d.trace id (i + 1) ops t c = (rest, c) := by
      refine ih (Nat.succ.inj hlength) fun j op' u v hop hu hv => ?_
      rw [show i + 1 + j = i + (j + 1) by omega]
      exact hrepeats (j + 1) op' u v hop hu hv
    simp only [trace, hfirst, hrest]

end Domain

namespace Engine

variable [Ord ι] [DecidableEq ι] {e : Engine ι ω σ γ} {r : Run ι σ} {c : γ}

/-- What is known of the reached blocks is closed under replay: the final check succeeds, and each
block, executed again from its input, goes through the recorded states. The context stays as it
is. -/
structure ClosedUnderReplay (e : Engine ι ω σ γ) (r : Run ι σ) (c : γ) : Prop where
  isFixpoint : e.isFixpoint r c = (true, c)
  trace : ∀ b f, r.facts.get? b = some f →
    ∃ n, e.graph.node? b = some n ∧ e.domain.trace b 0 n.ops f.input c = (f.states, c)

omit [DecidableEq ι] in
theorem covers_iff {s : σ} {succs : List ι} :
    e.covers r s succs = true ↔ ∀ t ∈ succs, r.Covers e.domain.toJoinOrder t s := by
  rw [covers, List.all_eq_true]
  refine forall_congr' fun t => imp_congr_right fun _ => ?_
  cases hf : r.facts.get? t <;> simp [Run.Covers, Run.InputHas, hf]

/-- The check of some blocks succeeds, and leaves the context as it is, if each of them can be
repeated and is covered by its successors. -/
theorem isStable_of_replay {blocks : List (ι × Facts σ)}
    (h : ∀ x ∈ blocks, ∃ n, e.graph.node? x.1 = some n ∧
      e.domain.trace x.1 0 n.ops x.2.input c = (x.2.states, c) ∧
      ∀ t ∈ n.succs, r.Covers e.domain.toJoinOrder t (Domain.final x.2.input x.2.states)) :
    e.isStable r blocks c = (true, c) := by
  induction blocks with
  | nil => rfl
  | cons x blocks ih =>
    obtain ⟨id, f⟩ := x
    obtain ⟨n, hn, htrace, hcov⟩ := h (id, f) List.mem_cons_self
    simp only [isStable, hn, Domain.replay, htrace, covers_iff.2 hcov, if_true]
    exact ih fun x hx => h x (List.mem_cons_of_mem _ hx)

variable [TransOrd ι] [LawfulEqOrd ι]

/-- **The results of a run are closed under replay** in every context in which all recorded steps
repeat themselves. -/
theorem closedUnderReplay_of_noted (ho : e.domain.Lawful) {entry : ι} {s₀ : σ} {r₀ : Run ι σ}
    {fuel : Nat} {c₀ c₁ : γ} (hstart : Run.start e.graph entry s₀ = .ok r₀)
    (hrun : e.analyze fuel r₀ c₀ = ((r, c₁), .ok ()))
    (hnoted : e.Noted e.domain.Repeats r c) : e.ClosedUnderReplay r c := by
  have hblock : ∀ b f, r.facts.get? b = some f → ∃ n, e.graph.node? b = some n ∧
      e.domain.trace b 0 n.ops f.input c = (f.states, c) ∧
      ∀ t ∈ n.succs, r.Covers e.domain.toJoinOrder t (Domain.final f.input f.states) := by
    intro b f hf
    obtain ⟨n, k, hn, hex, hcov⟩ := settled_of_analyze ho hstart hrun hf
    refine ⟨n, hn, ?_, hcov⟩
    refine Domain.trace_eq_of_repeats (Facts.length_states_executed hex) ?_
    intro j op s t hop hs ht
    rw [Nat.zero_add]
    exact hnoted b f n hf hn j op s t hop hs ht
  refine ⟨isStable_of_replay fun x hx => ?_, fun b f hf => ?_⟩
  · exact hblock x.1 x.2 (OrdMap.get?_eq_some_iff.2 hx)
  · obtain ⟨n, hn, htrace, -⟩ := hblock b f hf
    exact ⟨n, hn, htrace⟩

end Engine

end EvmAccess
