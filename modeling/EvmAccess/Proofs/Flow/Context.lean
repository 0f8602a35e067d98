import EvmAccess.Proofs.Flow.Invariant

/-!
# What a run leaves in its context

The context is carried through all turns of a run, and a block may be executed many times before its
input stops growing. If a step notes something about the states before and after it, and no step
takes a note back, then at the end the notes on all recorded states are there, because each of them
was passed in the last execution of its block.

## Main results

- `Engine.Noted.visit`: a turn leaves the notes on all states that it leaves recorded.
- `Engine.noted_of_analyze`: at the end there are notes on all recorded states.
-/

namespace EvmAccess

open Std

variable {ι ω σ γ : Type}

/-! ### Executing a block -/

namespace Domain

/-- Each step notes `N` about its operation, the state before it and the state after it, and no
step takes a note back. -/
structure Notes (d : Domain ι ω σ γ) (N : ω → Point ι → σ → σ → γ → Prop) : Prop where
  /-- A step notes something. -/
  own : ∀ op p s c, N op p s (d.step op p s c).1 (d.step op p s c).2
  /-- Notes stay. -/
  kept : ∀ {op p s t c}, N op p s t c → ∀ op' p' s', N op p s t (d.step op' p' s' c).2

variable {d : Domain ι ω σ γ} {N : ω → Point ι → σ → σ → γ → Prop}

theorem Notes.kept_trace (h : d.Notes N) {op : ω} {p : Point ι} {s t : σ} {c : γ}
    (hn : N op p s t c) (id : ι) (i : Nat) (ops : List ω) (s' : σ) :
    N op p s t (d.trace id i ops s' c).2 :=
  (trace_induct (J := fun _ _ => True) (C := N op p s t)
    (fun _ op' s' _ _ _ hc => ⟨trivial, h.kept hc op' _ s'⟩) trivial hn).2.2

/-- An execution leaves notes on all states that it passes. -/
theorem Notes.trace (h : d.Notes N) {id : ι} {ops : List ω} {i j : Nat} {s t t' : σ} {c : γ}
    {op : ω} (hop : ops[j]? = some op) (ht : (s :: (d.trace id i ops s c).1)[j]? = some t)
    (ht' : (s :: (d.trace id i ops s c).1)[j + 1]? = some t') :
    N op ⟨id, i + j⟩ t t' (d.trace id i ops s c).2 := by
  induction ops generalizing i j s c with
  | nil => simp at hop
  | cons op' ops ih =>
    cases j with
    | zero =>
      simp only [List.getElem?_cons_zero, Option.some.injEq] at hop ht
      obtain rfl : (d.step op' ⟨id, i⟩ s c).1 = t' := Option.some.inj ht'
      subst hop ht
      exact h.kept_trace (h.own op' ⟨id, i⟩ s c) id (i + 1) ops _
    | succ j =>
      simp only [List.getElem?_cons_succ] at hop ht ht'
      have hrest := ih (i := i + 1) hop (by simpa [Domain.trace] using ht)
        (by simpa [Domain.trace] using ht')
      rwa [show i + 1 + j = i + (j + 1) by omega] at hrest

end Domain

/-! ### Turns and runs -/

namespace Engine

variable [Ord ι] [TransOrd ι] [LawfulEqOrd ι] [DecidableEq ι] {e : Engine ι ω σ γ}
  {N : ω → Point ι → σ → σ → γ → Prop}

/-- There are notes on all recorded states that have a recorded successor in their block. -/
def Noted (e : Engine ι ω σ γ) (N : ω → Point ι → σ → σ → γ → Prop) (r : Run ι σ) (c : γ) : Prop :=
  ∀ b f n, r.facts.get? b = some f → e.graph.node? b = some n →
    ∀ j op s t, n.ops[j]? = some op → f.before? j = some s → f.before? (j + 1) = some t →
      N op ⟨b, j⟩ s t c

/-- A block that is new or has grown has no states inside it to take notes on. -/
theorem Noted.insert {r : Run ι σ} {c : γ} (h : e.Noted N r c) (b : ι) {f : Facts σ}
    (hf : f.states = []) (pending : List ι) (visits : Nat) :
    e.Noted N ⟨r.facts.insert b f, pending, visits⟩ c := by
  intro b' f' n hb' hn j op s t hop hs ht
  rw [OrdMap.get?_insert] at hb'
  split at hb'
  · obtain rfl := Option.some.inj hb'
    rw [Facts.before?, hf] at ht
    cases ht
  · exact h b' f' n hb' hn j op s t hop hs ht

theorem Noted.deliver {r : Run ι σ} {c : γ} (h : e.Noted N r c) (o : JoinOrder σ) (t : ι) (s : σ) :
    e.Noted N (r.deliver o t s) c := by
  rcases r.deliver_cases o t s with ⟨-, heq⟩ | ⟨f, -, -, heq⟩ | ⟨f, -, -, heq⟩
  · rw [heq]
    exact h.insert t rfl _ _
  · rw [heq]
    exact h
  · rw [heq]
    exact h.insert t rfl _ _

/-- **A turn leaves the notes on all states that it leaves recorded**: the visited block was just
executed, and the notes on the others are not lost. -/
theorem Noted.visit (hN : e.domain.Notes N) {id : ι} {rest : List ι} {r r' : Run ι σ} {c c' : γ}
    (h : e.Noted N r c) (hv : e.visit id { r with pending := rest } c = ((r', c'), .ok ())) :
    e.Noted N r' c' := by
  obtain ⟨n, f, hn, hf, -, rfl, rfl⟩ := visit_ok_iff.1 hv
  refine deliverAll_induct (R := fun r' => e.Noted N r' _)
    (fun t _ _ _ hr => hr.deliver _ t _) ?_
  intro b fb m hb hm j op s t hop hs ht
  rw [Run.get?_enter] at hb
  split at hb
  · rename_i hid
    subst hid
    obtain rfl := Option.some.inj hb
    obtain rfl : n = m := Option.some.inj (hn.symm.trans hm)
    have hnote := hN.trace (i := 0) hop hs ht
    rwa [Nat.zero_add] at hnote
  · exact hN.kept_trace (h b fb m hb hm j op s t hop hs ht) id 0 n.ops f.input

/-- At the end of a run there are notes on all recorded states. -/
theorem noted_of_analyze (hN : e.domain.Notes N) {entry : ι} {s₀ : σ} {r₀ r : Run ι σ}
    {fuel : Nat} {c c' : γ} (hstart : Run.start e.graph entry s₀ = .ok r₀)
    (hrun : e.analyze fuel r₀ c = ((r, c'), .ok ())) : e.Noted N r c' := by
  refine (analyze_induct (P := fun r c => e.Noted N r c) (fun h _ hv => h.visit hN hv) ?_ hrun).1
  obtain ⟨-, rfl⟩ := Run.start_eq_ok_iff.1 hstart
  have hempty : e.Noted N ⟨∅, [entry], 0⟩ c := fun b f n hb => by simp at hb
  exact hempty.insert entry rfl _ _

end Engine

end EvmAccess
