import EvmAccess.Proofs.Flow.Schedule

/-!
# Two engines that agree where it matters

A run looks at a part of what an engine could do: at the nodes of the blocks that it reaches, and at
the order on the states that meet at one block. If a second engine has the same operations and
agrees with the first one on that part, its runs are the same, turn by turn. What is met is said by
an invariant of the first engine.

So a run does not depend on nodes that no path leads to, nor on what an order says about states that
never meet.

## Main results

- `Engine.AgreesOn.visit`: a turn is the same in both engines.
- `Engine.AgreesOn.analyze`: a run is the same in both engines.
-/

namespace EvmAccess

open Std

variable {ι ω σ γ : Type}

/-- An execution depends on the operations alone, not on the order. -/
theorem Domain.trace_congr {d d' : Domain ι ω σ γ} (h : d'.step = d.step) (id : ι) (i : Nat)
    (ops : List ω) (s : σ) (c : γ) : d'.trace id i ops s c = d.trace id i ops s c := by
  induction ops generalizing i s c with
  | nil => rfl
  | cons op ops ih => simp only [trace, h, ih]

variable [DecidableEq ι]

/-- Two engines execute alike, and agree on the nodes and states that have the property `J`. -/
structure Engine.AgreesOn (e e' : Engine ι ω σ γ) (J : Point ι → σ → Prop) : Prop where
  step : e'.domain.step = e.domain.step
  limit : e'.visitLimit = e.visitLimit
  node : ∀ {b s}, J ⟨b, 0⟩ s → e'.graph.node? b = e.graph.node? b
  edge : ∀ {b n s t}, J ⟨b, 0⟩ s → e.graph.node? b = some n → t ∈ n.succs →
    e'.graph.contains t = e.graph.contains t
  leq : ∀ {b s t}, J ⟨b, 0⟩ s → J ⟨b, 0⟩ t → e'.domain.leq s t = e.domain.leq s t
  join : ∀ {b s t}, J ⟨b, 0⟩ s → J ⟨b, 0⟩ t → e'.domain.join s t = e.domain.join s t

namespace Engine.AgreesOn

variable [Ord ι] [TransOrd ι] [LawfulEqOrd ι] {e e' : Engine ι ω σ γ} {J : Point ι → σ → Prop}
  {r : Run ι σ}

/-- A delivery compares and joins states of one block. -/
theorem deliver (h : e.AgreesOn e' J) (hr : r.InputsHave fun b s => J ⟨b, 0⟩ s) {t : ι} {s : σ}
    (hs : J ⟨t, 0⟩ s) :
    r.deliver e'.domain.toJoinOrder t s = r.deliver e.domain.toJoinOrder t s := by
  cases hf : r.facts.get? t with
  | none => simp only [Run.deliver, hf]
  | some f =>
    have hin : J ⟨t, 0⟩ f.input := hr t f hf
    simp only [Run.deliver, hf, Facts.receive?, h.leq hs hin, h.join hin hs]

/-- The same states are handed over, to the same successors. -/
theorem deliverAll (h : e.AgreesOn e' J)
    (hjoin : ∀ {b s t}, J ⟨b, 0⟩ s → J ⟨b, 0⟩ t → J ⟨b, 0⟩ (e.domain.join s t)) {source : ι} {s : σ}
    {succs : List ι} (hs : ∀ t ∈ succs, e.graph.contains t = true → J ⟨t, 0⟩ s)
    (hcontains : ∀ t ∈ succs, e'.graph.contains t = e.graph.contains t)
    (hr : r.InputsHave fun b s => J ⟨b, 0⟩ s) :
    e'.deliverAll source s succs r = e.deliverAll source s succs r := by
  induction succs generalizing r with
  | nil => rfl
  | cons t rest ih =>
    rw [Engine.deliverAll, Engine.deliverAll, hcontains t List.mem_cons_self]
    split
    · rename_i ht
      have hst : J ⟨t, 0⟩ s := hs t List.mem_cons_self ht
      rw [h.deliver hr hst]
      refine ih (fun t ht => hs t (List.mem_cons_of_mem _ ht))
        (fun t ht => hcontains t (List.mem_cons_of_mem _ ht)) ?_
      exact Run.every_deliver (P := fun b f => J ⟨b, 0⟩ f.input) hr hst fun f hf => hjoin hf hst
    · rfl

variable {C : γ → Prop}

/-- **A turn is the same in both engines.** -/
theorem visit (h : e.AgreesOn e' J) (inv : e.Invariant C fun _ => J) {c : γ} (hc : C c)
    (hr : r.Everywhere fun b j s => J ⟨b, j⟩ s) (id : ι) : e'.visit id r c = e.visit id r c := by
  cases hf : r.facts.get? id with
  | none =>
    have hunknown : ∀ e : Engine ι ω σ γ, e.visit id r c = ((r, c), .error (.unknownBlock id)) := by
      intro e
      cases hn : e.graph.node? id <;> simp only [Engine.visit, hn, hf]
    rw [hunknown, hunknown]
  | some f =>
    have hin : J ⟨id, 0⟩ f.input := hr id f hf 0 f.input rfl
    cases hn : e.graph.node? id with
    | none => simp only [Engine.visit, hf, h.node hin, hn]
    | some n =>
      obtain ⟨-, -, -, hlast⟩ := inv.executed hn hc hin
      simp only [Engine.visit, hf, h.node hin, hn, Facts.execute, Domain.trace_congr h.step,
        Option.getD_some]
      rw [h.deliverAll (inv.join (c := c))
        (fun t ht hcontains => inv.leave (c := c) hn ht hcontains hlast)
        (fun t ht => h.edge hin hn ht)]
      refine OrdMap.Every.insert (P := fun b f => J ⟨b, 0⟩ f.input)
        (fun b f hf => hr b f hf 0 f.input rfl) ?_
      exact hin

/-- **A run is the same in both engines**, whether it succeeds or not. -/
theorem analyze (h : e.AgreesOn e' J) (inv : e.Invariant C fun _ => J) {c : γ} (hc : C c)
    (hr : r.Everywhere fun b j s => J ⟨b, j⟩ s) (fuel : Nat) :
    e'.analyze fuel r c = e.analyze fuel r c := by
  induction fuel generalizing r c with
  | zero =>
    cases hp : r.pending with
    | nil => rw [analyze_nil hp, analyze_nil hp]
    | cons id rest => rw [analyze_zero hp, analyze_zero hp]
  | succ fuel ih =>
    cases hp : r.pending with
    | nil => rw [analyze_nil hp, analyze_nil hp]
    | cons id rest =>
      have hsame := h.visit inv hc (r := { r with pending := rest }) hr id
      rw [analyze_succ hp, analyze_succ hp, hsame, atLimit, atLimit, h.limit]
      split
      · rfl
      · split
        · rfl
        · rename_i r₁ c₁ hv
          obtain ⟨hc₁, hr₁⟩ := inv.visit hc hr hv
          exact ih hc₁ hr₁

end Engine.AgreesOn

end EvmAccess
