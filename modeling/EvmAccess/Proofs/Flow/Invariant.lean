import EvmAccess.Proofs.Flow.Turn

/-!
# Invariants of a run

A state belongs to a point of the graph, and what can be said about it may speak about the context
as well: a number that a state mentions has to be handed out before. `Engine.Invariant` collects
what such a property has to meet. Operations and edges hand it on, joining keeps it, and an
operation does not take it away from the states that were recorded before. Then all recorded states
have it after every turn, in the context of that turn.

## Main results

- `Engine.Invariant.executed`: an execution of a block has the invariant at every position.
- `Engine.Invariant.visit`, `Engine.Invariant.turns`: a turn keeps the invariant, and so do turns in
  any order.
- `Engine.Invariant.passes`: the states that a visit comes to have the invariant.
- `Engine.recorded_of_analyze`: what every step keeps of the states alone, a run keeps.
-/

namespace EvmAccess

open Std

variable {ι ω σ γ : Type} [DecidableEq ι]

/-- All states of a fresh run have a property if its initial state has it. -/
theorem Run.everywhere_start [Ord ι] [TransOrd ι] [LawfulEqOrd ι] {g : Graph ι ω} {entry : ι}
    {J : ι → Nat → σ → Prop} {s₀ : σ} {r₀ : Run ι σ} (hstart : start g entry s₀ = .ok r₀)
    (hs₀ : J entry 0 s₀) : r₀.Everywhere J := by
  obtain ⟨-, rfl⟩ := start_eq_ok_iff.1 hstart
  exact OrdMap.every_empty.insert (Facts.before?_of_states_eq_nil rfl hs₀)

omit [DecidableEq ι] in
/-- What the states have at their positions, all of them have. -/
theorem Run.Everywhere.recorded [Ord ι] {r : Run ι σ} {J : ι → Nat → σ → Prop} {Inv : σ → Prop}
    (h : r.Everywhere J) (hJ : ∀ b j s, J b j s → Inv s) : r.Recorded Inv := by
  intro b f hf
  refine ⟨hJ b 0 f.input (h b f hf 0 f.input rfl), fun s hs => ?_⟩
  obtain ⟨j, hj⟩ := List.mem_iff_getElem?.1 hs
  exact hJ b (j + 1) s (h b f hf (j + 1) s hj)

namespace Engine

/-- A property `C` of the context and a property `J` of the state before a point, in a context, that
nothing the engine does can break. -/
structure Invariant (e : Engine ι ω σ γ) (C : γ → Prop) (J : γ → Point ι → σ → Prop) : Prop where
  /-- Joining keeps it at the start of a block. -/
  join : ∀ {c b s t}, J c ⟨b, 0⟩ s → J c ⟨b, 0⟩ t → J c ⟨b, 0⟩ (e.domain.join s t)
  /-- An operation keeps the context in order. -/
  context : ∀ {b n j op s c}, e.graph.node? b = some n → n.ops[j]? = some op → C c →
    J c ⟨b, j⟩ s → C (e.domain.step op ⟨b, j⟩ s c).2
  /-- An operation hands it on to the next position. -/
  next : ∀ {b n j op s c}, e.graph.node? b = some n → n.ops[j]? = some op → C c →
    J c ⟨b, j⟩ s → J (e.domain.step op ⟨b, j⟩ s c).2 ⟨b, j + 1⟩ (e.domain.step op ⟨b, j⟩ s c).1
  /-- An operation takes it away from no other state. -/
  kept : ∀ {b n j op s c}, e.graph.node? b = some n → n.ops[j]? = some op → C c →
    J c ⟨b, j⟩ s → ∀ p t, J c p t → J (e.domain.step op ⟨b, j⟩ s c).2 p t
  /-- An edge hands it on to the next block. -/
  leave : ∀ {b n t s c}, e.graph.node? b = some n → t ∈ n.succs → e.graph.contains t = true →
    J c ⟨b, n.ops.length⟩ s → J c ⟨t, 0⟩ s

variable {e : Engine ι ω σ γ} {C : γ → Prop} {J : γ → Point ι → σ → Prop}

/-- An execution from position `i` of a block on has the invariant at every position that it passes,
in the context at its end, where the states recorded before still have it. -/
theorem Invariant.trace (inv : e.Invariant C J) {id : ι} {n : Node ι ω}
    (hn : e.graph.node? id = some n) {ops : List ω} {i : Nat} {s : σ} {c : γ}
    (hops : n.ops.drop i = ops) (hc : C c) (hs : J c ⟨id, i⟩ s) :
    C (e.domain.trace id i ops s c).2 ∧
      (∀ p t, J c p t → J (e.domain.trace id i ops s c).2 p t) ∧
      ∀ j t, (s :: (e.domain.trace id i ops s c).1)[j]? = some t →
        J (e.domain.trace id i ops s c).2 ⟨id, i + j⟩ t := by
  induction ops generalizing i s c with
  | nil =>
    refine ⟨hc, fun _ _ h => h, fun j t ht => ?_⟩
    cases j with
    | zero => exact Option.some.inj ht ▸ hs
    | succ j => cases ht
  | cons op ops ih =>
    have hop : n.ops[i]? = some op := by
      rw [← Nat.add_zero i, ← List.getElem?_drop, hops, List.getElem?_cons_zero]
    have hrest : n.ops.drop (i + 1) = ops := by
      rw [← List.tail_drop, hops, List.tail_cons]
    obtain ⟨hctx, hkept, hall⟩ := ih hrest (inv.context hn hop hc hs) (inv.next hn hop hc hs)
    refine ⟨hctx, fun p t h => hkept p t (inv.kept hn hop hc hs p t h), fun j t ht => ?_⟩
    cases j with
    | zero => exact Option.some.inj ht ▸ hkept _ s (inv.kept hn hop hc hs _ s hs)
    | succ j =>
      rw [← Nat.add_assoc, Nat.add_right_comm]
      exact hall j t ht

/-- The execution of a whole block has the invariant at every position, also at its end. -/
theorem Invariant.executed (inv : e.Invariant C J) {id : ι} {n : Node ι ω}
    (hn : e.graph.node? id = some n) {s : σ} {c : γ} (hc : C c) (hs : J c ⟨id, 0⟩ s) :
    let c' := (e.domain.trace id 0 n.ops s c).2
    C c' ∧ (∀ p t, J c p t → J c' p t) ∧
      (∀ j t, (Facts.executed e.domain id n.ops s c).before? j = some t → J c' ⟨id, j⟩ t) ∧
      J c' ⟨id, n.ops.length⟩ (Domain.final s (e.domain.trace id 0 n.ops s c).1) := by
  obtain ⟨hctx, hkept, hall⟩ := inv.trace hn List.drop_zero hc hs
  simp only [Nat.zero_add] at hall
  refine ⟨hctx, hkept, hall, hall n.ops.length _ ?_⟩
  rw [← Domain.length_trace e.domain id 0 n.ops s c]
  exact Domain.final_eq_getElem _ _

variable [Ord ι] [TransOrd ι] [LawfulEqOrd ι]

/-- **A turn keeps an invariant.** -/
theorem Invariant.visit (inv : e.Invariant C J) {id : ι} {rest : List ι} {r r' : Run ι σ} {c c' : γ}
    (hc : C c) (h : r.Everywhere fun b j s => J c ⟨b, j⟩ s)
    (hv : e.visit id { r with pending := rest } c = ((r', c'), .ok ())) :
    C c' ∧ r'.Everywhere fun b j s => J c' ⟨b, j⟩ s := by
  obtain ⟨n, f, hn, hf, -, hc', rfl⟩ := visit_ok_iff.1 hv
  obtain ⟨hctx, hkept, hall, hlast⟩ := inv.executed hn hc (h id f hf 0 f.input rfl)
  simp only [← hc'] at hctx hkept hall hlast
  refine ⟨hctx, deliverAll_induct (R := fun r => r.Everywhere fun b j s => J c' ⟨b, j⟩ s) ?_ ?_⟩
  · intro t ht hcontains r hr
    have hin := inv.leave hn ht hcontains hlast
    exact Run.every_deliver hr (Facts.before?_of_states_eq_nil rfl hin) fun f hf =>
      Facts.before?_of_states_eq_nil rfl (inv.join (hf 0 f.input rfl) hin)
  · exact OrdMap.Every.insert (fun b f hf j s hs => hkept _ s (h b f hf j s hs)) hall

/-- **Turns in any order keep an invariant.** The induction is on the turns, and the context may
change with every one. -/
theorem Invariant.turns (inv : e.Invariant C J) {x y : Run ι σ × γ} (hturns : e.Turns x y)
    (hc : C x.2) (hx : x.1.Everywhere fun b j s => J x.2 ⟨b, j⟩ s) :
    C y.2 ∧ y.1.Everywhere fun b j s => J y.2 ⟨b, j⟩ s := by
  induction hturns with
  | refl => exact ⟨hc, hx⟩
  | tail _ hturn ih =>
    obtain ⟨id, rest, -, hv⟩ := hturn
    exact inv.visit ih.1 ih.2 hv

theorem Invariant.analyze (inv : e.Invariant C J) {r r' : Run ι σ} {fuel : Nat} {c c' : γ}
    (hc : C c) (h : r.Everywhere fun b j s => J c ⟨b, j⟩ s)
    (hrun : e.analyze fuel r c = ((r', c'), .ok ())) :
    C c' ∧ r'.Everywhere fun b j s => J c' ⟨b, j⟩ s :=
  inv.turns (turns_of_analyze hrun).1 hc h

/-- A visit to the block of `p` comes to `p` in state `s`. The state need not be recorded
afterwards, since a block that hands something new to itself forgets its states. -/
def Passes (e : Engine ι ω σ γ) (r : Run ι σ) (c : γ) (p : Point ι) (s : σ) : Prop :=
  ∃ n f, e.graph.node? p.block = some n ∧ r.facts.get? p.block = some f ∧
    (Facts.executed e.domain p.block n.ops f.input c).before? p.index = some s

omit [TransOrd ι] [LawfulEqOrd ι] in
/-- The states that a visit comes to have the invariant, at the end of the visit. -/
theorem Invariant.passes (inv : e.Invariant C J) {r : Run ι σ} {c : γ} (hc : C c)
    (h : r.Everywhere fun b j s => J c ⟨b, j⟩ s) {p : Point ι} {s : σ} (hp : e.Passes r c p s) :
    ∃ c', C c' ∧ J c' p s := by
  obtain ⟨n, f, hn, hf, hs⟩ := hp
  obtain ⟨hctx, -, hall, -⟩ := inv.executed hn hc (h p.block f hf 0 f.input rfl)
  exact ⟨_, hctx, hall p.index s hs⟩

/-- What the initial state has, every step keeps and joining keeps, every recorded state has. -/
theorem recorded_of_analyze {Inv : σ → Prop}
    (hjoin : ∀ s t, Inv s → Inv t → Inv (e.domain.join s t))
    (hstep : ∀ op p s c, Inv s → Inv (e.domain.step op p s c).1) {entry : ι} {s₀ : σ}
    (hs₀ : Inv s₀) {r₀ r : Run ι σ} {fuel : Nat} {c c' : γ}
    (hstart : Run.start e.graph entry s₀ = .ok r₀)
    (hrun : e.analyze fuel r₀ c = ((r, c'), .ok ())) : r.Recorded Inv := by
  have inv : e.Invariant (fun _ => True) fun _ _ s => Inv s :=
    { join := fun hs ht => hjoin _ _ hs ht
      context := fun _ _ _ _ => trivial
      next := fun _ _ _ hs => hstep _ _ _ _ hs
      kept := fun _ _ _ _ _ _ h => h
      leave := fun _ _ _ hs => hs }
  have hall := (inv.analyze trivial (Run.everywhere_start hstart hs₀) hrun).2
  exact hall.recorded fun _ _ _ hs => hs

end Engine

end EvmAccess
