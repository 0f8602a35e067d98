import EvmAccess.Proofs.Flow.Order
import EvmAccess.Proofs.Flow.Turn

/-!
# The engine stops at a post-fixpoint

When a run succeeds, executing any reached block once more hands over nothing that its successors do
not cover. The step function of the domain need not be monotone for this: the states that count are
those of the last execution, and a block whose input has grown since then is pending.

The invariant says just that. A block is *settled* if its facts are those of an execution from its
present input and each successor covers the final state. At every turn each reached block is pending
or settled (`Engine.Tidy`), because deliveries only make inputs grow (`Run.Grows`) and put on the
stack whatever they change. At the end nothing is pending, so everything is settled.

## Main results

- `Engine.grows_deliverAll`: what handing a state over can change.
- `Engine.Tidy.visit`: a turn keeps the invariant.
- `Engine.settled_of_turns`: when nothing is pending, every reached block is settled.
- `Engine.postFixpoint_of_analyze`: so the inputs are a post-fixpoint above the initial state.
-/

namespace EvmAccess

open Std

variable {ι ω σ γ : Type}

variable [Ord ι]

/-! ### Growing runs -/

namespace Run

variable {o : JoinOrder σ} {r r' r'' : Run ι σ}

/-- The block was reached, and its input covers the state. -/
def Covers (o : JoinOrder σ) (r : Run ι σ) (b : ι) (s : σ) : Prop :=
  r.InputHas b fun t => o.leq s t = true

/-- What deliveries can do to a run: inputs grow, and whatever changes becomes pending. -/
structure Grows (o : JoinOrder σ) (r r' : Run ι σ) : Prop where
  kept : ∀ {b f}, r.facts.get? b = some f → ∃ f', r'.facts.get? b = some f' ∧
    o.leq f.input f'.input = true ∧ (f' = f ∨ b ∈ r'.pending)
  found : ∀ {b f}, r.facts.get? b = none → r'.facts.get? b = some f → b ∈ r'.pending
  pending : ∀ {b}, b ∈ r.pending → b ∈ r'.pending

theorem Grows.refl (ho : o.Lawful) (r : Run ι σ) : Grows o r r where
  kept {_ f} hf := ⟨f, hf, ho.refl _, Or.inl rfl⟩
  found hn hs := by simp [hn] at hs
  pending hb := hb

theorem Grows.trans (ho : o.Lawful) (h : Grows o r r') (h' : Grows o r' r'') :
    Grows o r r'' where
  kept {b f} hf := by
    obtain ⟨f', hf', hle, hsame⟩ := h.kept hf
    obtain ⟨f'', hf'', hle', hsame'⟩ := h'.kept hf'
    refine ⟨f'', hf'', ho.trans hle hle', ?_⟩
    rcases hsame with rfl | hb
    · exact hsame'
    · exact Or.inr (h'.pending hb)
  found {b f} hn hs := by
    cases hb : r'.facts.get? b with
    | none => exact h'.found hb hs
    | some f' => exact h'.pending (h.found hn hb)
  pending hb := h'.pending (h.pending hb)

/-- What is covered stays covered. -/
theorem Covers.grows (ho : o.Lawful) (hg : Grows o r r') {b : ι} {s : σ} (h : r.Covers o b s) :
    r'.Covers o b s := by
  obtain ⟨f, hf, hle⟩ := h
  obtain ⟨f', hf', hle', -⟩ := hg.kept hf
  exact ⟨f', hf', ho.trans hle hle'⟩

variable [TransOrd ι] [LawfulEqOrd ι] [DecidableEq ι]

/-- Replacing the facts of a block by facts with a larger input, and putting the block on the
stack, is growth. -/
theorem Grows.update (ho : o.Lawful) {b : ι} {f : Facts σ}
    (hf : ∀ f', r.facts.get? b = some f' → o.leq f'.input f.input = true) :
    Grows o r { r with facts := r.facts.insert b f, pending := b :: r.pending } where
  kept {b' f'} hb' := by
    by_cases h : b' = b
    · subst h
      exact ⟨f, by simp [OrdMap.get?_insert], hf f' hb', Or.inr List.mem_cons_self⟩
    · exact ⟨f', by simp [OrdMap.get?_insert, h, hb'], ho.refl _, Or.inl rfl⟩
  found {b' f'} hn hs := by
    by_cases h : b' = b
    · exact h ▸ List.mem_cons_self
    · simp [OrdMap.get?_insert, h, hn] at hs
  pending hb := List.mem_cons_of_mem _ hb

theorem Grows.deliver (ho : o.Lawful) (t : ι) (s : σ) (r : Run ι σ) :
    Grows o r (r.deliver o t s) := by
  rcases r.deliver_cases o t s with ⟨hn, heq⟩ | ⟨f, -, -, heq⟩ | ⟨f, hf, -, heq⟩
  · rw [heq]
    exact Grows.update ho fun f' hf' => by simp [hn] at hf'
  · rw [heq]
    exact Grows.refl ho r
  · rw [heq]
    refine Grows.update ho fun f' hf' => ?_
    obtain rfl : f = f' := by simpa [hf] using hf'
    exact ho.leq_join_left _ _

/-- A delivered state is covered. -/
theorem covers_deliver (ho : o.Lawful) (t : ι) (s : σ) (r : Run ι σ) :
    (r.deliver o t s).Covers o t s := by
  rcases r.deliver_cases o t s with ⟨-, heq⟩ | ⟨f, hf, hle, heq⟩ | ⟨f, -, -, heq⟩
  · exact ⟨.start s, by simp [heq, OrdMap.get?_insert], ho.refl s⟩
  · exact ⟨f, by rw [heq, hf], hle⟩
  · rw [heq]
    exact ⟨_, OrdMap.get?_insert.trans (if_pos rfl), ho.leq_join_right _ _⟩

end Run

namespace Engine

variable [TransOrd ι] [LawfulEqOrd ι] [DecidableEq ι] {e : Engine ι ω σ γ}

theorem grows_deliverAll (ho : e.domain.Lawful) (source : ι) (s : σ) (succs : List ι)
    (r : Run ι σ) :
    r.Grows e.domain.toJoinOrder (e.deliverAll source s succs r).1 :=
  deliverAll_induct (R := fun r' => r.Grows e.domain.toJoinOrder r')
    (fun t _ _ _ hr => hr.trans ho (Run.Grows.deliver ho t s _)) (Run.Grows.refl ho r)

/-- All successors cover what was handed over to them, also those that were served early. -/
theorem covers_deliverAll (ho : e.domain.Lawful) {source t : ι} {s : σ} {succs : List ι}
    {r : Run ι σ} (hsuccs : ∀ t ∈ succs, e.graph.contains t = true) (ht : t ∈ succs) :
    (e.deliverAll source s succs r).1.Covers e.domain.toJoinOrder t s := by
  induction succs generalizing r with
  | nil => cases ht
  | cons t' rest ih =>
    have hrest : ∀ t ∈ rest, e.graph.contains t = true := fun t h =>
      hsuccs t (List.mem_cons_of_mem _ h)
    rw [deliverAll, if_pos (hsuccs t' List.mem_cons_self)]
    rcases List.mem_cons.1 ht with rfl | ht
    · exact (Run.covers_deliver ho t s r).grows ho (grows_deliverAll ho _ _ _ _)
    · exact ih hrest ht

/-! ### The invariant -/

/-- The facts of a block are those of an execution from its present input, and every successor
covers the final state. -/
def Settled (e : Engine ι ω σ γ) (r : Run ι σ) (b : ι) (f : Facts σ) : Prop :=
  ∃ n c, e.graph.node? b = some n ∧ f = .executed e.domain b n.ops f.input c ∧
    ∀ t ∈ n.succs, r.Covers e.domain.toJoinOrder t (Domain.final f.input f.states)

/-- Every reached block is pending or settled. -/
def Tidy (e : Engine ι ω σ γ) (r : Run ι σ) : Prop :=
  ∀ b f, r.facts.get? b = some f → b ∈ r.pending ∨ e.Settled r b f

omit [TransOrd ι] [LawfulEqOrd ι] in
theorem Settled.mono {r r' : Run ι σ} {b : ι} {f : Facts σ} (h : e.Settled r b f)
    (hcov : ∀ {t s}, r.Covers e.domain.toJoinOrder t s → r'.Covers e.domain.toJoinOrder t s) :
    e.Settled r' b f := by
  obtain ⟨n, c, hn, hf, hall⟩ := h
  exact ⟨n, c, hn, hf, fun t ht => hcov (hall t ht)⟩

/-- A fresh run is tidy: its only block is pending. -/
theorem tidy_start {entry : ι} {s : σ} {r : Run ι σ}
    (h : Run.start e.graph entry s = .ok r) : e.Tidy r := by
  obtain ⟨-, rfl⟩ := Run.start_eq_ok_iff.1 h
  intro b f hf
  by_cases hb : b = entry
  · exact Or.inl (hb ▸ List.mem_singleton_self _)
  · simp [OrdMap.get?_insert, hb] at hf

/-- **A turn keeps the invariant.** The visited block is settled, unless it handed something new to
itself; every other block was changed and is pending, or is what it was before. It does not matter
in which order the blocks were pending. -/
theorem Tidy.visit (ho : e.domain.Lawful) {id : ι} {rest : List ι} {r r' : Run ι σ} {c c' : γ}
    (h : e.Tidy r) (hp : r.pending.Perm (id :: rest))
    (hv : e.visit id { r with pending := rest } c = ((r', c'), .ok ())) : e.Tidy r' := by
  obtain ⟨n, f, hn, hf, hsuccs, -, rfl⟩ := visit_ok_iff.1 hv
  have hf : r.facts.get? id = some f := hf
  intro b fb hb
  have hg := grows_deliverAll ho id
    (Domain.final f.input (e.domain.trace id 0 n.ops f.input c).1) n.succs
    (Run.enter { r with pending := rest } id (.executed e.domain id n.ops f.input c))
  cases hb₁ : (Run.enter { r with pending := rest } id
      (.executed e.domain id n.ops f.input c)).facts.get? b with
  | none => exact Or.inl (hg.found hb₁ hb)
  | some f₁ =>
    obtain ⟨f₂, hf₂, -, hsame⟩ := hg.kept hb₁
    obtain rfl : f₂ = fb := by simpa [hf₂] using hb
    rcases hsame with rfl | hpend
    · rw [Run.get?_enter] at hb₁
      split at hb₁
      · rename_i hid
        subst hid
        obtain rfl := Option.some.inj hb₁
        exact Or.inr ⟨n, c, hn, rfl, fun t ht => covers_deliverAll ho hsuccs ht⟩
      · rename_i hid
        rcases h b f₂ hb₁ with hpend | hset
        · have hrest : b ∈ rest := (List.mem_cons.1 (hp.mem_iff.1 hpend)).resolve_left hid
          exact Or.inl (hg.pending hrest)
        · exact Or.inr (hset.mono fun hc =>
            Run.Covers.grows ho hg (Run.InputHas.enter hc hf rfl))
    · exact Or.inl hpend

omit [TransOrd ι] [LawfulEqOrd ι] in
/-- When nothing is pending, every reached block is settled. -/
theorem Tidy.settled {r : Run ι σ} (h : e.Tidy r) (hdone : r.pending = []) {b : ι} {f : Facts σ}
    (hf : r.facts.get? b = some f) : e.Settled r b f := by
  rcases h b f hf with hpend | hset
  · simp [hdone] at hpend
  · exact hset

/-- The facts of the block are those of an execution from its present input in any context, and its
output is covered by the successors. -/
def Complete (e : Engine ι ω σ γ) (r : Run ι σ) (b : ι) (f : Facts σ) : Prop :=
  ∃ n, e.graph.node? b = some n ∧ ∀ c,
    f.states = (e.domain.trace b 0 n.ops f.input c).1 ∧
    f.output = some (e.domain.replay b n.ops f.input c).1 ∧
    ∀ t ∈ n.succs, r.Covers e.domain.toJoinOrder t (e.domain.replay b n.ops f.input c).1

omit [TransOrd ι] [LawfulEqOrd ι] in
/-- If states do not depend on the context, a settled block would do the same in any context. -/
theorem Settled.complete (hfree : e.domain.ContextFree) {b : ι} {f : Facts σ}
    (h : e.Settled r b f) : e.Complete r b f := by
  obtain ⟨n, c₀, hn, hex, hcov⟩ := h
  refine ⟨n, hn, fun c => ?_⟩
  have hstates : f.states = (e.domain.trace b 0 n.ops f.input c).1 := by
    rw [hfree.trace b 0 n.ops f.input c c₀]
    exact congrArg Facts.states hex
  have hfinal : Domain.final f.input f.states = (e.domain.replay b n.ops f.input c).1 := by
    rw [hstates]
    rfl
  have houtput : f.output = some (Domain.final f.input f.states) := by
    rw [hex]
    rfl
  exact ⟨hstates, houtput.trans (congrArg some hfinal), hfinal ▸ hcov⟩

/-! ### The end of a run -/

/-- When nothing is pending, every reached block is settled. -/
theorem settled_of_turns (ho : e.domain.Lawful) {entry : ι} {s₀ : σ} {r₀ r : Run ι σ} {c c' : γ}
    (hstart : Run.start e.graph entry s₀ = .ok r₀) (hturns : e.Turns (r₀, c) (r, c'))
    (hdone : r.pending = []) {b : ι} {f : Facts σ} (hf : r.facts.get? b = some f) :
    e.Settled r b f := by
  have htidy : e.Tidy r := hturns.induct (P := e.Tidy) (fun h hp hv => h.visit ho hp hv)
    (tidy_start hstart)
  exact htidy.settled hdone hf

theorem settled_of_analyze (ho : e.domain.Lawful) {entry : ι} {s₀ : σ} {r₀ r : Run ι σ}
    {fuel : Nat} {c c' : γ} (hstart : Run.start e.graph entry s₀ = .ok r₀)
    (hrun : e.analyze fuel r₀ c = ((r, c'), .ok ())) {b : ι} {f : Facts σ}
    (hf : r.facts.get? b = some f) : e.Settled r b f := by
  obtain ⟨hturns, hdone⟩ := turns_of_analyze hrun
  exact settled_of_turns ho hstart hturns hdone hf

/-- The entry covers the initial state at every turn. -/
theorem covers_entry_of_turns (ho : e.domain.Lawful) {entry : ι} {s₀ : σ} {r₀ r : Run ι σ}
    {c c' : γ} (hstart : Run.start e.graph entry s₀ = .ok r₀) (hturns : e.Turns (r₀, c) (r, c')) :
    r.Covers e.domain.toJoinOrder entry s₀ := by
  refine inputHas_of_turns (Q := fun t => e.domain.leq s₀ t = true) ?_ (ho.refl s₀) hstart hturns
  exact fun s t hs => ho.trans hs (ho.leq_join_left s t)

theorem covers_entry_of_analyze (ho : e.domain.Lawful) {entry : ι} {s₀ : σ} {r₀ r : Run ι σ}
    {fuel : Nat} {c c' : γ} (hstart : Run.start e.graph entry s₀ = .ok r₀)
    (hrun : e.analyze fuel r₀ c = ((r, c'), .ok ())) :
    r.Covers e.domain.toJoinOrder entry s₀ :=
  covers_entry_of_turns ho hstart (turns_of_analyze hrun).1

/-- **The engine stops only at a post-fixpoint.** If a run from a fresh start succeeds, the input of
the entry covers the initial state, every reached block is in the graph, and for every edge out of
it the target was reached too and covers what executing the block once more, from its final input
and in any context, hands over. -/
theorem postFixpoint_of_analyze (ho : e.domain.Lawful) (hfree : e.domain.ContextFree)
    {entry : ι} {s₀ : σ} {r₀ r : Run ι σ} {fuel : Nat} {c c' : γ}
    (hstart : Run.start e.graph entry s₀ = .ok r₀)
    (hrun : e.analyze fuel r₀ c = ((r, c'), .ok ())) :
    r.Covers e.domain.toJoinOrder entry s₀ ∧
      ∀ b f, r.facts.get? b = some f → ∃ n, e.graph.node? b = some n ∧
        ∀ t ∈ n.succs, ∀ k, r.Covers e.domain.toJoinOrder t
          (e.domain.replay b n.ops f.input k).1 := by
  refine ⟨covers_entry_of_analyze ho hstart hrun, fun b f hf => ?_⟩
  obtain ⟨n, k₀, hn, hex, hall⟩ := settled_of_analyze ho hstart hrun hf
  refine ⟨n, hn, fun t ht k => ?_⟩
  have hstates : f.states = (e.domain.trace b 0 n.ops f.input k).1 := by
    rw [hfree.trace b 0 n.ops f.input k k₀]
    exact congrArg Facts.states hex
  have hcov := hall t ht
  rw [hstates] at hcov
  exact hcov

/-- Three blocks, the middle one a loop. An operation adds its number to the state, but forgets
everything if the number is there already, so the step function is not monotone. -/
def toggling : Engine Nat Nat (OrdSet Nat) Nat where
  graph := ⟨[⟨0, [1], [1]⟩, ⟨1, [2], [1, 2]⟩, ⟨2, [], []⟩]⟩
  domain :=
    { JoinOrder.powerset with
      step := fun op _ s visits => (if op ∈ s then ∅ else s.insert op, visits + 1) }
  nodeLimit := 0

/-- A fresh run of the three blocks. -/
def togglingStart : Run Nat (OrdSet Nat) := ⟨(∅ : OrdMap Nat _).insert 0 (.start ∅), [0], 0⟩

/-- The loop is visited twice: its input grows once, and after that it hands over the empty set. -/
theorem postFixpoint_toggling :
    let result := toggling.analyze 4 togglingStart 0
    result.2 = .ok () ∧ result.1.1.visits = 4 ∧
      result.1.1.Covers toggling.domain.toJoinOrder 0 ∅ ∧
      ∀ b f, result.1.1.facts.get? b = some f → ∃ n, toggling.graph.node? b = some n ∧
        ∀ t ∈ n.succs, ∀ k, result.1.1.Covers toggling.domain.toJoinOrder t
          (toggling.domain.replay b n.ops f.input k).1 := by
  have hok : (toggling.analyze 4 togglingStart 0).2 = .ok () := rfl
  exact ⟨hok, rfl, postFixpoint_of_analyze JoinOrder.lawful_powerset (fun _ _ _ _ _ => rfl)
    (Run.start_eq_ok_iff.2 ⟨rfl, rfl⟩) (Prod.ext rfl hok)⟩

end Engine

end EvmAccess
