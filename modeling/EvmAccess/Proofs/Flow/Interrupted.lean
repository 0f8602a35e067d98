import EvmAccess.Proofs.Flow.Replay
import EvmAccess.Proofs.Flow.Schedule

/-!
# Runs that were cut short

A run can be stopped by the node limit and resumed. The loop takes a block off the stack before it
looks at the limit, so a run that is stopped has forgotten one block that it ought to visit. All
else is in order, and stays so when the run is resumed: it behaves like a run in which the forgotten
blocks are still pending, at the bottom of the stack, and never get their turn (`Run.owing`). The
invariant of uninterrupted runs then says of every reached block that it is pending, forgotten, or
settled.

So a resumed run can end without an error and still not be stable. It is stable exactly if the
forgotten blocks hand over nothing new, as they do when they became pending once more on another
way.

## Main results

- `Engine.visit_owing`: a visit takes no notice of what is owed.
- `Engine.Accounted.analyze`: a call of the loop forgets one block if it meets the node limit, and
  none otherwise.
- `Engine.isFixpoint_iff`: when the final check succeeds.
- `Engine.isFixpoint_iff_of_calls`: what is known after any number of calls.
-/

namespace EvmAccess

open Std

variable {ι ω σ γ : Type} [DecidableEq ι] [Ord ι] [TransOrd ι] [LawfulEqOrd ι]

/-! ### Blocks that are owed a visit -/

namespace Run

variable {o : JoinOrder σ} {r : Run ι σ}

/-- The run with more blocks pending, at the bottom of the stack. -/
def owing (r : Run ι σ) (lost : List ι) : Run ι σ := { r with pending := r.pending ++ lost }

omit [DecidableEq ι] in
theorem deliver_owing (t : ι) (s : σ) (lost : List ι) :
    (r.owing lost).deliver o t s = (r.deliver o t s).owing lost := by
  cases hf : r.facts.get? t with
  | none => simp [deliver, owing, hf]
  | some f => cases hg : f.receive? o s <;> simp [deliver, owing, hf, hg]

/-- Everything reached is in the graph, and everything pending was reached. -/
structure Within (g : Graph ι ω) (r : Run ι σ) : Prop where
  known : ∀ {b}, r.Reached b → g.contains b = true
  pending : ∀ {b}, b ∈ r.pending → r.Reached b

/-- A fresh run has reached its entry. -/
theorem within_start {g : Graph ι ω} {entry : ι} {s₀ : σ} (h : Run.start g entry s₀ = .ok r) :
    r.Within g := by
  obtain ⟨hentry, rfl⟩ := Run.start_eq_ok_iff.1 h
  refine ⟨fun {b} hb => ?_, fun {b} hb => ?_⟩
  · rw [Reached, OrdMap.get?_insert] at hb
    split at hb
    · rename_i heq
      exact heq ▸ hentry
    · simp at hb
  · rw [List.mem_singleton.1 hb]
    simp [Reached, OrdMap.get?_insert]

theorem Within.deliver {g : Graph ι ω} (h : r.Within g) {t : ι} (ht : g.contains t = true)
    (o : JoinOrder σ) (s : σ) : (r.deliver o t s).Within g where
  known {b} hb := by
    rcases reached_deliver.1 hb with rfl | hb
    · exact ht
    · exact h.known hb
  pending {b} hb := by
    refine reached_deliver.2 ?_
    rcases r.deliver_cases o t s with ⟨-, heq⟩ | ⟨f, -, -, heq⟩ | ⟨f, -, -, heq⟩
    · rw [heq] at hb
      exact (List.mem_cons.1 hb).imp_right h.pending
    · rw [heq] at hb
      exact Or.inr (h.pending hb)
    · rw [heq] at hb
      exact (List.mem_cons.1 hb).imp_right h.pending

end Run

namespace Engine

variable {e : Engine ι ω σ γ} {r r' : Run ι σ} {c c' : γ} {id : ι} {rest lost : List ι}

theorem deliverAll_owing (source : ι) (s : σ) (succs lost : List ι) :
    (e.deliverAll source s succs (r.owing lost)).1 =
      (e.deliverAll source s succs r).1.owing lost := by
  induction succs generalizing r with
  | nil => rfl
  | cons t rest ih =>
    rw [deliverAll, deliverAll]
    split
    · rw [Run.deliver_owing, ih]
    · rfl

/-- A visit takes no notice of what is owed. -/
theorem visit_owing (lost : List ι) (hv : e.visit id r c = ((r', c'), .ok ())) :
    e.visit id (r.owing lost) c = ((r'.owing lost, c'), .ok ()) := by
  obtain ⟨n, f, hn, hf, hsuccs, hc, rfl⟩ := visit_ok_iff.1 hv
  refine visit_ok_iff.2 ⟨n, f, hn, hf, hsuccs, hc, ?_⟩
  exact (deliverAll_owing id _ n.succs lost).symm

/-- If edges stay inside the graph, a visit to a reached block succeeds. -/
theorem exists_visit_eq_ok
    (hclosed : ∀ {b n}, e.graph.node? b = some n → ∀ t ∈ n.succs, e.graph.contains t = true)
    (h : r.Within e.graph) (hid : r.Reached id) (c : γ) :
    ∃ r' c', e.visit id r c = ((r', c'), .ok ()) := by
  obtain ⟨f, hf⟩ := Option.isSome_iff_exists.1 hid
  obtain ⟨n, hn⟩ := Option.isSome_iff_exists.1 (h.known hid)
  exact ⟨_, _, visit_ok_iff.2 ⟨n, f, hn, hf, hclosed hn, rfl, rfl⟩⟩

theorem within_visit (h : r.Within e.graph) (hp : ∀ b ∈ rest, b ∈ r.pending)
    (hv : e.visit id { r with pending := rest } c = ((r', c'), .ok ())) : r'.Within e.graph := by
  obtain ⟨n, f, hn, hf, hsuccs, -, rfl⟩ := visit_ok_iff.1 hv
  refine deliverAll_induct (R := fun r => r.Within e.graph)
    (fun t _ ht r hr => hr.deliver ht _ _) ⟨fun hb => ?_, fun {b} hb => ?_⟩
  · exact h.known ((Run.reached_enter hf).1 hb)
  · exact (Run.reached_enter hf).2 (h.pending (hp b hb))

/-! ### The invariant -/

/-- Every block that ought to be visited is pending, or is one of the forgotten ones. -/
def Accounted (e : Engine ι ω σ γ) (lost : List ι) (r : Run ι σ) : Prop :=
  e.Tidy (r.owing lost) ∧ (r.owing lost).Within e.graph

/-- A turn keeps the account. -/
theorem Accounted.visit (ho : e.domain.Lawful) (h : e.Accounted lost r)
    (hp : r.pending = id :: rest)
    (hv : e.visit id { r with pending := rest } c = ((r', c'), .ok ())) : e.Accounted lost r' := by
  have hv' : e.visit id { r.owing lost with pending := rest ++ lost } c =
      ((r'.owing lost, c'), .ok ()) := visit_owing lost hv
  have hp' : (r.owing lost).pending = id :: (rest ++ lost) := by rw [Run.owing, hp]; rfl
  refine ⟨h.1.visit ho (.of_eq hp') hv', within_visit h.2 (fun b hb => ?_) hv'⟩
  rw [hp']
  exact List.mem_cons_of_mem _ hb

omit [TransOrd ι] [LawfulEqOrd ι] in
/-- Which blocks are pending and which are forgotten does not matter for the account. -/
theorem Accounted.forget (h : e.Accounted lost { r with pending := id :: r.pending }) :
    e.Accounted (id :: lost) r := by
  have hmem : ∀ b, b ∈ id :: r.pending ++ lost ↔ b ∈ r.pending ++ id :: lost := fun b =>
    List.perm_middle.symm.mem_iff
  refine ⟨fun b f hf => ?_, fun hb => h.2.known hb, fun {b} hb => h.2.pending ((hmem b).2 hb)⟩
  exact (h.1 b f hf).imp_left (hmem b).1

/-- The number of blocks that a call of the loop forgets. -/
def forgotten : Except (Fault ι) Unit → Nat
  | .error (.noConvergence _) => 1
  | _ => 0

/-- **A call of the loop forgets one block if it meets the node limit**, and none otherwise. -/
theorem Accounted.analyze (ho : e.domain.Lawful)
    (hclosed : ∀ {b n}, e.graph.node? b = some n → ∀ t ∈ n.succs, e.graph.contains t = true)
    {fuel : Nat} {result : Except (Fault ι) Unit} (h : e.Accounted lost r)
    (hcall : e.analyze fuel r c = ((r', c'), result)) :
    ∃ dropped : List ι, dropped.length = forgotten result ∧ e.Accounted (dropped ++ lost) r' := by
  have hended : e.Ended (fun r _ => e.Accounted lost r) (e.analyze fuel r c) :=
    ended_analyze (fun h hp hv => h.visit ho hp hv) h
  rw [hcall] at hended
  cases hended with
  | done hP _ => exact ⟨[], rfl, hP⟩
  | exhausted hP => exact ⟨[], rfl, hP⟩
  | limited id hP _ => exact ⟨[id], rfl, hP.forget⟩
  | @failed r₁ c₁ id rest _ _ hP hp hv =>
    -- The block on top was reached, so its visit succeeds.
    have hid : r₁.Reached id := hP.2.pending (List.mem_append_left _ (hp ▸ List.mem_cons_self))
    have hwithin : Run.Within e.graph { r₁ with pending := rest } :=
      ⟨fun hb => hP.2.known hb, fun {b} hb =>
        hP.2.pending (List.mem_append_left _ (hp ▸ List.mem_cons_of_mem _ hb))⟩
    obtain ⟨r₂, c₂, hok⟩ := exists_visit_eq_ok hclosed hwithin hid c₁
    rw [hok] at hv
    cases hv

/-! ### The final check -/

/-- One more execution of the block, in any context, is covered by its successors. -/
def Stable (e : Engine ι ω σ γ) (r : Run ι σ) (b : ι) (f : Facts σ) : Prop :=
  ∃ n, e.graph.node? b = some n ∧
    ∀ c, ∀ t ∈ n.succs, r.Covers e.domain.toJoinOrder t (e.domain.replay b n.ops f.input c).1

omit [TransOrd ι] [LawfulEqOrd ι] in
theorem Complete.stable {b : ι} {f : Facts σ} (h : e.Complete r b f) : e.Stable r b f := by
  obtain ⟨n, hn, hall⟩ := h
  exact ⟨n, hn, fun c => (hall c).2.2⟩

omit [TransOrd ι] [LawfulEqOrd ι] in
/-- One execution is covered if every one is, since the context makes no difference. -/
theorem covers_replay_iff (hfree : e.domain.ContextFree) {b : ι} {n : Node ι ω} {f : Facts σ}
    (hn : e.graph.node? b = some n) :
    e.covers r (e.domain.replay b n.ops f.input c).1 n.succs = true ↔ e.Stable r b f := by
  rw [covers_iff]
  constructor
  · intro h
    refine ⟨n, hn, fun c' => ?_⟩
    have hsame : (e.domain.replay b n.ops f.input c').1 = (e.domain.replay b n.ops f.input c).1 :=
      congrArg (Domain.final f.input) (hfree.trace b 0 n.ops f.input c' c)
    rw [hsame]
    exact h
  · rintro ⟨n', hn', h⟩
    obtain rfl : n = n' := Option.some.inj (hn.symm.trans hn')
    exact h c

omit [TransOrd ι] [LawfulEqOrd ι] in
theorem isStable_iff (hfree : e.domain.ContextFree) {blocks : List (ι × Facts σ)} :
    (e.isStable r blocks c).1 = true ↔ ∀ x ∈ blocks, e.Stable r x.1 x.2 := by
  induction blocks generalizing c with
  | nil => simp [isStable]
  | cons x blocks ih =>
    obtain ⟨id, f⟩ := x
    rw [List.forall_mem_cons]
    cases hn : e.graph.node? id with
    | none => simp [isStable, Stable, hn]
    | some n =>
      have hcov := covers_replay_iff (r := r) (c := c) (f := f) hfree hn
      simp only [isStable, hn]
      split
      · rename_i h
        exact ih.trans (and_iff_right (hcov.1 h)).symm
      · rename_i h
        exact ⟨fun hfalse => by simp at hfalse, fun hstable => absurd (hcov.2 hstable.1) h⟩

omit [TransOrd ι] in
/-- The final check succeeds if one more execution of every reached block is covered. -/
theorem isFixpoint_iff (hfree : e.domain.ContextFree) :
    (e.isFixpoint r c).1 = true ↔ ∀ b f, r.facts.get? b = some f → e.Stable r b f := by
  rw [isFixpoint, isStable_iff hfree]
  exact ⟨fun h b f hf => h (b, f) (OrdMap.get?_eq_some_iff.1 hf),
    fun h x hx => h x.1 x.2 (OrdMap.get?_eq_some_iff.2 hx)⟩

/-! ### Any number of calls -/

/-- The run that some calls of the loop lead to, each of them with a node limit, an amount of fuel
and a context of its own. The number counts the calls that met the node limit. -/
inductive Calls (e : Engine ι ω σ γ) (entry : ι) (s₀ : σ) : Nat → Run ι σ → Prop
  | start {r : Run ι σ} : Run.start e.graph entry s₀ = .ok r → Calls e entry s₀ 0 r
  | call {k : Nat} {r r' : Run ι σ} {c c' : γ} {result : Except (Fault ι) Unit}
      (limit fuel : Nat) : Calls e entry s₀ k r →
      analyze { e with nodeLimit := limit } fuel r c = ((r', c'), result) →
      Calls e entry s₀ (k + forgotten result) r'

/-- The account of a run after any number of calls. -/
theorem Calls.accounted (ho : e.domain.Lawful)
    (hclosed : ∀ {b n}, e.graph.node? b = some n → ∀ t ∈ n.succs, e.graph.contains t = true)
    {entry : ι} {s₀ : σ} {k : Nat} (h : e.Calls entry s₀ k r) :
    ∃ lost : List ι, lost.length = k ∧ e.Accounted lost r := by
  induction h with
  | @start r hstart =>
    have hr : r.owing [] = r := by rw [Run.owing, List.append_nil]
    refine ⟨[], rfl, ?_⟩
    rw [Accounted, hr]
    exact ⟨tidy_start hstart, Run.within_start hstart⟩
  | call limit fuel _ hcall ih =>
    obtain ⟨lost, hlength, hlost⟩ := ih
    obtain ⟨dropped, hdropped, hacc⟩ :=
      Accounted.analyze (e := { e with nodeLimit := limit }) ho hclosed hlost hcall
    exact ⟨dropped ++ lost, by rw [List.length_append, hdropped, hlength, Nat.add_comm], hacc⟩

omit [TransOrd ι] [LawfulEqOrd ι] in
theorem Accounted.complete (hfree : e.domain.ContextFree) (h : e.Accounted lost r) {b : ι}
    {f : Facts σ} (hf : r.facts.get? b = some f) (hp : b ∉ r.pending) (hlost : b ∉ lost) :
    e.Complete r b f := by
  rcases h.1 b f hf with hb | hb
  · rcases List.mem_append.1 hb with hb | hb
    · exact absurd hb hp
    · exact absurd hb hlost
  · exact Settled.complete (r := r) hfree hb

/-- **What is known after any number of calls.** Let the domain be lawful and its states not depend
on the context, and let edges stay inside the graph. There are blocks, no more than calls met the
node limit, such that every other reached block that is not pending is complete: it has the states
and the output of an execution from its present input, and its successors are reached and cover the
output. If one more call succeeds, the final check succeeds exactly if those blocks are stable. -/
theorem isFixpoint_iff_of_calls (ho : e.domain.Lawful) (hfree : e.domain.ContextFree)
    (hclosed : ∀ {b n}, e.graph.node? b = some n → ∀ t ∈ n.succs, e.graph.contains t = true)
    {entry : ι} {s₀ : σ} {k : Nat} (hcalls : e.Calls entry s₀ k r) :
    ∃ lost : List ι, lost.length = k ∧ (∀ b ∈ lost, r.Reached b) ∧
      (∀ b f, r.facts.get? b = some f → b ∉ r.pending → b ∉ lost → e.Complete r b f) ∧
      ∀ limit fuel c r' c', analyze { e with nodeLimit := limit } fuel r c = ((r', c'), .ok ()) →
        ∀ c'', (e.isFixpoint r' c'').1 = true ↔
          ∀ b ∈ lost, ∀ f, r'.facts.get? b = some f → e.Stable r' b f := by
  obtain ⟨lost, hlength, hacc⟩ := hcalls.accounted ho hclosed
  refine ⟨lost, hlength, fun b hb => hacc.2.pending (List.mem_append_right _ hb),
    fun b f hf hp hlost => hacc.complete hfree hf hp hlost, ?_⟩
  intro limit fuel c r' c' hok c''
  obtain ⟨hacc', hdone⟩ : e.Accounted lost r' ∧ r'.pending = [] :=
    analyze_induct (e := { e with nodeLimit := limit })
      (P := fun r _ => Accounted { e with nodeLimit := limit } lost r)
      (fun h hp hv => h.visit ho hp hv) hacc hok
  rw [isFixpoint_iff hfree]
  constructor
  · exact fun h b _ f hf => h b f hf
  · intro h b f hf
    by_cases hb : b ∈ lost
    · exact h b hb f hf
    · exact (hacc'.complete hfree hf (by simp [hdone]) hb).stable

/-- An entry, and two blocks that are each other's successor. Every operation adds its number to the
state. The node limit allows three visits, but the first of the two blocks needs a second one. -/
def chasing : Engine Nat Nat (OrdSet Nat) Nat where
  graph := ⟨[⟨0, [0], [1]⟩, ⟨1, [1], [2]⟩, ⟨2, [2], [1]⟩]⟩
  domain := gathering.domain
  nodeLimit := 1

/-- A call that is stopped by the limit leaves block 1 without states, and does not have it pending
any more. The next call has nothing to do and succeeds, but the final check does not. -/
theorem not_isFixpoint_chasing :
    let first := chasing.analyze 4 gatheringStart 0
    let second := analyze { chasing with nodeLimit := 0 } 4 first.1.1 first.1.2
    first.2 = .error (.noConvergence 3) ∧ first.1.1.pending = [] ∧
      (first.1.1.facts.get? 1).map (·.states) = some [] ∧
      second.2 = .ok () ∧ (chasing.isFixpoint second.1.1 0).1 = false ∧
      ∃ lost : List Nat, lost.length = 1 ∧ (∀ b ∈ lost, first.1.1.Reached b) ∧
        (∀ b f, first.1.1.facts.get? b = some f → b ∉ first.1.1.pending → b ∉ lost →
          chasing.Complete first.1.1 b f) ∧
        ¬ ∀ b ∈ lost, ∀ f, second.1.1.facts.get? b = some f → chasing.Stable second.1.1 b f := by
  intro first second
  have hlimit : first.2 = .error (.noConvergence 3) := rfl
  have hok : second.2 = .ok () := rfl
  have hunstable : (chasing.isFixpoint second.1.1 0).1 = false := rfl
  have hclosed : ∀ {b n}, chasing.graph.node? b = some n →
      ∀ t ∈ n.succs, chasing.graph.contains t = true := by
    intro b n hn
    have hall : ∀ n ∈ chasing.graph.nodes, ∀ t ∈ n.succs, chasing.graph.contains t = true := by
      decide
    exact hall n (Graph.mem_of_node? hn)
  have hcalls : chasing.Calls 0 ∅ 1 first.1.1 :=
    .call 1 4 (.start (Run.start_eq_ok_iff.2 ⟨rfl, rfl⟩)) (Prod.ext rfl hlimit)
  obtain ⟨lost, hlength, hreached, hcomplete, hcheck⟩ :=
    isFixpoint_iff_of_calls JoinOrder.lawful_powerset (fun _ _ _ _ _ => rfl) hclosed hcalls
  refine ⟨hlimit, rfl, rfl, hok, hunstable, lost, hlength, hreached, hcomplete, fun hstable => ?_⟩
  have hfix := (hcheck 0 4 first.1.2 _ _ (Prod.ext rfl hok) 0).2 hstable
  exact Bool.false_ne_true (hunstable.symm.trans hfix)

end Engine

end EvmAccess
