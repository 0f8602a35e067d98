import EvmAccess.Proofs.Flow.Landmarks
import EvmAccess.Proofs.Flow.Turn
import Mathlib.Algebra.GroupWithZero.Nat

/-!
# The engine ends

Two things make the engine end on a domain. The states that occur have landmarks, so every input can
grow only so often; and a block is visited again only after its input has grown. Which states occur
is a matter of heights, however: a loop that pushes something in every round lets the stack grow,
and landmarks are known only for stacks that fit into some room. What limits the heights is that an
input keeps the height of the first state that arrives. So the height at the start of a block is at
most the number of operations in the blocks that were found before it, and while a block is executed
the height stays within the number of all operations.

## Main results

- `Domain.Bounded`: what a domain has to provide.
- `Engine.tame_visit`: a turn succeeds, keeps the heights within bounds, and lowers the number of
  turns to come.
- `Engine.analyze_ends`: the loop ends, after a number of visits that is known beforehand.
-/

namespace EvmAccess

open Std

variable {ι ω σ γ α : Type}

/-! ### Sums over the nodes of a graph -/

namespace Graph

variable {g : Graph ι ω} {w w' : Node ι ω → Nat}

/-- The sum of a quantity over all nodes. -/
def total (g : Graph ι ω) (w : Node ι ω → Nat) : Nat := (g.nodes.map w).sum

theorem total_le_total (h : ∀ n ∈ g.nodes, w n ≤ w' n) : g.total w ≤ g.total w' := by
  obtain ⟨nodes⟩ := g
  induction nodes with
  | nil => exact Nat.le_refl 0
  | cons n nodes ih =>
    have hn : w n ≤ w' n := h n List.mem_cons_self
    have hrest := ih fun m hm => h m (List.mem_cons_of_mem _ hm)
    simp only [total, List.map_cons, List.sum_cons] at hrest ⊢
    omega

/-- If the quantity rises by `k` at one node and falls nowhere, the sum rises by `k`. -/
theorem total_add_le_total {n : Node ι ω} {k : Nat} (h : ∀ n ∈ g.nodes, w n ≤ w' n)
    (hn : n ∈ g.nodes) (hk : w n + k ≤ w' n) : g.total w + k ≤ g.total w' := by
  obtain ⟨before, after, hsplit⟩ := List.append_of_mem hn
  have hbefore : total ⟨before⟩ w ≤ total ⟨before⟩ w' := total_le_total fun m hm =>
    h m (by rw [hsplit]; exact List.mem_append_left _ hm)
  have hafter : total ⟨after⟩ w ≤ total ⟨after⟩ w' := total_le_total fun m hm =>
    h m (by rw [hsplit]; exact List.mem_append_right _ (List.mem_cons_of_mem _ hm))
  simp only [total, hsplit, List.map_append, List.map_cons, List.sum_append, List.sum_cons]
    at hbefore hafter ⊢
  omega

theorem total_le_length_mul {k : Nat} (h : ∀ n ∈ g.nodes, w n ≤ k) :
    g.total w ≤ g.nodes.length * k := by
  refine Nat.le_trans (total_le_total h) (Nat.le_of_eq ?_)
  rw [total, List.map_const', List.sum_replicate_nat]

end Graph

variable [DecidableEq ι]

/-- What a domain provides to let the engine end on a graph. Heights grow by at most one with every
operation, and not at all with joins; as long as they are below the number of all operations, the
states and the context keep some properties; and the states with their property have landmarks. -/
structure Domain.Bounded (d : Domain ι ω σ γ) (g : Graph ι ω) (α : Type) where
  /-- The property of states. -/
  Ok : σ → Prop
  /-- The property of the context. -/
  Ctx : γ → Prop
  /-- The height of a state. -/
  height : σ → Nat
  /-- The landmarks. -/
  landmarks : d.toJoinOrder.Landmarks Ok α
  /-- Joins keep the height. -/
  height_join : ∀ s t, height (d.join s t) = height s
  /-- Operations of the graph keep the properties, as long as there is room. -/
  step : ∀ {b n j op s c}, g.node? b = some n → n.ops[j]? = some op → Ok s → Ctx c →
    height s < g.total (·.ops.length) →
    Ok (d.step op ⟨b, j⟩ s c).1 ∧ Ctx (d.step op ⟨b, j⟩ s c).2 ∧
      height (d.step op ⟨b, j⟩ s c).1 ≤ height s + 1

namespace Domain.Bounded

variable {d : Domain ι ω σ γ} {g : Graph ι ω} (B : d.Bounded g α)

/-- Executing a block keeps the properties, and heights rise by at most one with each operation. -/
theorem trace {b : ι} {n : Node ι ω} {s : σ} {c : γ} (hn : g.node? b = some n)
    (hs : B.Ok s) (hc : B.Ctx c) (hheight : B.height s + n.ops.length ≤ g.total (·.ops.length)) :
    (∀ t ∈ (d.trace b 0 n.ops s c).1, B.Ok t) ∧
      B.Ok (final s (d.trace b 0 n.ops s c).1) ∧
      B.height (final s (d.trace b 0 n.ops s c).1) ≤ B.height s + n.ops.length ∧
      B.Ctx (d.trace b 0 n.ops s c).2 := by
  have hstep : ∀ j op t c, n.ops[j]? = some op → (B.Ok t ∧ B.height t ≤ B.height s + (0 + j)) →
      B.Ctx c → (B.Ok (d.step op ⟨b, 0 + j⟩ t c).1 ∧
        B.height (d.step op ⟨b, 0 + j⟩ t c).1 ≤ B.height s + (0 + j + 1)) ∧
          B.Ctx (d.step op ⟨b, 0 + j⟩ t c).2 := by
    intro j op t c hop ht hc
    obtain ⟨hj, -⟩ := List.getElem?_eq_some_iff.1 hop
    rw [Nat.zero_add] at ht ⊢
    obtain ⟨ht', hc', hle⟩ := B.step hn hop ht.1 hc (by omega)
    exact ⟨⟨ht', by omega⟩, hc'⟩
  obtain ⟨hall, ⟨hok, hle⟩, hctx⟩ := trace_induct
    (J := fun j t => B.Ok t ∧ B.height t ≤ B.height s + j) hstep ⟨hs, Nat.le_add_right _ _⟩ hc
  refine ⟨fun t ht => ?_, hok, by omega, hctx⟩
  obtain ⟨j, hj⟩ := List.mem_iff_getElem?.1 ht
  exact (hall j t hj).1

/-- How often a block can still become pending. -/
def left : Option (Facts σ) → Nat
  | none => B.landmarks.marks.length + 1
  | some f => B.landmarks.marks.length - B.landmarks.rank f.input

theorem left_le (f? : Option (Facts σ)) : B.left f? ≤ B.landmarks.marks.length + 1 := by
  cases f? with
  | none => exact Nat.le_refl _
  | some f => exact Nat.le_succ_of_le (Nat.sub_le _ _)

end Domain.Bounded

variable [Ord ι]

/-! ### Blocks found, and turns to come -/

namespace Graph

variable [TransOrd ι] [LawfulEqOrd ι] {g : Graph ι ω} {facts : OrdMap ι (Facts σ)}

/-- The number of operations in the blocks found so far. -/
def found (g : Graph ι ω) (facts : OrdMap ι (Facts σ)) : Nat :=
  g.total fun n => if (facts.get? n.id).isSome then n.ops.length else 0

omit [DecidableEq ι] [TransOrd ι] [LawfulEqOrd ι] in
theorem found_le_total : g.found facts ≤ g.total (·.ops.length) :=
  total_le_total fun n _ => by split <;> omega

/-- A block stays found. -/
theorem found_le_found_insert {t : ι} {f : Facts σ} :
    g.found facts ≤ g.found (facts.insert t f) := by
  refine total_le_total fun n _ => ?_
  rw [OrdMap.get?_insert]
  by_cases hn : n.id = t <;> simp only [hn, if_true, if_false, Option.isSome_some]
  · split <;> omega
  · exact Nat.le_refl _

/-- A block that is found adds its operations. -/
theorem found_add_le_found_insert {t : ι} {f : Facts σ} {n : Node ι ω} (hn : g.node? t = some n)
    (ht : facts.get? t = none) :
    g.found facts + n.ops.length ≤ g.found (facts.insert t f) := by
  obtain rfl := id_of_node? hn
  refine total_add_le_total (fun m _ => ?_) (mem_of_node? hn) ?_
  · rw [OrdMap.get?_insert]
    by_cases hm : m.id = n.id <;> simp only [hm, if_true, if_false, Option.isSome_some]
    · split <;> omega
    · exact Nat.le_refl _
  · simp [OrdMap.get?_insert, ht]

end Graph

namespace Domain.Bounded

variable {d : Domain ι ω σ γ} {g : Graph ι ω} (B : d.Bounded g α) {facts : OrdMap ι (Facts σ)}

/-- How often some block can still become pending. -/
def leftAll (facts : OrdMap ι (Facts σ)) : Nat := g.total fun n => B.left (facts.get? n.id)

variable [TransOrd ι] [LawfulEqOrd ι]

/-- Changing the facts of one block to its benefit. -/
theorem leftAll_insert_le {t : ι} {f : Facts σ} (h : B.left (some f) ≤ B.left (facts.get? t)) :
    B.leftAll (facts.insert t f) ≤ B.leftAll facts := by
  refine Graph.total_le_total fun n _ => ?_
  rw [OrdMap.get?_insert]
  by_cases hn : n.id = t
  · rw [if_pos hn, hn]
    exact h
  · exact Nat.le_of_eq (by rw [if_neg hn])

theorem leftAll_insert_lt {t : ι} {f : Facts σ} {n : Node ι ω} (hn : g.node? t = some n)
    (h : B.left (some f) < B.left (facts.get? t)) :
    B.leftAll (facts.insert t f) + 1 ≤ B.leftAll facts := by
  obtain rfl := Graph.id_of_node? hn
  refine Graph.total_add_le_total (fun m _ => ?_) (Graph.mem_of_node? hn) ?_
  · rw [OrdMap.get?_insert]
    by_cases hm : m.id = n.id
    · rw [if_pos hm, hm]
      exact Nat.le_of_lt h
    · exact Nat.le_of_eq (by rw [if_neg hm])
  · rw [OrdMap.get?_insert, if_pos rfl]
    exact h

/-- The number of turns to come is at most this. -/
def toCome (r : Run ι σ) : Nat := r.pending.length + B.leftAll r.facts

/-- The invariant: recorded states are as they should be, a block starts no higher than the
operations of the blocks found allow, and what is pending was found. -/
structure Tame (r : Run ι σ) : Prop where
  ok : r.Recorded B.Ok
  known : ∀ {b f}, r.facts.get? b = some f →
    ∃ n, g.node? b = some n ∧ B.height f.input + n.ops.length ≤ g.found r.facts
  pending : ∀ {b}, b ∈ r.pending → ∃ f, r.facts.get? b = some f

/-- Changing the facts of one block keeps the invariant, if its height is right. -/
theorem Tame.insert {r : Run ι σ} (h : B.Tame r) {t : ι} {f : Facts σ} {n : Node ι ω}
    {pending : List ι} (visits : Nat) (hok : B.Ok f.input) (hst : ∀ s ∈ f.states, B.Ok s)
    (hn : g.node? t = some n)
    (hheight : B.height f.input + n.ops.length ≤ g.found (r.facts.insert t f))
    (hpend : ∀ b ∈ pending, b = t ∨ b ∈ r.pending) :
    B.Tame ⟨r.facts.insert t f, pending, visits⟩ where
  ok := h.ok.insert hok hst pending visits
  known {b fb} hb := by
    by_cases heq : b = t
    · subst heq
      obtain rfl : f = fb := by simpa [OrdMap.get?_insert] using hb
      exact ⟨n, hn, hheight⟩
    · rw [OrdMap.get?_insert, if_neg heq] at hb
      obtain ⟨m, hm, hle⟩ := h.known hb
      exact ⟨m, hm, Nat.le_trans hle Graph.found_le_found_insert⟩
  pending {b} hb := by
    by_cases heq : b = t
    · exact ⟨f, by rw [heq, OrdMap.get?_insert, if_pos rfl]⟩
    · obtain ⟨fb, hfb⟩ := h.pending ((hpend b hb).resolve_left heq)
      exact ⟨fb, by rw [OrdMap.get?_insert, if_neg heq, hfb]⟩

/-- A fresh run is tame. -/
theorem tame_start {entry : ι} {s : σ} {r : Run ι σ} (hstart : Run.start g entry s = .ok r)
    (hs : B.Ok s) (hheight : B.height s = 0) : B.Tame r := by
  obtain ⟨hentry, rfl⟩ := Run.start_eq_ok_iff.1 hstart
  obtain ⟨n, hn⟩ := Option.isSome_iff_exists.1 hentry
  have hempty : B.Tame ⟨∅, [], 0⟩ :=
    ⟨fun _ _ h => by simp at h, fun h => by simp at h, fun h => by simp at h⟩
  refine hempty.insert B 0 hs (fun _ h => absurd h List.not_mem_nil) hn ?_
    fun b hb => Or.inl (List.mem_singleton.1 hb)
  have hfound : g.found ∅ + n.ops.length ≤
      g.found ((∅ : OrdMap ι (Facts σ)).insert entry (.start s)) :=
    Graph.found_add_le_found_insert hn rfl
  change B.height s + n.ops.length ≤ g.found ((∅ : OrdMap ι (Facts σ)).insert entry (.start s))
  omega

/-- Taking a block from the stack and entering its states keeps the invariant. No input changes, so
the number of turns to come falls with the stack. -/
theorem Tame.enter {r : Run ι σ} (h : B.Tame r) {id : ι} {rest : List ι} {f f' : Facts σ}
    (hp : r.pending = id :: rest) (hf : r.facts.get? id = some f) (hin : f'.input = f.input)
    (hst : ∀ s ∈ f'.states, B.Ok s) :
    B.Tame (Run.enter { r with pending := rest } id f') ∧
      g.found r.facts ≤ g.found (Run.enter { r with pending := rest } id f').facts ∧
      B.toCome (Run.enter { r with pending := rest } id f') < B.toCome r := by
  obtain ⟨n, hn, hheight⟩ := h.known hf
  rw [← hin] at hheight
  have hleft : B.leftAll (r.facts.insert id f') ≤ B.leftAll r.facts :=
    B.leftAll_insert_le (Nat.le_of_eq (by rw [hf, left, left, hin]))
  refine ⟨h.insert B (r.visits + 1) (hin ▸ (h.ok id f hf).1) hst hn
    (Nat.le_trans hheight Graph.found_le_found_insert) fun b hb => Or.inr ?_,
    Graph.found_le_found_insert, ?_⟩
  · rw [hp]
    exact List.mem_cons_of_mem _ hb
  · simp only [toCome, Run.enter, hp, List.length_cons]
    omega

/-- A delivery keeps the invariant, and what it makes pending it takes from the turns to come. -/
theorem Tame.deliver {r : Run ι σ} (h : B.Tame r) {t : ι} {s : σ} (ht : g.contains t = true)
    (hs : B.Ok s) (hheight : B.height s ≤ g.found r.facts) :
    B.Tame (r.deliver d.toJoinOrder t s) ∧
      g.found r.facts ≤ g.found (r.deliver d.toJoinOrder t s).facts ∧
      B.toCome (r.deliver d.toJoinOrder t s) ≤ B.toCome r := by
  obtain ⟨n, hn⟩ := Option.isSome_iff_exists.1 ht
  have hpend : ∀ b ∈ t :: r.pending, b = t ∨ b ∈ r.pending := fun b hb => List.mem_cons.1 hb
  rcases r.deliver_cases d.toJoinOrder t s with
    ⟨hnone, heq⟩ | ⟨f, -, -, heq⟩ | ⟨f, hf, hgrows, heq⟩
  · rw [heq]
    have hfound : g.found r.facts + n.ops.length ≤ g.found (r.facts.insert t (.start s)) :=
      Graph.found_add_le_found_insert hn hnone
    have hleft : B.leftAll (r.facts.insert t (.start s)) + 1 ≤ B.leftAll r.facts := by
      refine B.leftAll_insert_lt hn ?_
      rw [hnone]
      exact Nat.lt_succ_of_le (Nat.sub_le _ _)
    refine ⟨h.insert B r.visits hs (fun _ h' => absurd h' List.not_mem_nil) hn ?_ hpend,
      Graph.found_le_found_insert, ?_⟩
    · change B.height s + n.ops.length ≤ _
      omega
    · simp only [toCome, List.length_cons]
      omega
  · rw [heq]
    exact ⟨h, Nat.le_refl _, Nat.le_refl _⟩
  · rw [heq]
    have hin : B.Ok f.input := (h.ok t f hf).1
    have hrank := B.landmarks.rank_lt_rank_join hin hs hgrows
    have hmax := B.landmarks.rank_le (d.join f.input s)
    obtain ⟨m, hm, hle⟩ := h.known hf
    obtain rfl : n = m := by simpa [hn] using hm
    have hleft : B.leftAll (r.facts.insert t { f with input := d.join f.input s, states := [] }) +
        1 ≤ B.leftAll r.facts := by
      refine B.leftAll_insert_lt hn ?_
      rw [hf]
      simp only [left]
      omega
    refine ⟨h.insert B r.visits (B.landmarks.closed hin hs)
      (fun _ h' => absurd h' List.not_mem_nil) hn ?_ hpend, Graph.found_le_found_insert, ?_⟩
    · rw [B.height_join]
      exact Nat.le_trans hle Graph.found_le_found_insert
    · simp only [toCome, List.length_cons]
      omega

end Domain.Bounded

/-! ### Turns -/

namespace Engine

variable [TransOrd ι] [LawfulEqOrd ι] {e : Engine ι ω σ γ} (B : e.domain.Bounded e.graph α)

/-- **A turn** succeeds if edges stay inside the graph. It keeps the invariant and lowers the number
of turns to come. -/
theorem tame_visit
    (hclosed : ∀ {b n}, e.graph.node? b = some n → ∀ t ∈ n.succs, e.graph.contains t = true)
    {id : ι} {rest : List ι} {r : Run ι σ} {c : γ} (h : B.Tame r) (hc : B.Ctx c)
    (hp : r.pending = id :: rest) :
    ∃ r' c', e.visit id { r with pending := rest } c = ((r', c'), .ok ()) ∧
      (B.Tame r' ∧ B.Ctx c') ∧ B.toCome r' < B.toCome r := by
  obtain ⟨f, hf⟩ := h.pending (b := id) (hp ▸ List.mem_cons_self)
  obtain ⟨n, hn, hheight⟩ := h.known hf
  obtain ⟨hst, hfin, hrise, hctx⟩ := B.trace hn (h.ok id f hf).1 hc
    (Nat.le_trans hheight Graph.found_le_total)
  refine ⟨_, _, visit_ok_iff.2 ⟨n, f, hn, hf, hclosed hn, rfl, rfl⟩, ?_⟩
  obtain ⟨henter, hfound, hcome⟩ := h.enter B hp hf
    (show (Facts.executed e.domain id n.ops f.input c).input = f.input from rfl) hst
  generalize Run.enter { r with pending := rest } id
    (.executed e.domain id n.ops f.input c) = r₁ at henter hfound hcome ⊢
  have hdeliver : B.Tame (e.deliverAll id
        (Domain.final f.input (e.domain.trace id 0 n.ops f.input c).1) n.succs r₁).1 ∧
      e.graph.found r₁.facts ≤ e.graph.found (e.deliverAll id
        (Domain.final f.input (e.domain.trace id 0 n.ops f.input c).1) n.succs r₁).1.facts ∧
      B.toCome (e.deliverAll id
        (Domain.final f.input (e.domain.trace id 0 n.ops f.input c).1) n.succs r₁).1 ≤
          B.toCome r₁ := by
    refine deliverAll_induct (R := fun r' => B.Tame r' ∧
      e.graph.found r₁.facts ≤ e.graph.found r'.facts ∧ B.toCome r' ≤ B.toCome r₁)
      (fun t _ ht r' hr => ?_) ⟨henter, Nat.le_refl _, Nat.le_refl _⟩
    obtain ⟨htame, hmore, hless⟩ := hr
    obtain ⟨htame', hmore', hless'⟩ := htame.deliver B ht hfin (by omega)
    exact ⟨htame', by omega, by omega⟩
  exact ⟨⟨hdeliver.1, hctx⟩, by omega⟩

/-- **The engine ends.** On a graph whose edges stay inside it, without a node limit, and for a
domain that is bounded there, the loop ends by itself; the number of visits is at most the number of
blocks, times the number of landmarks and one, and one. -/
theorem analyze_ends
    (hclosed : ∀ {b n}, e.graph.node? b = some n → ∀ t ∈ n.succs, e.graph.contains t = true)
    (hlimit : e.nodeLimit = 0) {entry : ι} {s₀ : σ} {r₀ : Run ι σ} {c : γ}
    (hstart : Run.start e.graph entry s₀ = .ok r₀) (hs₀ : B.Ok s₀) (hheight : B.height s₀ = 0)
    (hc : B.Ctx c) :
    ∃ r c', (∀ fuel, e.graph.nodes.length * (B.landmarks.marks.length + 1) + 1 ≤ fuel →
        e.analyze fuel r₀ c = ((r, c'), .ok ())) ∧
      r.Recorded B.Ok ∧ B.Ctx c' ∧ r.pending = [] ∧
      r.visits ≤ e.graph.nodes.length * (B.landmarks.marks.length + 1) + 1 := by
  have htame := B.tame_start hstart hs₀ hheight
  obtain ⟨r, c', hrun, ⟨htame', hctx⟩, hdone, hvisits⟩ := analyze_total
    (P := fun r c => B.Tame r ∧ B.Ctx c) (μ := B.toCome) hlimit
    (fun h hp => by
      obtain ⟨r', c', hv, hP, hlt⟩ := tame_visit B hclosed h.1 h.2 hp
      have hcount := visits_of_visit hv
      exact ⟨r', c', hv, hP, hlt, hcount⟩) ⟨htame, hc⟩
  have hcome : B.toCome r₀ ≤ e.graph.nodes.length * (B.landmarks.marks.length + 1) + 1 := by
    obtain ⟨-, rfl⟩ := Run.start_eq_ok_iff.1 hstart
    have hleft := Graph.total_le_length_mul (g := e.graph) fun n _ => B.left_le
      (((∅ : OrdMap ι (Facts σ)).insert entry (.start s₀)).get? n.id)
    simp only [Domain.Bounded.toCome, Domain.Bounded.leftAll, List.length_singleton]
    omega
  have hfresh : r₀.visits = 0 := by
    obtain ⟨-, rfl⟩ := Run.start_eq_ok_iff.1 hstart
    rfl
  exact ⟨r, c', fun fuel hfuel => hrun fuel (by omega), htame'.ok, hctx, hdone, by omega⟩

end Engine

end EvmAccess
