import EvmAccess.Proofs.Flow.Invariant

/-!
# Reached blocks

Two searches start at the entry of a graph. `Graph.explore` follows edges with a stack and a list of
nodes that were not met yet. The engine follows them with states: a block becomes known when a state
is handed over to it, and is visited again whenever its input grows. Both find the blocks that paths
lead to. For the engine this needs no law of the order and no monotone step, since whatever becomes
known is pending, and a visit makes all successors known.

## Main definitions

- `Graph.Path`: edges lead from one block to another.
- `Run.Reached`: a state was handed over to the block.

## Main results

- `Graph.mem_reachable_iff`: the search finds what paths lead to.
- `Engine.reached_iff_path`: a run that is done knows what paths lead to.
-/

namespace EvmAccess

open Std

variable {ι ω σ γ : Type} [DecidableEq ι]

/-! ### Paths -/

/-- A path of edges leads from one block to another, through blocks of the graph. -/
inductive Graph.Path (g : Graph ι ω) (start : ι) : ι → Prop
  | refl : g.contains start = true → Path g start start
  | edge {b t : ι} {n : Node ι ω} : Path g start b → g.node? b = some n → t ∈ n.succs →
      g.contains t = true → Path g start t

/-! ### The search -/

namespace Graph

/-- The search meets only what the stack and the edges lead to, and only names of nodes. -/
theorem explore_induct {P : ι → Prop} {unseen : List (Node ι ω)} {stack : List ι}
    (hedge : ∀ b n, P b → unseen.find? (·.id = b) = some n → ∀ t ∈ n.succs, P t)
    (hstack : ∀ b ∈ stack, P b) :
    ∀ b ∈ explore unseen stack, P b ∧ (unseen.find? (·.id = b)).isSome = true := by
  fun_induction explore unseen stack with
  | case1 unseen => exact fun b hb => absurd hb List.not_mem_nil
  | case2 unseen id rest hid ih => exact ih hedge fun b hb => hstack b (List.mem_cons_of_mem _ hb)
  | case3 unseen id rest n hn ih =>
    have hid : P id := hstack id List.mem_cons_self
    have hrest : ∀ b ∈ n.succs ++ rest, P b := by
      intro b hb
      rcases List.mem_append.1 hb with hb | hb
      · exact hedge id n hid hn b hb
      · exact hstack b (List.mem_cons_of_mem _ hb)
    intro b hb
    rcases List.mem_cons.1 hb with rfl | hb
    · exact ⟨hid, by simp [hn]⟩
    · obtain ⟨hP, hsome⟩ := ih (fun b m hb hm => hedge b m hb (find?_of_others hm)) hrest b hb
      obtain ⟨m, hm⟩ := Option.isSome_iff_exists.1 hsome
      exact ⟨hP, by simp [find?_of_others hm]⟩

/-- The search meets all nodes on the stack, and with a node it meets the successors. -/
theorem explore_closed (unseen : List (Node ι ω)) (stack : List ι) :
    (∀ b ∈ stack, (unseen.find? (·.id = b)).isSome = true → b ∈ explore unseen stack) ∧
      ∀ b ∈ explore unseen stack, ∀ n, unseen.find? (·.id = b) = some n →
        ∀ t ∈ n.succs, (unseen.find? (·.id = t)).isSome = true → t ∈ explore unseen stack := by
  fun_induction explore unseen stack with
  | case1 unseen =>
    exact ⟨fun b hb => absurd hb List.not_mem_nil, fun b hb => absurd hb List.not_mem_nil⟩
  | case2 unseen id rest hid ih =>
    refine ⟨fun b hb hsome => ?_, ih.2⟩
    rcases List.mem_cons.1 hb with rfl | hb
    · simp [hid] at hsome
    · exact ih.1 b hb hsome
  | case3 unseen id rest n hn ih =>
    -- A name other than the one just met is still unseen if it was.
    have hmet : ∀ t ∈ n.succs ++ rest, (unseen.find? (·.id = t)).isSome = true →
        t ∈ id :: explore (others id unseen) (n.succs ++ rest) := by
      intro t ht hsome
      by_cases h : t = id
      · exact h ▸ List.mem_cons_self
      · exact List.mem_cons_of_mem _ (ih.1 t ht (by rw [find?_others, if_neg h]; exact hsome))
    refine ⟨fun b hb hsome => ?_, fun b hb m hm t ht hsome => ?_⟩
    · rcases List.mem_cons.1 hb with rfl | hb
      · exact List.mem_cons_self
      · exact hmet b (List.mem_append_right _ hb) hsome
    · by_cases hbid : b = id
      · subst hbid
        obtain rfl : n = m := Option.some.inj (hn.symm.trans hm)
        exact hmet t (List.mem_append_left _ ht) hsome
      · by_cases h : t = id
        · exact h ▸ List.mem_cons_self
        · have hb' := (List.mem_cons.1 hb).resolve_left hbid
          exact List.mem_cons_of_mem _ (ih.2 b hb' m (by rw [find?_others, if_neg hbid]; exact hm)
            t ht (by rw [find?_others, if_neg h]; exact hsome))

theorem Path.contains {g : Graph ι ω} {entry b : ι} (h : g.Path entry b) : g.contains b = true := by
  cases h with
  | refl h => exact h
  | edge _ _ _ h => exact h

/-- **The search finds what paths lead to.** -/
theorem mem_reachable_iff {g : Graph ι ω} {entry b : ι} :
    b ∈ g.reachable entry ↔ g.Path entry b := by
  obtain ⟨hentry, hclosed⟩ := explore_closed g.nodes [entry]
  simp only [reachable, List.mem_filter, List.mem_map, decide_eq_true_eq]
  constructor
  · rintro ⟨-, hb⟩
    obtain ⟨hpath, hcontains⟩ := explore_induct
      (P := fun b => g.contains b = true → g.Path entry b)
      (fun b n hb hn t ht hcontains =>
        .edge (hb (by simp [Graph.contains, node?, hn])) hn ht hcontains)
      (fun b hb hcontains => List.mem_singleton.1 hb ▸ .refl (List.mem_singleton.1 hb ▸ hcontains))
      b hb
    exact hpath hcontains
  · intro h
    obtain ⟨n, hn⟩ := Option.isSome_iff_exists.1 h.contains
    refine ⟨⟨n, mem_of_node? hn, id_of_node? hn⟩, ?_⟩
    clear hn
    induction h with
    | refl h => exact hentry entry (List.mem_singleton_self _) h
    | edge _ hn ht hcontains ih => exact hclosed _ ih _ hn _ ht hcontains

end Graph

/-! ### The engine -/

variable [Ord ι] [TransOrd ι] [LawfulEqOrd ι]

namespace Run

variable {o : JoinOrder σ} {r : Run ι σ} {b t : ι} {s : σ}

/-- A state was handed over to the block. -/
def Reached (r : Run ι σ) (b : ι) : Prop := (r.facts.get? b).isSome = true

/-- Entering the states of a reached block reaches no other block. -/
theorem reached_enter {id : ι} {f f' : Facts σ} (hf : r.facts.get? id = some f) :
    (r.enter id f').Reached b ↔ r.Reached b := by
  rw [Reached, get?_enter]
  split
  · rename_i hb
    simp [Reached, hb, hf]
  · rfl

/-- A delivery reaches its target and no other block. -/
theorem reached_deliver : (r.deliver o t s).Reached b ↔ b = t ∨ r.Reached b := by
  have hput : ∀ f, ((r.facts.insert t f).get? b).isSome = true ↔
      b = t ∨ (r.facts.get? b).isSome = true := by
    intro f
    rw [OrdMap.get?_insert]
    split <;> simp [*]
  rcases r.deliver_cases o t s with ⟨-, heq⟩ | ⟨f, hf, -, heq⟩ | ⟨f, -, -, heq⟩
  · rw [heq]
    exact hput _
  · rw [heq]
    refine ⟨Or.inr, ?_⟩
    rintro (rfl | h)
    · exact Option.isSome_iff_exists.2 ⟨f, hf⟩
    · exact h
  · rw [heq]
    exact hput _

omit [DecidableEq ι] in
/-- A delivery leaves pending what was, and adds what it reaches first. -/
theorem mem_pending_deliver (h : b ∈ r.pending ∨ b = t ∧ ¬ r.Reached b) :
    b ∈ (r.deliver o t s).pending := by
  rcases r.deliver_cases o t s with ⟨-, heq⟩ | ⟨f, hf, -, heq⟩ | ⟨f, -, -, heq⟩
  · rw [heq]
    exact List.mem_cons.2 (h.symm.imp_left And.left)
  · rw [heq]
    refine h.resolve_right ?_
    rintro ⟨rfl, hnot⟩
    exact hnot (Option.isSome_iff_exists.2 ⟨f, hf⟩)
  · rw [heq]
    exact List.mem_cons.2 (h.symm.imp_left And.left)

end Run

namespace Engine

variable {e : Engine ι ω σ γ} {r r' : Run ι σ} {b : ι}

/-- Handing a state over to all successors reaches them, and no other block. -/
theorem reached_deliverAll {source : ι} {s : σ} {succs : List ι}
    (hsuccs : ∀ t ∈ succs, e.graph.contains t = true) :
    (e.deliverAll source s succs r).1.Reached b ↔ b ∈ succs ∨ r.Reached b := by
  induction succs generalizing r with
  | nil => simp [deliverAll]
  | cons t rest ih =>
    rw [deliverAll, if_pos (hsuccs t List.mem_cons_self),
      ih fun t h => hsuccs t (List.mem_cons_of_mem _ h), Run.reached_deliver, List.mem_cons]
    exact or_left_comm.trans or_assoc.symm

/-- The block will be visited, or it was and its successors are reached. -/
def Passed (e : Engine ι ω σ γ) (r : Run ι σ) (b : ι) : Prop :=
  b ∈ r.pending ∨ ∃ n, e.graph.node? b = some n ∧ ∀ t ∈ n.succs, r.Reached t

theorem Passed.deliver (h : e.Passed r b) (o : JoinOrder σ) (t : ι) (s : σ) :
    e.Passed (r.deliver o t s) b := by
  rcases h with hb | ⟨n, hn, hall⟩
  · exact Or.inl (Run.mem_pending_deliver (Or.inl hb))
  · exact Or.inr ⟨n, hn, fun t' ht' => Run.reached_deliver.2 (Or.inr (hall t' ht'))⟩

/-- Handing a state over passes what it reaches. Until its end the source itself may not be
passed. -/
theorem passed_deliverAll {source : ι} {s : σ} {succs : List ι}
    (h : ∀ b, r.Reached b → b = source ∨ e.Passed r b) :
    ∀ b, (e.deliverAll source s succs r).1.Reached b →
      b = source ∨ e.Passed (e.deliverAll source s succs r).1 b := by
  refine deliverAll_induct (R := fun r => ∀ b, r.Reached b → b = source ∨ e.Passed r b) ?_ h
  intro t _ _ r hr b hb
  by_cases hreached : r.Reached b
  · exact (hr b hreached).imp_right fun h => h.deliver _ t s
  · have hbt := (Run.reached_deliver.1 hb).resolve_right hreached
    exact Or.inr (Or.inl (Run.mem_pending_deliver (Or.inr ⟨hbt, hreached⟩)))

/-- **A turn passes every block that it reaches**, whichever pending block it takes. -/
theorem passed_visit {id : ι} {rest : List ι} {c c' : γ}
    (h : ∀ b, r.Reached b → e.Passed r b) (hp : r.pending.Perm (id :: rest))
    (hv : e.visit id { r with pending := rest } c = ((r', c'), .ok ())) :
    ∀ b, r'.Reached b → e.Passed r' b := by
  obtain ⟨n, f, hn, hf, hsuccs, -, rfl⟩ := visit_ok_iff.1 hv
  have hf : r.facts.get? id = some f := hf
  have hkeys : ∀ {f' b}, (Run.enter { r with pending := rest } id f').Reached b ↔ r.Reached b :=
    Run.reached_enter hf
  have henter : ∀ f' b, (Run.enter { r with pending := rest } id f').Reached b →
      b = id ∨ e.Passed (Run.enter { r with pending := rest } id f') b := by
    intro f' b hb
    rcases h b (hkeys.1 hb) with hpend | ⟨m, hm, hall⟩
    · exact (List.mem_cons.1 (hp.mem_iff.1 hpend)).imp_right Or.inl
    · exact Or.inr (Or.inr ⟨m, hm, fun t ht => hkeys.2 (hall t ht)⟩)
  intro b hb
  rcases passed_deliverAll (henter _) b hb with rfl | h
  · exact Or.inr ⟨n, hn, fun t ht => (reached_deliverAll hsuccs).2 (Or.inl ht)⟩
  · exact h

/-! ### Turns in any order -/

omit [Ord ι] [TransOrd ι] [LawfulEqOrd ι] in
/-- It is an invariant of every engine that paths lead to where there are states. -/
theorem invariant_path (e : Engine ι ω σ γ) (entry : ι) :
    e.Invariant (fun _ => True) fun _ p _ => e.graph.Path entry p.block where
  join hb _ := hb
  context _ _ _ _ := trivial
  next _ _ _ hb := hb
  kept _ _ _ _ _ _ hb := hb
  leave hn ht hcontains hb := .edge hb hn ht hcontains

section Turns

variable {entry : ι} {s₀ : σ} {r₀ : Run ι σ} {c c' : γ}

/-- Turns in any order pass every block that they reach. -/
theorem passed_of_turns (hstart : Run.start e.graph entry s₀ = .ok r₀)
    (hturns : e.Turns (r₀, c) (r, c')) : ∀ b, r.Reached b → e.Passed r b := by
  obtain ⟨-, rfl⟩ := Run.start_eq_ok_iff.1 hstart
  refine hturns.induct (P := fun r => ∀ b, r.Reached b → e.Passed r b)
    (fun h hp hv => passed_visit h hp hv) fun b hb => Or.inl ?_
  rw [Run.Reached, OrdMap.get?_insert] at hb
  split at hb
  · simp [*]
  · simp at hb

/-- Only blocks that paths lead to are reached. -/
theorem path_of_turns (hstart : Run.start e.graph entry s₀ = .ok r₀)
    (hturns : e.Turns (r₀, c) (r, c')) (h : r.Reached b) : e.graph.Path entry b := by
  obtain ⟨f, hf⟩ := Option.isSome_iff_exists.1 h
  have hentry : e.graph.Path entry entry := .refl (Run.start_eq_ok_iff.1 hstart).1
  have hall := ((e.invariant_path entry).turns hturns trivial
    (Run.everywhere_start hstart hentry)).2
  exact hall b f hf 0 f.input rfl

/-- **A run that is done has reached what paths lead to**, whatever the domain does. -/
theorem reached_iff_path (hstart : Run.start e.graph entry s₀ = .ok r₀)
    (hturns : e.Turns (r₀, c) (r, c')) (hdone : r.pending = []) :
    r.Reached b ↔ e.graph.Path entry b := by
  refine ⟨path_of_turns hstart hturns, fun h => ?_⟩
  induction h with
  | refl _ =>
    obtain ⟨f, hf, -⟩ : r.InputHas entry fun _ => True :=
      inputHas_of_turns (fun _ _ _ => trivial) trivial hstart hturns
    exact Option.isSome_iff_exists.2 ⟨f, hf⟩
  | edge _ hn ht _ ih =>
    rcases passed_of_turns hstart hturns _ ih with hpend | ⟨n, hn', hall⟩
    · simp [hdone] at hpend
    · obtain rfl := Option.some.inj (hn.symm.trans hn')
      exact hall _ ht

end Turns

end Engine

end EvmAccess
