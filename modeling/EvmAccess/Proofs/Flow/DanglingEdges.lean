import EvmAccess.Proofs.Flow.Interrupted

/-!
# Edges that leave the graph

An edge may name a block that the graph does not have. The engine looks at an edge when it hands a
state over along it, which is when it visits the block that the edge leaves. So it finds such an
edge only at a block that it visits; but it visits every block that paths lead to, whatever the
domain does, and no other. If a run comes to an end by itself, then it ends with a dangling edge
exactly if there is one, and otherwise it succeeds.

Nothing else can go wrong. Every pending block was reached and is in the graph, so no visit fails to
find its block, and without a node limit nothing cuts the run short.

## Main results

- `Engine.fault_of_visit`: how a visit to a reached block can fail.
- `Engine.ok_or_dangling`: how a run can end by itself.
- `Engine.not_dangling_of_analyze`: a run that succeeds has looked at all edges.
- `Engine.dangling_of_analyze`: dangling edges are found, and nothing else is.
-/

namespace EvmAccess

open Std

variable {ι ω σ γ : Type} [DecidableEq ι]

/-- An edge leaves the graph, at a block that paths from the start lead to. -/
structure Graph.Dangling (g : Graph ι ω) (start source target : ι) : Prop where
  path : g.Path start source
  edge : ∃ n, g.node? source = some n ∧ target ∈ n.succs
  missing : g.contains target = false

variable [Ord ι] [TransOrd ι] [LawfulEqOrd ι]

namespace Engine

variable {e : Engine ι ω σ γ} {r r₀ : Run ι σ} {c c' : γ} {entry : ι} {s₀ : σ} {fuel : Nat}

/-- The loop comes to an end by itself, before the fuel runs out. -/
def Finishes (e : Engine ι ω σ γ) (fuel : Nat) (r : Run ι σ) (c : γ) : Prop :=
  ∀ visits, (e.analyze fuel r c).2 ≠ .error (.exhausted visits)

/-- Handing a state over fails at an edge that leaves the graph. -/
theorem fault_of_deliverAll {source : ι} {s : σ} {succs : List ι} {fault : Fault ι}
    (h : (e.deliverAll source s succs r).2 = .error fault) :
    ∃ t ∈ succs, e.graph.contains t = false ∧ fault = .missingSuccessor source t := by
  induction succs generalizing r with
  | nil => simp [deliverAll] at h
  | cons t rest ih =>
    rw [deliverAll] at h
    split at h
    · obtain ⟨t', ht', hmissing⟩ := ih h
      exact ⟨t', List.mem_cons_of_mem _ ht', hmissing⟩
    · rename_i ht
      exact ⟨t, List.mem_cons_self, Bool.eq_false_iff.2 ht, (Except.error.inj h).symm⟩

/-- A visit to a block that was reached and is in the graph fails only at an edge that leaves the
graph. -/
theorem fault_of_visit {id : ι} {x : Run ι σ × γ} {fault : Fault ι} (hid : r.Reached id)
    (hcontains : e.graph.contains id = true) (hv : e.visit id r c = (x, .error fault)) :
    ∃ n t, e.graph.node? id = some n ∧ t ∈ n.succs ∧ e.graph.contains t = false ∧
      fault = .missingSuccessor id t := by
  obtain ⟨f, hf⟩ := Option.isSome_iff_exists.1 hid
  obtain ⟨n, hn⟩ := Option.isSome_iff_exists.1 hcontains
  simp only [visit, hn, hf] at hv
  obtain ⟨t, ht, hmissing, hfault⟩ := fault_of_deliverAll (congrArg Prod.snd hv)
  exact ⟨n, t, hn, ht, hmissing, hfault⟩

/-- Whatever turns reach is in the graph, and whatever they leave pending was reached. -/
theorem within_of_turns (hstart : Run.start e.graph entry s₀ = .ok r₀)
    (hturns : e.Turns (r₀, c) (r, c')) : r.Within e.graph :=
  hturns.induct (P := fun r => r.Within e.graph)
    (fun h hp hv => within_visit h (fun _ hb => hp.mem_iff.2 (List.mem_cons_of_mem _ hb)) hv)
    (Run.within_start hstart)

/-- **Without a node limit, a run that ends by itself succeeds or finds a dangling edge.** -/
theorem ok_or_dangling (hlimit : e.nodeLimit = 0) (hstart : Run.start e.graph entry s₀ = .ok r₀)
    (hfin : e.Finishes fuel r₀ c) :
    (e.analyze fuel r₀ c).2 = .ok () ∨
      ∃ a b, (e.analyze fuel r₀ c).2 = .error (.missingSuccessor a b) ∧
        e.graph.Dangling entry a b := by
  have hended : e.Ended (fun r c' => e.Turns (r₀, c) (r, c')) (e.analyze fuel r₀ c) :=
    ended_analyze (fun h hp hv => h.tail ⟨_, _, .of_eq hp, hv⟩) .refl
  rw [Finishes] at hfin
  generalize e.analyze fuel r₀ c = result at hended hfin
  cases hended with
  | done _ _ => exact Or.inl rfl
  | exhausted _ => exact absurd rfl (hfin _)
  | limited id _ hat => simp [atLimit, visitLimit, hlimit] at hat
  | @failed r c' id rest x fault hturns hp hv =>
    -- The block on top of the stack was reached, so it is in the graph and a path leads to it.
    have hwithin := within_of_turns hstart hturns
    have hid : r.Reached id := hwithin.pending (hp ▸ List.mem_cons_self)
    obtain ⟨n, t, hn, ht, hmissing, rfl⟩ :=
      fault_of_visit (r := { r with pending := rest }) hid (hwithin.known hid) hv
    exact Or.inr ⟨id, t, rfl, path_of_turns hstart hturns hid, ⟨n, hn, ht⟩, hmissing⟩

/-- A run that succeeds has looked at every edge that leaves a block that paths lead to. -/
theorem not_dangling_of_analyze (hstart : Run.start e.graph entry s₀ = .ok r₀)
    (hok : (e.analyze fuel r₀ c).2 = .ok ()) (a b : ι) : ¬ e.graph.Dangling entry a b := by
  rintro ⟨hpath, ⟨n, hn, hb⟩, hmissing⟩
  obtain ⟨hturns, hdone⟩ := turns_of_analyze (Prod.ext rfl hok : e.analyze fuel r₀ c = (_, .ok ()))
  have hreached := (reached_iff_path hstart hturns hdone).2 hpath
  rcases passed_of_turns hstart hturns a hreached with hpend | ⟨n', hn', hall⟩
  · simp [hdone] at hpend
  · obtain rfl := Option.some.inj (hn.symm.trans hn')
    have hcontains := (within_of_turns hstart hturns).known (hall b hb)
    exact Bool.false_ne_true (hmissing.symm.trans hcontains)

/-- **Dangling edges are found, and nothing else goes wrong.** Let a run without a node limit come
to an end by itself, on any graph and for any domain. If it reports a missing successor, then a path
through blocks of the graph leads to a block with that successor, and the graph does not have it.
The run succeeds exactly if there is no such edge, and no other fault is reported. -/
theorem dangling_of_analyze (hlimit : e.nodeLimit = 0)
    (hstart : Run.start e.graph entry s₀ = .ok r₀) (hfin : e.Finishes fuel r₀ c) :
    (∀ a b, (e.analyze fuel r₀ c).2 = .error (.missingSuccessor a b) →
      e.graph.Dangling entry a b) ∧
    ((e.analyze fuel r₀ c).2 = .ok () ↔ ∀ a b, ¬ e.graph.Dangling entry a b) ∧
    ∀ fault, (e.analyze fuel r₀ c).2 = .error fault → ∃ a b, fault = .missingSuccessor a b := by
  rcases ok_or_dangling hlimit hstart hfin with hok | ⟨a, b, herror, hdangling⟩
  · have hnone := not_dangling_of_analyze hstart hok
    rw [hok]
    exact ⟨nofun, iff_of_true rfl hnone, nofun⟩
  · rw [herror]
    refine ⟨?_, iff_of_false nofun fun hnone => hnone a b hdangling, ?_⟩
    · rintro _ _ ⟨⟩
      exact hdangling
    · rintro _ ⟨⟩
      exact ⟨a, b, rfl⟩

/-- Two blocks that are each other's successor, and a third one that leads to them and out of the
graph. -/
def leaking : Engine Nat Nat (OrdSet Nat) Nat where
  graph := ⟨[⟨0, [0], [1]⟩, ⟨1, [1], [0]⟩, ⟨2, [2], [0, 9]⟩]⟩
  domain := gathering.domain
  nodeLimit := 0

/-- A fresh run that starts at the given block. -/
def leakingStart (entry : Nat) : Run Nat (OrdSet Nat) :=
  ⟨(∅ : OrdMap Nat _).insert entry (.start ∅), [entry], 0⟩

/-- From the first block no path leads out of the graph, though an edge does. From the third one a
path does, and it is found. -/
theorem dangling_leaking :
    (leaking.analyze 8 (leakingStart 0) 0).2 = .ok () ∧
      (∀ a b, ¬ leaking.graph.Dangling 0 a b) ∧
      (leaking.analyze 8 (leakingStart 2) 0).2 = .error (.missingSuccessor 2 9) ∧
      leaking.graph.Dangling 2 2 9 := by
  have hok : (leaking.analyze 8 (leakingStart 0) 0).2 = .ok () := rfl
  have herror : (leaking.analyze 8 (leakingStart 2) 0).2 = .error (.missingSuccessor 2 9) := rfl
  have hfin₀ : leaking.Finishes 8 (leakingStart 0) 0 := by simp [Finishes, hok]
  have hfin₂ : leaking.Finishes 8 (leakingStart 2) 0 := by simp [Finishes, herror]
  have hstart₀ : Run.start leaking.graph 0 ∅ = .ok (leakingStart 0) :=
    Run.start_eq_ok_iff.2 ⟨rfl, rfl⟩
  have hstart₂ : Run.start leaking.graph 2 ∅ = .ok (leakingStart 2) :=
    Run.start_eq_ok_iff.2 ⟨rfl, rfl⟩
  have hfirst := dangling_of_analyze rfl hstart₀ hfin₀
  have hthird := dangling_of_analyze rfl hstart₂ hfin₂
  exact ⟨hok, hfirst.2.1.1 hok, herror, hthird.1 2 9 herror⟩

end Engine

end EvmAccess
