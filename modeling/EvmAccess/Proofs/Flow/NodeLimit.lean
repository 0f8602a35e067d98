import EvmAccess.Proofs.Flow.DanglingEdges

/-!
# What a node limit does to a run

The node limit counts visits. The loop looks at it after it took a block off the stack and before it
visits the block, and nothing else in a visit depends on it. So a limited run makes the same visits
as an unlimited one, in the same order, until there have been as many as the limit allows. If by
then nothing is pending, the limit is never looked at again, and the two runs end alike; a run that
needs exactly as many visits as it may have still succeeds. Otherwise the next block is taken off
the stack, and the run is given up.

Both runs are compared through the list of blocks that are visited, `Engine.Visits`. It can be cut
anywhere (`Engine.visits_append`), and the loop can be followed along it as far as the limit allows
(`Engine.analyze_of_visits`).

## Main results

- `Engine.visits_of_analyze`: the visits of a run that succeeds.
- `Engine.analyze_of_visits`: a limit that is not met changes nothing.
- `Engine.analyze_of_cut`: a limit that is met stops the run before the next visit.
- `Engine.analyze_limited`: a node limit only cuts the run short.
-/

namespace EvmAccess

open Std

variable {ι ω σ γ : Type} [DecidableEq ι] [Ord ι] [TransOrd ι] [LawfulEqOrd ι]

namespace Engine

variable {e : Engine ι ω σ γ} {r r₀ r' : Run ι σ} {c c' : γ} {entry : ι} {s₀ : σ} {fuel limit : Nat}

/-! ### The visits of a run -/

/-- The engine visits these blocks one after the other, each from the top of the stack. -/
inductive Visits (e : Engine ι ω σ γ) : List ι → Run ι σ × γ → Run ι σ × γ → Prop
  | nil (x : Run ι σ × γ) : Visits e [] x x
  | cons {id : ι} {rest ids : List ι} {r r' : Run ι σ} {c c' : γ} {y : Run ι σ × γ} :
      r.pending = id :: rest → e.visit id { r with pending := rest } c = ((r', c'), .ok ()) →
      Visits e ids (r', c') y → Visits e (id :: ids) (r, c) y

/-- The first of them is on top of the stack. -/
theorem Visits.pending_eq {id : ι} {ids : List ι} {y : Run ι σ × γ}
    (h : e.Visits (id :: ids) (r, c) y) : ∃ rest, r.pending = id :: rest := by
  cases h with
  | cons hp _ _ => exact ⟨_, hp⟩

/-- Each of them is counted. -/
theorem Visits.visits_eq {ids : List ι} {x y : Run ι σ × γ} (h : e.Visits ids x y) :
    y.1.visits = x.1.visits + ids.length := by
  induction h with
  | nil _ => rfl
  | cons _ hv _ ih =>
    rw [ih, visits_of_visit hv, List.length_cons, Nat.add_assoc, Nat.add_comm 1]

/-- A sequence of visits can be cut anywhere. -/
theorem visits_append {ids ids' : List ι} {x z : Run ι σ × γ} :
    e.Visits (ids ++ ids') x z ↔ ∃ y, e.Visits ids x y ∧ e.Visits ids' y z := by
  constructor
  · intro h
    induction ids generalizing x with
    | nil => exact ⟨x, .nil x, h⟩
    | cons id ids ih =>
      cases h with
      | cons hp hv h =>
        obtain ⟨y, hids, hids'⟩ := ih h
        exact ⟨y, .cons hp hv hids, hids'⟩
  · rintro ⟨y, h, h'⟩
    induction h with
    | nil _ => exact h'
    | cons hp hv _ ih => exact .cons hp hv (ih h')

/-- In particular before any of them. -/
theorem Visits.cut {ids : List ι} {n : Nat} {x z : Run ι σ × γ} (h : e.Visits ids x z)
    (hn : n < ids.length) :
    ∃ y, e.Visits (ids.take n) x y ∧ e.Visits (ids[n] :: ids.drop (n + 1)) y z := by
  apply visits_append.1
  rwa [← List.drop_eq_getElem_cons hn, List.take_append_drop]

/-- Handing a state over does not depend on the limit. -/
theorem deliverAll_nodeLimit {source : ι} {s : σ} {succs : List ι} :
    deliverAll { e with nodeLimit := limit } source s succs r = e.deliverAll source s succs r := by
  induction succs generalizing r with
  | nil => rfl
  | cons t rest ih => simp only [deliverAll, ih]

/-- A visit does not depend on the limit. -/
theorem visit_nodeLimit {id : ι} :
    visit { e with nodeLimit := limit } id r c = e.visit id r c := by
  simp only [visit, deliverAll_nodeLimit]

/-- A run that succeeds makes visits until nothing is pending, one for each unit of fuel it needs.
They are visits of the engine with any other limit, too. -/
theorem visits_of_analyze
    (h : analyze { e with nodeLimit := limit } fuel r c = ((r', c'), .ok ())) :
    ∃ ids, e.Visits ids (r, c) (r', c') ∧ ids.length ≤ fuel ∧ r'.pending = [] := by
  induction fuel generalizing r c with
  | zero =>
    cases hp : r.pending with
    | nil =>
      rw [analyze_nil hp] at h
      cases h
      exact ⟨[], .nil _, Nat.le_refl 0, hp⟩
    | cons id rest =>
      rw [analyze_zero hp] at h
      cases h
  | succ fuel ih =>
    cases hp : r.pending with
    | nil =>
      rw [analyze_nil hp] at h
      cases h
      exact ⟨[], .nil _, Nat.zero_le _, hp⟩
    | cons id rest =>
      rw [analyze_succ hp] at h
      split at h
      · cases h
      · split at h
        · cases h
        · rename_i r₁ c₁ hv
          rw [visit_nodeLimit] at hv
          obtain ⟨ids, hvisits, hlength, hdone⟩ := ih h
          exact ⟨id :: ids, .cons hp hv hvisits, Nat.succ_le_succ hlength, hdone⟩

/-! ### Following the loop up to the limit -/

omit [DecidableEq ι] [TransOrd ι] [LawfulEqOrd ι] in
/-- Below the limit there is room for another visit. -/
theorem atLimit_eq_false (h : r.visits < limit * e.graph.nodes.length) :
    atLimit { e with nodeLimit := limit } r = false := by
  have hle : ¬ limit * e.graph.nodes.length ≤ r.visits := Nat.not_le.2 h
  simp [atLimit, visitLimit, hle]

/-- **A limit that is not met changes nothing.** The loop makes the visits one after the other, as
long as the last of them is within the limit. -/
theorem analyze_of_visits {ids : List ι} {x y : Run ι σ × γ} (h : e.Visits ids x y)
    (hroom : y.1.visits ≤ limit * e.graph.nodes.length) :
    analyze { e with nodeLimit := limit } (ids.length + fuel) x.1 x.2 =
      analyze { e with nodeLimit := limit } fuel y.1 y.2 := by
  induction h with
  | nil _ => rw [List.length_nil, Nat.zero_add]
  | @cons id rest ids r r' c c' y hp hv htail ih =>
    have hcount : y.1.visits = r.visits + (ids.length + 1) :=
      (Visits.cons hp hv htail).visits_eq
    have hbelow : r.visits < limit * e.graph.nodes.length := by omega
    have hfree : atLimit { e with nodeLimit := limit } { r with pending := rest } = false :=
      atLimit_eq_false hbelow
    rw [List.length_cons, Nat.add_right_comm, analyze_succ hp, hfree, if_neg Bool.false_ne_true,
      visit_nodeLimit, hv]
    exact ih hroom

/-- At the limit the loop takes one more block off the stack and gives up. -/
theorem analyze_of_limit_le {id : ι} {rest : List ι} (hp : r.pending = id :: rest)
    (hpos : 0 < limit * e.graph.nodes.length) (hfull : limit * e.graph.nodes.length ≤ r.visits) :
    analyze { e with nodeLimit := limit } (fuel + 1) r c =
      (({ r with pending := rest }, c), .error (.noConvergence r.visits)) := by
  have hat : atLimit { e with nodeLimit := limit } { r with pending := rest } = true := by
    simp [atLimit, visitLimit, hpos, hfull]
  rw [analyze_succ hp, hat, if_pos rfl]

/-- A run that needs one more visit than the limit allows is given up before that visit. -/
theorem analyze_of_cut (fuel : Nat) {ids : List ι} {n : Nat} {z : Run ι σ × γ}
    (h : e.Visits ids (r, c) z) (hn : n < ids.length) (hpos : 0 < limit * e.graph.nodes.length)
    (hfull : r.visits + n = limit * e.graph.nodes.length) :
    ∃ r₁ c₁, e.Visits (ids.take n) (r, c) ({ r₁ with pending := ids[n] :: r₁.pending }, c₁) ∧
      analyze { e with nodeLimit := limit } (n + (fuel + 1)) r c =
        ((r₁, c₁), .error (.noConvergence (limit * e.graph.nodes.length))) := by
  obtain ⟨⟨r₁, c₁⟩, hfirst, hrest⟩ := h.cut hn
  obtain ⟨rest, hp⟩ := hrest.pending_eq
  have hlen : (ids.take n).length = n := List.length_take_of_le (Nat.le_of_lt hn)
  have hcount : r₁.visits = limit * e.graph.nodes.length := by
    rw [← hfull, ← hlen]
    exact hfirst.visits_eq
  have hr₁ : { r₁ with pending := ids[n] :: rest } = r₁ := by rw [← hp]
  refine ⟨{ r₁ with pending := rest }, c₁, hr₁.symm ▸ hfirst, ?_⟩
  calc analyze { e with nodeLimit := limit } (n + (fuel + 1)) r c
      = analyze { e with nodeLimit := limit } (fuel + 1) r₁ c₁ := by
        rw [← analyze_of_visits hfirst (Nat.le_of_eq hcount), hlen]
    _ = (({ r₁ with pending := rest }, c₁),
          .error (.noConvergence (limit * e.graph.nodes.length))) := by
        rw [analyze_of_limit_le hp hpos (Nat.le_of_eq hcount.symm), hcount]

/-- **A node limit only cuts the run short.** Let no edge of the graph dangle where paths from the
entry lead, and let the run without a limit come to an end by itself. It succeeds, with some list of
visits. Under a limit of `k` visits per block the run ends in the same way, with the same facts and
the same context, if there are at most that many visits. If there are more, then it makes the visits
that are within the limit, takes the next block off the stack, and reports that it did not
converge. -/
theorem analyze_limited {k : Nat} (hk : 0 < k) (hstart : Run.start e.graph entry s₀ = .ok r₀)
    (hclosed : ∀ a b, ¬ e.graph.Dangling entry a b)
    (hfin : Finishes { e with nodeLimit := 0 } fuel r₀ c) :
    ∃ r c' ids, analyze { e with nodeLimit := 0 } fuel r₀ c = ((r, c'), .ok ()) ∧
      e.Visits ids (r₀, c) (r, c') ∧ r.visits = ids.length ∧
      (r.visits ≤ k * e.graph.nodes.length →
        analyze { e with nodeLimit := k } fuel r₀ c = ((r, c'), .ok ())) ∧
      (k * e.graph.nodes.length < r.visits → ∃ id r₁ c₁,
        e.Visits (ids.take (k * e.graph.nodes.length)) (r₀, c)
          ({ r₁ with pending := id :: r₁.pending }, c₁) ∧
        ids[k * e.graph.nodes.length]? = some id ∧
        analyze { e with nodeLimit := k } fuel r₀ c =
          ((r₁, c₁), .error (.noConvergence (k * e.graph.nodes.length)))) := by
  obtain ⟨hentry, hr₀⟩ := Run.start_eq_ok_iff.1 hstart
  have hzero : r₀.visits = 0 := by rw [hr₀]
  have hpos : 0 < k * e.graph.nodes.length := by
    obtain ⟨n, hn⟩ := Option.isSome_iff_exists.1 hentry
    exact Nat.mul_pos hk (List.length_pos_of_mem (List.mem_of_find?_eq_some hn))
  have hok : (analyze { e with nodeLimit := 0 } fuel r₀ c).2 = .ok () := by
    rcases ok_or_dangling (e := { e with nodeLimit := 0 }) rfl hstart hfin with hok | ⟨a, b, -, h⟩
    · exact hok
    · exact absurd h (hclosed a b)
  obtain ⟨⟨⟨r, c'⟩, result⟩, hrun⟩ : ∃ x, analyze { e with nodeLimit := 0 } fuel r₀ c = x :=
    ⟨_, rfl⟩
  obtain rfl : result = .ok () := by simpa [hrun] using hok
  obtain ⟨ids, hvisits, hlength, hdone⟩ := visits_of_analyze hrun
  have hcount : r.visits = ids.length := by simpa [hzero] using hvisits.visits_eq
  refine ⟨r, c', ids, hrun, hvisits, hcount, fun hle => ?_, fun hlt => ?_⟩
  · obtain ⟨more, rfl⟩ := Nat.exists_eq_add_of_le hlength
    rw [analyze_of_visits hvisits hle, analyze_nil hdone]
  · rw [hcount] at hlt
    obtain ⟨more, rfl⟩ := Nat.exists_eq_add_of_lt (Nat.lt_of_lt_of_le hlt hlength)
    obtain ⟨r₁, c₁, hfirst, hstop⟩ :=
      analyze_of_cut more hvisits hlt hpos (by rw [hzero, Nat.zero_add])
    exact ⟨_, r₁, c₁, hfirst, List.getElem?_eq_getElem hlt, hstop⟩

/-- The sample needs six visits for its three blocks. Two visits for each are just enough. With one
for each it is given up after the first three visits. -/
theorem limited_gathering :
    let whole := analyze { gathering with nodeLimit := 0 } 6 gatheringStart 0
    let enough := analyze { gathering with nodeLimit := 2 } 6 gatheringStart 0
    let short := analyze { gathering with nodeLimit := 1 } 6 gatheringStart 0
    whole.2 = .ok () ∧ whole.1.1.visits = 6 ∧ enough = whole ∧ short.2 = .error (.noConvergence 3) ∧
      ∃ ids id, gathering.Visits ids (gatheringStart, 0) whole.1 ∧ ids[3]? = some id ∧
        gathering.Visits (ids.take 3) (gatheringStart, 0)
          ({ short.1.1 with pending := id :: short.1.1.pending }, short.1.2) := by
  have hok : (analyze { gathering with nodeLimit := 0 } 6 gatheringStart 0).2 = .ok () := rfl
  have hvisits :
      (analyze { gathering with nodeLimit := 0 } 6 gatheringStart 0).1.1.visits = 6 := rfl
  have hstart : Run.start gathering.graph 0 ∅ = .ok gatheringStart :=
    Run.start_eq_ok_iff.2 ⟨rfl, rfl⟩
  have hclosed : ∀ a b, ¬ gathering.graph.Dangling 0 a b :=
    not_dangling_of_analyze (e := { gathering with nodeLimit := 0 }) hstart hok
  have hfin : Finishes { gathering with nodeLimit := 0 } 6 gatheringStart 0 := by
    simp [Finishes, hok]
  obtain ⟨r, c, -, hrun, -, -, henough, -⟩ :=
    analyze_limited (k := 2) (by decide) hstart hclosed hfin
  obtain ⟨r', c', ids, hrun', hids, -, -, hshort⟩ :=
    analyze_limited (k := 1) (by decide) hstart hclosed hfin
  have hr : r.visits = 6 := by rw [← hvisits, hrun]
  have hr' : r'.visits = 6 := by rw [← hvisits, hrun']
  obtain ⟨id, r₁, c₁, hfirst, hid, hstop⟩ := hshort (hr' ▸ by decide)
  refine ⟨hok, hvisits, ?_, ?_, ids, id, ?_, hid, ?_⟩
  · rw [hrun]
    exact henough (hr ▸ by decide)
  · exact congrArg Prod.snd hstop
  · rw [hrun']
    exact hids
  · rw [hstop]
    exact hfirst

end Engine

end EvmAccess
