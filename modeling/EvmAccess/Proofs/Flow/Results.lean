import EvmAccess.Proofs.Flow.PostFixpoint

/-!
# Results by program point

After a run the state at each point of a block can be looked up. The states inside a block are
forgotten whenever its input grows, possibly by what the block has just handed over to itself, and
they are there again only after the next execution. So it has to be shown that no block is left in
between: at every turn each reached block is pending, or its facts are those of an execution from
its present input (`Engine.Current`). Unlike a post-fixpoint this needs no law of the order:
whatever `leq` answers, a block is either left alone or put on the stack.

Positions are numbers of 64 bits, of which the upper half counts back from the end of the range. A
position in the lower half is the position of an operation.

## Main results

- `Run.stateAt_eq_ok_iff`, `Run.stateBefore_eq_ok`: when a state is found.
- `Facts.exists_before_executed`, `Facts.exists_after_executed`: the states of an execution.
- `Engine.executed_of_analyze`: at the end of a run every reached block is executed.
- `Engine.upToDate_of_analyze`: the results are complete, and none is out of date.
-/

namespace EvmAccess

open Std

variable {ι ω σ γ : Type} [Ord ι]

/-! ### Looking up states -/

namespace Run

variable {r : Run ι σ} {p : Point ι} {f : Facts σ} {s : σ} {relative : Int}

theorem signedIndex_of_lt {index : Nat} (h : index < 0x8000000000000000) :
    signedIndex index = index := by
  rw [signedIndex, if_neg (by omega)]

/-- A look-up finds the state at a position, if it comes out at one. -/
theorem stateAt_eq_ok_iff (hf : r.facts.get? p.block = some f) :
    r.stateAt p relative = .ok s ↔
      ∃ j : Nat, signedIndex p.index + relative = j ∧ f.states[j]? = some s := by
  simp only [stateAt, hf, Facts.stateAt?]
  generalize signedIndex p.index + relative = index
  by_cases hsign : 0 ≤ index
  · obtain ⟨j, rfl⟩ := Int.eq_ofNat_of_zero_le hsign
    simp only [if_pos hsign, Int.toNat_natCast, Int.ofNat_inj, exists_eq_left']
    cases f.states[j]? <;> simp
  · rw [if_neg hsign]
    simp only [reduceCtorEq, false_iff]
    rintro ⟨j, rfl, -⟩
    omega

/-- A look-up succeeds exactly if it comes out inside the block. -/
theorem exists_stateAt_iff (hf : r.facts.get? p.block = some f) :
    (∃ s, r.stateAt p relative = .ok s) ↔
      0 ≤ signedIndex p.index + relative ∧ signedIndex p.index + relative < f.states.length := by
  simp only [stateAt_eq_ok_iff hf]
  constructor
  · rintro ⟨s, j, hj, hs⟩
    have hlt := (List.getElem?_eq_some_iff.1 hs).1
    omega
  · rintro ⟨hsign, hlt⟩
    obtain ⟨j, hj⟩ := Int.eq_ofNat_of_zero_le hsign
    exact ⟨f.states[j], j, hj, List.getElem?_eq_getElem (by omega)⟩

/-- Nothing is found in a block that was not reached. -/
theorem stateAt_of_none (hf : r.facts.get? p.block = none) :
    r.stateAt p relative = .error (.unknownBlock p.block) := by
  rw [stateAt, hf]

theorem stateBefore_of_none (hf : r.facts.get? p.block = none) :
    r.stateBefore p = .error (.unknownBlock p.block) := by
  rw [stateBefore, hf, stateAt_of_none hf]
  split <;> rfl

/-- A state that is found before a point was recorded there. -/
theorem exists_before_of_stateBefore (h : r.stateBefore p = .ok s) :
    ∃ f, r.facts.get? p.block = some f ∧ f.before? p.index = some s := by
  cases hf : r.facts.get? p.block with
  | none =>
    rw [stateBefore_of_none hf] at h
    cases h
  | some f =>
    refine ⟨f, rfl, ?_⟩
    rw [stateBefore] at h
    split at h
    · rename_i hzero
      simp only [hf, Except.ok.injEq] at h
      rw [hzero, ← h]
      rfl
    · rename_i hpos
      obtain ⟨j, hj, hs⟩ := (stateAt_eq_ok_iff hf).1 h
      -- A position that counts back from the end of the range has nothing before it.
      have hindex : j + 1 = p.index := by
        rw [signedIndex] at hj
        split at hj <;> omega
      rw [Facts.before?, ← hindex, List.getElem?_cons_succ]
      exact hs

/-- A state that was recorded before a point is found there. -/
theorem stateBefore_eq_ok (hf : r.facts.get? p.block = some f)
    (hindex : p.index < 0x8000000000000000) (hs : f.before? p.index = some s) :
    r.stateBefore p = .ok s := by
  rw [stateBefore]
  split
  · rename_i hzero
    rw [hzero] at hs
    simp only [hf]
    exact congrArg Except.ok (Option.some.inj hs)
  · rename_i hpos
    obtain ⟨j, hj⟩ : ∃ j, p.index = j + 1 := ⟨p.index - 1, by omega⟩
    rw [hj, Facts.before?, List.getElem?_cons_succ] at hs
    refine (stateAt_eq_ok_iff hf).2 ⟨j, ?_, hs⟩
    rw [signedIndex_of_lt hindex]
    omega

end Run

/-! ### The states of an execution -/

namespace Facts

variable {d : Domain ι ω σ γ} {id : ι} {ops : List ω} {f : Facts σ} {c : γ}

omit [Ord ι] in
theorem length_states_executed (hex : f = .executed d id ops f.input c) :
    f.states.length = ops.length := by
  rw [hex]
  exact Domain.length_trace ..

omit [Ord ι] in
/-- There is a state before every operation, and behind the last one. -/
theorem exists_before_executed (hex : f = .executed d id ops f.input c) {j : Nat}
    (hj : j ≤ ops.length) : ∃ s, f.before? j = some s := by
  refine ⟨_, List.getElem?_eq_getElem ?_⟩
  rw [List.length_cons, length_states_executed hex]
  exact Nat.lt_succ_of_le hj

omit [Ord ι] in
/-- Behind every operation there is a state, which the operation made of the state before it. -/
theorem exists_after_executed (hex : f = .executed d id ops f.input c) {j : Nat} {op : ω} {s : σ}
    (hop : ops[j]? = some op) (hs : f.before? j = some s) :
    ∃ k, f.before? (j + 1) = some (d.step op ⟨id, j⟩ s k).1 := by
  rw [hex] at hs ⊢
  obtain ⟨k, hk⟩ := Domain.trace_step hop hs
  rw [Nat.zero_add] at hk
  exact ⟨k, hk⟩

end Facts

/-! ### Blocks that are executed -/

variable [TransOrd ι] [LawfulEqOrd ι] [DecidableEq ι]

namespace Engine

variable {e : Engine ι ω σ γ} {entry : ι} {s₀ : σ} {r₀ r r' : Run ι σ} {fuel : Nat} {c c' : γ}

/-- The facts of a block are those of an execution from its present input. -/
def Executed (e : Engine ι ω σ γ) (b : ι) (f : Facts σ) : Prop :=
  ∃ n c, e.graph.node? b = some n ∧ f = .executed e.domain b n.ops f.input c

/-- Every reached block is pending or executed. -/
def Current (e : Engine ι ω σ γ) (r : Run ι σ) : Prop :=
  ∀ b f, r.facts.get? b = some f → b ∈ r.pending ∨ e.Executed b f

/-- A delivery leaves a block alone or puts it on the stack. -/
theorem Current.deliver (h : e.Current r) (o : JoinOrder σ) (t : ι) (s : σ) :
    e.Current (r.deliver o t s) := by
  have hput : ∀ f, e.Current ⟨r.facts.insert t f, t :: r.pending, r.visits⟩ := by
    intro f b fb hb
    by_cases hbt : b = t
    · exact Or.inl (hbt ▸ List.mem_cons_self)
    · rw [OrdMap.get?_insert, if_neg hbt] at hb
      exact (h b fb hb).imp_left (List.mem_cons_of_mem _)
  rcases r.deliver_cases o t s with ⟨-, heq⟩ | ⟨f, -, -, heq⟩ | ⟨f, -, -, heq⟩
  · rw [heq]
    exact hput _
  · rw [heq]
    exact h
  · rw [heq]
    exact hput _

/-- **A turn keeps the invariant.** The visited block is executed before anything is handed over, so
it is pending again if it hands something new to itself. -/
theorem Current.visit {id : ι} {rest : List ι} (h : e.Current r) (hp : r.pending = id :: rest)
    (hv : e.visit id { r with pending := rest } c = ((r', c'), .ok ())) : e.Current r' := by
  obtain ⟨n, f, hn, -, -, -, rfl⟩ := visit_ok_iff.1 hv
  refine deliverAll_induct (R := e.Current) (fun t _ _ _ hr => hr.deliver _ t _) ?_
  intro b fb hb
  rw [Run.get?_enter] at hb
  split at hb
  · rename_i hid
    obtain rfl := Option.some.inj hb
    exact Or.inr ⟨n, c, hid ▸ hn, by rw [hid]; rfl⟩
  · rename_i hid
    rcases h b fb hb with hpend | hex
    · rw [hp] at hpend
      exact Or.inl ((List.mem_cons.1 hpend).resolve_left hid)
    · exact Or.inr hex

/-- At the end of a run every reached block is executed. -/
theorem executed_of_analyze (hstart : Run.start e.graph entry s₀ = .ok r₀)
    (hrun : e.analyze fuel r₀ c = ((r, c'), .ok ())) {b : ι} {f : Facts σ}
    (hf : r.facts.get? b = some f) : e.Executed b f := by
  have hcurrent : e.Current r₀ := fun b f hb => (tidy_start (e := e) hstart b f hb).imp_right
    fun ⟨n, c, hn, hex, _⟩ => ⟨n, c, hn, hex⟩
  obtain ⟨hend, hdone⟩ := analyze_induct (P := fun r _ => e.Current r)
    (fun h hp hv => h.visit hp hv) hcurrent hrun
  rcases hend b f hf with hpend | hex
  · simp [hdone] at hpend
  · exact hex

/-! ### The results -/

/-- What is known of a block is complete and up to date: there is a state after each operation, the
output is the last of them, each state is what the operation makes of the state before it, and
look-ups find exactly these states. Positions are those that 63 bits can hold. -/
structure UpToDate (e : Engine ι ω σ γ) (r : Run ι σ) (b : ι) (f : Facts σ) (n : Node ι ω) :
    Prop where
  length_states : f.states.length = n.ops.length
  output : f.output = some (Domain.final f.input f.states)
  first : r.stateBefore ⟨b, 0⟩ = .ok f.input
  after : ∀ i op, n.ops[i]? = some op → i < 0x8000000000000000 →
    ∃ s, r.stateBefore ⟨b, i⟩ = .ok s ∧
      ∀ c, r.stateAt ⟨b, i⟩ 0 = .ok (e.domain.step op ⟨b, i⟩ s c).1
  range : ∀ i relative, i < 0x8000000000000000 →
    ((∃ s, r.stateAt ⟨b, i⟩ relative = .ok s) ↔
      0 ≤ i + relative ∧ i + relative < n.ops.length)

omit [TransOrd ι] [LawfulEqOrd ι] in
/-- The facts of an execution are up to date, in whatever context it took place. -/
theorem Executed.upToDate (hfree : e.domain.ContextFree) {b : ι} {f : Facts σ}
    (hf : r.facts.get? b = some f) (h : e.Executed b f) :
    ∃ n, e.graph.node? b = some n ∧ e.UpToDate r b f n := by
  obtain ⟨n, k, hn, hex⟩ := h
  have hlen : f.states.length = n.ops.length := Facts.length_states_executed hex
  refine ⟨n, hn, hlen, ?_, ?_, ?_, ?_⟩
  · rw [hex]
    rfl
  · exact Run.stateBefore_eq_ok (p := ⟨b, 0⟩) hf (Nat.zero_lt_succ _) rfl
  · intro i op hop hi
    obtain ⟨s, hs⟩ := Facts.exists_before_executed hex
      (Nat.le_of_lt (List.getElem?_eq_some_iff.1 hop).1)
    refine ⟨s, Run.stateBefore_eq_ok (p := ⟨b, i⟩) hf hi hs, fun c => ?_⟩
    obtain ⟨k', hk'⟩ := Facts.exists_after_executed hex hop hs
    rw [hfree op ⟨b, i⟩ s k' c] at hk'
    refine (Run.stateAt_eq_ok_iff (p := ⟨b, i⟩) hf).2 ⟨i, ?_, hk'⟩
    rw [Run.signedIndex_of_lt hi, Int.add_zero]
  · intro i relative hi
    rw [Run.exists_stateAt_iff (p := ⟨b, i⟩) hf, Run.signedIndex_of_lt hi, hlen]

/-- **The results of a run are complete, and none is out of date.** If the states of the domain do
not depend on the context and a run from a fresh start succeeds, then what is known of every reached
block is up to date, and nothing is found at the points of any other block. -/
theorem upToDate_of_analyze (hfree : e.domain.ContextFree)
    (hstart : Run.start e.graph entry s₀ = .ok r₀)
    (hrun : e.analyze fuel r₀ c = ((r, c'), .ok ())) :
    (∀ b f, r.facts.get? b = some f → ∃ n, e.graph.node? b = some n ∧ e.UpToDate r b f n) ∧
    ∀ b, r.facts.get? b = none → ∀ i,
      (∀ relative, r.stateAt ⟨b, i⟩ relative = .error (.unknownBlock b)) ∧
        r.stateBefore ⟨b, i⟩ = .error (.unknownBlock b) := by
  constructor
  · intro b f hf
    exact (executed_of_analyze hstart hrun hf).upToDate hfree hf
  · intro b hb i
    exact ⟨fun _ => Run.stateAt_of_none (p := ⟨b, i⟩) hb,
      Run.stateBefore_of_none (p := ⟨b, i⟩) hb⟩

/-- The loop of the three blocks was executed again after its input had grown, and its only state is
that of the second execution. -/
theorem upToDate_toggling :
    let result := toggling.analyze 4 togglingStart 0
    result.2 = .ok () ∧
      (∃ f, result.1.1.facts.get? 1 = some f ∧ f.states = [∅] ∧
        toggling.UpToDate result.1.1 1 f ⟨1, [2], [1, 2]⟩) ∧
      result.1.1.stateAt ⟨3, 0⟩ 0 = .error (.unknownBlock 3) := by
  have hok : (toggling.analyze 4 togglingStart 0).2 = .ok () := rfl
  obtain ⟨hreached, hother⟩ := upToDate_of_analyze (e := toggling) (fun _ _ _ _ _ => rfl)
    (Run.start_eq_ok_iff.2 ⟨rfl, rfl⟩) (Prod.ext rfl hok)
  obtain ⟨f, hf, hstates⟩ : ∃ f, (toggling.analyze 4 togglingStart 0).1.1.facts.get? 1 = some f ∧
      f.states = [∅] := ⟨_, rfl, rfl⟩
  obtain ⟨n, hn, hup⟩ := hreached 1 f hf
  obtain rfl : (⟨1, [2], [1, 2]⟩ : Node Nat Nat) = n := Option.some.inj hn
  exact ⟨hok, ⟨f, hf, hstates, hup⟩, (hother 3 rfl 0).1 0⟩

end Engine

end EvmAccess
