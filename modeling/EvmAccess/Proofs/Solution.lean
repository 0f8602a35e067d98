import EvmAccess.Pipeline
import EvmAccess.Proofs.Access.Ledger
import EvmAccess.Proofs.Evm.CodeGraph
import EvmAccess.Proofs.Evm.Machine
import EvmAccess.Proofs.Flow.Context
import EvmAccess.Proofs.Flow.Results
import EvmAccess.Proofs.Flow.Schedule

/-!
# The solution of a domain on a program

A domain is *solved* when its loop has ended without a fault. This module restates what is known at
the end of a loop in terms of programs: of blocks and instructions instead of nodes and operations.
It also says how the machine and a solution go together. If a solved domain describes the machine at
the start, if its steps keep up with those of the machine, and if descriptions stay right when they
are widened, then some recorded state describes every moment of every run.

## Main results

- `Domain.settled_of_solve`: the states of a block are those of one execution.
- `Domain.exists_after_of_solve`, `Domain.covers_of_end`: how recorded states are connected.
- `Domain.noted_of_solve`: what the context notes on recorded states.
- `Domain.Invariant.solve`: a solved domain has every invariant; `Domain.context_of_solve` and
  `Domain.everywhere_of_solve` are invariants of the context alone, and of the states alone.
- `Domain.exists_before_of_moves`: states along paths.
- `Domain.exists_before_of_reaches`: recorded states keep up with the machine.
- `MemoryAnalysis.run_eq_ok_iff`, `StorageAnalysis.run_eq_ok_iff`: what the analyses consist of.
-/

namespace EvmAccess

namespace Domain

variable {σ γ : Type} {d : Domain BlockId Instruction σ γ} {g : CodeGraph} {config : Config}
  {s₀ : σ} {r : Run BlockId σ} {c c' : γ}

theorem solve_eq_ok_iff : d.solve g config s₀ c = .ok (r, c') ↔
    ∃ r₀, Run.start g.flow config.entry s₀ = .ok r₀ ∧
      (d.engine g config).analyze g.visitBudget r₀ c = ((r, c'), .ok ()) := by
  rw [solve]
  cases hstart : Run.start g.flow config.entry s₀ with
  | error fault => simp
  | ok r₀ =>
    simp only [Except.ok.injEq, exists_eq_left']
    split
    · rename_i hrun
      simp [hrun]
    · rename_i done hrun
      simp [hrun]

/-- The recorded states of a block are those of one execution from its input, and each successor
covers the last of them. -/
theorem settled_of_solve (ho : d.Lawful) (hsolve : d.solve g config s₀ c = .ok (r, c'))
    {id : BlockId} {f : Facts σ} (hf : r.facts.get? id = some f) :
    ∃ b k, g.block? id = some b ∧ f = .executed d id b.code f.input k ∧
      ∀ t ∈ b.successors, r.Covers d.toJoinOrder t (final f.input f.states) := by
  obtain ⟨r₀, hstart, hrun⟩ := solve_eq_ok_iff.1 hsolve
  obtain ⟨n, k, hn, hex, hcov⟩ := Engine.settled_of_analyze ho hstart hrun hf
  obtain ⟨b, hb, rfl⟩ := CodeGraph.node?_flow_eq_some_iff.1 hn
  exact ⟨b, k, hb, hex, hcov⟩

/-- A reached block is executed, so it has a state at every position. -/
theorem executed_of_solve (hsolve : d.solve g config s₀ c = .ok (r, c')) {id : BlockId}
    {f : Facts σ} {b : BasicBlock} (hf : r.facts.get? id = some f) (hb : g.block? id = some b) :
    ∃ k, f = .executed d id b.code f.input k := by
  obtain ⟨r₀, hstart, hrun⟩ := solve_eq_ok_iff.1 hsolve
  obtain ⟨n, k, hn, hex⟩ := Engine.executed_of_analyze hstart hrun hf
  have hn : g.flow.node? id = some n := hn
  rw [CodeGraph.node?_flow, hb] at hn
  obtain rfl : b.node = n := Option.some.inj hn
  exact ⟨k, hex⟩

/-- Behind every instruction there is a state, which the instruction made of the state before it. -/
theorem exists_after_of_solve (hsolve : d.solve g config s₀ c = .ok (r, c')) {p : CodePoint}
    {f : Facts σ} {i : Instruction} {s : σ} (hf : r.facts.get? p.block = some f)
    (hi : g.instruction? p = some i) (hs : f.before? p.index = some s) :
    ∃ k, f.before? (p.index + 1) = some (d.step i p s k).1 := by
  obtain ⟨b, hb, hcode⟩ := CodeGraph.instruction?_eq_some_iff.1 hi
  obtain ⟨k, hex⟩ := executed_of_solve hsolve hf hb
  exact Facts.exists_after_executed hex hcode hs

/-- There are notes on all recorded states: behind every instruction of a reached block there is a
state, and a note on how the instruction leads to it. -/
theorem noted_of_solve {N : Instruction → CodePoint → σ → σ → γ → Prop} (hN : d.Notes N)
    (hsolve : d.solve g config s₀ c = .ok (r, c')) {p : CodePoint} {f : Facts σ} {i : Instruction}
    {s : σ} (hf : r.facts.get? p.block = some f) (hi : g.instruction? p = some i)
    (hs : f.before? p.index = some s) :
    ∃ t, f.before? (p.index + 1) = some t ∧ N i p s t c' := by
  obtain ⟨r₀, hstart, hrun⟩ := solve_eq_ok_iff.1 hsolve
  obtain ⟨b, hb, hcode⟩ := CodeGraph.instruction?_eq_some_iff.1 hi
  have hn : g.flow.node? p.block = some b.node := by rw [CodeGraph.node?_flow, hb]; rfl
  obtain ⟨k, hk⟩ := exists_after_of_solve hsolve hf hi hs
  exact ⟨_, hk, Engine.noted_of_analyze hN hstart hrun p.block f b.node hf hn p.index i s _ hcode hs
    hk⟩

/-- From the end of a block its last state is handed over to every successor. -/
theorem covers_of_end (ho : d.Lawful) (hsolve : d.solve g config s₀ c = .ok (r, c'))
    {id t : BlockId} {f : Facts σ} {b : BasicBlock} {s : σ} (hf : r.facts.get? id = some f)
    (hb : g.block? id = some b) (hs : f.before? b.code.length = some s) (ht : t ∈ b.successors) :
    r.Covers d.toJoinOrder t s := by
  obtain ⟨b', k, hb', hex, hcov⟩ := settled_of_solve ho hsolve hf
  obtain rfl := Option.some.inj (hb.symm.trans hb')
  rw [Facts.before?, ← Facts.length_states_executed hex, final_eq_getElem] at hs
  obtain rfl := Option.some.inj hs
  exact hcov t ht

/-! ### Invariants -/

/-- A property `C` of the context and a property `J` of the state before a point, in a context, that
no instruction, edge or join breaks along the paths from `entry`. -/
structure Invariant (d : Domain BlockId Instruction σ γ) (g : CodeGraph) (entry : BlockId)
    (C : γ → Prop) (J : γ → CodePoint → σ → Prop) : Prop where
  /-- Joining keeps it at the start of a block. -/
  join : ∀ {id s t c}, J c ⟨id, 0⟩ s → J c ⟨id, 0⟩ t → J c ⟨id, 0⟩ (d.join s t)
  /-- An instruction keeps the context in order. -/
  context : ∀ {p i s c}, g.flow.Path entry p.block → g.instruction? p = some i → C c → J c p s →
    C (d.step i p s c).2
  /-- An instruction hands it on to the next position. -/
  next : ∀ {p i s c}, g.flow.Path entry p.block → g.instruction? p = some i → C c → J c p s →
    J (d.step i p s c).2 ⟨p.block, p.index + 1⟩ (d.step i p s c).1
  /-- An instruction takes it away from no other state. -/
  kept : ∀ {p i s c}, g.flow.Path entry p.block → g.instruction? p = some i → C c → J c p s →
    ∀ q t, J c q t → J (d.step i p s c).2 q t
  /-- An edge hands it on to the next block. -/
  leave : ∀ {id b t s c}, g.flow.Path entry id → g.block? id = some b → t ∈ b.successors →
    J c ⟨id, b.code.length⟩ s → J c ⟨t, 0⟩ s

variable {entry : BlockId} {C : γ → Prop} {J : γ → CodePoint → σ → Prop}

/-- The engine sees such a property as one of nodes and operations. -/
theorem Invariant.engine (inv : d.Invariant g entry C J) (config : Config) :
    (d.engine g config).Invariant C fun c p s => g.flow.Path entry p.block ∧ J c p s := by
  have hblock : ∀ {id n j i}, g.flow.node? id = some n → n.ops[j]? = some i →
      g.instruction? ⟨id, j⟩ = some i := by
    intro id n j i hn hi
    obtain ⟨b, hb, rfl⟩ := CodeGraph.node?_flow_eq_some_iff.1 hn
    exact CodeGraph.instruction?_eq_some_iff.2 ⟨b, hb, hi⟩
  exact
    { join := fun hs ht => ⟨hs.1, inv.join hs.2 ht.2⟩
      context := fun hn hi hc hs => inv.context hs.1 (hblock hn hi) hc hs.2
      next := fun hn hi hc hs => ⟨hs.1, inv.next hs.1 (hblock hn hi) hc hs.2⟩
      kept := fun hn hi hc hs q t h => ⟨h.1, inv.kept hs.1 (hblock hn hi) hc hs.2 q t h.2⟩
      leave := by
        intro id n t s c hn ht hcontains hs
        refine ⟨.edge hs.1 hn ht hcontains, ?_⟩
        obtain ⟨b, hb, rfl⟩ := CodeGraph.node?_flow_eq_some_iff.1 hn
        exact inv.leave hs.1 hb ht hs.2 }

/-- **A solved domain has every invariant**, of the context at its end and of all recorded
states. -/
theorem Invariant.solve (inv : d.Invariant g config.entry C J) (hc : C c)
    (hs₀ : J c ⟨config.entry, 0⟩ s₀) (hsolve : d.solve g config s₀ c = .ok (r, c')) :
    C c' ∧ r.Everywhere fun id j s => g.flow.Path config.entry id ∧ J c' ⟨id, j⟩ s := by
  obtain ⟨r₀, hstart, hrun⟩ := solve_eq_ok_iff.1 hsolve
  have hentry := (Run.start_eq_ok_iff.1 hstart).1
  exact (inv.engine config).analyze hc (Run.everywhere_start hstart ⟨.refl hentry, hs₀⟩) hrun

/-- A property of the context alone is an invariant if the instructions that paths lead to keep
it. -/
theorem Invariant.of_context (hstep : ∀ {p i} s c, g.flow.Path entry p.block →
      g.instruction? p = some i → C c → C (d.step i p s c).2) :
    d.Invariant g entry C fun _ _ _ => True where
  join _ _ := trivial
  context hpath hi hc _ := hstep _ _ hpath hi hc
  next _ _ _ _ := trivial
  kept _ _ _ _ _ _ _ := trivial
  leave _ _ _ _ := trivial

/-- What every instruction of the program keeps of the context, solving keeps. -/
theorem context_of_solve
    (hstep : ∀ {p i} s c, g.instruction? p = some i → C c → C (d.step i p s c).2)
    (hsolve : d.solve g config s₀ c = .ok (r, c')) (hc : C c) : C c' :=
  ((Invariant.of_context fun s c _ hi hc => hstep s c hi hc).solve hc trivial hsolve).1

/-- What every instruction hands on, and every edge, all recorded states have, if joining keeps it:
`J p` is a property of the state before `p`. -/
theorem everywhere_of_solve {J : CodePoint → σ → Prop}
    (hjoin : ∀ {p s t}, J p s → J p t → J p (d.join s t))
    (hnext : ∀ {p i s} k, g.instruction? p = some i → J p s →
      J ⟨p.block, p.index + 1⟩ (d.step i p s k).1)
    (hleave : ∀ {p b t s}, g.block? p.block = some b → p.index = b.code.length →
      t ∈ b.successors → J p s → J ⟨t, 0⟩ s)
    (hs₀ : J ⟨config.entry, 0⟩ s₀) (hsolve : d.solve g config s₀ c = .ok (r, c')) :
    r.Everywhere fun id index s => J ⟨id, index⟩ s := by
  have inv : d.Invariant g config.entry (fun _ => True) fun _ => J :=
    { join := fun hs ht => hjoin hs ht
      context := fun _ _ _ _ => trivial
      next := fun _ hi _ hs => hnext _ hi hs
      kept := fun _ _ _ _ _ _ h => h
      leave := fun {id b _ _ _} _ hb ht hs => hleave (p := ⟨id, b.code.length⟩) hb rfl ht hs }
  exact fun id f hf j s hs => ((inv.solve trivial hs₀ hsolve).2 id f hf j s hs).2

/-! ### States along paths -/

/-- Where a path moves on there is a state again. It was made by the instruction that was passed, or
covers the state in which the block was left. -/
theorem exists_before_of_move (ho : d.Lawful) (hsolve : d.solve g config s₀ c = .ok (r, c'))
    {p p' : CodePoint} (hmove : g.Move p p') {f : Facts σ} {s : σ}
    (hf : r.facts.get? p.block = some f) (hs : f.before? p.index = some s) :
    ∃ f' s', r.facts.get? p'.block = some f' ∧ f'.before? p'.index = some s' ∧
      ((∃ i k, g.instruction? p = some i ∧ s' = (d.step i p s k).1) ∨
        g.instruction? p = none ∧ d.leq s s' = true) := by
  cases hmove with
  | @next i hi =>
    obtain ⟨k, hk⟩ := exists_after_of_solve hsolve hf hi hs
    exact ⟨f, _, hf, hk, Or.inl ⟨i, k, hi, rfl⟩⟩
  | leave hb hend ht =>
    have hnone := CodeGraph.instruction?_of_end hb hend
    rw [hend] at hs
    obtain ⟨f', hf', hle⟩ := covers_of_end ho hsolve hf hb hs ht
    exact ⟨f', f'.input, hf', rfl, Or.inr ⟨hnone, hle⟩⟩

/-- There is a state wherever paths from the entry lead. -/
theorem exists_before_of_moves (ho : d.Lawful) (hsolve : d.solve g config s₀ c = .ok (r, c'))
    {p : CodePoint} (h : Relation.ReflTransGen g.Move ⟨config.entry, 0⟩ p) :
    ∃ f s, r.facts.get? p.block = some f ∧ f.before? p.index = some s := by
  induction h with
  | refl =>
    obtain ⟨r₀, hstart, hrun⟩ := solve_eq_ok_iff.1 hsolve
    obtain ⟨f, hf, -⟩ := Engine.covers_entry_of_analyze ho hstart hrun
    exact ⟨f, f.input, hf, rfl⟩
  | tail _ hmove ih =>
    obtain ⟨f, s, hf, hs⟩ := ih
    obtain ⟨f', s', hf', hs', -⟩ := exists_before_of_move ho hsolve hmove hf hs
    exact ⟨f', s', hf', hs'⟩

/-- **Recorded states keep up with the machine.** `D` says that a state describes the machine, given
whether an addition has wrapped around. -/
theorem exists_before_of_reaches (ho : d.Lawful)
    (hsolve : d.solve g config s₀ c = .ok (r, c')) {admits : BlockId → Nat → Prop}
    {D : σ → Bool → Machine → Prop}
    (hentry : ∀ memory, r.InputHas config.entry fun s => D s false ⟨[], memory⟩)
    (hstep : ∀ {i s wrapped m m'} p k, D s wrapped m → m.Step i m' →
      D (d.step i p s k).1 (wrapped || m.overflows i) m')
    (hleave : ∀ {t f s wrapped m}, r.facts.get? t = some f → d.leq s f.input = true →
      admits t m.stack.length → D s wrapped m → D f.input wrapped m)
    {m : Moment} (hm : g.Reaches admits config.entry m) :
    ∃ f s, r.facts.get? m.block = some f ∧ f.before? m.index = some s ∧
      D s m.wrapped m.machine := by
  induction hm with
  | start memory =>
    obtain ⟨f, hf, hD⟩ := hentry memory
    exact ⟨f, f.input, hf, rfl, hD⟩
  | @step m _ _ _ _ hb hi hmove ih =>
    obtain ⟨f, s, hf, hs, hD⟩ := ih
    obtain ⟨k, hk⟩ := exists_after_of_solve hsolve (p := ⟨m.block, m.index⟩) hf
      (CodeGraph.instruction?_eq_some_iff.2 ⟨_, hb, hi⟩) hs
    exact ⟨f, _, hf, hk, hstep ⟨m.block, m.index⟩ k hD hmove⟩
  | leave _ hb hend ht hadmits ih =>
    obtain ⟨f, s, hf, hs, hD⟩ := ih
    rw [hend] at hs
    obtain ⟨ft, hft, hle⟩ := covers_of_end ho hsolve hf hb hs ht
    exact ⟨ft, ft.input, hft, rfl, hleave hft hle hadmits hD⟩

end Domain

/-! ### The analyses -/

/-- A ledger is kept if there was one at the start, and it has accesses of instructions only. -/
theorem Offsets.exists_ledger_of_solve {g : CodeGraph} {config : Config} {target : Target}
    {r : Run BlockId OffsetState} {c' : Option Ledger}
    (hsolve : domain.solve g config (.initial target) (some ∅) = .ok (r, c')) :
    ∃ l, c' = some l ∧
      l.Only fun p a => ∃ i s, g.instruction? p = some i ∧ a ∈ accesses i s := by
  refine Domain.context_of_solve (C := fun c => ∃ l, c = some l ∧ Ledger.Only _ l) ?_ hsolve
    ⟨∅, rfl, Ledger.only_empty⟩
  rintro p i s c hi ⟨l, rfl, hl⟩
  exact ⟨_, rfl, hl.noteAll fun a ha => ⟨i, s, hi, ha⟩⟩

/-- The memory analysis solves three domains, one after the other. -/
theorem MemoryAnalysis.run_eq_ok_iff {g : CodeGraph} {config : Config} {a : MemoryAnalysis} :
    run g config = .ok a ↔ ∃ c c', solveSlots g config = .ok (a.slots, c) ∧
      solveOffsets g config = .ok (a.offsets, c') ∧
      solveMemory g config ⟨a.slots, a.offsets⟩ c.ledger = .ok (a.memory, a.ledger) ∧
      a.allocations = c.allocations ∧ a.reports = a.ledger.classify g ∧
      a.summary = summarize g a.offsets a.ledger a.reports := by
  simp only [run, bind, Except.bind, pure, Except.pure]
  constructor
  · intro h
    split at h
    · cases h
    · rename_i hslots
      split at h
      · cases h
      · rename_i hoffsets
        split at h
        · cases h
        · rename_i hmemory
          obtain rfl := Except.ok.inj h
          exact ⟨_, _, hslots, hoffsets, hmemory, rfl, rfl, rfl⟩
  · rintro ⟨c, c', hslots, hoffsets, hmemory, halloc, hreports, hsummary⟩
    obtain ⟨allocations, slots, offsets, memory, ledger, reports, summary⟩ := a
    simp only at hslots hoffsets hmemory halloc hreports hsummary
    simp only [hslots, hoffsets, hmemory]
    rw [hsummary, halloc, hreports]

/-- The storage analysis solves one domain. -/
theorem StorageAnalysis.run_eq_ok_iff {g : CodeGraph} {config : Config} {a : StorageAnalysis} :
    run g config = .ok a ↔ ∃ c, solveOffsets g config = .ok (a.offsets, c) ∧
      a.ledger = c.getD ∅ ∧ a.summary = summarize g a.offsets a.ledger := by
  simp only [run, bind, Except.bind, pure, Except.pure]
  constructor
  · intro h
    split at h
    · cases h
    · rename_i hoffsets
      obtain rfl := Except.ok.inj h
      exact ⟨_, hoffsets, rfl, rfl⟩
  · rintro ⟨c, hoffsets, hledger, hsummary⟩
    obtain ⟨offsets, ledger, summary⟩ := a
    simp only at hoffsets hledger hsummary
    simp only [hoffsets]
    rw [hsummary, hledger]

end EvmAccess
