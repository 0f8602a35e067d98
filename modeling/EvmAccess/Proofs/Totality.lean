import EvmAccess.Pipeline
import EvmAccess.Proofs.Domain.MemoryBound
import EvmAccess.Proofs.Domain.OffsetBound
import EvmAccess.Proofs.Evm.CodeGraph
import EvmAccess.Proofs.Solution

/-!
# The analyses are total

Without a node limit the analyses of a program always end and never fail, whatever its loops, its
stack heights and its operands; the only thing that can be wrong is an entry that is no block of the
program. Each of the fixpoints ends because its domain is bounded on the program, and the number of
visits stays within `CodeGraph.visitBudget`. In particular the fuel that the engine gets is never
used up: with more of it the result is the same.

The fixpoints depend on each other. The memory domain is bounded only because the allocations that
the first fixpoint has recorded are numbered below the number of instructions.

## Main results

- `Domain.solve_eq_ok`: a bounded domain is solved within the budget.
- `analyses_total`: the analyses succeed exactly on programs that have the entry.
-/

namespace EvmAccess

/-! ### The size of a program -/

namespace CodeGraph

variable (g : CodeGraph)

theorem total_flow : g.flow.total (·.ops.length) = g.size := by
  rw [Graph.total, flow, size, List.map_map, List.length_flatMap]
  rfl

theorem length_points_flow : g.flow.points.length = g.size := by
  rw [Graph.length_points, total_flow]

/-- The number of times an input can grow, according to the budget. -/
def growthBudget : Nat := 1000 * ((g.size + 1) * (g.size + 1))

/-- As many landmarks as there may be leave the visits within the budget. -/
theorem visits_le_visitBudget {marks : Nat} (h : marks ≤ g.growthBudget) :
    g.flow.nodes.length * (marks + 1) + 1 ≤ g.visitBudget := by
  have hnodes : g.flow.nodes.length = g.blocks.length := List.length_map ..
  have hmul : g.blocks.length * (marks + 1) ≤ g.blocks.length * (g.growthBudget + 1) :=
    Nat.mul_le_mul_left _ (by omega)
  have hbudget : g.visitBudget = g.blocks.length * (g.growthBudget + 1) + (g.growthBudget + 1) :=
    Nat.succ_mul ..
  rw [hnodes, hbudget]
  omega

end CodeGraph

/-! ### Solving a bounded domain -/

namespace Domain

variable {σ γ α : Type} {d : Domain BlockId Instruction σ γ} {g : CodeGraph} {config : Config}
  {s : σ} {c : γ}

/-- The loop of a domain on a program ends by itself, in the given run and context: within the
budget of visits nothing is pending any more, and any larger amount of fuel leads there. -/
def Ends (d : Domain BlockId Instruction σ γ) (g : CodeGraph) (config : Config) (s : σ) (c : γ)
    (r : Run BlockId σ) (c' : γ) : Prop :=
  (∃ r₀, Run.start g.flow config.entry s = .ok r₀ ∧
    ∀ fuel, g.visitBudget ≤ fuel → (d.engine g config).analyze fuel r₀ c = ((r, c'), .ok ())) ∧
  r.pending = [] ∧ r.visits ≤ g.visitBudget

/-- A bounded domain is solved within the budget, if the program has the entry. -/
theorem solve_eq_ok (B : d.Bounded g.flow α) (hmarks : B.landmarks.marks.length ≤ g.growthBudget)
    (hlimit : config.nodeLimit = 0) (hentry : (g.block? config.entry).isSome = true)
    (hs : B.Ok s) (hheight : B.height s = 0) (hc : B.Ctx c) :
    ∃ r c', d.solve g config s c = .ok (r, c') ∧ d.Ends g config s c r c' ∧
      r.Recorded B.Ok ∧ B.Ctx c' := by
  have hstart : Run.start g.flow config.entry s =
      .ok ⟨(∅ : OrdMap BlockId (Facts σ)).insert config.entry (.start s), [config.entry], 0⟩ :=
    Run.start_eq_ok_iff.2 ⟨by rw [CodeGraph.contains_flow, hentry], rfl⟩
  have hbudget := g.visits_le_visitBudget hmarks
  obtain ⟨r, c', hrun, hrec, hctx, hdone, hvisits⟩ := Engine.analyze_ends
    (e := d.engine g config) B (fun hn t ht => CodeGraph.contains_of_mem_succs hn ht) hlimit hstart
    hs hheight hc
  have hrun : ∀ fuel, g.visitBudget ≤ fuel → _ := fun fuel hfuel =>
    hrun fuel (Nat.le_trans hbudget hfuel)
  refine ⟨r, c', ?_, ⟨⟨_, hstart, hrun⟩, hdone, Nat.le_trans hvisits hbudget⟩, hrec, hctx⟩
  exact solve_eq_ok_iff.2 ⟨_, hstart, hrun _ (Nat.le_refl _)⟩

/-- Nothing is solved from an entry that the program does not have. -/
theorem solve_eq_error (hentry : (g.block? config.entry).isSome = false) :
    d.solve g config s c = .error (.missingEntry config.entry) := by
  have hstart : Run.start g.flow config.entry s = .error (.missingEntry config.entry) := by
    rw [Run.start, CodeGraph.contains_flow, hentry]
    rfl
  rw [solve, hstart]

end Domain

/-! ### The fixpoints -/

section Fixpoints

variable {g : CodeGraph} {config : Config}

theorem CodeGraph.growthBudget_eq (g : CodeGraph) :
    g.growthBudget = 1000 * (g.size * g.size + 2 * g.size + 1) := by
  rw [growthBudget, Nat.add_mul, Nat.mul_succ]
  omega

/-- The open allocations are found, and are numbered below the number of instructions. -/
theorem solve_slots (hlimit : config.nodeLimit = 0)
    (hentry : (g.block? config.entry).isSome = true) :
    ∃ r c, Slots.domain.solve g config .initial ⟨.empty, ∅⟩ = .ok (r, c) ∧
      Slots.domain.Ends g config .initial ⟨.empty, ∅⟩ r c ∧
      r.Recorded (Slots.InCode g.flow.points) := by
  have hmarks : (Slots.bounded g.flow).landmarks.marks.length ≤ g.growthBudget := by
    rw [Slots.length_marks, g.length_points_flow, g.growthBudget_eq, Nat.mul_add]
    omega
  obtain ⟨r, c, hsolve, hends, hrec, -⟩ := Domain.solve_eq_ok (Slots.bounded g.flow) hmarks hlimit
    hentry (Slots.inCode_initial _) rfl (c := ⟨.empty, ∅⟩) fun _ _ h => by
      simp [Allocations.empty] at h
  exact ⟨r, c, hsolve, hends, hrec⟩

/-- The constants on the stack are found. -/
theorem solve_offsets (hlimit : config.nodeLimit = 0)
    (hentry : (g.block? config.entry).isSome = true) (target : Target) (c : Option Ledger) :
    ∃ r c', Offsets.domain.solve g config (.initial target) c = .ok (r, c') ∧
      Offsets.domain.Ends g config (.initial target) c r c' := by
  have hmarks : (Offsets.bounded g.flow).landmarks.marks.length ≤ g.growthBudget := by
    rw [Offsets.length_marks, g.total_flow, g.growthBudget_eq]
    omega
  have hinitial : (Offsets.bounded g.flow).Ok (.initial target) := Offsets.small_initial _ target
  obtain ⟨r, c', hsolve, hends, -, -⟩ := Domain.solve_eq_ok (Offsets.bounded g.flow) hmarks hlimit
    hentry hinitial rfl (c := c) trivial
  exact ⟨r, c', hsolve, hends⟩

/-- The memory addresses are found, if the allocations were. -/
theorem solve_memory (hlimit : config.nodeLimit = 0)
    (hentry : (g.block? config.entry).isSome = true) {slots : Run BlockId SlotState}
    (hslots : slots.Recorded (Slots.InCode g.flow.points)) (offsets : Run BlockId OffsetState)
    (l : Ledger) :
    ∃ r l', (Memory.domain ⟨slots, offsets⟩).solve g config .initial l = .ok (r, l') ∧
      (Memory.domain ⟨slots, offsets⟩).Ends g config .initial l r l' := by
  have hev : Memory.Evidence.InCells g.flow.points.length ⟨slots, offsets⟩ := fun b f hf => by
    obtain ⟨hin, hst⟩ := hslots b f hf
    exact ⟨fun p t ht => (hin.1.2 p t ht).2, fun s hs p t ht => ((hst s hs).1.2 p t ht).2⟩
  have hmarks : (Memory.bounded g.flow hev).landmarks.marks.length ≤ g.growthBudget := by
    rw [Memory.length_marks, g.length_points_flow, g.growthBudget_eq]
    generalize g.size = n
    have hexpand : n * (7 * n + 1) = 7 * (n * n) + n := by
      rw [Nat.mul_add, Nat.mul_left_comm, Nat.mul_one]
    rw [Nat.mul_assoc, hexpand]
    omega
  obtain ⟨r, l', hsolve, hends, -, -⟩ := Domain.solve_eq_ok (Memory.bounded g.flow hev) hmarks
    hlimit hentry (Memory.inCells_initial _ _) rfl (c := l) trivial
  exact ⟨r, l', hsolve, hends⟩

end Fixpoints

/-! ### The analyses -/

/-- The memory analysis succeeds if its fixpoints do. -/
theorem MemoryAnalysis.run_eq_ok {g : CodeGraph} {config : Config} {slots : Run BlockId SlotState}
    {c : Slots.Context} {offsets : Run BlockId OffsetState} {c' : Option Ledger}
    {memory : Run BlockId MemoryState} {l : Ledger} (hslots : solveSlots g config = .ok (slots, c))
    (hoffsets : solveOffsets g config = .ok (offsets, c'))
    (hmemory : solveMemory g config ⟨slots, offsets⟩ c.ledger = .ok (memory, l)) :
    run g config = .ok ⟨c.allocations, slots, offsets, memory, l, l.classify g,
      summarize g offsets l (l.classify g)⟩ :=
  run_eq_ok_iff.2 ⟨c, c', hslots, hoffsets, hmemory, rfl, rfl, rfl⟩

/-- The storage analysis succeeds if its fixpoint does. -/
theorem StorageAnalysis.run_eq_ok {g : CodeGraph} {config : Config}
    {offsets : Run BlockId OffsetState} {c : Option Ledger}
    (hoffsets : solveOffsets g config = .ok (offsets, c)) :
    run g config = .ok ⟨offsets, c.getD ∅, summarize g offsets (c.getD ∅)⟩ :=
  run_eq_ok_iff.2 ⟨c, hoffsets, rfl, rfl⟩

/-- **The analyses are total.** Without a node limit, and if the program has the entry, both
analyses succeed, and each of their fixpoints ends by itself after finitely many visits. If the
program does not have the entry, both report that. -/
theorem analyses_total (g : CodeGraph) (config : Config) (hlimit : config.nodeLimit = 0) :
    ((g.block? config.entry).isSome = true →
      (∃ a c c', MemoryAnalysis.run g config = .ok a ∧
        Slots.domain.Ends g config .initial ⟨.empty, ∅⟩ a.slots c ∧
        Offsets.domain.Ends g config (.initial .memory) none a.offsets c' ∧
        (Memory.domain ⟨a.slots, a.offsets⟩).Ends g config .initial c.ledger a.memory a.ledger) ∧
      ∃ a c, StorageAnalysis.run g config = .ok a ∧
        Offsets.domain.Ends g config (.initial .storage) (some ∅) a.offsets c) ∧
    ((g.block? config.entry).isSome = false →
      MemoryAnalysis.run g config = .error (.missingEntry config.entry) ∧
      StorageAnalysis.run g config = .error (.missingEntry config.entry)) := by
  refine ⟨fun hentry => ⟨?_, ?_⟩, fun hentry => ⟨?_, ?_⟩⟩
  · obtain ⟨slots, c, hslots, hends, hrec⟩ := solve_slots hlimit hentry
    obtain ⟨offsets, c', hoffsets, hends'⟩ := solve_offsets hlimit hentry .memory none
    obtain ⟨memory, l, hmemory, hends''⟩ := solve_memory hlimit hentry hrec offsets c.ledger
    exact ⟨_, c, c', MemoryAnalysis.run_eq_ok hslots hoffsets hmemory, hends, hends', hends''⟩
  · obtain ⟨offsets, c, hoffsets, hends⟩ := solve_offsets hlimit hentry .storage (some ∅)
    exact ⟨_, c, StorageAnalysis.run_eq_ok hoffsets, hends⟩
  · simp only [MemoryAnalysis.run, MemoryAnalysis.solveSlots, Domain.solve_eq_error hentry, bind,
      Except.bind]
  · simp only [StorageAnalysis.run, StorageAnalysis.solveOffsets, Domain.solve_eq_error hentry,
      bind, Except.bind]

/-- A loop that allocates and leaves two more items on the stack in every round, and a way back to
it that takes more items than a single round leaves. -/
def climbing : CodeGraph where
  blocks :=
    [⟨⟨0, none⟩, 0, 9, .conditional,
       [⟨.push1, some "0x40"⟩, ⟨.mload, none⟩, ⟨.dup1, none⟩, ⟨.push1, some "0x80"⟩, ⟨.add, none⟩,
        ⟨.push1, some "0x40"⟩, ⟨.mstore, none⟩, ⟨.calldatasize, none⟩, ⟨.dup1, none⟩,
        ⟨.dup1, none⟩, ⟨.jumpi, none⟩],
       .block ⟨0, none⟩, some ⟨10, none⟩, ∅⟩,
     ⟨⟨10, none⟩, 10, 13, .unconditional,
       [⟨.mstore, none⟩, ⟨.sstore, none⟩, ⟨.pop, none⟩, ⟨.jump, none⟩],
       .block ⟨0, none⟩, none, ∅⟩]
  increasing := by decide
  shaped := by decide
  closed := by decide

/-- Neither the growing stack nor the underflow keeps the analyses of the loop from ending. -/
theorem analyses_climbing :
    (∃ a c c', MemoryAnalysis.run climbing ⟨false, 0, ⟨0, none⟩⟩ = .ok a ∧
      Slots.domain.Ends climbing ⟨false, 0, ⟨0, none⟩⟩ .initial ⟨.empty, ∅⟩ a.slots c ∧
      Offsets.domain.Ends climbing ⟨false, 0, ⟨0, none⟩⟩ (.initial .memory) none a.offsets c' ∧
      (Memory.domain ⟨a.slots, a.offsets⟩).Ends climbing ⟨false, 0, ⟨0, none⟩⟩ .initial c.ledger
        a.memory a.ledger) ∧
    (∃ a c, StorageAnalysis.run climbing ⟨false, 0, ⟨0, none⟩⟩ = .ok a ∧
      Offsets.domain.Ends climbing ⟨false, 0, ⟨0, none⟩⟩ (.initial .storage) (some ∅) a.offsets c) ∧
    MemoryAnalysis.run climbing ⟨false, 0, ⟨5, none⟩⟩ = .error (.missingEntry ⟨5, none⟩) ∧
    StorageAnalysis.run climbing ⟨false, 0, ⟨5, none⟩⟩ = .error (.missingEntry ⟨5, none⟩) := by
  obtain ⟨hmemory, hstorage⟩ := (analyses_total climbing ⟨false, 0, ⟨0, none⟩⟩ rfl).1 (by decide)
  exact ⟨hmemory, hstorage, (analyses_total climbing ⟨false, 0, ⟨5, none⟩⟩ rfl).2 (by decide)⟩

end EvmAccess
