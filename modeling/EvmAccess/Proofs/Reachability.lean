import EvmAccess.Proofs.Flow.Reached
import EvmAccess.Proofs.Solution

/-!
# The blocks that analyses have results for

Every analysis of a program that succeeds has results for the same blocks: those that paths lead to
from the entry, which are also the ones that a plain search finds. The memory analysis looks up what
the earlier analyses found. It does so while it runs, when its own fixpoint is not reached yet. But
at every turn it has reached only blocks that paths lead to, and there the earlier analyses have a
state at each instruction.

## Main results

- `Domain.reached_of_solve`: a solved domain has reached what paths lead to.
- `Domain.exists_state_of_solve`: there it has a state before and after each instruction.
- `analyses_reach_reachable`: the search and all analyses reach the same blocks, and no look-up in
  earlier results fails.
-/

namespace EvmAccess

/-! ### The order of blocks -/

namespace CodeGraph

variable {g : CodeGraph}

/-- The names that the search finds are in the order of the blocks. -/
theorem increasing_reachable (g : CodeGraph) (entry : BlockId) :
    (g.flow.reachable entry).Pairwise fun a b => compare a b = .lt := by
  refine List.Pairwise.filter _ ?_
  rw [flow, List.map_map, List.pairwise_map]
  exact g.increasing

/-- A run that has reached what paths lead to has facts on the names that the search finds. -/
theorem keys_eq_reachable {σ : Type} {r : Run BlockId σ} {entry : BlockId}
    (h : ∀ id, r.Reached id ↔ g.flow.Path entry id) : r.facts.keys = g.flow.reachable entry := by
  refine Increasing.eq_of_mem_iff ?_ (g.increasing_reachable entry) fun id => ?_
  · exact List.pairwise_map.2 r.facts.increasing
  · rw [Graph.mem_reachable_iff, ← h id, Run.Reached, Option.isSome_iff_exists, OrdMap.keys,
      List.mem_map]
    constructor
    · rintro ⟨e, he, rfl⟩
      exact ⟨e.2, OrdMap.get?_eq_some_iff.2 he⟩
    · rintro ⟨f, hf⟩
      exact ⟨(id, f), OrdMap.get?_eq_some_iff.1 hf, rfl⟩

end CodeGraph

/-! ### Solved domains -/

namespace Domain

variable {σ γ : Type} {d : Domain BlockId Instruction σ γ} {g : CodeGraph} {config : Config}
  {s₀ : σ} {r : Run BlockId σ} {c c' : γ}

/-- A solved domain has reached what paths lead to. -/
theorem reached_of_solve (hsolve : d.solve g config s₀ c = .ok (r, c')) {id : BlockId} :
    r.Reached id ↔ g.flow.Path config.entry id := by
  obtain ⟨r₀, hstart, hrun⟩ := solve_eq_ok_iff.1 hsolve
  obtain ⟨hturns, hdone⟩ := Engine.turns_of_analyze hrun
  exact Engine.reached_iff_path hstart hturns hdone

/-- Where a path leads there is a state before each instruction, and one behind it. -/
theorem exists_before_of_path (hsolve : d.solve g config s₀ c = .ok (r, c')) {p : CodePoint}
    {i : Instruction} (hpath : g.flow.Path config.entry p.block) (hi : g.instruction? p = some i) :
    ∃ f s k, r.facts.get? p.block = some f ∧ f.before? p.index = some s ∧
      f.stateAt? p.index = some (d.step i p s k).1 := by
  obtain ⟨f, hf⟩ := Option.isSome_iff_exists.1 ((reached_of_solve hsolve).2 hpath)
  obtain ⟨b, hb, hcode⟩ := CodeGraph.instruction?_eq_some_iff.1 hi
  obtain ⟨k, hex⟩ := executed_of_solve hsolve hf hb
  obtain ⟨s, hs⟩ := Facts.exists_before_executed hex
    (Nat.le_of_lt (List.getElem?_eq_some_iff.1 hcode).1)
  obtain ⟨k', hk'⟩ := Facts.exists_after_executed hex hcode hs
  exact ⟨f, s, k', hf, hs, hk'⟩

/-- Look-ups find these states, at positions that 63 bits can hold. -/
theorem exists_state_of_solve (hsolve : d.solve g config s₀ c = .ok (r, c')) {p : CodePoint}
    {i : Instruction} (hpath : g.flow.Path config.entry p.block) (hi : g.instruction? p = some i)
    (hindex : p.index < 0x8000000000000000) :
    (∃ s, r.stateBefore p = .ok s) ∧ ∃ t, r.stateAt p 0 = .ok t := by
  obtain ⟨f, s, k, hf, hs, ht⟩ := exists_before_of_path hsolve hpath hi
  refine ⟨⟨s, Run.stateBefore_eq_ok hf hindex hs⟩, _,
    (Run.stateAt_eq_ok_iff hf).2 ⟨p.index, ?_, ht⟩⟩
  rw [Run.signedIndex_of_lt hindex, Int.add_zero]

end Domain

/-! ### The analyses -/

/-- **All analyses reach the same blocks, and find each other's results.** Let `entry` be any name.
The search finds the positions of the blocks that paths lead to from `entry`. Every domain that
comes to an end on the program has facts on these blocks, and no others. So after any number of
turns of the memory analysis, the open allocations and the constants are found at each instruction
of each block that was reached so far, and there is nothing to remark on missing ones. Positions are
those that 63 bits can hold. -/
theorem analyses_reach_reachable (g : CodeGraph) (entry : BlockId) :
    (∀ index, (∃ id ∈ g.flow.reachable entry, g.indexOf? id = some index) ↔
      ∃ b, g.blocks[index]? = some b ∧ g.flow.Path entry b.id) ∧
    (∀ {σ γ : Type} (e : Engine BlockId Instruction σ γ), e.graph = g.flow →
      ∀ s₀ r₀ r fuel c c', Run.start e.graph entry s₀ = .ok r₀ →
        e.analyze fuel r₀ c = ((r, c'), .ok ()) → r.facts.keys = g.flow.reachable entry) ∧
    ∀ config slots c offsets c', config.entry = entry →
      MemoryAnalysis.solveSlots g config = .ok (slots, c) →
      MemoryAnalysis.solveOffsets g config = .ok (offsets, c') →
      ∀ r₀ r l, Run.start g.flow entry MemoryState.initial = .ok r₀ →
        ((Memory.domain ⟨slots, offsets⟩).engine g config).Turns (r₀, c.ledger) (r, l) →
        ∀ p i, r.Reached p.block → g.instruction? p = some i → p.index < 0x8000000000000000 →
          (∃ s, slots.stateAt p 0 = .ok s) ∧ (∃ t, offsets.stateBefore p = .ok t) ∧
            Memory.slotMessages ⟨slots, offsets⟩ p = [] ∧
            Memory.offsetMessages ⟨slots, offsets⟩ p = [] := by
  refine ⟨fun index => ?_, ?_, ?_⟩
  · simp only [Graph.mem_reachable_iff, CodeGraph.indexOf?_eq_some_iff]
    constructor
    · rintro ⟨id, hpath, b, hb, rfl⟩
      exact ⟨b, hb, hpath⟩
    · rintro ⟨b, hb, hpath⟩
      exact ⟨b.id, hpath, b, hb, rfl⟩
  · intro σ γ e he s₀ r₀ r fuel c c' hstart hrun
    obtain ⟨hturns, hdone⟩ := Engine.turns_of_analyze hrun
    refine CodeGraph.keys_eq_reachable fun id => ?_
    rw [← he]
    exact Engine.reached_iff_path hstart hturns hdone
  · rintro config slots c offsets c' rfl hslots hoffsets r₀ r l hstart hturns p i hreached hi hindex
    have hpath : g.flow.Path config.entry p.block :=
      Engine.path_of_turns (e := (Memory.domain ⟨slots, offsets⟩).engine g config) hstart hturns
        hreached
    obtain ⟨-, s, hs⟩ := Domain.exists_state_of_solve hslots hpath hi hindex
    obtain ⟨⟨t, ht⟩, -⟩ := Domain.exists_state_of_solve hoffsets hpath hi hindex
    exact ⟨⟨s, hs⟩, ⟨t, ht⟩, by rw [Memory.slotMessages, hs], by rw [Memory.offsetMessages, ht]⟩

/-- A loop that reads the free memory pointer, a block behind it, and a block that only jumps to the
loop. -/
def adrift : CodeGraph where
  blocks :=
    [⟨⟨0, none⟩, 0, 7, .conditional,
       [⟨.push1, some "0x40"⟩, ⟨.mload, some "64"⟩, ⟨.callvalue, none⟩, ⟨.push1, some "0x00"⟩,
        ⟨.jumpi, none⟩],
       .block ⟨0, none⟩, some ⟨8, none⟩, ∅⟩,
     ⟨⟨8, none⟩, 8, 8, .terminal, [⟨.stop, none⟩], .none, none, ∅⟩,
     ⟨⟨9, none⟩, 9, 12, .unconditional, [⟨.push1, some "0x00"⟩, ⟨.jump, none⟩],
       .block ⟨0, none⟩, none, ∅⟩]
  increasing := by decide
  shaped := by decide
  closed := by decide

/-- A program is analysed from address 0, without a limit. -/
def fromZero : Config := ⟨false, 0, ⟨0, none⟩⟩

/-- A run from address 0 before its first turn. -/
def zeroStart {σ : Type} (s : σ) : Run BlockId σ :=
  ⟨(∅ : OrdMap BlockId _).insert ⟨0, none⟩ (.start s), [⟨0, none⟩], 0⟩

/-- The open allocations of the program. -/
def adriftSlots : Run BlockId SlotState × Slots.Context :=
  ((Slots.domain.engine adrift fromZero).analyze 8 (zeroStart .initial) ⟨.empty, ∅⟩).1

/-- The constants of the program. -/
def adriftOffsets : Run BlockId OffsetState × Option Ledger :=
  ((Offsets.domain.engine adrift fromZero).analyze 8 (zeroStart (.initial .memory)) none).1

/-- The addresses of the program. -/
def adriftMemory : Run BlockId MemoryState × Ledger :=
  (((Memory.domain ⟨adriftSlots.1, adriftOffsets.1⟩).engine adrift fromZero).analyze 8
    (zeroStart .initial) adriftSlots.2.ledger).1

/-- The third block is not found, and has no results. At the read of the free memory pointer the
memory analysis finds the allocation, also after its last turn. -/
theorem reach_adrift :
    adriftSlots.1.facts.keys = adrift.flow.reachable ⟨0, none⟩ ∧
      (∃ id ∈ adrift.flow.reachable ⟨0, none⟩, adrift.indexOf? id = some 1) ∧
      ¬ (∃ id ∈ adrift.flow.reachable ⟨0, none⟩, adrift.indexOf? id = some 2) ∧
      (∃ s, adriftSlots.1.stateAt ⟨⟨0, none⟩, 1⟩ 0 = .ok s) ∧
      Memory.slotMessages ⟨adriftSlots.1, adriftOffsets.1⟩ ⟨⟨0, none⟩, 1⟩ = [] := by
  have hslots : (Slots.domain.engine adrift fromZero).analyze 8 (zeroStart .initial)
      ⟨.empty, ∅⟩ = ((adriftSlots.1, adriftSlots.2), .ok ()) := rfl
  have hmemory : ((Memory.domain ⟨adriftSlots.1, adriftOffsets.1⟩).engine adrift
      fromZero).analyze 8 (zeroStart .initial) adriftSlots.2.ledger =
        ((adriftMemory.1, adriftMemory.2), .ok ()) := rfl
  obtain ⟨hindex, hkeys, hfound⟩ := analyses_reach_reachable adrift ⟨0, none⟩
  have hreachable := hkeys _ rfl _ _ _ _ _ _ rfl hslots
  obtain ⟨hs, -, hquiet, -⟩ := hfound fromZero adriftSlots.1 adriftSlots.2 adriftOffsets.1
    adriftOffsets.2 rfl rfl rfl _ _ _ rfl (Engine.turns_of_analyze hmemory).1 ⟨⟨0, none⟩, 1⟩
    ⟨.mload, some "64"⟩ rfl rfl (by decide)
  have hlist : adrift.flow.reachable ⟨0, none⟩ = [⟨0, none⟩, ⟨8, none⟩] := hreachable.symm
  refine ⟨hreachable, ⟨⟨8, none⟩, by rw [hlist]; decide, by decide⟩, fun h => ?_, hs, hquiet⟩
  obtain ⟨b, hb, hpath⟩ := (hindex 2).1 h
  obtain rfl := Option.some.inj hb
  have hmem := Graph.mem_reachable_iff.2 hpath
  rw [hlist] at hmem
  exact absurd hmem (by decide)

end EvmAccess
