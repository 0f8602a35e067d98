import EvmAccess.Domain.Memory
import EvmAccess.Summary

/-!
# The analyses of a program

The memory analysis runs three fixpoints, each using the results of the ones before: the open
allocations, the constants on the stack, and the memory addresses. Then the recorded writes are
judged and the facts are collected. The storage analysis needs only the constants.

All domains have finitely many states on a given program, and a block is visited again only after
its input has grown. `visitBudget` is a number of visits that no run can need.

## Main definitions

- `MemoryAnalysis.run`, `StorageAnalysis.run`: the analyses.
- `MemoryAnalysis.journal`, `StorageAnalysis.journal`: what they tell on the way.
-/

namespace EvmAccess

/-- How a program is analysed. -/
structure Config where
  /-- Whether executions are told at the level of debugging, and the ledger is shown. -/
  verbose : Bool
  /-- The number of visits per block after which a run is given up; zero is no limit. -/
  nodeLimit : Nat
  /-- The block at which the program starts. -/
  entry : BlockId

namespace CodeGraph

/-- More visits than a run on the program can need. With `n` instructions there are at most `n`
allocations, opening points and closing points; a set of offsets has at most 259 members; at most
`n` stack positions are tracked, and at most 7 cells of each allocation. So an input grows less than
`1000 * (n + 1) * (n + 1)` times, and each visit follows the discovery of a block or the growth of
an input. -/
def visitBudget (g : CodeGraph) : Nat :=
  (g.blocks.length + 1) * (1000 * ((g.size + 1) * (g.size + 1)) + 1)

end CodeGraph

/-- A finished run, and the context at its end. -/
abbrev Finished (σ γ : Type) := Except (Fault BlockId) (Run BlockId σ × γ)

section Solve

variable {σ γ : Type}

/-- A domain at work on a program. -/
def Domain.engine (d : Domain BlockId Instruction σ γ) (g : CodeGraph) (config : Config) :
    Engine BlockId Instruction σ γ := ⟨g.flow, d, config.nodeLimit⟩

/-- Run a domain on a program to the end. -/
def Domain.solve (d : Domain BlockId Instruction σ γ) (g : CodeGraph) (config : Config)
    (initial : σ) (c : γ) : Finished σ γ :=
  match Run.start g.flow config.entry initial with
  | .error fault => .error fault
  | .ok r =>
    match (d.engine g config).analyze g.visitBudget r c with
    | (_, .error fault) => .error fault
    | (done, .ok ()) => .ok done

/-- The messages of running a domain on a program. -/
def Commentary.solve (k : Commentary BlockId Instruction σ γ)
    (d : Domain BlockId Instruction σ γ) (g : CodeGraph) (config : Config)
    (initial : σ) (c : γ) : List Message :=
  match Run.start g.flow config.entry initial with
  | .error _ => []
  | .ok r => k.analyze (d.engine g config) config.verbose g.visitBudget r c

end Solve

/-- The ledger in full, and again block by block. -/
def dumpMessages (g : CodeGraph) (l : Ledger) : List Message :=
  ⟨.debug, l.render⟩ :: g.blocks.flatMap fun b => (l.describeBlock b.id).map fun line =>
    ⟨.debug, s!"  {b.id}: {line}"⟩

/-! ### Memory -/

/-- The result of the memory analysis. -/
structure MemoryAnalysis where
  /-- The numbering of allocations. -/
  allocations : Allocations
  /-- The open allocations. -/
  slots : Run BlockId SlotState
  /-- The constants on the stack. -/
  offsets : Run BlockId OffsetState
  /-- The memory addresses. -/
  memory : Run BlockId MemoryState
  /-- The accesses. -/
  ledger : Ledger
  /-- The verdict on every write. -/
  reports : List StoreReport
  /-- The facts. -/
  summary : Summary

namespace MemoryAnalysis

/-- Find the open allocations. -/
def solveSlots (g : CodeGraph) (config : Config) : Finished SlotState Slots.Context :=
  Slots.domain.solve g config .initial ⟨.empty, ∅⟩

/-- Find the constants on the stack. -/
def solveOffsets (g : CodeGraph) (config : Config) : Finished OffsetState (Option Ledger) :=
  Offsets.domain.solve g config (.initial .memory) none

/-- Find the memory addresses. -/
def solveMemory (g : CodeGraph) (config : Config) (ev : Memory.Evidence) (l : Ledger) :
    Finished MemoryState Ledger :=
  (Memory.domain ev).solve g config .initial l

/-- The facts on the memory accesses of a program. -/
def summarize (g : CodeGraph) (offsets : Run BlockId OffsetState) (l : Ledger)
    (reports : List StoreReport) : Summary :=
  (((Summary.initial g).relateMemory l).addDeadWrites reports).addConstants g offsets

/-- Find the memory accesses of a program and judge its memory writes. -/
def run (g : CodeGraph) (config : Config) : Except (Fault BlockId) MemoryAnalysis := do
  let (slots, c) ← solveSlots g config
  let (offsets, _) ← solveOffsets g config
  let (memory, ledger) ← solveMemory g config ⟨slots, offsets⟩ c.ledger
  let reports := ledger.classify g
  return {
    allocations := c.allocations
    slots, offsets, memory, ledger, reports
    summary := summarize g offsets ledger reports }

/-- The reports on stores whose value is never seen. -/
def deadWrites (a : MemoryAnalysis) : List StoreReport := a.reports.filter (·.isDead)

/-- The messages after the accesses are known. -/
def closingMessages (g : CodeGraph) (config : Config) (offsets : Run BlockId OffsetState)
    (l : Ledger) : List Message :=
  ⟨.info, s!"Memory analysis finished, {l.reads.size} reads and {l.writes.size} writes recorded"⟩ ::
    (if config.verbose then dumpMessages g l else []) ++
    l.classifyMessages g ++ Summary.constantMessages g offsets

/-- What the memory analysis tells on the way. -/
def journal (g : CodeGraph) (config : Config) : List Message :=
  let reached := (g.flow.reachable config.entry).length
  let started : Message :=
    ⟨.info, s!"Memory analysis of {g.blocks.length} blocks started, " ++
      s!"{reached} reachable from {config.entry}"⟩
  started :: Slots.commentary.solve Slots.domain g config .initial ⟨.empty, ∅⟩ ++
    match solveSlots g config with
    | .error _ => []
    | .ok (slots, c) =>
      let counted : Message :=
        ⟨.info, s!"Slots analysis finished, {c.allocations.byPoint.size} allocations"⟩
      counted :: Offsets.commentary.solve Offsets.domain g config (.initial .memory) none ++
        match solveOffsets g config with
        | .error _ => []
        | .ok (offsets, _) =>
          let ev : Memory.Evidence := ⟨slots, offsets⟩
          (Memory.commentary ev).solve (Memory.domain ev) g config .initial c.ledger ++
            match solveMemory g config ev c.ledger with
            | .error _ => []
            | .ok (_, ledger) => closingMessages g config offsets ledger

end MemoryAnalysis

/-! ### Storage -/

/-- The result of the storage analysis. -/
structure StorageAnalysis where
  /-- The constants on the stack. -/
  offsets : Run BlockId OffsetState
  /-- The accesses. -/
  ledger : Ledger
  /-- The facts. -/
  summary : Summary

namespace StorageAnalysis

/-- Find the constants on the stack, and the storage keys. -/
def solveOffsets (g : CodeGraph) (config : Config) : Finished OffsetState (Option Ledger) :=
  Offsets.domain.solve g config (.initial .storage) (some ∅)

/-- The facts on the storage accesses of a program. -/
def summarize (g : CodeGraph) (offsets : Run BlockId OffsetState) (l : Ledger) : Summary :=
  ((Summary.initial g).relateStorage l).addConstants g offsets

/-- Find the storage keys of a program and relate its storage accesses. -/
def run (g : CodeGraph) (config : Config) : Except (Fault BlockId) StorageAnalysis := do
  let (offsets, ledger?) ← solveOffsets g config
  let ledger := ledger?.getD ∅
  return { offsets, ledger, summary := summarize g offsets ledger }

/-- What the storage analysis tells on the way. -/
def journal (g : CodeGraph) (config : Config) : List Message :=
  ⟨.info, s!"Storage analysis of {g.blocks.length} blocks started"⟩ ::
    Offsets.commentary.solve Offsets.domain g config (.initial .storage) (some ∅) ++
    match solveOffsets g config with
    | .error _ => []
    | .ok (offsets, ledger?) =>
      let l := ledger?.getD ∅
      ⟨.info, s!"Storage analysis finished, {l.reads.size} reads and " ++
          s!"{l.writes.size} writes recorded"⟩ ::
        (if config.verbose then dumpMessages g l else []) ++
        Summary.constantMessages g offsets

end StorageAnalysis

end EvmAccess
