import EvmAccess.Proofs.Allocations
import EvmAccess.Proofs.Domain.AddressArithmetic
import EvmAccess.Proofs.Summary.DeadWrites

/-!
# Every plain access is recorded

A store or a load through a tracked address is entered once for each cell that the address may mean.
If the set of these cells were empty, the access would leave no trace. It never is: a set of
addresses that is not empty stays so when it is copied, shifted, joined, stored and absorbed, and
what may be empty, as the result of a load, is not put on the stack (`Memory.Filled`). Since all
instructions that paths lead to are executed at the end, all their accesses are in the ledger, and
the writes among them get their verdicts, in order.

## Main results

- `CellSet.exists_mem_shift`, `AbstractMemory.Filled.storeAt`: sets that are not empty stay so.
- `Memory.Filled.next`: an instruction keeps all sets from being empty.
- `Memory.has_of_solve`: what instructions access at the end was entered.
- `MemoryAnalysis.records_of_run`: what is recorded by the memory analysis.
-/

namespace EvmAccess

/-! ### Sets that are not empty -/

namespace CellSet

variable {s : CellSet} {c : Cell}

theorem exists_mem_clean (hc : c ∈ s) : ∃ d, d ∈ s.clean := by
  obtain ⟨d, hd, -⟩ := pointsInto_clean.2 ⟨c, hc, rfl⟩
  exact ⟨d, hd⟩

theorem exists_mem_shift (hc : c ∈ s) (offsets : OffsetSet) : ∃ d, d ∈ s.shift offsets := by
  obtain ⟨d, hd, -⟩ := (pointsInto_shift offsets).2 ⟨c, hc, rfl⟩
  exact ⟨d, hd⟩

end CellSet

namespace AbstractMemory

variable {m n : AbstractMemory} {a : Cell} {addresses values : CellSet}

/-- No entry is empty. -/
def Filled (m : AbstractMemory) : Prop := m.Every fun _ content => ∃ c, c ∈ content

/-- An entry is as it was, or has the values. -/
theorem Filled.storeAt (h : m.Filled) (hvalues : ∃ c, c ∈ values) :
    (m.storeAt a values).Filled := by
  intro c content hc
  rcases of_get?_storeAt hc with hold | ⟨-, hnew, -⟩
  · exact h c content hold
  · obtain ⟨d, hd⟩ := hvalues
    exact ⟨d, hnew d hd⟩

theorem Filled.store (h : m.Filled) (hvalues : ∃ c, c ∈ values) :
    (m.store addresses values).Filled :=
  List.foldlRecOn addresses.toList _ h fun _ hm _ _ => hm.storeAt hvalues

theorem Filled.join (h : m.Filled) (h' : n.Filled) : (m.join n).Filled :=
  List.foldlRecOn n.toList _ h fun _ hm e he =>
    hm.storeAt (h' e.1 e.2 (OrdMap.get?_eq_some_iff.2 he))

end AbstractMemory

namespace Memory

variable {ev : Evidence} {i : Instruction} {p : CodePoint} {s t : MemoryState}
  {position : Option Nat}

/-- No set of addresses is empty, neither on the stack nor in memory. -/
structure Filled (s : MemoryState) : Prop where
  stack : s.stack.Every fun _ cells => ∃ c, c ∈ cells
  memory : s.memory.Filled

theorem filled_initial : Filled .initial := ⟨OrdMap.every_empty, OrdMap.every_empty⟩

theorem Filled.tracked (h : Filled s) {cells : CellSet}
    (hcells : s.tracked? position = some cells) : ∃ c, c ∈ cells := by
  obtain ⟨q, -, hq⟩ := Option.bind_eq_some_iff.1 hcells
  exact h.stack q cells hq

theorem Filled.join (hs : Filled s) (ht : Filled t) : Filled (s.join t) where
  stack := hs.stack.unionWith ht.stack fun _ _ _ ⟨_, hc⟩ _ =>
    CellSet.exists_mem_clean (OrdSet.mem_union.2 (Or.inl hc))
  memory := hs.memory.join ht.memory

/-- What an instruction puts on the stack is not empty. -/
theorem Filled.made (h : Filled s) {cells : CellSet} (hmade : Made ev p s cells) :
    ∃ c, c ∈ cells := by
  cases hmade with
  | stood hq => exact h.stack _ _ hq
  | fresh hc => exact ⟨_, hc⟩
  | loaded hc => exact ⟨_, hc⟩
  | shifted offsets hq =>
    obtain ⟨c, hc⟩ := h.stack _ _ hq
    exact CellSet.exists_mem_shift hc offsets
  | mixed depth depth' offsets hc => exact CellSet.exists_mem_shift hc offsets

/-- **An instruction keeps all sets from being empty.** -/
theorem Filled.next (h : Filled s) (ev : Evidence) (i : Instruction) (p : CodePoint) :
    Filled (next ev i p s) where
  stack q cells hcells := h.made ((made_nextStack ev i p s).filter q cells hcells).1
  memory := by
    change (nextMemory i s).Filled
    rw [nextMemory]
    split
    · split
      · rename_i addresses values _ hvalues
        exact h.memory.store (h.tracked hvalues)
      · exact h.memory
    · exact h.memory

/-! ### Accesses -/

theorem Filled.exists_mem_preciseTokens (h : Filled s) (position : Option Nat) :
    ∃ t, t ∈ preciseTokens s position := by
  rw [preciseTokens]
  split
  · rename_i cells hcells
    obtain ⟨c, hc⟩ := h.tracked hcells
    exact ⟨.cell c, List.mem_map.2 ⟨c, hc, rfl⟩⟩
  · exact ⟨_, List.mem_singleton_self _⟩

/-- A load reads something. -/
theorem Filled.exists_mem_readTokens (h : Filled s) (hi : i.opcode = .mload) (ev : Evidence)
    (p : CodePoint) : ∃ t, t ∈ readTokens ev i p s := by
  simp only [readTokens, hi]
  split
  · exact ⟨_, List.mem_singleton_self _⟩
  · exact h.exists_mem_preciseTokens _

/-- A store writes something. -/
theorem Filled.exists_mem_writeTokens (h : Filled s)
    (hi : i.opcode = .mstore ∨ i.opcode = .mstore8) : ∃ t, t ∈ writeTokens i s := by
  rcases hi with hi | hi
  · simp only [writeTokens, hi]
    split
    case h_5 => exact h.exists_mem_preciseTokens _
    all_goals exact ⟨_, List.mem_singleton_self _⟩
  · simp only [writeTokens, hi]
    split
    · rename_i hsome
      obtain ⟨cells, hcells⟩ := Option.isSome_iff_exists.1 hsome
      have htracked : s.tracked? (stackItem? s.height 0) = some cells := hcells
      obtain ⟨c, hc⟩ := h.tracked htracked
      exact ⟨.cell (.whole c.slot), List.mem_map.2 ⟨c, by rw [htracked]; exact hc, rfl⟩⟩
    · exact ⟨_, List.mem_singleton_self _⟩

variable {g : CodeGraph} {config : Config} {r : Run BlockId MemoryState} {l l' : Ledger}

/-- Wherever a path leads, there is a state without empty sets before the instruction, and what the
instruction accesses there was entered. -/
theorem has_of_solve (hsolve : MemoryAnalysis.solveMemory g config ev l = .ok (r, l'))
    (hpath : g.flow.Path config.entry p.block) (hi : g.instruction? p = some i) :
    ∃ s, Filled s ∧ ∀ a ∈ accesses ev i p s, l'.Has p a := by
  obtain ⟨f, s, -, hf, hs, -⟩ := Domain.exists_before_of_path hsolve hpath hi
  have hfilled : r.Everywhere fun _ _ s => Filled s :=
    Domain.everywhere_of_solve (J := fun _ s => Filled s) (fun hs ht => hs.join ht)
      (fun _ _ hs => hs.next _ _ _) (fun _ _ _ hs => hs) filled_initial hsolve
  obtain ⟨t, -, hrepeats⟩ := Domain.noted_of_solve (notes_repeats ev) hsolve hf hi hs
  exact ⟨s, hfilled p.block f hf p.index s hs,
    Ledger.noteAll_eq_self_iff.1 (congrArg Prod.snd hrepeats)⟩

/-- Every store that a path leads to was entered. -/
theorem exists_write_of_solve (hsolve : MemoryAnalysis.solveMemory g config ev l = .ok (r, l'))
    (hpath : g.flow.Path config.entry p.block) (hi : g.instruction? p = some i)
    (hstore : i.opcode = .mstore ∨ i.opcode = .mstore8) : ∃ t, t ∈ l'.writes.atPoint p := by
  obtain ⟨s, hfilled, hhas⟩ := has_of_solve hsolve hpath hi
  obtain ⟨t, ht⟩ := hfilled.exists_mem_writeTokens hstore
  exact ⟨t, hhas (.write t) (by simp [accesses, ht])⟩

/-- Every load that a path leads to was entered. -/
theorem exists_read_of_solve (hsolve : MemoryAnalysis.solveMemory g config ev l = .ok (r, l'))
    (hpath : g.flow.Path config.entry p.block) (hi : g.instruction? p = some i)
    (hload : i.opcode = .mload) : ∃ t, t ∈ l'.reads.atPoint p := by
  obtain ⟨s, hfilled, hhas⟩ := has_of_solve hsolve hpath hi
  obtain ⟨t, ht⟩ := hfilled.exists_mem_readTokens hload ev p
  exact ⟨t, hhas (.read t) (by simp [accesses, ht])⟩

/-- The access, if it reads or writes, is made to memory by an instruction that a path leads to. -/
def Sited (g : CodeGraph) (entry : BlockId) (p : CodePoint) : Access → Prop
  | .read t | .write t =>
    (g.flow.Path entry p.block ∧ (g.instruction? p).isSome = true) ∧ t.isMemory = true
  | .opens _ | .closes _ | .stray => True

theorem Located.isMemory {t : Token} (h : Located s t) : t.isMemory = true := by
  cases t with
  | region _ | cell _ => rfl
  | key _ => exact h.elim

/-- Reads and writes are entered at instructions that paths lead to, and mean memory. -/
theorem sited_of_solve (hsolve : MemoryAnalysis.solveMemory g config ev l = .ok (r, l'))
    (hl : l.Only (Sited g config.entry)) : l'.Only (Sited g config.entry) := by
  have inv : (domain ev).Invariant g config.entry (Ledger.Only (Sited g config.entry))
      fun _ _ _ => True := by
    refine .of_context fun {p i} s l hpath hi hl => hl.noteAll fun a ha => ?_
    have hpoint : g.flow.Path config.entry p.block ∧ (g.instruction? p).isSome = true :=
      ⟨hpath, Option.isSome_iff_exists.2 ⟨i, hi⟩⟩
    rcases of_mem_accesses ha with ⟨t, rfl | rfl, ht⟩ | rfl
    · exact ⟨hpoint, ht.isMemory⟩
    · exact ⟨hpoint, ht.isMemory⟩
    · trivial
  exact (inv.solve hl trivial hsolve).1

end Memory

/-! ### The memory analysis -/

namespace MemoryAnalysis

variable {g : CodeGraph} {config : Config} {a : MemoryAnalysis}

/-- What the memory analysis records. -/
structure Records (g : CodeGraph) (entry : BlockId) (a : MemoryAnalysis) : Prop where
  /-- Every store that a path leads to has a report. -/
  stores : ∀ {p i}, g.flow.Path entry p.block → g.instruction? p = some i →
    i.opcode = .mstore ∨ i.opcode = .mstore8 → ∃ r ∈ a.reports, r.point = p
  /-- Every load that a path leads to has a recorded read. -/
  loads : ∀ {p i}, g.flow.Path entry p.block → g.instruction? p = some i → i.opcode = .mload →
    ∃ t, t ∈ a.ledger.reads.atPoint p
  /-- There is one report for each recorded write, and none besides. -/
  reports : ∀ p t, a.reports.countP (fun r => r.point = p ∧ r.token = t) =
    if t ∈ a.ledger.writes.atPoint p then 1 else 0
  /-- The reports stand in the order of points, and then of tokens. -/
  sorted : a.reports.Pairwise fun r r' => compare r.point r'.point = .lt ∨
    r.point = r'.point ∧ compare r.token r'.token = .lt
  /-- What is read or written is memory, at an instruction that a path leads to. -/
  located : ∀ {p s}, a.ledger.reads.get? p = some s ∨ a.ledger.writes.get? p = some s →
    (g.flow.Path entry p.block ∧ (g.instruction? p).isSome = true) ∧ ∀ t ∈ s, t.isMemory = true

/-- **Every plain access is recorded**, whenever the memory analysis succeeds, and there is exactly
one report for each recorded write. -/
theorem records_of_run (h : run g config = .ok a) : a.Records g config.entry := by
  obtain ⟨c, -, hslots, -, hmemory, -, hreports, -⟩ := run_eq_ok_iff.1 h
  have hsited : a.ledger.Only (Memory.Sited g config.entry) := by
    refine Memory.sited_of_solve hmemory ((Slots.sound_of_solve hslots).1.ledger.mono ?_)
    rintro p _ ⟨slot, rfl | rfl, -⟩
    · trivial
    · trivial
  constructor
  case stores =>
    intro p i hpath hi hstore
    obtain ⟨t, ht⟩ := Memory.exists_write_of_solve hmemory hpath hi hstore
    exact ⟨⟨p, t, a.ledger.verdict g p t⟩, hreports ▸ Ledger.mem_classify.2 ⟨ht, rfl⟩, rfl⟩
  case loads =>
    intro p i hpath hi hload
    exact Memory.exists_read_of_solve hmemory hpath hi hload
  case reports =>
    intro p t
    rw [hreports]
    exact Ledger.countP_classify a.ledger g p t
  case sorted =>
    rw [hreports]
    exact List.pairwise_map.2 a.ledger.pairwise_stores
  case located =>
    rintro p s (hs | hs)
    · exact hsited.reads.and_of_get? hs
    · exact hsited.writes.and_of_get? hs

/-- The store and the load behind the two branches are recorded, and the second word of the
allocation has one report. -/
theorem records_merging :
    run merging mergingConfig = .ok mergingAnalysis ∧
      merging.flow.Path ⟨0, none⟩ ⟨11, none⟩ ∧
      (∃ r ∈ mergingAnalysis.reports, r.point = mergingStore) ∧
      (∃ t, t ∈ mergingAnalysis.ledger.reads.atPoint ⟨⟨11, none⟩, 4⟩) ∧
      mergingAnalysis.reports.countP
        (fun r => r.point = mergingStore ∧ r.token = .cell ⟨⟨0⟩, .exact 32⟩) = 1 := by
  have hrecords := records_of_run run_merging
  have hpath : merging.flow.Path ⟨0, none⟩ ⟨11, none⟩ :=
    .edge (.refl rfl) (n := (merging.block? ⟨0, none⟩).get rfl |>.node) rfl (by decide) rfl
  refine ⟨run_merging, hpath, hrecords.stores hpath rfl (Or.inl rfl),
    hrecords.loads hpath rfl rfl, ?_⟩
  rw [hrecords.reports, if_pos (by decide)]

end MemoryAnalysis

end EvmAccess
