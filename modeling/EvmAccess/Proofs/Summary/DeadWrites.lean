import EvmAccess.Proofs.Access.Verdicts
import EvmAccess.Proofs.Evm.Opcode
import EvmAccess.Proofs.Solution
import EvmAccess.Proofs.Summary.Entries

/-!
# What it means that a store is listed as dead

Verdicts are passed on locations: a store through an address that comes from two branches may write
to two locations, and each gets a verdict of its own. A summary lists points. A store is listed as
soon as one of its locations is dead, so another of its locations may well be live.

What can be relied on is less. Some location of a listed store is dead, and none of its verdicts is
suppressed. The store can be left out altogether exactly if its block ends by reverting or no read
is found for any of its locations; a store that writes to a single location is an example.

## Main results

- `MemoryAnalysis.allDead_iff_of_mem_deadWrites`: what a listed store is.
- `MemoryAnalysis.live_merging`: a listed store with a live location.
-/

namespace EvmAccess

/-! ### Listed stores -/

namespace MemoryAnalysis

variable {g : CodeGraph} {config : Config} {a : MemoryAnalysis} {b : BlockId} {f : BlockFacts}
  {p : CodePoint}

/-- Every location that is written at the point is reported as dead. -/
def AllDead (a : MemoryAnalysis) (p : CodePoint) : Prop :=
  ∀ t ∈ a.ledger.writes.atPoint p, ∃ r ∈ a.reports, r.point = p ∧ r.token = t ∧ r.isDead = true

/-- The reports are the verdicts on the recorded writes. -/
theorem reports_eq (h : run g config = .ok a) : a.reports = a.ledger.classify g := by
  obtain ⟨-, -, -, -, -, -, hreports, -⟩ := run_eq_ok_iff.1 h
  exact hreports

theorem allDead_iff (h : run g config = .ok a) : a.AllDead p ↔
    ∀ t ∈ a.ledger.writes.atPoint p,
      Ledger.endsInRevert g p = true ∨
        a.ledger.searchRead g p t = none ∧ a.ledger.strayed = false := by
  refine forall_congr' fun t => forall_congr' fun ht => ?_
  rw [reports_eq h]
  constructor
  · rintro ⟨r, hr, rfl, rfl, hdead⟩
    exact (Ledger.isDead_iff_of_mem_classify hr).1 hdead
  · intro hknown
    have hr : ⟨p, t, a.ledger.verdict g p t⟩ ∈ a.ledger.classify g :=
      Ledger.mem_classify.2 ⟨ht, rfl⟩
    exact ⟨_, hr, rfl, rfl, (Ledger.isDead_iff_of_mem_classify hr).2 hknown⟩

/-- A store is listed in the summary exactly if some location of it is reported as dead. -/
theorem mem_deadWrites_iff (h : run g config = .ok a) (hf : a.summary.get? b = some f) :
    p ∈ f.deadWrites ↔ p.block = b ∧ ∃ r ∈ a.reports, r.isDead = true ∧ r.point = p := by
  obtain ⟨-, -, -, -, -, -, -, hsummary⟩ := run_eq_ok_iff.1 h
  rw [hsummary] at hf
  exact (every_summarize g a.offsets a.ledger a.reports b f hf).1 p

/-- **What a listed store is.** If a store is listed as dead then it stands in the block it is
listed for, some location of it is reported as dead, and no verdict on it is suppressed. All of its
locations are dead exactly if its block ends by reverting or no read is found for any of them. In
particular they are if there is only one. -/
theorem allDead_iff_of_mem_deadWrites (h : run g config = .ok a)
    (hf : a.summary.get? b = some f) (hp : p ∈ f.deadWrites) :
    p.block = b ∧
      (∃ r ∈ a.reports, r.point = p ∧ r.isDead = true) ∧
      (∀ r ∈ a.reports, r.point = p → r.isDead = true ∨ ∃ read, r.verdict = .live read) ∧
      (a.AllDead p ↔ Ledger.endsInRevert g p = true ∨
        ∀ t ∈ a.ledger.writes.atPoint p, a.ledger.searchRead g p t = none) ∧
      ∀ t, a.ledger.writes.atPoint p = OrdSet.singleton t → a.AllDead p := by
  obtain ⟨hblock, r₀, hr₀, hdead, rfl⟩ := (mem_deadWrites_iff h hf).1 hp
  have hclassify := reports_eq h
  have ht₀ : r₀.token ∈ a.ledger.writes.atPoint r₀.point :=
    (Ledger.mem_classify.1 (hclassify ▸ hr₀)).1
  -- One dead location settles for all of them whether addresses may have left their allocation.
  have hknown := (Ledger.isDead_iff_of_mem_classify (hclassify ▸ hr₀)).1 hdead
  refine ⟨hblock, ⟨r₀, hr₀, rfl, hdead⟩, ?_, ?_, ?_⟩
  · intro r hr hpoint
    rw [hclassify] at hr
    rw [Ledger.isDead_iff_of_mem_classify hr, (Ledger.mem_classify.1 hr).2, hpoint]
    cases hsearch : a.ledger.searchRead g r₀.point r.token with
    | none => exact Or.inl (hknown.imp id fun hk => ⟨rfl, hk.2⟩)
    | some read =>
      cases hrevert : Ledger.endsInRevert g r₀.point with
      | true => exact Or.inl (Or.inl rfl)
      | false => exact Or.inr ⟨read, Ledger.verdict_eq_live_iff.2 ⟨hrevert, hsearch⟩⟩
  · rw [allDead_iff h]
    constructor
    · intro hall
      by_cases hrevert : Ledger.endsInRevert g r₀.point = true
      · exact Or.inl hrevert
      · exact Or.inr fun t ht => ((hall t ht).resolve_left hrevert).1
    · rintro (hrevert | hnone) t ht
      · exact Or.inl hrevert
      · exact hknown.imp id fun hk => ⟨hnone t ht, hk.2⟩
  · intro t ht
    rw [allDead_iff h]
    intro t' ht'
    rw [ht, OrdSet.mem_singleton] at ht₀ ht'
    rw [ht', ← ht₀]
    exact hknown

/-! ### An address from two branches -/

/-- An allocation is written at its start or at its second word, depending on the branch; then its
start is read. -/
def merging : CodeGraph where
  blocks :=
    [⟨⟨0, none⟩, 0, 7, .conditional,
       [⟨.push1, some "0x40"⟩, ⟨.mload, some "64"⟩, ⟨.dup1, none⟩, ⟨.callvalue, none⟩,
        ⟨.push1, some "0x0b"⟩, ⟨.jumpi, none⟩],
       .block ⟨11, none⟩, some ⟨8, none⟩, ∅⟩,
     ⟨⟨8, none⟩, 8, 10, .fallsTo, [⟨.push1, some "0x20"⟩, ⟨.add, none⟩], .none,
       some ⟨11, none⟩, ∅⟩,
     ⟨⟨11, none⟩, 11, 16, .terminal,
       [⟨.jumpdest, none⟩, ⟨.caller, none⟩, ⟨.swap1, none⟩, ⟨.mstore, none⟩, ⟨.mload, none⟩,
        ⟨.stop, none⟩],
       .none, none, ∅⟩]
  increasing := by decide
  shaped := by decide
  closed := by decide

/-- The program is analysed from its first block, without a limit. -/
def mergingConfig : Config := ⟨false, 0, ⟨0, none⟩⟩

/-- The run of a domain on the program before its first turn. -/
def mergingStart {σ : Type} (s : σ) : Run BlockId σ :=
  ⟨(∅ : OrdMap BlockId _).insert ⟨0, none⟩ (.start s), [⟨0, none⟩], 0⟩

/-- The open allocations of the program. -/
def mergingSlots : Run BlockId SlotState × Slots.Context :=
  ((Slots.domain.engine merging mergingConfig).analyze 4 (mergingStart .initial) ⟨.empty, ∅⟩).1

/-- The constants of the program. -/
def mergingOffsets : Run BlockId OffsetState × Option Ledger :=
  ((Offsets.domain.engine merging mergingConfig).analyze 4 (mergingStart (.initial .memory))
    none).1

/-- The memory addresses of the program. -/
def mergingMemory : Run BlockId MemoryState × Ledger :=
  (((Memory.domain ⟨mergingSlots.1, mergingOffsets.1⟩).engine merging mergingConfig).analyze 4
    (mergingStart .initial) mergingSlots.2.ledger).1

/-- The result of the memory analysis of the program. -/
def mergingAnalysis : MemoryAnalysis where
  allocations := mergingSlots.2.allocations
  slots := mergingSlots.1
  offsets := mergingOffsets.1
  memory := mergingMemory.1
  ledger := mergingMemory.2
  reports := mergingMemory.2.classify merging
  summary := summarize merging mergingOffsets.1 mergingMemory.2 (mergingMemory.2.classify merging)

theorem run_merging : run merging mergingConfig = .ok mergingAnalysis :=
  run_eq_ok_iff.2 ⟨mergingSlots.2, mergingOffsets.2, rfl, rfl, rfl, rfl, rfl, rfl⟩

/-- The store. -/
def mergingStore : CodePoint := ⟨⟨11, none⟩, 3⟩

/-- The start of the allocation is read behind the store. -/
theorem searchRead_merging_start :
    mergingMemory.2.searchRead merging mergingStore (.cell ⟨⟨0⟩, .exact 0⟩) =
      some ⟨⟨11, none⟩, 4⟩ := by
  cases h : mergingMemory.2.searchRead merging mergingStore (.cell ⟨⟨0⟩, .exact 0⟩) with
  | none =>
    have hnone := Ledger.readIn?_of_searchRead_eq_none h
      (.root (n := (merging.block? ⟨11, none⟩).get rfl |>.node) List.mem_cons_self rfl)
    exact absurd hnone (by decide)
  | some p =>
    obtain ⟨-, s, hs, halias⟩ := Ledger.exists_mayAlias_of_searchRead h
    have hall : ∀ e ∈ mergingMemory.2.reads.toList,
        e.2.any (·.mayAlias (.cell ⟨⟨0⟩, .exact 0⟩)) = true → e.1 = ⟨⟨11, none⟩, 4⟩ := by decide
    exact congrArg some (hall (p, s) (OrdMap.get?_eq_some_iff.1 hs) halias)

/-- The second word of the allocation is never read. -/
theorem searchRead_merging_second :
    mergingMemory.2.searchRead merging mergingStore (.cell ⟨⟨0⟩, .exact 32⟩) = none := by
  refine Option.eq_none_iff_forall_ne_some.2 fun p hp => ?_
  obtain ⟨-, s, hs, halias⟩ := Ledger.exists_mayAlias_of_searchRead hp
  have hall : ∀ e ∈ mergingMemory.2.reads.toList,
      e.2.any (·.mayAlias (.cell ⟨⟨0⟩, .exact 32⟩)) = false := by decide
  exact absurd halias (by simp [hall (p, s) (OrdMap.get?_eq_some_iff.1 hs)])

/-- The store is listed as dead, because nobody reads the second word. But it may also write to the
start, and what it writes there is read. -/
theorem live_merging :
    ∃ f, run merging mergingConfig = .ok mergingAnalysis ∧
      mergingAnalysis.summary.get? ⟨11, none⟩ = some f ∧ mergingStore ∈ f.deadWrites ∧
      ⟨mergingStore, .cell ⟨⟨0⟩, .exact 0⟩, .live ⟨⟨11, none⟩, 4⟩⟩ ∈ mergingAnalysis.reports ∧
      ¬ mergingAnalysis.AllDead mergingStore := by
  have hstays : Ledger.endsInRevert merging mergingStore = false := by decide
  have hsecond : ⟨mergingStore, .cell ⟨⟨0⟩, .exact 32⟩,
      mergingMemory.2.verdict merging mergingStore (.cell ⟨⟨0⟩, .exact 32⟩)⟩ ∈
      mergingMemory.2.classify merging := Ledger.mem_classify.2 ⟨by decide, rfl⟩
  have hstart : ⟨mergingStore, .cell ⟨⟨0⟩, .exact 0⟩, .live ⟨⟨11, none⟩, 4⟩⟩ ∈
      mergingAnalysis.reports :=
    Ledger.mem_classify.2
      ⟨by decide, (Ledger.verdict_eq_live_iff.2 ⟨hstays, searchRead_merging_start⟩).symm⟩
  obtain ⟨f, hf⟩ : ∃ f, mergingAnalysis.summary.get? ⟨11, none⟩ = some f := by
    refine Option.isSome_iff_exists.1 ?_
    rw [mergingAnalysis, summarize, Summary.addConstants, OrdMap.get?_map, Option.isSome_map,
      Summary.get?_addDeadWrites, Option.isSome_map]
    decide
  have hlisted : mergingStore ∈ f.deadWrites :=
    (mem_deadWrites_iff run_merging hf).2 ⟨rfl, _, hsecond,
      (Ledger.isDead_iff_of_mem_classify hsecond).2
        (Or.inr ⟨searchRead_merging_second, by decide⟩), rfl⟩
  refine ⟨f, run_merging, hf, hlisted, hstart, fun hall => ?_⟩
  have hcondition := (allDead_iff_of_mem_deadWrites run_merging hf hlisted).2.2.2.1.1 hall
  rcases hcondition with hrevert | hnone
  · rw [hstays] at hrevert
    cases hrevert
  · have hread := searchRead_merging_start.symm.trans (hnone _ (by decide))
    cases hread

end MemoryAnalysis

end EvmAccess
