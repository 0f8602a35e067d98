import EvmAccess.Pipeline
import EvmAccess.Proofs.Access.Ledger
import EvmAccess.Proofs.Evm.CodeGraph

/-!
# Where the facts of a summary come from

A summary starts without facts, and each kind of fact is entered by one function. So every fact has
one origin: a pair was found by comparing two entries of the ledger, a dead store was reported, and
a constant address was looked up.

## Main results

- `PairFacts.mem_certain_relate`: pairs come from entries of the ledger.
- `Summary.get?_addDeadWrites`: dead stores come from reports.
- `Summary.every_addConstants`: constant addresses come from recorded states.
- `StorageAnalysis.every_summarize`, `MemoryAnalysis.every_summarize`: whole summaries.
-/

namespace EvmAccess

/-! ### Pairs -/

theorem PointPair.ofPoints_cases (p q : CodePoint) :
    ofPoints p q = ⟨p, q⟩ ∨ ofPoints p q = ⟨q, p⟩ := by
  rw [ofPoints]
  split
  · exact Or.inl rfl
  · exact Or.inr rfl

/-- The pair is that of a write in the block and another access in the block, and their tokens are
related in the given way. -/
def Ledger.Relates (l : Ledger) (b : BlockId) (rel : Relation) (e : PointPair) : Prop :=
  ∃ w ∈ l.writes.inBlock b, ∃ o ∈ l.reads.inBlock b ++ l.writes.inBlock b,
    o.1 ≠ w.1 ∧ Token.relationOfSets w.2 o.2 = rel ∧ e = .ofPoints w.1 o.1

namespace PairFacts

variable {f : PairFacts} {e : PointPair} {rel : Relation}

/-- The pairs that are listed with a relation. -/
def certain (f : PairFacts) : Relation → OrdSet PointPair
  | .equal => f.equal
  | .notEqual => f.nonequal
  | .unknown => ∅

theorem mem_certain_note (hrel : rel ≠ .unknown) {p q : CodePoint} {rel' : Relation} :
    e ∈ (f.note p q rel').certain rel ↔ e ∈ f.certain rel ∨ rel' = rel ∧ e = .ofPoints p q := by
  cases rel <;> cases rel' <;> simp_all [note, certain, or_comm]

/-- The pairs of a block come from the entries of the ledger for the block. -/
theorem mem_certain_relate (hrel : rel ≠ .unknown) {l : Ledger} {b : BlockId} :
    e ∈ (f.relate l b).certain rel ↔ e ∈ f.certain rel ∨ l.Relates b rel e := by
  refine foldl_iff_exists (M := fun f => e ∈ f.certain rel) (fun f w => ?_) _ f
  refine foldl_iff_exists (M := fun f => e ∈ f.certain rel) (fun f o => ?_) _ f
  split
  · rename_i heq
    simp [heq]
  · rename_i hne
    simp [mem_certain_note hrel, hne]

end PairFacts

/-! ### Summaries -/

namespace Summary

variable {g : CodeGraph} {offsets : Run BlockId OffsetState} {s : Summary}
  {P : BlockId → BlockFacts → Prop}

theorem every_initial (g : CodeGraph) : (initial g).Every fun _ f => f = .empty := by
  refine OrdMap.every_empty.foldl_insert fun e he => ?_
  obtain ⟨b, -, rfl⟩ := List.mem_map.1 he
  rfl

/-- Each block of the program has an entry. -/
theorem get?_initial (g : CodeGraph) (id : BlockId) :
    (initial g).get? id = (g.block? id).map fun _ => .empty := by
  have hfold : initial g = (g.blocks.map (·.id)).foldl (fun m id => m.insert id .empty) ∅ := by
    rw [initial, OrdMap.ofList, List.foldl_map, List.foldl_map]
  rw [hfold, OrdMap.get?_foldl_insert]
  cases hb : g.block? id with
  | none =>
    rw [if_neg fun hid => by simpa [hb] using CodeGraph.isSome_block? hid]
    simp
  | some b =>
    rw [if_pos (List.mem_map.2 ⟨b, CodeGraph.mem_of_block? hb, CodeGraph.id_of_block? hb⟩)]
    simp

theorem get?_addDeadWrite {p : CodePoint} {b : BlockId} :
    (s.addDeadWrite p).get? b = (s.get? b).map fun f =>
      if p.block = b then { f with deadWrites := f.deadWrites.insert p } else f := by
  by_cases h : p.block = b
  · subst h
    rw [addDeadWrite, OrdMap.get?_alter_self]
    simp
  · rw [addDeadWrite, OrdMap.get?_alter_of_ne (Ne.symm h)]
    simp [h]

/-- The points of the dead stores of a block. -/
def deadPoints (reports : List StoreReport) (b : BlockId) : List CodePoint :=
  ((reports.filter (·.isDead)).map (·.point)).filter (·.block = b)

theorem mem_deadPoints {reports : List StoreReport} {b : BlockId} {p : CodePoint} :
    p ∈ deadPoints reports b ↔ p.block = b ∧ ∃ r ∈ reports, r.isDead = true ∧ r.point = p := by
  simp only [deadPoints, List.mem_filter, List.mem_map, decide_eq_true_eq, and_assoc]
  exact and_comm

/-- Entering dead stores changes nothing else, and each is listed in its own block. -/
theorem get?_addDeadWrites {reports : List StoreReport} {b : BlockId} :
    (s.addDeadWrites reports).get? b = (s.get? b).map fun f =>
      { f with
        deadWrites := (deadPoints reports b).foldl (fun d p => d.insert p) f.deadWrites } := by
  rw [addDeadWrites, deadPoints]
  induction reports.filter (·.isDead) generalizing s with
  | nil => simp
  | cons r rs ih =>
    rw [List.foldl_cons, ih, get?_addDeadWrite, Option.map_map]
    congr 1
    funext f
    by_cases hr : r.point.block = b
    · simp [hr]
    · simp [hr]

/-- The state before an instruction of the block shows this constant address. -/
def ShowsConstant (g : CodeGraph) (offsets : Run BlockId OffsetState) (b : BlockId)
    (p : CodePoint) (address : Nat) : Prop :=
  p.block = b ∧ ∃ i, g.instruction? p = some i ∧ constantAddress? offsets p i = some address

theorem showsConstant_of_mem {id : BlockId} {b : BasicBlock} (hb : g.block? id = some b)
    {e : CodePoint × Instruction × Nat} (he : e ∈ constantAccesses offsets b) :
    ShowsConstant g offsets id e.1 e.2.2 := by
  obtain ⟨⟨i, index⟩, hi, he⟩ := List.mem_filterMap.1 he
  obtain ⟨address, haddress, rfl⟩ := Option.map_eq_some_iff.1 he
  have hid : b.id = id := CodeGraph.id_of_block? hb
  have hcode : b.code[index]? = some i := List.mem_zipIdx_iff_getElem?.1 hi
  refine ⟨hid, i, CodeGraph.instruction?_eq_some_iff.2 ⟨b, ?_, hcode⟩, haddress⟩
  rw [hid]
  exact hb

/-- Constant addresses are those that recorded states show; nothing else is changed. -/
theorem every_addConstants (hP : ∀ {b f} m, P b f → P b { f with constants := m })
    (h : s.Every fun b f => P b f ∧ f.constants = ∅) :
    (s.addConstants g offsets).Every fun b f =>
      P b f ∧ f.constants.Every (ShowsConstant g offsets b) := by
  refine h.map fun id f ⟨hf, hempty⟩ => ?_
  split
  · rw [hempty]
    exact ⟨hf, OrdMap.every_empty⟩
  · rename_i b hb
    refine ⟨hP _ hf, OrdMap.Every.foldl_insert ?_ fun e he => showsConstant_of_mem hb he⟩
    rw [hempty]
    exact OrdMap.every_empty

/-- Entering constant addresses changes nothing else, and each is listed in its own block. -/
theorem get?_addConstants {id : BlockId} {facts : BasicBlock → BlockFacts}
    (h : s.get? id = (g.block? id).map facts) :
    (s.addConstants g offsets).get? id = (g.block? id).map fun b =>
      { facts b with
        constants :=
          (constantAccesses offsets b).foldl (fun m e => m.insert e.1 e.2.2)
            (facts b).constants } := by
  rw [addConstants, OrdMap.get?_map, h]
  cases g.block? id <;> rfl

end Summary

/-- The facts on storage accesses. -/
theorem StorageAnalysis.every_summarize (g : CodeGraph) (offsets : Run BlockId OffsetState)
    (l : Ledger) : (summarize g offsets l).Every fun b f =>
      f.storage = PairFacts.empty.relate l b ∧
        f.constants.Every (Summary.ShowsConstant g offsets b) := by
  refine Summary.every_addConstants (fun _ hf => hf) ?_
  exact (Summary.every_initial g).map fun b f hf => by
    rw [hf]
    exact ⟨rfl, rfl⟩

/-- The facts on memory accesses. -/
theorem MemoryAnalysis.every_summarize (g : CodeGraph) (offsets : Run BlockId OffsetState)
    (l : Ledger) (reports : List StoreReport) :
    (summarize g offsets l reports).Every fun b f =>
      (∀ p, p ∈ f.deadWrites ↔ p.block = b ∧ ∃ r ∈ reports, r.isDead = true ∧ r.point = p) ∧
        f.constants.Every (Summary.ShowsConstant g offsets b) := by
  refine Summary.every_addConstants (fun _ hf => hf) fun b f hf => ?_
  rw [Summary.get?_addDeadWrites] at hf
  obtain ⟨f₀, hf₀, rfl⟩ := Option.map_eq_some_iff.1 hf
  have hempty : f₀.deadWrites = ∅ ∧ f₀.constants = ∅ := by
    refine (Summary.every_initial g).map (Q := fun _ f => f.deadWrites = ∅ ∧ f.constants = ∅)
      (fun b f hf => ?_) b f₀ hf₀
    rw [hf]
    exact ⟨rfl, rfl⟩
  refine ⟨fun p => ?_, hempty.2⟩
  rw [OrdSet.mem_foldl_insert, hempty.1, Summary.mem_deadPoints]
  simp

/-! ### Entries of whole summaries -/

/-- The entry of a block in a summary of storage accesses. -/
theorem StorageAnalysis.get?_summarize (g : CodeGraph) (offsets : Run BlockId OffsetState)
    (l : Ledger) (id : BlockId) :
    (summarize g offsets l).get? id = (g.block? id).map fun b =>
      ⟨.empty, PairFacts.empty.relate l id, ∅,
        (Summary.constantAccesses offsets b).foldl (fun m e => m.insert e.1 e.2.2) ∅⟩ := by
  have hpairs : ((Summary.initial g).relateStorage l).get? id =
      (g.block? id).map fun _ => ⟨.empty, PairFacts.empty.relate l id, ∅, ∅⟩ := by
    rw [Summary.relateStorage, OrdMap.get?_map, Summary.get?_initial, Option.map_map]
    rfl
  exact Summary.get?_addConstants hpairs

/-- The entry of a block in a summary of memory accesses. -/
theorem MemoryAnalysis.get?_summarize (g : CodeGraph) (offsets : Run BlockId OffsetState)
    (l : Ledger) (reports : List StoreReport) (id : BlockId) :
    (summarize g offsets l reports).get? id = (g.block? id).map fun b =>
      ⟨PairFacts.empty.relate l id, .empty,
        (Summary.deadPoints reports id).foldl (fun d p => d.insert p) ∅,
        (Summary.constantAccesses offsets b).foldl (fun m e => m.insert e.1 e.2.2) ∅⟩ := by
  have hstores : (((Summary.initial g).relateMemory l).addDeadWrites reports).get? id =
      (g.block? id).map fun _ => ⟨PairFacts.empty.relate l id, .empty,
        (Summary.deadPoints reports id).foldl (fun d p => d.insert p) ∅, ∅⟩ := by
    rw [Summary.get?_addDeadWrites, Summary.relateMemory, OrdMap.get?_map, Summary.get?_initial,
      Option.map_map, Option.map_map]
    rfl
  exact Summary.get?_addConstants hstores

end EvmAccess
