import EvmAccess.Proofs.Access.Ledger
import EvmAccess.Proofs.Domain.MemoryOrder

/-!
# What merging does to reads

An instruction that reads memory does so through one operand. If the operand is tracked, it reads
cells of the allocations that the operand may point to. If not, the reads are regions: unknown
memory, or the scratch words for a hash, or nothing if the operand is known to be a number.

States are merged position by position. Where both are tracked, the cells of both are there in the
merged state, up to whole allocations that cover them. But where only one is tracked, the merged
state is tracked too, and has the cells of that side only: a position that is not tracked counts as
one that points nowhere, although it is read as one that may point anywhere. Then the regions that
the untracked side reads are lost.

## Main results

- `Memory.readTokens_of_tracked`, `Memory.readTokens_of_untracked`: what is read through an operand.
- `MemoryState.fromTop?_join`: the operands of a merged state.
- `Memory.not_covered_of_untracked`: how reads are lost.
- `Memory.reads_covered_join_iff`: when merging loses no read.
-/

namespace EvmAccess

/-! ### Covered tokens -/

namespace Token

/-- The second token covers the first: it is the same, or unknown memory, or the whole allocation to
which the first belongs. -/
def CoveredBy (t u : Token) : Prop :=
  t = u ∨ u = .region .unknown ∨
    ∃ a b, t = .cell a ∧ u = .cell b ∧ a.slot = b.slot ∧ b.offset = .any

variable {a b : Cell} {r : Region} {u : Token}

theorem coveredBy_refl (t : Token) : t.CoveredBy t := Or.inl rfl

theorem coveredBy_of_leq (h : a.leq b = true) : (Token.cell a).CoveredBy (.cell b) := by
  obtain ⟨hslot, hoffset⟩ := Cell.leq_iff.1 h
  rcases hoffset with hany | heq
  · exact Or.inr (Or.inr ⟨a, b, rfl, rfl, hslot, hany⟩)
  · obtain ⟨slot, offset⟩ := a
    obtain rfl : slot = b.slot := hslot
    obtain rfl : offset = b.offset := heq
    exact coveredBy_refl _

/-- A cell covers no region. -/
theorem not_region_coveredBy_cell : ¬ (Token.region r).CoveredBy (.cell b) := by
  rintro (heq | heq | ⟨_, _, heq, -⟩)
  all_goals cases heq

end Token

/-! ### Operands of a merged state -/

namespace MemoryState

/-- An operand of a merged state is tracked if one side tracks it. The height is that of the first
side. -/
theorem fromTop?_join (s t : MemoryState) (depth : Nat) :
    (s.join t).fromTop? depth =
      Option.merge CellSet.join (s.fromTop? depth) (t.tracked? (stackItem? s.height depth)) := by
  change (stackItem? s.height depth).bind (s.stack.unionWith CellSet.join t.stack).get? = _
  cases hposition : stackItem? s.height depth with
  | none => simp [fromTop?, tracked?, hposition]
  | some position => simp [fromTop?, tracked?, hposition, OrdMap.get?_unionWith]

end MemoryState

/-! ### Reads -/

namespace Memory

variable {ev : Evidence} {i : Instruction} {p : CodePoint} {s t : MemoryState} {depth : Nat}
  {cells : CellSet} {u : Token}

/-- How far below the top the operand lies through which an instruction reads memory. -/
def source? (i : Instruction) : Option Nat :=
  match i.opcode with
  | .mload => if i.annotatedAddress? = some freeMemoryPointer then none else some 0
  | .ret | .revert | .log _ | .keccak256 => some 0
  | .call | .callcode => some 3
  | .staticcall | .delegatecall => some 2
  | .mcopy | .create | .create2 => some 1
  | _ => none

/-- The location that an instruction reads if its operand points to the cell: a load reads the cell,
and every other instruction may read on from there. -/
def cellRead (i : Instruction) (c : Cell) : Token :=
  .cell (if i.opcode = .mload then c else .whole c.slot)

/-- The regions that an instruction reads through an operand that is not tracked, when the stack has
the given height. -/
def regionReads (ev : Evidence) (i : Instruction) (p : CodePoint) (height depth : Nat) :
    List Region :=
  if i.opcode = .mload then [.unknown]
  else if i.opcode = .keccak256 then
    match ev.constants? p (stackItem? height 1) with
    | some length => if Offset.exact 64 ∈ length then [.mem0, .mem32] else [.mem0]
    | none => [.mem0]
  else if ev.isNumber p (stackItem? height depth) then []
  else [.unknown]

/-- Without such an operand, the reads do not depend on the state. -/
theorem readTokens_of_source?_eq_none (h : source? i = none) (s t : MemoryState) :
    readTokens ev i p s = readTokens ev i p t := by
  cases hopcode : i.opcode <;> simp_all [source?, readTokens]

/-- The three ways to read through an operand: loads, hashes, and all other instructions. -/
theorem readTokens_cases (ev : Evidence) (p : CodePoint) (s : MemoryState)
    (h : source? i = some depth) :
    (i.opcode = .mload ∧ readTokens ev i p s = preciseTokens s (stackItem? s.height depth)) ∨
    (i.opcode = .keccak256 ∧ readTokens ev i p s =
      if (s.fromTop? depth).isSome then wholeTokens s (stackItem? s.height depth)
      else (regionReads ev i p s.height depth).map .region) ∨
    (i.opcode ≠ .mload ∧ i.opcode ≠ .keccak256 ∧
      readTokens ev i p s = operandTokens ev p s (stackItem? s.height depth)) := by
  cases hopcode : i.opcode with
  | mload =>
    simp only [source?, hopcode] at h
    split at h
    · cases h
    · rename_i hpointer
      obtain rfl := Option.some.inj h
      exact Or.inl ⟨rfl, by simp only [readTokens, hopcode, if_neg hpointer]⟩
  | keccak256 =>
    simp only [source?, hopcode] at h
    obtain rfl := Option.some.inj h
    refine Or.inr (Or.inl ⟨rfl, ?_⟩)
    simp only [readTokens, regionReads, hopcode, reduceCtorEq, if_true, if_false]
    congr 1
    cases ev.constants? p (stackItem? s.height 1) with
    | none => rfl
    | some length =>
      dsimp only
      split <;> rfl
  | _ => simp_all [source?, readTokens]

/-- Through a tracked operand an instruction reads cells. -/
theorem readTokens_of_tracked (h : source? i = some depth) (hs : s.fromTop? depth = some cells) :
    readTokens ev i p s = cells.toList.map (cellRead i) := by
  have hs' : s.tracked? (stackItem? s.height depth) = some cells := hs
  rcases readTokens_cases ev p s h with
    ⟨hload, hread⟩ | ⟨hhash, hread⟩ | ⟨hload, -, hread⟩
  · simp [hread, preciseTokens, hs', cellRead, hload]
  · simp [hread, wholeTokens, hs, hs', cellRead, hhash]
  · simp [hread, operandTokens, wholeTokens, hs', cellRead, hload]

/-- Through an operand that is not tracked it reads regions, which depend on nothing but the height
of the stack. -/
theorem readTokens_of_untracked (h : source? i = some depth) (hs : s.fromTop? depth = none) :
    readTokens ev i p s = (regionReads ev i p s.height depth).map .region := by
  have hs' : s.tracked? (stackItem? s.height depth) = none := hs
  rcases readTokens_cases ev p s h with
    ⟨hload, hread⟩ | ⟨-, hread⟩ | ⟨hload, hhash, hread⟩
  · simp [hread, preciseTokens, hs', regionReads, hload]
  · simp [hread, hs]
  · simp only [hread, operandTokens, hs', regionReads, hload, hhash, if_false, Option.isSome_none,
      Bool.false_eq_true]
    split <;> rfl

/-! ### Merging -/

/-- What is read at a cell is covered by what is read at a cell that covers it. -/
theorem cellRead_coveredBy {c d : Cell} (h : c.leq d = true) :
    (cellRead i c).CoveredBy (cellRead i d) := by
  rw [cellRead, cellRead]
  split
  · exact Token.coveredBy_of_leq h
  · rw [(Cell.leq_iff.1 h).1]
    exact Token.coveredBy_refl _

/-- If the first side tracks the operand, its reads are covered. -/
theorem covered_of_tracked (h : source? i = some depth) (hs : s.fromTop? depth = some cells)
    (hu : u ∈ readTokens ev i p s) : ∃ v ∈ readTokens ev i p (s.join t), u.CoveredBy v := by
  obtain ⟨cells', hjoin, hle⟩ : ∃ cells', (s.join t).fromTop? depth = some cells' ∧
      cells.leq cells' = true := by
    rw [MemoryState.fromTop?_join, hs]
    cases t.tracked? (stackItem? s.height depth) with
    | none => exact ⟨cells, rfl, CellSet.semilattice_order.refl cells⟩
    | some others => exact ⟨_, rfl, CellSet.semilattice_order.leq_join_left cells others⟩
  rw [readTokens_of_tracked h hs] at hu
  obtain ⟨c, hc, rfl⟩ := List.mem_map.1 hu
  obtain ⟨d, hd, hcd⟩ := CellSet.covers_iff.1 (CellSet.leq_iff.1 hle c hc)
  rw [readTokens_of_tracked h hjoin]
  exact ⟨_, List.mem_map.2 ⟨d, hd, rfl⟩, cellRead_coveredBy hcd⟩

/-- If no side tracks the operand, merging does not change the reads. -/
theorem readTokens_join_of_untracked (h : source? i = some depth) (hs : s.fromTop? depth = none)
    (ht : t.tracked? (stackItem? s.height depth) = none) :
    readTokens ev i p (s.join t) = readTokens ev i p s := by
  have hjoin : (s.join t).fromTop? depth = none := by
    rw [MemoryState.fromTop?_join, hs, ht]
    rfl
  rw [readTokens_of_untracked h hs, readTokens_of_untracked h hjoin]
  rfl

/-- **If only the second side tracks the operand, none of the reads is covered.** -/
theorem not_covered_of_untracked (h : source? i = some depth) (hs : s.fromTop? depth = none)
    (ht : t.tracked? (stackItem? s.height depth) = some cells) (hu : u ∈ readTokens ev i p s) :
    ¬ ∃ v ∈ readTokens ev i p (s.join t), u.CoveredBy v := by
  rintro ⟨v, hv, hcovered⟩
  have hjoin : (s.join t).fromTop? depth = some cells := by
    rw [MemoryState.fromTop?_join, hs, ht]
    rfl
  rw [readTokens_of_untracked h hs] at hu
  rw [readTokens_of_tracked h hjoin] at hv
  obtain ⟨r, -, rfl⟩ := List.mem_map.1 hu
  obtain ⟨c, -, rfl⟩ := List.mem_map.1 hv
  exact Token.not_region_coveredBy_cell hcovered

/-- Executing an instruction enters its reads in the ledger. -/
theorem mem_reads_step {l : Ledger} {q : CodePoint} :
    u ∈ ((domain ev).step i p s l).2.reads.atPoint q ↔
      u ∈ l.reads.atPoint q ∨ q = p ∧ u ∈ readTokens ev i p s := by
  have haccess : .read u ∈ accesses ev i p s ↔ u ∈ readTokens ev i p s := by
    rw [accesses]
    split <;> simp
  change u ∈ (l.noteAll p (accesses ev i p s)).reads.atPoint q ↔ _
  rw [Ledger.mem_reads_noteAll, haccess]

/-- The reads that executing an instruction enters in an empty ledger. -/
def recordedReads (ev : Evidence) (i : Instruction) (p : CodePoint) (s : MemoryState) :
    OrdSet Token := ((domain ev).step i p s ∅).2.reads.atPoint p

theorem mem_recordedReads : u ∈ recordedReads ev i p s ↔ u ∈ readTokens ev i p s := by
  have hempty : ¬ u ∈ (∅ : Ledger).reads.atPoint p := OrdSet.not_mem_empty u
  rw [recordedReads, mem_reads_step, or_iff_right hempty, and_iff_right rfl]

/-- **When merging loses no read.** Every read that an instruction records from one side is covered
by one that it records from the merged state exactly if it records none, or it is not the case that
only the other side tracks the operand. -/
theorem reads_covered_join_iff (ev : Evidence) (i : Instruction) (p : CodePoint)
    (s t : MemoryState) :
    (∀ u ∈ recordedReads ev i p s, ∃ v ∈ recordedReads ev i p (s.join t), u.CoveredBy v) ↔
      (∀ u, ¬ u ∈ recordedReads ev i p s) ∨
        ∀ depth, source? i = some depth →
          (t.tracked? (stackItem? s.height depth)).isSome = true →
            (s.fromTop? depth).isSome = true := by
  simp only [mem_recordedReads]
  cases h : source? i with
  | none =>
    refine iff_of_true (fun u hu => ⟨u, ?_, Token.coveredBy_refl u⟩) (Or.inr nofun)
    rwa [readTokens_of_source?_eq_none h (s.join t) s]
  | some depth =>
    cases hs : s.fromTop? depth with
    | some cells =>
      refine iff_of_true (fun u hu => covered_of_tracked h hs hu) (Or.inr fun d hd _ => ?_)
      rw [← Option.some.inj hd, hs]
      rfl
    | none =>
      cases ht : t.tracked? (stackItem? s.height depth) with
      | none =>
        refine iff_of_true (fun u hu => ⟨u, ?_, Token.coveredBy_refl u⟩) (Or.inr ?_)
        · rwa [readTokens_join_of_untracked h hs ht]
        · intro d hd htrack
          rw [← Option.some.inj hd, ht] at htrack
          cases htrack
      | some cells =>
        constructor
        · intro hall
          exact Or.inl fun u hu => not_covered_of_untracked h hs ht hu (hall u hu)
        · rintro (hnone | htracked) u hu
          · exact absurd hu (hnone u)
          · have htrack := htracked depth rfl (by rw [ht]; rfl)
            rw [hs] at htrack
            cases htrack

/-- A stack with one item that is not known to be an address. -/
def plainItem : MemoryState := ⟨1, ∅, ∅⟩

/-- A stack with one item, the address of an allocation. -/
def addressItem : MemoryState :=
  ⟨1, (∅ : OrdMap Nat CellSet).insert 0 (.singleton ⟨⟨0⟩, .exact 0⟩), ∅⟩

/-- Nothing is known from earlier analyses. -/
def noEvidence : Evidence := ⟨⟨∅, [], 0⟩, ⟨∅, [], 0⟩⟩

/-- Through an item of which nothing is known a load may read anything. After a merge with a stack
that has an address there, it reads the allocation only. -/
theorem lost_read_of_load :
    let load : Instruction := ⟨.mload, none⟩
    let p : CodePoint := ⟨⟨20, none⟩, 0⟩
    plainItem.height = addressItem.height ∧
      (recordedReads noEvidence load p plainItem).toList = [.region .unknown] ∧
      (recordedReads noEvidence load p (plainItem.join addressItem)).toList =
        [.cell ⟨⟨0⟩, .exact 0⟩] ∧
      ¬ ∀ u ∈ recordedReads noEvidence load p plainItem,
        ∃ v ∈ recordedReads noEvidence load p (plainItem.join addressItem), u.CoveredBy v := by
  refine ⟨rfl, rfl, rfl, fun hall => ?_⟩
  rcases (reads_covered_join_iff ..).1 hall with hnone | htracked
  · exact hnone (.region .unknown) List.mem_cons_self
  · have htrack := htracked 0 rfl rfl
    cases htrack

end Memory

end EvmAccess
