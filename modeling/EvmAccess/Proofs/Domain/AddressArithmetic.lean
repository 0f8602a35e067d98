import EvmAccess.Proofs.Domain.MemoryReads
import EvmAccess.Proofs.Evm.Opcode

/-!
# Address arithmetic

Arithmetic on addresses moves them inside their allocations, at worst to anywhere inside. So the
result may point into the allocations of its operands, and into no others. Masks and scalings gather
the allocations of both operands. An addition takes one operand for the address and the other one
for a number, and if both are tracked it takes the lower one for the address: then the allocations
that only the upper one points into are lost.

Both operands can be tracked without being two addresses. After a merge a position may hold an
address on one path and a number on the other, and the next position the other way round.

## Main results

- `CellSet.pointsInto_shift`: shifting keeps the allocations, and adds none.
- `Memory.get?_next_of_add`, `Memory.get?_next_of_scales`: what stands in the place of the operands.
- `Memory.arithmetic_keeps_iff`: which allocations the result points into.
-/

namespace EvmAccess

/-! ### Allocations that addresses point into -/

namespace CellSet

variable {s t : CellSet} {slot : Slot}

/-- Some cell of the set belongs to the allocation. -/
def PointsInto (s : CellSet) (slot : Slot) : Prop := ∃ c ∈ s, c.slot = slot

theorem pointsInto_empty : ¬ PointsInto ∅ slot := fun ⟨c, hc, _⟩ => OrdSet.not_mem_empty c hc

theorem pointsInto_union : (s ∪ t).PointsInto slot ↔ s.PointsInto slot ∨ t.PointsInto slot := by
  simp only [PointsInto, OrdSet.mem_union, or_and_right, exists_or]

/-- Of an allocation whose cells are dropped the whole stays. -/
theorem pointsInto_clean : s.clean.PointsInto slot ↔ s.PointsInto slot := by
  constructor
  · rintro ⟨c, hc, hslot⟩
    exact ⟨c, (mem_clean.1 hc).1, hslot⟩
  · rintro ⟨c, hc, rfl⟩
    by_cases hwhole : Cell.whole c.slot ∈ s
    · exact ⟨.whole c.slot, mem_clean.2 ⟨hwhole, Or.inl rfl⟩, rfl⟩
    · exact ⟨c, mem_clean.2 ⟨hc, Or.inr hwhole⟩, rfl⟩

/-- **Shifting keeps the allocations, and adds none.** There is always an offset to shift by. -/
theorem pointsInto_shift (offsets : OffsetSet) :
    (s.shift offsets).PointsInto slot ↔ s.PointsInto slot := by
  rw [shift, pointsInto_clean]
  constructor
  · rintro ⟨c, hc, rfl⟩
    obtain ⟨d, hd, hc⟩ := List.mem_flatMap.1 (OrdSet.mem_ofList.1 hc)
    obtain ⟨o, -, rfl⟩ := List.mem_map.1 hc
    exact ⟨d, hd, rfl⟩
  · rintro ⟨c, hc, rfl⟩
    obtain ⟨o, ho⟩ := OrdSet.exists_mem_of_isEmpty_eq_false offsets.nonempty
    refine ⟨c.shift o shiftBound, OrdSet.mem_ofList.2 ?_, rfl⟩
    exact List.mem_flatMap.2 ⟨c, hc, List.mem_map.2 ⟨o, ho, rfl⟩⟩

end CellSet

/-- The addresses at a position of the stack point into the allocation. -/
def MemoryState.PointsInto (s : MemoryState) (position : Nat) (slot : Slot) : Prop :=
  ∃ cells, s.stack.get? position = some cells ∧ cells.PointsInto slot

/-! ### The place of the operands -/

/-- Whether the opcode masks or scales its operands. -/
def Opcode.scales : Opcode → Bool
  | .mul | .div | .and | .or | .exp | .shl | .shr => true
  | _ => false

namespace Memory

variable {ev : Evidence} {i : Instruction} {p : CodePoint} {s : MemoryState} {slot : Slot}

/-- An opcode with two operands and one result puts the result in the place of the lower
operand. -/
theorem get?_next_of_binary (heffect : i.opcode.stackEffect = (2, 1)) (h : 2 ≤ s.height) :
    (next ev i p s).stack.get? (s.height - 2) = (nextStack ev i p s).get? (s.height - 2) := by
  have hheight : i.opcode.heightAfter s.height = s.height - 1 := by
    simp only [Opcode.heightAfter, Opcode.pushes, Opcode.pops, heffect]
    omega
  have hlt : s.height - 2 < s.height - 1 := by omega
  rw [next, OrdMap.get?_filter_key, hheight, if_pos (decide_eq_true hlt)]

/-- The operands of such an opcode are consumed. -/
theorem get?_kept_of_binary (heffect : i.opcode.stackEffect = (2, 1)) (h : 2 ≤ s.height) :
    (kept i.opcode s).get? (s.height - 2) = none := by
  have hbase : i.opcode.base s.height = s.height - 2 := by
    rw [Opcode.base, Opcode.pops, heffect]
  have hlt : s.height - 2 < s.height := by omega
  unfold kept
  split
  · rename_i below hopcode
    rw [hopcode] at heffect
    simp only [Opcode.stackEffect, Prod.mk.injEq] at heffect
    omega
  · rename_i below hopcode
    rw [hopcode] at heffect
    simp only [Opcode.stackEffect, Prod.mk.injEq] at heffect
    omega
  · rw [OrdMap.get?_filter_key, hbase, if_neg (by simp [hlt])]

/-- An addition shifts the lower operand by the constants of the upper one, or else the upper
operand by those of the lower one. -/
theorem get?_next_of_add (hi : i.opcode = .add) (h : 2 ≤ s.height) :
    (next ev i p s).stack.get? (s.height - 2) =
      ((s.stack.get? (s.height - 2)).map fun cells =>
        cells.shift ((ev.constants? p (some (s.height - 1))).getD .top)).or
      ((s.stack.get? (s.height - 1)).map fun cells =>
        cells.shift ((ev.constants? p (some (s.height - 2))).getD .top)) := by
  have heffect : i.opcode.stackEffect = (2, 1) := by rw [hi, Opcode.stackEffect]
  have hkept := get?_kept_of_binary heffect h
  have hupper : stackItem? s.height 0 = some (s.height - 1) := stackItem?_eq_some_iff.2 (by omega)
  have hlower : stackItem? s.height 1 = some (s.height - 2) := stackItem?_eq_some_iff.2 (by omega)
  rw [hi] at hkept
  simp only [get?_next_of_binary heffect h, nextStack, hi, MemoryState.fromTop?,
    MemoryState.tracked?, hupper, hlower, Option.bind_some]
  cases s.stack.get? (s.height - 1) <;> cases s.stack.get? (s.height - 2) <;>
    simp [OrdMap.get?_insert, hkept]

/-- A mask or a scaling leads anywhere inside the allocations of both operands. -/
theorem get?_next_of_scales (hi : i.opcode.scales = true) (h : 2 ≤ s.height) {cells : CellSet}
    (hcells : (s.stack.get? (s.height - 1)).getD ∅ ∪ (s.stack.get? (s.height - 2)).getD ∅ = cells) :
    (next ev i p s).stack.get? (s.height - 2) =
      if cells.isEmpty then none else some (cells.shift .top) := by
  have heffect : i.opcode.stackEffect = (2, 1) := by
    cases hopcode : i.opcode <;> simp_all [Opcode.scales, Opcode.stackEffect]
  have hkept := get?_kept_of_binary heffect h
  have hupper : stackItem? s.height 0 = some (s.height - 1) := stackItem?_eq_some_iff.2 (by omega)
  have hlower : stackItem? s.height 1 = some (s.height - 2) := stackItem?_eq_some_iff.2 (by omega)
  rw [get?_next_of_binary heffect h]
  cases hopcode : i.opcode with
  | mul | div | and | or | exp | shl | shr =>
    rw [hopcode] at hkept
    simp only [nextStack, hopcode, MemoryState.fromTop?, MemoryState.tracked?, hupper, hlower,
      Option.bind_some, hcells]
    split
    · exact hkept
    · exact OrdMap.get?_insert.trans (if_pos rfl)
  | _ =>
    rw [hopcode] at hi
    cases hi

/-! ### Allocations of the result -/

/-- The result of an addition points into the allocations of its lower operand, or else into those
of the upper one. -/
theorem pointsInto_next_of_add (hi : i.opcode = .add) (h : 2 ≤ s.height) :
    (next ev i p s).PointsInto (s.height - 2) slot ↔
      s.PointsInto (s.height - 2) slot ∨
        s.PointsInto (s.height - 1) slot ∧ s.stack.get? (s.height - 2) = none := by
  rw [MemoryState.PointsInto, get?_next_of_add hi h, MemoryState.PointsInto,
    MemoryState.PointsInto]
  cases s.stack.get? (s.height - 2) <;> cases s.stack.get? (s.height - 1) <;>
    simp [CellSet.pointsInto_shift]

/-- The result of a mask or a scaling points into the allocations of both operands. -/
theorem pointsInto_next_of_scales (hi : i.opcode.scales = true) (h : 2 ≤ s.height) :
    (next ev i p s).PointsInto (s.height - 2) slot ↔
      s.PointsInto (s.height - 2) slot ∨ s.PointsInto (s.height - 1) slot := by
  have hoperand : ∀ position, s.PointsInto position slot ↔
      ((s.stack.get? position).getD ∅).PointsInto slot := by
    intro position
    rw [MemoryState.PointsInto]
    cases s.stack.get? position <;> simp [CellSet.pointsInto_empty]
  rw [hoperand, hoperand, or_comm, ← CellSet.pointsInto_union, MemoryState.PointsInto,
    get?_next_of_scales hi h rfl]
  split
  · rename_i hempty
    refine iff_of_false (fun ⟨_, hnone, _⟩ => nomatch hnone) fun ⟨c, hc, _⟩ => ?_
    exact OrdSet.isEmpty_iff.1 hempty c hc
  · constructor
    · rintro ⟨cells, hcells, hslot⟩
      obtain rfl := Option.some.inj hcells
      exact (CellSet.pointsInto_shift _).1 hslot
    · intro hslot
      exact ⟨_, rfl, (CellSet.pointsInto_shift _).2 hslot⟩

/-- The two cases in one: only an addition may pass over its upper operand. -/
theorem pointsInto_next (hi : i.opcode = .add ∨ i.opcode.scales = true) (h : 2 ≤ s.height) :
    (next ev i p s).PointsInto (s.height - 2) slot ↔
      s.PointsInto (s.height - 2) slot ∨ s.PointsInto (s.height - 1) slot ∧
        (i.opcode = .add → s.stack.get? (s.height - 2) = none) := by
  rcases hi with hi | hi
  · rw [pointsInto_next_of_add hi h]
    simp [hi]
  · rw [pointsInto_next_of_scales hi h]
    have hadd : i.opcode ≠ .add := fun hadd => by simp [hadd, Opcode.scales] at hi
    simp [hadd]

/-- **Which allocations address arithmetic keeps.** The result points into the allocations of the
lower operand, and into those of the upper one unless the instruction is an addition and the lower
operand is tracked too. So nothing is lost exactly if, in the latter case, the lower operand points
into all the allocations of the upper one. -/
theorem arithmetic_keeps_iff (ev : Evidence) (p : CodePoint) (l : Ledger)
    (hi : i.opcode = .add ∨ i.opcode.scales = true) (h : 2 ≤ s.height) :
    (∀ slot, ((domain ev).step i p s l).1.PointsInto (s.height - 2) slot ↔
      s.PointsInto (s.height - 2) slot ∨ s.PointsInto (s.height - 1) slot ∧
        (i.opcode = .add → s.stack.get? (s.height - 2) = none)) ∧
    ((∀ slot, s.PointsInto (s.height - 2) slot ∨ s.PointsInto (s.height - 1) slot →
        ((domain ev).step i p s l).1.PointsInto (s.height - 2) slot) ↔
      (i.opcode = .add → (s.stack.get? (s.height - 2)).isSome = true →
        ∀ slot, s.PointsInto (s.height - 1) slot → s.PointsInto (s.height - 2) slot)) := by
  refine ⟨fun slot => pointsInto_next hi h, ?_, ?_⟩
  · intro hall hadd htracked slot hupper
    refine ((pointsInto_next hi h).1 (hall slot (Or.inr hupper))).resolve_right fun hpassed => ?_
    rw [hpassed.2 hadd] at htracked
    cases htracked
  · intro hcovered slot hoperand
    rcases hoperand with hlower | hupper
    · exact (pointsInto_next hi h).2 (Or.inl hlower)
    · by_cases hboth : i.opcode = .add ∧ (s.stack.get? (s.height - 2)).isSome = true
      · exact (pointsInto_next hi h).2 (Or.inl (hcovered hboth.1 hboth.2 slot hupper))
      · refine (pointsInto_next hi h).2 (Or.inr ⟨hupper, fun hadd => ?_⟩)
        exact Option.not_isSome_iff_eq_none.1 fun htracked => hboth ⟨hadd, htracked⟩

/-- A stack as it is after a merge of two paths: each position holds an address on one of them and a
number on the other, and the addresses belong to different allocations. -/
def crossing : MemoryState :=
  ⟨2, ((∅ : OrdMap Nat CellSet).insert 0 (.singleton ⟨⟨0⟩, .exact 0⟩)).insert 1
    (.singleton ⟨⟨1⟩, .exact 0⟩), ∅⟩

/-- The sum of the two positions is an address on either path. It is taken to point into the
allocation of the first path only. -/
theorem lost_allocation_of_add :
    crossing.PointsInto 1 ⟨1⟩ ∧
      ¬ ((domain noEvidence).step ⟨.add, none⟩ ⟨⟨40, none⟩, 1⟩ crossing ∅).1.PointsInto 0 ⟨1⟩ ∧
      ¬ ∀ slot, crossing.PointsInto 0 slot ∨ crossing.PointsInto 1 slot →
        ((domain noEvidence).step ⟨.add, none⟩ ⟨⟨40, none⟩, 1⟩ crossing ∅).1.PointsInto 0 slot := by
  obtain ⟨hresult, hkeeps⟩ := arithmetic_keeps_iff (i := ⟨.add, none⟩) (s := crossing) noEvidence
    ⟨⟨40, none⟩, 1⟩ ∅ (Or.inl rfl) (by decide)
  have hupper : crossing.PointsInto 1 ⟨1⟩ :=
    ⟨_, rfl, ⟨⟨1⟩, .exact 0⟩, OrdSet.mem_singleton.2 rfl, rfl⟩
  have hlower : ¬ crossing.PointsInto 0 ⟨1⟩ := by
    rintro ⟨cells, hcells, c, hc, hslot⟩
    obtain rfl := Option.some.inj hcells
    rw [OrdSet.mem_singleton.1 hc] at hslot
    cases hslot
  refine ⟨hupper, fun h => ?_, fun hall => hlower (hkeeps.1 hall rfl rfl ⟨1⟩ hupper)⟩
  rcases (hresult ⟨1⟩).1 h with h | ⟨-, hnone⟩
  · exact hlower h
  · cases hnone rfl

end Memory

end EvmAccess
