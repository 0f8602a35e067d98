import EvmAccess.Proofs.Domain.MemoryOrder
import EvmAccess.Proofs.Domain.SlotBound
import EvmAccess.Proofs.Evm.Opcode

/-!
# The domain of memory addresses is bounded

Addresses are cells of the allocations that were found, and inside an allocation only seven offsets
occur: shifts go in words up to the bound, and everything else is beyond it or anything. So there
are at most seven cells for each point of the program. The landmarks of a state are the cells that
are covered at each position of the stack, and in the entry of abstract memory that counts for each
cell.

## Main results

- `AbstractMemory.landmarks`: landmarks of abstract memory, in terms of the entries that count.
- `Memory.made_nextStack`: where the addresses on the stack come from.
- `Memory.InCells.next`: an instruction leads to no other cells.
- `Memory.bounded`: the engine ends on the domain.
-/

namespace EvmAccess

open JoinOrder

/-! ### Cells -/

namespace Cell

/-- The offsets that occur inside an allocation. -/
def offsets : List Offset :=
  [.exact 0, .exact 32, .exact 64, .exact 96, .exact 128, .beyond, .any]

/-- The cells of the first `n` allocations. -/
def upTo (n : Nat) : List Cell :=
  (Slot.upTo n).flatMap fun slot => offsets.map fun offset => ⟨slot, offset⟩

theorem length_upTo (n : Nat) : (upTo n).length = 7 * n := by
  have hseven : ∀ slots : List Slot,
      (slots.flatMap fun slot => offsets.map (Cell.mk slot)).length = 7 * slots.length := by
    intro slots
    induction slots with
    | nil => rfl
    | cons slot slots ih =>
      rw [List.flatMap_cons, List.length_append, ih, List.length_map, List.length_cons, offsets]
      simp only [List.length_cons, List.length_nil]
      omega
  rw [upTo, hseven, Slot.upTo, List.length_map, List.length_range]

theorem mem_upTo {n : Nat} {c : Cell} :
    c ∈ upTo n ↔ c.slot ∈ Slot.upTo n ∧ c.offset ∈ offsets := by
  obtain ⟨slot, offset⟩ := c
  simp [upTo]

/-- Shifting leads to one of the offsets. -/
theorem shiftOffset_mem (a b : Offset) : shiftOffset CellSet.shiftBound a b ∈ offsets := by
  cases a with
  | any => simp [shiftOffset, offsets]
  | beyond => cases b <;> simp [shiftOffset, offsets]
  | exact u =>
    cases b with
    | any | beyond => simp [shiftOffset, offsets]
    | exact v =>
      have hbound : CellSet.shiftBound = 128 := rfl
      rw [shiftOffset]
      split
      · simp [offsets]
      · split
        · simp [offsets]
        · simp only [offsets, List.mem_cons, Offset.exact.injEq, reduceCtorEq, List.not_mem_nil,
            or_false]
          omega

end Cell

namespace CellSet

variable {s t : CellSet} {c : Cell} {n : Nat}

theorem exists_of_leq_eq_false (h : s.leq t = false) : ∃ c ∈ s, t.covers c = false := by
  obtain ⟨c, hc, hnot⟩ := List.all_eq_false.1 h
  exact ⟨c, hc, Bool.eq_false_iff.2 hnot⟩

/-- All cells belong to the first `n` allocations. -/
def InCells (n : Nat) (s : CellSet) : Prop := ∀ c ∈ s, c ∈ Cell.upTo n

theorem inCells_empty : InCells n ∅ := fun c hc => absurd hc (OrdSet.not_mem_empty c)

theorem InCells.union (hs : InCells n s) (ht : InCells n t) : InCells n (s ∪ t) := fun c hc =>
  (OrdSet.mem_union.1 hc).elim (hs c) (ht c)

theorem InCells.clean (hs : InCells n s) : InCells n s.clean := fun c hc =>
  hs c (mem_clean.1 hc).1

theorem InCells.shift (hs : InCells n s) (offsets : OffsetSet) : InCells n (s.shift offsets) := by
  refine InCells.clean fun c hc => ?_
  obtain ⟨d, hd, hc⟩ := List.mem_flatMap.1 (OrdSet.mem_ofList.1 hc)
  obtain ⟨o, -, rfl⟩ := List.mem_map.1 hc
  exact Cell.mem_upTo.2 ⟨(Cell.mem_upTo.1 (hs d hd)).1, Cell.shiftOffset_mem _ _⟩

theorem inCells_getD {s? : Option CellSet} (h : ∀ s, s? = some s → InCells n s) :
    InCells n (s?.getD ∅) := by
  cases s? with
  | none => exact inCells_empty
  | some s => exact h s rfl

/-- The landmarks of a set are the cells that it covers. -/
def landmarks (n : Nat) : order.Landmarks (InCells n) Cell :=
  .ofMembers (Cell.upTo n) (fun s c => c ∈ s) covers (fun _ _ h => leq_iff.2 h)
    (fun _ _ hc => covers_of_mem hc)
    (fun s t c h => by
      refine covers_clean (h.elim (covers_mono fun d hd => ?_) (covers_mono fun d hd => ?_))
      · exact OrdSet.mem_union.2 (Or.inl hd)
      · exact OrdSet.mem_union.2 (Or.inr hd))
    (fun _ _ hs ht => (InCells.union hs ht).clean)

end CellSet

/-! ### Abstract memory -/

namespace AbstractMemory

variable {m : AbstractMemory} {a : Cell} {addresses values : CellSet} {n : Nat}

/-- All cells, addresses as well as content, belong to the first `n` allocations. -/
def InCells (n : Nat) (m : AbstractMemory) : Prop := Within (Cell.upTo n) (CellSet.InCells n) m

/-- A store of such values to such an address leads to no other cells. -/
theorem InCells.storeAt (h : InCells n m) (ha : a ∈ Cell.upTo n)
    (hvalues : CellSet.InCells n values) : InCells n (m.storeAt a values) := by
  intro c content hc
  rcases of_get?_storeAt hc with hold | ⟨hkey, -, hcontent⟩
  · exact h c content hold
  · refine ⟨?_, fun d hd => ?_⟩
    · rcases hkey with rfl | ⟨-, old, hold⟩
      · exact ha
      · exact (h c old hold).1
    · rcases hcontent d hd with hd | ⟨c', old, -, hold, hd⟩
      · exact hvalues d hd
      · exact (h c' old hold).2 d hd

theorem InCells.store (h : InCells n m) (haddr : CellSet.InCells n addresses)
    (hvalues : CellSet.InCells n values) : InCells n (m.store addresses values) :=
  List.foldlRecOn addresses.toList _ h fun _ hm a ha => hm.storeAt (haddr a ha) hvalues

theorem InCells.join {m' : AbstractMemory} (h : InCells n m) (h' : InCells n m') :
    InCells n (m.join m') :=
  List.foldlRecOn m'.toList _ h fun _ hm e he =>
    hm.storeAt (h' e.1 e.2 (OrdMap.get?_eq_some_iff.2 he)).1
      (h' e.1 e.2 (OrdMap.get?_eq_some_iff.2 he)).2

/-- What is loaded was stored. -/
theorem InCells.load (h : InCells n m) (addresses : CellSet) :
    CellSet.InCells n (m.load addresses) := by
  intro d hd
  obtain ⟨-, -, c, content, -, hc, hd⟩ := mem_load.1 hd
  exact (h c content hc).2 d hd

/-- A memory that is not covered has an entry that is not: there is no entry that counts for its
address, or that entry does not cover some value. -/
theorem exists_of_leq_eq_false {m' : AbstractMemory} (h : m'.leq m = false) :
    ∃ c content, m'.get? c = some content ∧
      ∀ old, m.at? c = some old → ∃ d ∈ content, old.covers d = false := by
  obtain ⟨⟨c, content⟩, he, hnot⟩ := List.all_eq_false.1 h
  rw [Bool.not_eq_true, Bool.or_eq_false_iff] at hnot
  obtain ⟨hown, hwhole⟩ := hnot
  refine ⟨c, content, OrdMap.get?_eq_some_iff.2 he, fun old hold => ?_⟩
  apply CellSet.exists_of_leq_eq_false
  rcases Option.or_eq_some_iff.1 hold with hc | ⟨hc, hold⟩
  · simpa only [coversAt, hc] using hown
  · have hany : c.offset ≠ .any := fun hany => by
      rw [whole_of_offset_any hany, hc] at hold
      cases hold
    simpa only [coversAt, hold, hany, ne_eq, not_false_eq_true, decide_true,
      Bool.true_and] using hwhole

/-- The landmarks of abstract memory: that some entry counts for a cell, and what it covers. -/
def landmarks (n : Nat) : order.Landmarks (InCells n) (Cell × Option Cell) where
  marks := keyed (Cell.upTo n) (Cell.upTo n)
  passed m
    | (c, none) => (m.at? c).isSome
    | (c, some d) => (m.at? c).any fun content => content.covers d
  closed h h' := h.join h'
  kept {m m' mark} _ _ h := by
    obtain ⟨c, d?⟩ := mark
    cases hold : m.at? c with
    | none => cases d? <;> simp [hold] at h
    | some old =>
      obtain ⟨new, hnew, hsub⟩ := grown_join (n := m') c old hold
      change (m.join m').at? c = some new at hnew
      cases d? with
      | none => simp [order, hnew]
      | some d =>
        simp only [hold, Option.any_some] at h
        simp only [order, hnew, Option.any_some]
        exact CellSet.covers_mono hsub h
  gained {m m'} _ hm' h := by
    obtain ⟨c, content, hc, hmiss⟩ := exists_of_leq_eq_false h
    obtain ⟨new, hnew, hsub⟩ := holds_join (m := m) hc
    obtain ⟨hkey, hcontent⟩ := hm' c content hc
    cases hold : m.at? c with
    | none =>
      refine ⟨(c, none), mem_keyed hkey nofun, by simp [hold], ?_⟩
      simp [order, hnew]
    | some old =>
      obtain ⟨d, hd, hnot⟩ := hmiss old hold
      refine ⟨(c, some d), mem_keyed hkey ?_, by simp [hold, hnot], ?_⟩
      · rintro _ ⟨⟩
        exact hcontent d hd
      · simp only [order, hnew, Option.any_some]
        exact CellSet.covers_of_mem (hsub d hd)

end AbstractMemory

/-! ### States -/

namespace Memory

variable {n k : Nat} {ev : Evidence} {s : MemoryState} {i : Instruction} {p : CodePoint}

/-- Only the first `k` positions are listed, and only cells of the first `n` allocations occur. -/
def InCells (k n : Nat) (s : MemoryState) : Prop :=
  Within (List.range k) (CellSet.InCells n) s.stack ∧ s.memory.InCells n

/-- The allocations that are known belong to the first `n`. -/
def Evidence.InCells (n : Nat) (ev : Evidence) : Prop :=
  ev.slots.Recorded fun s => ∀ p slots, s.slots.get? p = some slots →
    ∀ slot ∈ slots, slot ∈ Slot.upTo n

theorem InCells.fromTop (h : InCells k n s) {depth : Nat} {cells : CellSet}
    (hcells : s.fromTop? depth = some cells) : CellSet.InCells n cells := by
  obtain ⟨q, -, hcells⟩ := Option.bind_eq_some_iff.1 hcells
  exact (h.1 q cells hcells).2

theorem Evidence.InCells.freshCells (h : ev.InCells n) (p : CodePoint) :
    CellSet.InCells n (ev.freshCells p) := by
  intro c hc
  obtain ⟨slot, hslot, rfl⟩ := OrdSet.mem_map.1 hc
  refine Cell.mem_upTo.2 ⟨?_, by simp [Cell.offsets]⟩
  cases hslots : ev.slotsAt? p with
  | none => simp [hslots] at hslot
  | some slots =>
    rw [hslots, Option.getD_some] at hslot
    rw [slotsAt?] at hslots
    split at hslots
    · cases hslots
    · rename_i s hs
      obtain ⟨b, f, hf, hmem⟩ := Run.mem_of_stateAt hs
      exact (h b f hf).2 s hmem p slots hslots slot hslot

/-- How a set of addresses gets onto the stack. It was there before, at the same position or at
another one; it is what a load yields, if that is anything; or it is made by arithmetic, from one
operand or from the addresses of two operands. -/
inductive Made (ev : Evidence) (p : CodePoint) (s : MemoryState) : CellSet → Prop
  | stood {q : Nat} {cells : CellSet} : s.stack.get? q = some cells → Made ev p s cells
  | fresh {c : Cell} : c ∈ ev.freshCells p → Made ev p s (ev.freshCells p)
  | loaded {addresses : CellSet} {c : Cell} : c ∈ s.memory.load addresses →
      Made ev p s (s.memory.load addresses)
  | shifted {q : Nat} {cells : CellSet} (offsets : OffsetSet) : s.stack.get? q = some cells →
      Made ev p s (cells.shift offsets)
  | mixed {c : Cell} (depth depth' : Nat) (offsets : OffsetSet) :
      c ∈ (s.fromTop? depth).getD ∅ ∪ (s.fromTop? depth').getD ∅ →
      Made ev p s (((s.fromTop? depth).getD ∅ ∪ (s.fromTop? depth').getD ∅).shift offsets)

/-- **What an instruction leaves on the stack** was made in one of these ways. -/
theorem made_nextStack (ev : Evidence) (i : Instruction) (p : CodePoint) (s : MemoryState) :
    (nextStack ev i p s).Every fun _ cells => Made ev p s cells := by
  have hstack : s.stack.Every fun _ cells => Made ev p s cells := fun _ _ h => .stood h
  have hkept : (kept i.opcode s).Every fun _ cells => Made ev p s cells := by
    unfold kept
    split
    · exact hstack
    · exact hstack
    · exact fun q cells hcells => (hstack.filter q cells hcells).1
  have hput : ∀ {position} {new : CellSet}, (∀ c ∈ new, Made ev p s new) →
      (put (kept i.opcode s) position new).Every fun _ cells => Made ev p s cells := by
    intro position new hnew
    unfold put
    split
    · split
      · exact hkept
      · rename_i hne
        obtain ⟨c, hc⟩ := OrdSet.exists_mem_of_isEmpty_eq_false (Bool.eq_false_iff.2 hne)
        exact hkept.insert (hnew c hc)
    · exact hkept
  have hshift : ∀ {depth} {cells : CellSet} (offsets : OffsetSet), s.fromTop? depth = some cells →
      Made ev p s (cells.shift offsets) := by
    intro depth cells offsets h
    obtain ⟨q, -, hq⟩ := Option.bind_eq_some_iff.1 h
    exact .shifted offsets hq
  simp only [nextStack]
  split
  -- Loads.
  · split
    · exact hput fun _ hc => .fresh hc
    · exact hput fun _ hc => .loaded hc
  -- Copies and exchanges.
  · split
    · rename_i new hnew
      obtain ⟨q, -, hq⟩ := Option.bind_eq_some_iff.1 hnew
      exact hkept.insert (.stood hq)
    · exact hkept
  · split
    · exact (hkept.assign (hstack _)).assign (hstack _)
    · exact hkept
  -- Additions and subtractions.
  · split
    · exact hkept
    · split
      · rename_i new _ hnew
        exact hkept.insert (hshift _ hnew)
      · rename_i new hnew _
        exact hkept.insert (hshift _ hnew)
      · exact hkept
  · split
    · rename_i new _ hnew _ _
      exact hkept.insert (hshift _ hnew)
    · exact hkept
  case h_13 => exact hkept
  -- The other arithmetic.
  all_goals
    split
    · exact hkept
    · split
      · exact hkept
      · rename_i hne
        obtain ⟨c, hc⟩ := OrdSet.exists_mem_of_isEmpty_eq_false (Bool.eq_false_iff.2 hne)
        exact hkept.insert (.mixed 0 1 _ hc)

/-- What an instruction puts on the stack are such cells. -/
theorem InCells.made (h : InCells k n s) (hev : ev.InCells n) {cells : CellSet}
    (hmade : Made ev p s cells) : CellSet.InCells n cells := by
  have htop : ∀ depth, CellSet.InCells n ((s.fromTop? depth).getD ∅) := fun depth =>
    CellSet.inCells_getD fun _ hc => h.fromTop hc
  cases hmade with
  | stood hq => exact (h.1 _ _ hq).2
  | fresh _ => exact hev.freshCells p
  | loaded _ => exact h.2.load _
  | shifted offsets hq => exact (h.1 _ _ hq).2.shift offsets
  | mixed depth depth' offsets _ => exact ((htop depth).union (htop depth')).shift offsets

/-- What an instruction leaves in memory are such cells. -/
theorem InCells.nextMemory (h : InCells k n s) : (nextMemory i s).InCells n := by
  rw [Memory.nextMemory]
  split
  · split
    · rename_i addresses values haddr hvalues
      exact h.2.store (h.fromTop haddr) (h.fromTop hvalues)
    · exact h.2
  · exact h.2

/-- An instruction leads to no other cells, as long as there is room on the stack. -/
theorem InCells.next (h : InCells k n s) (hev : ev.InCells n) (hroom : s.height < k) :
    InCells k n (next ev i p s) := by
  refine ⟨fun q cells hcells => ?_, h.nextMemory⟩
  have hheight := i.opcode.heightAfter_le s.height
  obtain ⟨hmade, hq⟩ := (made_nextStack ev i p s).filter q cells hcells
  exact ⟨List.mem_range.2 (by simp only [decide_eq_true_eq] at hq; omega), h.made hev hmade⟩

theorem inCells_initial (k n : Nat) : InCells k n .initial :=
  ⟨OrdMap.every_empty, OrdMap.every_empty⟩

/-- The domain is bounded on every graph, if the allocations that are known are. -/
def bounded (g : Graph BlockId Instruction) (hev : ev.InCells g.points.length) :
    (domain ev).Bounded g ((Nat × Option Cell) ⊕ (Cell × Option Cell)) where
  Ok := InCells (g.total (·.ops.length)) g.points.length
  Ctx _ := True
  height := MemoryState.height
  landmarks := (((CellSet.landmarks _).pointwise _).prod (AbstractMemory.landmarks _)).of_embeds
    (embeds ev)
  height_join _ _ := rfl
  step _ _ hs _ hroom := ⟨hs.next hev hroom, trivial, Opcode.heightAfter_le _ _⟩

theorem length_marks (g : Graph BlockId Instruction) (hev : ev.InCells g.points.length) :
    (bounded g hev).landmarks.marks.length =
      g.points.length * (7 * g.points.length + 1) +
        7 * g.points.length * (7 * g.points.length + 1) := by
  change ((keyed (List.range (g.total (·.ops.length))) (Cell.upTo g.points.length)).map Sum.inl ++
    (keyed (Cell.upTo g.points.length) (Cell.upTo g.points.length)).map Sum.inr).length = _
  rw [List.length_append, List.length_map, List.length_map, length_keyed, length_keyed,
    Cell.length_upTo, List.length_range, g.length_points]

end Memory

end EvmAccess
