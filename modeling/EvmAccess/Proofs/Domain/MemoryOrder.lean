import EvmAccess.Domain.Memory
import EvmAccess.Proofs.Domain.AbstractMemory
import EvmAccess.Proofs.Flow.Order

/-!
# The order of the memory domain

A set of cells covers a cell if it has the cell or the whole allocation, and one set is below
another if the other covers its cells. Abstract memory is ordered by its entries: each one has to be
covered by the entry for the same cell or by that for the whole allocation. Both orders are
preorders, and joins are upper bounds.

Joins are also least, but only among *well formed* memories, in which an allocation with an entry
for the whole of it has no other entry. If both kinds of entries stood side by side, one of them
could cover what was there before and the other what is stored, and neither the union of the two.
Stores leave no such pair behind, so all states that the analysis builds are well formed.

## Main results

- `CellSet.semilattice_order`: sets of cells.
- `AbstractMemory.lawful_order`: abstract memory is a preorder with upper bounds.
- `AbstractMemory.WellFormed.storeAt`: stores keep memory well formed.
- `AbstractMemory.join_leq`: joins are least below well formed memories.
- `Memory.semilattice_wellFormed`: the well formed states are a semilattice.
-/

namespace EvmAccess

open JoinOrder

/-! ### Cells -/

namespace Cell

variable {a b c : Cell}

theorem leq_iff : a.leq b = true ↔ a.slot = b.slot ∧ (b.offset = .any ∨ a.offset = b.offset) := by
  simp [leq]

theorem leq_trans (hab : a.leq b = true) (hbc : b.leq c = true) : a.leq c = true := by
  obtain ⟨hslot, hoffset⟩ := leq_iff.1 hab
  obtain ⟨hslot', hoffset'⟩ := leq_iff.1 hbc
  refine leq_iff.2 ⟨hslot.trans hslot', ?_⟩
  rcases hoffset' with hany | heq
  · exact Or.inl hany
  · rw [← heq]
    exact hoffset

end Cell

namespace CellSet

variable {s t u : CellSet} {c : Cell}

/-- Whether some cell of the set covers the cell. -/
def covers (s : CellSet) (c : Cell) : Bool := s.any fun d => c.leq d

theorem covers_iff : s.covers c = true ↔ ∃ d ∈ s, c.leq d = true := OrdSet.any_iff

theorem covers_of_mem (h : c ∈ s) : s.covers c = true :=
  covers_iff.2 ⟨c, h, Cell.leq_iff.2 ⟨rfl, Or.inr rfl⟩⟩

theorem covers_mono (h : ∀ d ∈ s, d ∈ t) (hc : s.covers c = true) : t.covers c = true := by
  obtain ⟨d, hd, hle⟩ := covers_iff.1 hc
  exact covers_iff.2 ⟨d, h d hd, hle⟩

theorem leq_iff : s.leq t = true ↔ ∀ c ∈ s, t.covers c = true := OrdSet.all_iff

theorem leq_of_subset (h : ∀ c ∈ s, c ∈ t) : s.leq t = true :=
  leq_iff.2 fun c hc => covers_of_mem (h c hc)

/-- What a smaller set covers, a larger one covers. -/
theorem covers_of_leq (h : s.leq t = true) (hc : s.covers c = true) : t.covers c = true := by
  obtain ⟨d, hd, hle⟩ := covers_iff.1 hc
  obtain ⟨d', hd', hle'⟩ := covers_iff.1 (leq_iff.1 h d hd)
  exact covers_iff.2 ⟨d', hd', Cell.leq_trans hle hle'⟩

theorem union_leq (hs : s.leq u = true) (ht : t.leq u = true) : (s ∪ t).leq u = true := by
  refine leq_iff.2 fun c hc => ?_
  rcases OrdSet.mem_union.1 hc with hc | hc
  · exact leq_iff.1 hs c hc
  · exact leq_iff.1 ht c hc

theorem mem_clean : c ∈ s.clean ↔ c ∈ s ∧ (c.offset = .any ∨ ¬ Cell.whole c.slot ∈ s) := by
  rw [clean, OrdSet.mem_filter, decide_eq_true_eq]

/-- Dropping cells of which the whole allocation is there changes nothing about what is covered. -/
theorem covers_clean (h : s.covers c = true) : s.clean.covers c = true := by
  obtain ⟨d, hd, hle⟩ := covers_iff.1 h
  by_cases hwhole : Cell.whole d.slot ∈ s
  · refine covers_iff.2 ⟨.whole d.slot, mem_clean.2 ⟨hwhole, Or.inl rfl⟩, ?_⟩
    exact Cell.leq_iff.2 ⟨(Cell.leq_iff.1 hle).1, Or.inl rfl⟩
  · exact covers_iff.2 ⟨d, mem_clean.2 ⟨hd, Or.inr hwhole⟩, hle⟩

/-- Sets of cells, ordered by what they cover. -/
def order : JoinOrder CellSet := ⟨leq, join⟩

theorem semilattice_order : order.Semilattice where
  refl _ := leq_of_subset fun _ hc => hc
  trans hst htu := leq_iff.2 fun c hc => covers_of_leq htu (leq_iff.1 hst c hc)
  leq_join_left _ _ := leq_iff.2 fun _ hc =>
    covers_clean (covers_of_mem (OrdSet.mem_union.2 (Or.inl hc)))
  leq_join_right _ _ := leq_iff.2 fun _ hc =>
    covers_clean (covers_of_mem (OrdSet.mem_union.2 (Or.inr hc)))
  join_leq hs ht := leq_iff.2 fun c hc => leq_iff.1 (union_leq hs ht) c (mem_clean.1 hc).1

end CellSet

/-! ### Abstract memory -/

namespace AbstractMemory

variable {m n k : AbstractMemory} {a c : Cell} {values values' : CellSet}

/-- Abstract memories, ordered by their entries. -/
def order : JoinOrder AbstractMemory := ⟨leq, join⟩

/-- The entry for the cell, or that for its whole allocation, covers the values. -/
def Covers (m : AbstractMemory) (c : Cell) (values : CellSet) : Prop :=
  ∃ d content, (d = c ∨ d = .whole c.slot) ∧ m.get? d = some content ∧ values.leq content = true

theorem coversAt_iff : m.coversAt c values = true ↔
    ∃ content, m.get? c = some content ∧ values.leq content = true := by
  rw [coversAt]
  cases m.get? c <;> simp

theorem leq_iff : m.leq n = true ↔ ∀ c values, m.get? c = some values → n.Covers c values := by
  rw [leq, OrdMap.all_iff]
  refine forall_congr' fun c => forall_congr' fun values => forall_congr' fun _ => ?_
  simp only [Bool.or_eq_true, Bool.and_eq_true, decide_eq_true_eq, coversAt_iff]
  constructor
  · rintro (⟨content, hc, hle⟩ | ⟨-, content, hc, hle⟩)
    · exact ⟨c, content, Or.inl rfl, hc, hle⟩
    · exact ⟨.whole c.slot, content, Or.inr rfl, hc, hle⟩
  · rintro ⟨d, content, rfl | rfl, hd, hle⟩
    · exact Or.inl ⟨content, hd, hle⟩
    · by_cases hany : c.offset = .any
      · rw [whole_of_offset_any hany] at hd
        exact Or.inl ⟨content, hd, hle⟩
      · exact Or.inr ⟨hany, content, hd, hle⟩

theorem Covers.of_leq (h : m.Covers c values) (hle : m.leq n = true) : n.Covers c values := by
  obtain ⟨d, content, hd, hget, hvalues⟩ := h
  obtain ⟨d', content', hd', hget', hcontent⟩ := leq_iff.1 hle d content hget
  have hclose : d' = c ∨ d' = .whole c.slot := by
    rcases hd with rfl | rfl
    · exact hd'
    · exact Or.inr (hd'.elim id id)
  exact ⟨d', content', hclose, hget', CellSet.semilattice_order.trans hvalues hcontent⟩

/-- An entry that has the values covers them. -/
theorem Holds.covers (h : m.Holds c values) : m.Covers c values := by
  obtain ⟨content, hc, hsub⟩ := h
  rcases Option.or_eq_some_iff.1 hc with hc | ⟨-, hc⟩
  · exact ⟨c, content, Or.inl rfl, hc, CellSet.leq_of_subset hsub⟩
  · exact ⟨.whole c.slot, content, Or.inr rfl, hc, CellSet.leq_of_subset hsub⟩

/-- Abstract memory is a preorder, and joins are upper bounds. -/
theorem lawful_order : order.Lawful where
  refl _ := leq_iff.2 fun c values hc =>
    ⟨c, values, Or.inl rfl, hc, CellSet.semilattice_order.refl values⟩
  trans hmn hnk := leq_iff.2 fun c values hc => (leq_iff.1 hmn c values hc).of_leq hnk
  leq_join_left _ _ := leq_iff.2 fun c values hc => (grown_join c values (at?_of_some hc)).covers
  leq_join_right _ _ := leq_iff.2 fun _ _ hc => (holds_join hc).covers

/-! ### Well formed memories -/

/-- An allocation with an entry for the whole of it has no other entry. -/
def WellFormed (m : AbstractMemory) : Prop :=
  ∀ c, m.contains c = true → m.contains (.whole c.slot) = true → c.offset = .any

theorem contains_iff : m.contains c = true ↔ ∃ content, m.get? c = some content :=
  Option.isSome_iff_exists

theorem wellFormed_empty : WellFormed ∅ := fun c hc _ => by
  obtain ⟨content, hc⟩ := contains_iff.1 hc
  simp at hc

/-- A store to a cell that is not a whole allocation makes an entry only if there is none for the
whole allocation. -/
theorem WellFormed.updated (h : m.WellFormed) (ha : a.offset ≠ .any) :
    (m.updated a values).WellFormed := by
  have hold : ∀ {c}, (m.updated a values).contains c = true →
      (c = a ∧ m.Absent a) ∨ m.contains c = true := by
    intro c hc
    obtain ⟨content, hc⟩ := contains_iff.1 hc
    rcases of_get?_updated hc with ⟨heq, habsent, -⟩ | ⟨old, hold, -⟩
    · exact Or.inl ⟨heq, habsent⟩
    · exact Or.inr (contains_iff.2 ⟨old, hold⟩)
  intro c hc hwhole
  have hwhole' : m.contains (.whole c.slot) = true := by
    rcases hold hwhole with ⟨heq, -⟩ | hwhole
    · exact absurd (congrArg Cell.offset heq).symm ha
    · exact hwhole
  rcases hold hc with ⟨rfl, habsent⟩ | hc
  · obtain ⟨content, hget⟩ := contains_iff.1 hwhole'
    rw [habsent.2] at hget
    cases hget
  · exact h c hc hwhole'

/-- **A store keeps memory well formed.** The store to a whole allocation leaves no other entry
for it. -/
theorem WellFormed.storeAt (h : m.WellFormed) : (m.storeAt a values).WellFormed := by
  by_cases ha : a.offset = .any
  · have hother : ∀ {c}, c ≠ a → (m.storeAt a values).contains c = true →
        c.slot ≠ a.slot ∧ m.contains c = true := by
      intro c hne hc
      rw [OrdMap.contains, get?_storeAt_of_ne ha hne] at hc
      split at hc
      · cases hc
      · rename_i hslot
        exact ⟨hslot, hc⟩
    intro c hc hwhole
    by_cases heq : c = a
    · rw [heq]
      exact ha
    · obtain ⟨hslot, hc⟩ := hother heq hc
      have hne : Cell.whole c.slot ≠ a := fun hwhole => hslot (hwhole ▸ rfl)
      exact h c hc (hother hne hwhole).2
  · rw [storeAt_of_ne_any ha]
    exact h.updated ha

theorem WellFormed.store (h : m.WellFormed) (addresses values : CellSet) :
    (m.store addresses values).WellFormed :=
  List.foldlRecOn _ _ h fun _ hm _ _ => hm.storeAt

theorem WellFormed.join (h : m.WellFormed) (n : AbstractMemory) : (m.join n).WellFormed :=
  List.foldlRecOn _ _ h fun _ hm _ _ => hm.storeAt

/-! ### Joins are least -/

/-- What is covered by a well formed memory that has an entry for the whole allocation, is covered
by that entry. -/
theorem Covers.whole (h : k.Covers c values) (hk : k.WellFormed)
    (hwhole : k.contains (.whole c.slot) = true) : k.Covers (.whole c.slot) values := by
  obtain ⟨d, content, hd, hget, hle⟩ := h
  rcases hd with rfl | rfl
  · have hany : d.offset = .any := hk d (contains_iff.2 ⟨content, hget⟩) hwhole
    exact ⟨d, content, Or.inl (whole_of_offset_any hany).symm, hget, hle⟩
  · exact ⟨_, content, Or.inl rfl, hget, hle⟩

theorem covers_whole_iff {slot : Slot} : k.Covers (.whole slot) values ↔
    ∃ content, k.get? (.whole slot) = some content ∧ values.leq content = true := by
  constructor
  · rintro ⟨d, content, hd, hget, hle⟩
    obtain rfl : d = .whole slot := hd.elim id id
    exact ⟨content, hget, hle⟩
  · rintro ⟨content, hget, hle⟩
    exact ⟨_, content, Or.inl rfl, hget, hle⟩

/-- In a well formed memory a single entry counts for each cell, so it covers the union of what it
covers. -/
theorem Covers.union (h : k.Covers c values) (h' : k.Covers c values') (hk : k.WellFormed) :
    k.Covers c (values ∪ values') := by
  by_cases hwhole : k.contains (.whole c.slot) = true
  · obtain ⟨content, hget, hle⟩ := covers_whole_iff.1 (h.whole hk hwhole)
    obtain ⟨content', hget', hle'⟩ := covers_whole_iff.1 (h'.whole hk hwhole)
    obtain rfl := Option.some.inj (hget.symm.trans hget')
    exact ⟨_, content, Or.inr rfl, hget, CellSet.union_leq hle hle'⟩
  · have hown : ∀ {values}, k.Covers c values →
        ∃ content, k.get? c = some content ∧ values.leq content = true := by
      rintro values ⟨d, content, rfl | rfl, hget, hle⟩
      · exact ⟨content, hget, hle⟩
      · exact absurd (contains_iff.2 ⟨content, hget⟩) hwhole
    obtain ⟨content, hget, hle⟩ := hown h
    obtain ⟨content', hget', hle'⟩ := hown h'
    obtain rfl := Option.some.inj (hget.symm.trans hget')
    exact ⟨c, content, Or.inl rfl, hget, CellSet.union_leq hle hle'⟩

/-- A store to a cell that is not a whole allocation stays below a well formed memory that covers
it. -/
theorem updated_leq (hk : k.WellFormed) (hm : m.leq k = true) (ha : k.Covers a values)
    (hne : a.offset ≠ .any) : (m.updated a values).leq k = true := by
  refine leq_iff.2 fun c content hc => ?_
  rcases of_get?_updated hc with ⟨rfl, -, rfl⟩ | ⟨old, hold, rfl⟩
  · exact ha.union ha hk
  · have hcovers : k.Covers c old := leq_iff.1 hm c old hold
    split
    · rename_i haffects
      obtain ⟨hslot, hoffset⟩ := affects_iff.1 haffects
      rcases hoffset with heq | hany | hany
      · obtain rfl : c = a := by
          obtain ⟨slot, offset⟩ := c
          obtain ⟨slot', offset'⟩ := a
          exact Cell.mk.injEq .. ▸ ⟨hslot, heq⟩
        exact hcovers.union ha hk
      · -- The entry for the whole allocation is there, so it must be what covers the values.
        obtain rfl : c = .whole a.slot := eq_of_offset_any rfl hany hslot
        obtain ⟨whole, hwhole, -⟩ := covers_whole_iff.1 hcovers
        exact hcovers.union (ha.whole hk (contains_iff.2 ⟨whole, hwhole⟩)) hk
      · exact absurd hany hne
    · exact hcovers

/-- **A store stays below a well formed memory that covers it.** -/
theorem storeAt_leq (hk : k.WellFormed) (hm : m.leq k = true) (ha : k.Covers a values) :
    (m.storeAt a values).leq k = true := by
  by_cases hany : a.offset = .any
  · refine leq_iff.2 fun c content hc => ?_
    by_cases heq : c = a
    · subst heq
      rw [← whole_of_offset_any hany] at ha ⊢
      obtain ⟨whole, hwhole, hvalues⟩ := covers_whole_iff.1 ha
      obtain ⟨new, hnew, hmem⟩ := get?_storeAt_whole (m := m) hany
      obtain rfl := Option.some.inj (hnew.symm.trans hc)
      refine covers_whole_iff.2 ⟨whole, hwhole, CellSet.leq_iff.2 fun d hd => ?_⟩
      rcases (hmem d).1 hd with hd | ⟨c', old, hslot, hold, hd⟩
      · exact CellSet.leq_iff.1 hvalues d hd
      · -- What was known of other cells of the allocation is covered by the same entry.
        rw [← hslot] at hwhole
        have hcovers := (leq_iff.1 hm c' old hold).whole hk (contains_iff.2 ⟨whole, hwhole⟩)
        obtain ⟨whole', hwhole', hle⟩ := covers_whole_iff.1 hcovers
        obtain rfl := Option.some.inj (hwhole.symm.trans hwhole')
        exact CellSet.leq_iff.1 hle d hd
    · rw [get?_storeAt_of_ne hany heq] at hc
      split at hc
      · cases hc
      · exact leq_iff.1 hm c content hc
  · rw [storeAt_of_ne_any hany]
    exact updated_leq hk hm ha hany

/-- **Joins are least** below well formed memories. -/
theorem join_leq (hk : k.WellFormed) (hm : m.leq k = true) (hn : n.leq k = true) :
    (m.join n).leq k = true := by
  refine List.foldlRecOn (motive := fun m' => AbstractMemory.leq m' k = true) n.toList _ hm ?_
  intro m' hm' e he
  exact storeAt_leq hk hm' (leq_iff.1 hn e.1 e.2 (OrdMap.get?_eq_some_iff.2 he))

/-- A memory in which an allocation has an entry for the whole of it and another one. -/
def mixed : AbstractMemory :=
  (OrdMap.insert ∅ ⟨⟨0⟩, .exact 0⟩ (OrdSet.singleton ⟨⟨1⟩, .exact 0⟩)).insert (.whole ⟨0⟩) ∅

/-- Without well-formedness not even joining a memory to itself leads to nothing new. -/
example : ¬ order.Equivalent (order.join mixed mixed) mixed := by decide

end AbstractMemory

/-! ### States -/

/-- The memory of the state is well formed. -/
def MemoryState.WellFormed (s : MemoryState) : Prop := s.memory.WellFormed

namespace Memory

/-- States are ordered by their stacks and by abstract memory. -/
theorem embeds (ev : Evidence) :
    (domain ev).Embeds (CellSet.order.pointwise.prod AbstractMemory.order)
      fun s => (s.stack, s.memory) where
  leq s t := by
    simp only [domain, MemoryState.leq, JoinOrder.prod, JoinOrder.pointwise]
    congr 2
    funext q v
    cases t.stack.get? q <;> rfl
  join _ _ := rfl

theorem lawful (ev : Evidence) : (domain ev).Lawful :=
  (CellSet.semilattice_order.toLawful.pointwise.prod AbstractMemory.lawful_order).of_embeds
    (embeds ev)

/-- Joins of states are least below well formed states. -/
theorem join_leq (ev : Evidence) {s t u : MemoryState} (hu : u.WellFormed)
    (hs : (domain ev).leq s u = true) (ht : (domain ev).leq t u = true) :
    (domain ev).leq ((domain ev).join s t) u = true := by
  rw [(embeds ev).leq] at hs ht ⊢
  rw [(embeds ev).join]
  obtain ⟨hstack, hmemory⟩ := Bool.and_eq_true_iff.1 hs
  obtain ⟨hstack', hmemory'⟩ := Bool.and_eq_true_iff.1 ht
  exact Bool.and_eq_true_iff.2 ⟨CellSet.semilattice_order.pointwise.join_leq hstack hstack',
    AbstractMemory.join_leq hu hmemory hmemory'⟩

/-- An instruction stores to memory or leaves it alone. -/
theorem wellFormed_nextMemory {s : MemoryState} (h : s.WellFormed) (i : Instruction) :
    (nextMemory i s).WellFormed := by
  rw [nextMemory]
  split
  · split
    · rename_i addresses values _ _
      exact AbstractMemory.WellFormed.store h addresses values
    · exact h
  · exact h

/-- **The well formed states are a semilattice.** The initial state is well formed, instructions
and joins keep states well formed, and on well formed states the order is a preorder in which joins
are least upper bounds. So joining a state to itself leads to nothing new. -/
theorem semilattice_wellFormed (ev : Evidence) :
    MemoryState.initial.WellFormed ∧
    (∀ i p s l, s.WellFormed → ((domain ev).step i p s l).1.WellFormed) ∧
    ∃ hjoin : ∀ s t, s.WellFormed → t.WellFormed → ((domain ev).join s t).WellFormed,
      ((domain ev).restrict MemoryState.WellFormed hjoin).Semilattice ∧
      ∀ s, ((domain ev).restrict MemoryState.WellFormed hjoin).Equivalent
        (((domain ev).restrict MemoryState.WellFormed hjoin).join s s) s := by
  have hjoin : ∀ s t, s.WellFormed → t.WellFormed → ((domain ev).join s t).WellFormed :=
    fun s t hs _ => AbstractMemory.WellFormed.join hs t.memory
  have hlattice : ((domain ev).restrict MemoryState.WellFormed hjoin).Semilattice :=
    { (lawful ev).restrict hjoin with
      join_leq := fun {_ _ u} hs ht => join_leq ev u.2 hs ht }
  refine ⟨AbstractMemory.wellFormed_empty, ?_, hjoin, hlattice, hlattice.join_self⟩
  intro i p s l hs
  exact wellFormed_nextMemory hs i

end Memory

end EvmAccess
