import EvmAccess.Domain.CellSet
import EvmAccess.Proofs.Flow.Order
import EvmAccess.Proofs.Ordered

/-!
# Stores to abstract memory

What a store does to each entry of abstract memory. The store to a whole allocation leaves a single
entry for it, with all that was known of the allocation and the values stored; the store to another
cell adds the values to the entries for the cell and for the whole allocation, and makes a new entry
only if there is neither. Hence the entry that counts for a cell, its own or that for the whole
allocation, only grows (`AbstractMemory.Grown`), and after a store it has the values. A load gathers
the entries that a store to the same address may affect.

## Main results

- `AbstractMemory.get?_storeAt_whole`, `AbstractMemory.storeAt_of_ne_any`: the two kinds of stores.
- `AbstractMemory.of_get?_storeAt`: where the entries come from.
- `AbstractMemory.grown_storeAt`, `AbstractMemory.grown_join`: entries only grow.
- `AbstractMemory.holds_join`: a join has what it is given.
- `AbstractMemory.mem_load`: what is loaded.
-/

namespace EvmAccess

namespace AbstractMemory

variable {m n : AbstractMemory} {a c : Cell} {values : CellSet}

theorem affects_iff : affects a c = true ↔
    c.slot = a.slot ∧ (c.offset = a.offset ∨ c.offset = .any ∨ a.offset = .any) := by
  simp [affects]

theorem absorbs_iff : absorbs a c = true ↔
    c.slot = a.slot ∧ a.offset = .any ∧ c.offset ≠ .any := by
  simp [absorbs]

/-- Whether there is no entry for a cell, and none for its whole allocation. -/
def Absent (m : AbstractMemory) (a : Cell) : Prop :=
  m.get? a = none ∧ m.get? (.whole a.slot) = none

/-- The first half of a store: there is an entry for the address, and the entries that may be
affected have the values. -/
def updated (m : AbstractMemory) (a : Cell) (values : CellSet) : AbstractMemory :=
  OrdMap.map (fun c content => if affects a c then content ∪ values else content)
    (if m.contains a || m.contains (.whole a.slot) then m else m.insert a values)

theorem get?_updated_of_not_absent (h : ¬ m.Absent a) :
    (m.updated a values).get? c =
      (m.get? c).map fun content => if affects a c then content ∪ values else content := by
  have hthere : (m.contains a || m.contains (.whole a.slot)) = true := by
    rw [OrdMap.contains, OrdMap.contains, Bool.or_eq_true]
    rw [Absent] at h
    cases hown : m.get? a with
    | some content => exact Or.inl rfl
    | none =>
      cases hwhole : m.get? (.whole a.slot) with
      | some content => exact Or.inr rfl
      | none => exact absurd ⟨hown, hwhole⟩ h
  rw [updated, if_pos hthere, OrdMap.get?_map]

theorem get?_updated_of_absent (h : m.Absent a) :
    (m.updated a values).get? c =
      if c = a then some (values ∪ values)
      else (m.get? c).map fun content => if affects a c then content ∪ values else content := by
  have hthere : ¬ (m.contains a || m.contains (.whole a.slot)) = true := by
    simp [OrdMap.contains, h.1, h.2]
  rw [updated, if_neg hthere, OrdMap.get?_map, OrdMap.get?_insert]
  by_cases hc : c = a
  · simp [hc, affects_iff]
  · simp only [hc, if_false]

/-- No entry is lost. -/
theorem get?_updated_of_some {content : CellSet} (h : m.get? c = some content) :
    (m.updated a values).get? c =
      some (if affects a c then content ∪ values else content) := by
  by_cases habsent : m.Absent a
  · have hc : c ≠ a := fun hc => by
      rw [hc, habsent.1] at h
      cases h
    rw [get?_updated_of_absent habsent, if_neg hc, h, Option.map_some]
  · rw [get?_updated_of_not_absent habsent, h, Option.map_some]

/-- Where the entries come from. -/
theorem of_get?_updated {content : CellSet} (h : (m.updated a values).get? c = some content) :
    (c = a ∧ m.Absent a ∧ content = values ∪ values) ∨
      ∃ old, m.get? c = some old ∧ content = if affects a c then old ∪ values else old := by
  have hold : (m.get? c).map (fun content => if affects a c then content ∪ values else content) =
      some content → ∃ old, m.get? c = some old ∧
        content = if affects a c then old ∪ values else old := fun h => by
    obtain ⟨old, hold, heq⟩ := Option.map_eq_some_iff.1 h
    exact ⟨old, hold, heq.symm⟩
  by_cases habsent : m.Absent a
  · rw [get?_updated_of_absent habsent] at h
    split at h
    · rename_i hc
      exact Or.inl ⟨hc, habsent, (Option.some.inj h).symm⟩
    · exact Or.inr (hold h)
  · rw [get?_updated_of_not_absent habsent] at h
    exact Or.inr (hold h)

/-- What an entry has it had before, or it is one of the values. -/
theorem of_mem_updated {content : CellSet} {d : Cell}
    (hc : (m.updated a values).get? c = some content) (hd : d ∈ content) :
    d ∈ values ∨ ∃ old, m.get? c = some old ∧ d ∈ old := by
  rcases of_get?_updated hc with ⟨-, -, rfl⟩ | ⟨old, hold, rfl⟩
  · exact Or.inl ((OrdSet.mem_union.1 hd).elim id id)
  · split at hd
    · rcases OrdSet.mem_union.1 hd with hd | hd
      · exact Or.inr ⟨old, hold, hd⟩
      · exact Or.inl hd
    · exact Or.inr ⟨old, hold, hd⟩

/-! ### The entry that counts -/

/-- The entry that counts for a cell: its own, or else that for the whole allocation. -/
def at? (m : AbstractMemory) (c : Cell) : Option CellSet :=
  (m.get? c).or (m.get? (.whole c.slot))

theorem at?_of_some {content : CellSet} (h : m.get? c = some content) :
    m.at? c = some content := by
  rw [at?, h, Option.some_or]

theorem at?_of_none (h : m.get? c = none) : m.at? c = m.get? (.whole c.slot) := by
  rw [at?, h, Option.none_or]

/-- The entry that counts for the cell has the values. -/
def Holds (m : AbstractMemory) (c : Cell) (values : CellSet) : Prop :=
  ∃ content, m.at? c = some content ∧ ∀ d ∈ values, d ∈ content

/-- What the entries that count have, they keep. -/
def Grown (m n : AbstractMemory) : Prop :=
  ∀ c content, m.at? c = some content → n.Holds c content

theorem Grown.refl (m : AbstractMemory) : m.Grown m := fun _ content h =>
  ⟨content, h, fun _ hd => hd⟩

theorem Holds.grown (h : m.Holds c values) (hg : m.Grown n) : n.Holds c values := by
  obtain ⟨content, hc, hsub⟩ := h
  obtain ⟨content', hc', hsub'⟩ := hg c content hc
  exact ⟨content', hc', fun d hd => hsub' d (hsub d hd)⟩

theorem Grown.trans {k : AbstractMemory} (h : m.Grown n) (h' : n.Grown k) : m.Grown k :=
  fun c content hc => (h c content hc).grown h'

/-- A cell without an entry of its own gets none if there is one for its whole allocation. -/
theorem get?_updated_of_none {content : CellSet} (hc : m.get? c = none)
    (hwhole : m.get? (.whole c.slot) = some content) : (m.updated a values).get? c = none := by
  cases hnew : (m.updated a values).get? c with
  | none => rfl
  | some content =>
    rcases of_get?_updated hnew with ⟨rfl, habsent, -⟩ | ⟨old, hold, -⟩
    · rw [habsent.2] at hwhole
      cases hwhole
    · rw [hc] at hold
      cases hold

theorem grown_updated : m.Grown (m.updated a values) := by
  have hmore : ∀ {c} {old : CellSet} {d}, d ∈ old →
      d ∈ if affects a c then old ∪ values else old := by
    intro c old d hd
    split
    · exact OrdSet.mem_union.2 (Or.inl hd)
    · exact hd
  intro c content hc
  cases hown : m.get? c with
  | some old =>
    obtain rfl : old = content := by simpa [at?_of_some hown] using hc
    exact ⟨_, at?_of_some (get?_updated_of_some hown), fun _ => hmore⟩
  | none =>
    rw [at?_of_none hown] at hc
    refine ⟨if affects a (.whole c.slot) then content ∪ values else content, ?_, fun _ => hmore⟩
    rw [at?_of_none (get?_updated_of_none hown hc), get?_updated_of_some hc]

theorem holds_updated : (m.updated a values).Holds a values := by
  have hself : affects a a = true := affects_iff.2 ⟨rfl, Or.inl rfl⟩
  have hwhole : affects a (.whole a.slot) = true := affects_iff.2 ⟨rfl, Or.inr (Or.inl rfl)⟩
  have hright : ∀ {old : CellSet} {d}, d ∈ values → d ∈ old ∪ values := fun hd =>
    OrdSet.mem_union.2 (Or.inr hd)
  by_cases habsent : m.Absent a
  · refine ⟨values ∪ values, at?_of_some ?_, fun _ => hright⟩
    rw [get?_updated_of_absent habsent, if_pos rfl]
  · cases hown : m.get? a with
    | some old =>
      refine ⟨old ∪ values, at?_of_some ?_, fun _ => hright⟩
      rw [get?_updated_of_some hown, if_pos hself]
    | none =>
      cases hall : m.get? (.whole a.slot) with
      | none => exact absurd ⟨hown, hall⟩ habsent
      | some old =>
        refine ⟨old ∪ values, ?_, fun _ => hright⟩
        rw [at?_of_none (get?_updated_of_none hown hall), get?_updated_of_some hall,
          if_pos hwhole]

/-- A store to a cell that is not a whole allocation ends there. -/
theorem storeAt_of_ne_any (ha : a.offset ≠ .any) : m.storeAt a values = m.updated a values := by
  rw [storeAt, if_neg ha]
  rfl

/-! ### Stores to whole allocations -/

theorem eq_of_offset_any (ha : a.offset = .any) (hc : c.offset = .any) (h : c.slot = a.slot) :
    c = a := by
  cases a
  cases c
  simp_all

theorem whole_of_offset_any (ha : a.offset = .any) : Cell.whole a.slot = a :=
  eq_of_offset_any ha rfl rfl

/-- Of an allocation that was stored to as a whole no other entry is left. -/
theorem get?_storeAt_of_ne (ha : a.offset = .any) (hc : c ≠ a) :
    (m.storeAt a values).get? c = if c.slot = a.slot then none else m.get? c := by
  rw [storeAt, if_pos ha, OrdMap.get?_alter_of_ne hc]
  change ((m.updated a values).filter fun c _ => !absorbs a c).get? c = _
  rw [OrdMap.get?_filter]
  by_cases hslot : c.slot = a.slot
  · have habsorbs : absorbs a c = true :=
      absorbs_iff.2 ⟨hslot, ha, fun h => hc (eq_of_offset_any ha h hslot)⟩
    rw [if_pos hslot, habsorbs]
    cases (m.updated a values).get? c <;> rfl
  · have habsorbs : absorbs a c = false := Bool.eq_false_iff.2 fun h =>
      hslot (absorbs_iff.1 h).1
    have haffects : affects a c = false := Bool.eq_false_iff.2 fun h =>
      hslot (affects_iff.1 h).1
    rw [if_neg hslot, habsorbs]
    cases hold : m.get? c with
    | some content => simp [get?_updated_of_some hold, haffects]
    | none =>
      cases hnew : (m.updated a values).get? c with
      | none => rfl
      | some content =>
        rcases of_get?_updated hnew with ⟨heq, -⟩ | ⟨old, heq, -⟩
        · exact absurd heq hc
        · rw [hold] at heq
          cases heq

/-- The entry for an allocation that was stored to as a whole has all that was known of the
allocation, and the values. -/
theorem get?_storeAt_whole (ha : a.offset = .any) :
    ∃ content, (m.storeAt a values).get? a = some content ∧
      ∀ d, d ∈ content ↔
        d ∈ values ∨ ∃ c old, c.slot = a.slot ∧ m.get? c = some old ∧ d ∈ old := by
  have hself : ∀ {c}, c.slot = a.slot → affects a c = true := fun h =>
    affects_iff.2 ⟨h, Or.inr (Or.inr ha)⟩
  have hkept : ((m.updated a values).filter fun c _ => !absorbs a c).get? a =
      (m.updated a values).get? a := by
    have habsorbs : absorbs a a = false := Bool.eq_false_iff.2 fun h => (absorbs_iff.1 h).2.2 ha
    rw [OrdMap.get?_filter, habsorbs]
    cases (m.updated a values).get? a <;> rfl
  rw [storeAt, if_pos ha, OrdMap.get?_alter_self]
  refine ⟨_, rfl, fun d => ?_⟩
  change d ∈ List.foldl _ ((((m.updated a values).filter fun c _ => !absorbs a c).get? a).getD ∅)
    ((m.updated a values).filter fun c _ => absorbs a c).toList ↔ _
  rw [hkept, OrdSet.mem_foldl_union]
  constructor
  · have hfrom : ∀ {c content}, c.slot = a.slot → (m.updated a values).get? c = some content →
        d ∈ content → d ∈ values ∨ ∃ c old, c.slot = a.slot ∧ m.get? c = some old ∧ d ∈ old :=
      fun hslot hc hd => (of_mem_updated hc hd).imp id fun ⟨old, hold, hd⟩ =>
        ⟨_, old, hslot, hold, hd⟩
    rintro (hd | ⟨⟨c, content⟩, he, hd⟩)
    · cases hc : (m.updated a values).get? a with
      | none => simp [hc] at hd
      | some content =>
        rw [hc, Option.getD_some] at hd
        exact hfrom rfl hc hd
    · have hc := OrdMap.get?_eq_some_iff.2 he
      rw [OrdMap.get?_filter, Option.filter_eq_some_iff] at hc
      exact hfrom (absorbs_iff.1 hc.2).1 hc.1 hd
  · rintro (hd | ⟨c, old, hslot, hold, hd⟩)
    · have hheld : (m.updated a values).Holds a values := holds_updated
      obtain ⟨content, hcontent, hsub⟩ := hheld
      rw [at?, whole_of_offset_any ha, Option.or_self] at hcontent
      rw [hcontent]
      exact Or.inl (hsub d hd)
    · have hnew : (m.updated a values).get? c = some (old ∪ values) := by
        rw [get?_updated_of_some hold, if_pos (hself hslot)]
      have hmem : d ∈ old ∪ values := OrdSet.mem_union.2 (Or.inl hd)
      by_cases hc : c = a
      · rw [hc] at hnew
        rw [hnew]
        exact Or.inl hmem
      · refine Or.inr ⟨(c, old ∪ values), OrdMap.get?_eq_some_iff.1 ?_, hmem⟩
        rw [OrdMap.get?_filter, hnew, Option.filter_some, if_pos]
        exact absorbs_iff.2 ⟨hslot, ha, fun h => hc (eq_of_offset_any ha h hslot)⟩

/-- **Where the entries come from.** An entry is as it was before; or it is one for the allocation
of the address, there already or for the address itself, and has all the values and beyond them
only what entries for the allocation had. -/
theorem of_get?_storeAt {content : CellSet} (h : (m.storeAt a values).get? c = some content) :
    m.get? c = some content ∨
      (c = a ∨ c.slot = a.slot ∧ ∃ old, m.get? c = some old) ∧ (∀ d ∈ values, d ∈ content) ∧
        ∀ d ∈ content, d ∈ values ∨
          ∃ c' old, c'.slot = a.slot ∧ m.get? c' = some old ∧ d ∈ old := by
  by_cases ha : a.offset = .any
  · by_cases hc : c = a
    · subst hc
      obtain ⟨new, hnew, hmem⟩ := get?_storeAt_whole (m := m) ha
      obtain rfl : new = content := Option.some.inj (hnew.symm.trans h)
      exact Or.inr ⟨Or.inl rfl, fun d hd => (hmem d).2 (Or.inl hd), fun d => (hmem d).1⟩
    · rw [get?_storeAt_of_ne ha hc] at h
      split at h
      · cases h
      · exact Or.inl h
  · rw [storeAt_of_ne_any ha] at h
    rcases of_get?_updated h with ⟨rfl, -, rfl⟩ | ⟨old, hold, rfl⟩
    · refine Or.inr ⟨Or.inl rfl, fun d hd => OrdSet.mem_union.2 (Or.inl hd), fun d hd => ?_⟩
      exact Or.inl ((OrdSet.mem_union.1 hd).elim id id)
    · split
      · rename_i haffects
        have hslot : c.slot = a.slot := (affects_iff.1 haffects).1
        refine Or.inr ⟨Or.inr ⟨hslot, old, hold⟩, fun d hd => OrdSet.mem_union.2 (Or.inr hd),
          fun d hd => ?_⟩
        exact (OrdSet.mem_union.1 hd).symm.imp_right fun hd => ⟨c, old, hslot, hold, hd⟩
      · exact Or.inl hold

/-! ### Stores and joins -/

/-- A store makes no entry smaller. -/
theorem grown_storeAt : m.Grown (m.storeAt a values) := by
  by_cases ha : a.offset = .any
  · intro c content hc
    by_cases hslot : c.slot = a.slot
    · -- Whatever entry counted before, its content went into the entry for the whole.
      have hknown : ∃ c', c'.slot = a.slot ∧ m.get? c' = some content := by
        rcases Option.or_eq_some_iff.1 hc with h | ⟨-, h⟩
        · exact ⟨c, hslot, h⟩
        · exact ⟨.whole c.slot, hslot, h⟩
      obtain ⟨c', hslot', hold⟩ := hknown
      obtain ⟨new, hnew, hmem⟩ := get?_storeAt_whole (m := m) ha
      refine ⟨new, ?_, fun d hd => (hmem d).2 (Or.inr ⟨c', content, hslot', hold, hd⟩)⟩
      by_cases heq : c = a
      · rw [heq]
        exact at?_of_some hnew
      · have hnone : (m.storeAt a values).get? c = none := by
          rw [get?_storeAt_of_ne ha heq, if_pos hslot]
        rw [at?_of_none hnone, hslot, whole_of_offset_any ha, hnew]
    · have hsame : ∀ c', c'.slot = c.slot → (m.storeAt a values).get? c' = m.get? c' := by
        intro c' h
        have hne : c'.slot ≠ a.slot := h ▸ hslot
        rw [get?_storeAt_of_ne ha fun heq => hne (heq ▸ rfl), if_neg hne]
      refine ⟨content, ?_, fun _ hd => hd⟩
      rw [at?, hsame c rfl, hsame (.whole c.slot) rfl]
      exact hc
  · rw [storeAt_of_ne_any ha]
    exact grown_updated

/-- After a store the entry for the address has the values. -/
theorem holds_storeAt : (m.storeAt a values).Holds a values := by
  by_cases ha : a.offset = .any
  · obtain ⟨content, hcontent, hmem⟩ := get?_storeAt_whole (m := m) ha
    exact ⟨content, at?_of_some hcontent, fun d hd => (hmem d).2 (Or.inl hd)⟩
  · rw [storeAt_of_ne_any ha]
    exact holds_updated

theorem grown_foldl_storeAt (l : List (Cell × CellSet)) :
    m.Grown (l.foldl (fun m e => m.storeAt e.1 e.2) m) := by
  induction l generalizing m with
  | nil => exact Grown.refl m
  | cons e l ih => exact grown_storeAt.trans ih

theorem holds_foldl_storeAt {l : List (Cell × CellSet)} {e : Cell × CellSet} (he : e ∈ l) :
    (l.foldl (fun m e => m.storeAt e.1 e.2) m).Holds e.1 e.2 := by
  induction l generalizing m with
  | nil => cases he
  | cons e' l ih =>
    rcases List.mem_cons.1 he with rfl | he
    · exact holds_storeAt.grown (grown_foldl_storeAt l)
    · exact ih he

/-- A join makes no entry of the first memory smaller. -/
theorem grown_join : m.Grown (m.join n) := grown_foldl_storeAt _

/-- A join has the entries of the second memory. -/
theorem holds_join (h : n.get? c = some values) : (m.join n).Holds c values :=
  holds_foldl_storeAt (OrdMap.get?_eq_some_iff.1 h)

/-! ### Loads -/

/-- A store to a cell that is not a whole allocation affects the entries for the cell and for the
whole allocation. -/
theorem affects_iff_of_ne_any (ha : a.offset ≠ .any) :
    affects a c = true ↔ c = a ∨ c = .whole a.slot := by
  obtain ⟨slot, offset⟩ := a
  obtain ⟨slot', offset'⟩ := c
  change offset ≠ .any at ha
  simp only [affects_iff, Cell.whole, Cell.mk.injEq, ha, or_false, ← and_or_left]

theorem mem_getD_get? {d : Cell} :
    d ∈ (m.get? c).getD ∅ ↔ ∃ content, m.get? c = some content ∧ d ∈ content := by
  cases m.get? c <;> simp

/-- **A load gathers the entries that a store to the address may affect.** -/
theorem mem_loadAt {d : Cell} : d ∈ m.loadAt a ↔
    ∃ c content, affects a c = true ∧ m.get? c = some content ∧ d ∈ content := by
  have hprecise : d ∈ (m.get? a).getD ∅ ∪ (m.get? (.whole a.slot)).getD ∅ ↔
      ∃ c content, (c = a ∨ c = .whole a.slot) ∧ m.get? c = some content ∧ d ∈ content := by
    rw [OrdSet.mem_union, mem_getD_get?, mem_getD_get?]
    constructor
    · rintro (⟨content, hc, hd⟩ | ⟨content, hc, hd⟩)
      · exact ⟨a, content, Or.inl rfl, hc, hd⟩
      · exact ⟨.whole a.slot, content, Or.inr rfl, hc, hd⟩
    · rintro ⟨c, content, rfl | rfl, hc, hd⟩
      · exact Or.inl ⟨content, hc, hd⟩
      · exact Or.inr ⟨content, hc, hd⟩
  rw [loadAt]
  split
  · rename_i hany
    rw [OrdSet.mem_foldl_union, hprecise]
    constructor
    · rintro (⟨c, content, hc, hd⟩ | ⟨⟨c, content⟩, he, hd⟩)
      · refine ⟨c, content, affects_iff.2 ⟨?_, Or.inr (Or.inr hany)⟩, hd⟩
        rcases hc with rfl | rfl <;> rfl
      · have hc := OrdMap.get?_eq_some_iff.2 he
        rw [OrdMap.get?_filter, Option.filter_eq_some_iff, decide_eq_true_eq] at hc
        exact ⟨c, content, affects_iff.2 ⟨hc.2, Or.inr (Or.inr hany)⟩, hc.1, hd⟩
    · rintro ⟨c, content, haffects, hc, hd⟩
      refine Or.inr ⟨(c, content), OrdMap.get?_eq_some_iff.1 ?_, hd⟩
      rw [OrdMap.get?_filter, Option.filter_eq_some_iff, decide_eq_true_eq]
      exact ⟨hc, (affects_iff.1 haffects).1⟩
  · rename_i hany
    simp only [hprecise, affects_iff_of_ne_any hany]

/-- What is loaded from any of the addresses. -/
theorem mem_load {addresses : CellSet} {d : Cell} : d ∈ m.load addresses ↔
    ∃ a ∈ addresses, ∃ c content, affects a c = true ∧ m.get? c = some content ∧ d ∈ content := by
  rw [load, OrdSet.mem_foldl_union]
  simp only [OrdSet.not_mem_empty, false_or, mem_loadAt]
  rfl

end AbstractMemory

end EvmAccess
