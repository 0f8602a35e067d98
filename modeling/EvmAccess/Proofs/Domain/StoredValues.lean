import EvmAccess.Proofs.Domain.AbstractMemory

/-!
# Loads see every store that may be meant

A store goes to each of several addresses, one after the other, and the later ones find what the
earlier ones left: a store to a whole allocation gathers the entries of the allocation into one, and
a store after it has nothing of its own to write to. A load looks into the entry for its address and
into that for the whole allocation, or into all entries of the allocation. The two fit together. A
load from an address that may be the one stored to has the values, because the entry that counts for
the address holds them and keeps them; and for the same reason no load loses what it had before.

Nor does a store say too much. It leaves the entries of other allocations alone, and what it leaves
in the allocations it goes to are its values and what was known of the same allocation.

## Main results

- `AbstractMemory.grown_store`, `AbstractMemory.holds_store`: entries grow, and hold the values.
- `AbstractMemory.Grown.mem_load`: a load from a memory that has grown loses nothing.
- `AbstractMemory.get?_store_of_slot_ne`, `AbstractMemory.of_mem_store`: what a store leaves.
- `AbstractMemory.loads_after_store`: all of it together.
-/

namespace EvmAccess

namespace AbstractMemory

variable {m n : AbstractMemory} {a c d l : Cell} {addresses values probes : CellSet}

/-! ### Loads from a memory that has grown -/

/-- A load finds the entry that counts for an address that may be the same. -/
theorem Holds.mem_load (h : m.Holds a values) (hl : l ∈ probes) (ha : affects l a = true)
    (hd : d ∈ values) : d ∈ m.load probes := by
  obtain ⟨content, hcontent, hsub⟩ := h
  rcases Option.or_eq_some_iff.1 hcontent with hown | ⟨-, hwhole⟩
  · exact AbstractMemory.mem_load.2 ⟨l, hl, a, content, ha, hown, hsub d hd⟩
  · have hslot : affects l (.whole a.slot) = true :=
      affects_iff.2 ⟨(affects_iff.1 ha).1, Or.inr (Or.inl rfl)⟩
    exact AbstractMemory.mem_load.2 ⟨l, hl, .whole a.slot, content, hslot, hwhole, hsub d hd⟩

/-- Loads lose nothing when memory grows. -/
theorem Grown.mem_load (h : m.Grown n) (hd : d ∈ m.load probes) : d ∈ n.load probes := by
  obtain ⟨l, hl, c, content, hc, hget, hd⟩ := AbstractMemory.mem_load.1 hd
  exact (h c content (at?_of_some hget)).mem_load hl hc hd

/-! ### Stores to several addresses -/

/-- A store to several addresses is a sequence of stores of the same values. -/
theorem store_eq_foldl : m.store addresses values =
    (addresses.toList.map fun a => (a, values)).foldl (fun m e => m.storeAt e.1 e.2) m := by
  rw [store, List.foldl_map]

theorem grown_store : m.Grown (m.store addresses values) := by
  rw [store_eq_foldl]
  exact grown_foldl_storeAt _

/-- The values are there at the end, whichever address they went to. -/
theorem holds_store (ha : a ∈ addresses) : (m.store addresses values).Holds a values := by
  rw [store_eq_foldl]
  exact holds_foldl_storeAt (e := (a, values)) (List.mem_map.2 ⟨a, ha, rfl⟩)

/-- A store leaves other allocations alone. -/
theorem get?_storeAt_of_slot_ne (h : c.slot ≠ a.slot) :
    (m.storeAt a values).get? c = m.get? c := by
  have hne : c ≠ a := fun heq => h (heq ▸ rfl)
  by_cases ha : a.offset = .any
  · rw [get?_storeAt_of_ne ha hne, if_neg h]
  · have hfree : affects a c = false := Bool.eq_false_iff.2 fun haffects =>
      h (affects_iff.1 haffects).1
    rw [storeAt_of_ne_any ha]
    by_cases habsent : m.Absent a
    · rw [get?_updated_of_absent habsent, if_neg hne]
      simp [hfree]
    · rw [get?_updated_of_not_absent habsent]
      simp [hfree]

theorem get?_store_of_slot_ne (h : ∀ a ∈ addresses, c.slot ≠ a.slot) :
    (m.store addresses values).get? c = m.get? c :=
  List.foldlRecOn (motive := fun n => OrdMap.get? n c = m.get? c) addresses.toList _ rfl
    fun _ hn a ha => (get?_storeAt_of_slot_ne (h a ha)).trans hn

/-- The cell is one of the values, or an entry for the allocation has it. -/
def Known (m : AbstractMemory) (values : CellSet) (slot : Slot) (d : Cell) : Prop :=
  d ∈ values ∨ ∃ c content, c.slot = slot ∧ m.get? c = some content ∧ d ∈ content

/-- A store makes nothing known of an allocation that was not. -/
theorem Known.of_storeAt {slot : Slot} (h : (m.storeAt a values).Known values slot d) :
    m.Known values slot d := by
  rcases h with hd | ⟨c, content, hslot, hget, hd⟩
  · exact Or.inl hd
  · rcases of_get?_storeAt hget with hold | ⟨hkey, -, hcontent⟩
    · exact Or.inr ⟨c, content, hslot, hold, hd⟩
    · have hsame : a.slot = slot := by
        rcases hkey with rfl | ⟨h, -⟩
        · exact hslot
        · exact h.symm.trans hslot
      exact hsame ▸ hcontent d hd

/-- What an entry has after a store are the values and what was known of the allocation. -/
theorem of_mem_store {content : CellSet} (hget : (m.store addresses values).get? c = some content)
    (hd : d ∈ content) : m.Known values c.slot d := by
  have hsteps : (m.store addresses values).Known values c.slot d → m.Known values c.slot d :=
    List.foldlRecOn (motive := fun n => Known n values c.slot d → m.Known values c.slot d)
      addresses.toList _ id fun _ hn _ _ h => hn h.of_storeAt
  exact hsteps (Or.inr ⟨c, content, rfl, hget, hd⟩)

/-- **Loads see every store that may be meant.** After a store, a load from an address of the same
allocation that has the same offset as one of the addresses, or where either of the two is the whole
allocation, has all the values; and every load has what it had before. The entries of allocations
that the store does not go to are unchanged, and those of the others have the values and what
entries for the same allocation had, and nothing else. -/
theorem loads_after_store (m : AbstractMemory) (addresses values : CellSet) :
    (∀ a ∈ addresses, ∀ l : Cell, l.slot = a.slot →
      (l.offset = a.offset ∨ l.offset = .any ∨ a.offset = .any) →
        ∀ d ∈ values, d ∈ (m.store addresses values).load (.singleton l)) ∧
    (∀ l : Cell, ∀ d ∈ m.load (.singleton l), d ∈ (m.store addresses values).load (.singleton l)) ∧
    (∀ c : Cell, (∀ a ∈ addresses, c.slot ≠ a.slot) →
      (m.store addresses values).get? c = m.get? c) ∧
    ∀ c content, (m.store addresses values).get? c = some content →
      (∃ a ∈ addresses, c.slot = a.slot) → ∀ d ∈ content,
        d ∈ values ∨
          ∃ c' content', c'.slot = c.slot ∧ m.get? c' = some content' ∧ d ∈ content' := by
  refine ⟨fun a ha l hslot hoffset d hd => ?_, fun l d hd => grown_store.mem_load hd,
    fun c hc => get?_store_of_slot_ne hc, fun c content hget _ d hd => of_mem_store hget hd⟩
  have hmeets : affects l a = true := affects_iff.2 ⟨hslot.symm, by
    rcases hoffset with heq | hl | ha
    · exact Or.inl heq.symm
    · exact Or.inr (Or.inr hl)
    · exact Or.inr (Or.inl ha)⟩
  exact (holds_store ha).mem_load (OrdSet.mem_singleton.2 rfl) hmeets hd

/-- Two allocations with an address at the start of each. -/
def twoStarts : AbstractMemory :=
  (OrdMap.insert ∅ ⟨⟨0⟩, .exact 0⟩ (OrdSet.singleton ⟨⟨2⟩, .exact 0⟩)).insert ⟨⟨1⟩, .exact 0⟩
    (OrdSet.singleton ⟨⟨3⟩, .exact 0⟩)

/-- The second word of the first allocation, or any place in it. -/
def somewhere : CellSet := OrdSet.ofList [⟨⟨0⟩, .exact 32⟩, .whole ⟨0⟩]

/-- The value stored is loaded from the third word, of which nothing was known; what was loaded from
the first word still is; the second allocation is left alone; and the one entry that is left of the
first allocation has the two values. -/
theorem loads_from_twoStarts :
    let after := twoStarts.store somewhere (.singleton ⟨⟨4⟩, .any⟩)
    (⟨⟨4⟩, .any⟩ : Cell) ∈ after.load (.singleton ⟨⟨0⟩, .exact 64⟩) ∧
      (⟨⟨2⟩, .exact 0⟩ : Cell) ∈ after.load (.singleton ⟨⟨0⟩, .exact 0⟩) ∧
      after.get? ⟨⟨1⟩, .exact 0⟩ = twoStarts.get? ⟨⟨1⟩, .exact 0⟩ ∧
      after.get? (.whole ⟨0⟩) = some (OrdSet.ofList [⟨⟨2⟩, .exact 0⟩, ⟨⟨4⟩, .any⟩]) ∧
      ∀ d ∈ OrdSet.ofList [⟨⟨2⟩, .exact 0⟩, ⟨⟨4⟩, .any⟩],
        d ∈ OrdSet.singleton (⟨⟨4⟩, .any⟩ : Cell) ∨
          ∃ c' content', c'.slot = ⟨0⟩ ∧ twoStarts.get? c' = some content' ∧ d ∈ content' := by
  intro after
  obtain ⟨hstored, hkept, hother, hknown⟩ :=
    loads_after_store twoStarts somewhere (.singleton ⟨⟨4⟩, .any⟩)
  have hwhole : after.get? (.whole ⟨0⟩) = some (OrdSet.ofList [⟨⟨2⟩, .exact 0⟩, ⟨⟨4⟩, .any⟩]) := by
    decide
  refine ⟨hstored (.whole ⟨0⟩) (by decide) ⟨⟨0⟩, .exact 64⟩ rfl (Or.inr (Or.inr rfl)) _ (by decide),
    hkept ⟨⟨0⟩, .exact 0⟩ _ (by decide), hother ⟨⟨1⟩, .exact 0⟩ (by decide), hwhole, ?_⟩
  exact hknown (.whole ⟨0⟩) _ hwhole ⟨.whole ⟨0⟩, by decide, rfl⟩

end AbstractMemory

end EvmAccess
