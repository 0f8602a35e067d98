import EvmAccess.Proofs.Domain.MemoryBound
import EvmAccess.Proofs.Reachability
import EvmAccess.Proofs.Replay

/-!
# Bookkeeping of allocations

An allocation gets its number when a point first opens it, in the middle of a run whose states still
change. From then on the number is copied: into the states of later points, through merges, into the
entries of the ledger, and by way of the finished states into another analysis. This module follows
the numbers all the way. They are consecutive, each belongs to one instruction that reads the free
memory pointer, and wherever a number occurs at the end, it is one of them.

A state is *grounded* in a context if each open point stands for some allocation, and all
allocations that it lists are numbered in the context and entered there as opened. Contexts only
grow, so a state stays grounded while the run goes on.

## Main results

- `Allocations.Consecutive.fresh`: numbers are handed out one after the other.
- `Slots.Grounded.step`, `Slots.Context.Sound.step`: a step keeps states grounded and contexts
  sound.
- `Slots.sound_of_solve`: so they are at the end.
- `Memory.of_mem_accesses`: what an access is to.
- `MemoryAnalysis.bookkeeping_of_run`: the numbers at the end of the memory analysis.
-/

namespace EvmAccess

/-! ### Consecutive numbers -/

namespace Allocations

variable {a : Allocations} {p q : CodePoint} {slot : Slot}

/-- Some point has this number. -/
def Has (a : Allocations) (slot : Slot) : Prop := ∃ p, a.byPoint.get? p = some slot

/-- No number is given twice, and those that are given are the first ones. -/
structure Consecutive (a : Allocations) : Prop where
  injective : ∀ {p q slot}, a.byPoint.get? p = some slot → a.byPoint.get? q = some slot → p = q
  has_iff : ∀ {slot}, a.Has slot ↔ slot.number < a.byPoint.size

theorem consecutive_empty : empty.Consecutive where
  injective h := by simp [empty] at h
  has_iff := by simp [Has, empty, OrdMap.size]

/-- Asking for a number gives one to the point, and to no other. -/
theorem get?_of_fresh (h : (a.fresh p).2.byPoint.get? q = some slot) :
    q = p ∨ a.byPoint.get? q = some slot := by
  cases hp : a.byPoint.get? p with
  | some slot' =>
    rw [fresh_of_get? hp] at h
    exact Or.inr h
  | none =>
    simp only [fresh, hp, OrdMap.get?_insert] at h
    split at h
    · rename_i heq
      exact Or.inl heq
    · exact Or.inr h

/-- **Numbers are handed out one after the other.** -/
theorem Consecutive.fresh (h : a.Consecutive) (p : CodePoint) : (a.fresh p).2.Consecutive := by
  cases hp : a.byPoint.get? p with
  | some slot => rwa [fresh_of_get? hp]
  | none =>
    -- The new number is the size, which no point has so far.
    have hnew : ∀ q, a.byPoint.get? q ≠ some ⟨a.byPoint.size⟩ := fun q hq =>
      Nat.lt_irrefl _ (h.has_iff.1 ⟨q, hq⟩)
    have hsize : (a.byPoint.insert p ⟨a.byPoint.size⟩).size = a.byPoint.size + 1 :=
      OrdMap.size_insert_of_get?_eq_none hp
    simp only [Allocations.fresh, hp]
    constructor
    · intro q q' slot hq hq'
      simp only [OrdMap.get?_insert] at hq hq'
      split at hq <;> split at hq'
      · rename_i heq heq'
        rw [heq, heq']
      · exact absurd (hq'.trans hq.symm) (hnew q')
      · exact absurd (hq.trans hq'.symm) (hnew q)
      · exact h.injective hq hq'
    · intro slot
      rw [hsize, Nat.lt_succ_iff_lt_or_eq, ← h.has_iff]
      constructor
      · rintro ⟨q, hq⟩
        simp only [OrdMap.get?_insert] at hq
        split at hq
        · rw [← Option.some.inj hq]
          exact Or.inr rfl
        · exact Or.inl ⟨q, hq⟩
      · rintro (⟨q, hq⟩ | heq)
        · have hne : q ≠ p := fun heq => by simp [heq, hp] at hq
          exact ⟨q, by rw [OrdMap.get?_insert, if_neg hne, hq]⟩
        · exact ⟨p, by rw [OrdMap.get?_insert, if_pos rfl, ← heq]⟩

theorem Consecutive.has_iff_mem_upTo (h : a.Consecutive) :
    a.Has slot ↔ slot ∈ Slot.upTo a.byPoint.size := by
  rw [h.has_iff, Slot.upTo, List.mem_map]
  constructor
  · intro hlt
    exact ⟨slot.number, List.mem_range.2 hlt, rfl⟩
  · rintro ⟨k, hk, rfl⟩
    exact List.mem_range.1 hk

end Allocations

/-! ### Grounded states and sound contexts -/

namespace Slots

variable {g : CodeGraph} {entry : BlockId} {i : Instruction} {p : CodePoint} {s t : SlotState}
  {c c' : Context} {slot : Slot}

/-- The allocation is numbered, and entered as opened. -/
def Context.Knows (c : Context) (slot : Slot) : Prop :=
  c.allocations.Has slot ∧ ∃ p, c.ledger.Has p (.opens slot)

theorem Context.Extends.knows (h : c.Extends c') (hslot : c.Knows slot) : c'.Knows slot := by
  obtain ⟨⟨p, hp⟩, q, hq⟩ := hslot
  exact ⟨⟨p, h.allocations p slot hp⟩, q, h.ledger q _ hq⟩

/-- Each open point stands for some allocation, and all allocations that are listed are known. -/
structure Grounded (c : Context) (s : SlotState) : Prop where
  listed : ∀ q ∈ s.opened, ∃ slots slot, s.slots.get? q = some slots ∧ slot ∈ slots
  known : ∀ {q slots slot}, s.slots.get? q = some slots → slot ∈ slots → c.Knows slot

theorem grounded_initial (c : Context) : Grounded c .initial where
  listed q hq := absurd hq (OrdSet.not_mem_empty q)
  known hq := by simp [SlotState.initial] at hq

theorem Grounded.mono (h : Grounded c s) (hext : c.Extends c') : Grounded c' s :=
  { h with known := fun hq hslot => hext.knows (h.known hq hslot) }

/-- What is open is known. -/
theorem Grounded.openSlots (h : Grounded c s) (hslot : slot ∈ s.openSlots) : c.Knows slot := by
  obtain ⟨q, -, slots, hq, hslot⟩ := SlotState.mem_openSlots.1 hslot
  exact h.known hq hslot

theorem Grounded.join (hs : Grounded c s) (ht : Grounded c t) : Grounded c (s.join t) where
  listed q hq := by
    simp only [SlotState.join, OrdMap.get?_unionWith]
    rcases OrdSet.mem_union.1 hq with hq | hq
    · obtain ⟨slots, slot, hslots, hslot⟩ := hs.listed q hq
      cases t.slots.get? q with
      | none => exact ⟨slots, slot, by simp [hslots], hslot⟩
      | some others =>
        exact ⟨slots ∪ others, slot, by simp [hslots], OrdSet.mem_union.2 (Or.inl hslot)⟩
    · obtain ⟨slots, slot, hslots, hslot⟩ := ht.listed q hq
      cases s.slots.get? q with
      | none => exact ⟨slots, slot, by simp [hslots], hslot⟩
      | some others =>
        exact ⟨others ∪ slots, slot, by simp [hslots], OrdSet.mem_union.2 (Or.inr hslot)⟩
  known {q slots slot} hq hslot := by
    simp only [SlotState.join, OrdMap.get?_unionWith] at hq
    cases hsq : s.slots.get? q <;> cases htq : t.slots.get? q <;> simp [hsq, htq] at hq
    · exact ht.known htq (hq ▸ hslot)
    · exact hs.known hsq (hq ▸ hslot)
    · rcases OrdSet.mem_union.1 (hq ▸ hslot) with hslot | hslot
      · exact hs.known hsq hslot
      · exact ht.known htq hslot

/-- An opening point stands for some allocation: a fresh one, or one that is open already. -/
theorem exists_mem_opening (h : ∀ q ∈ s.opened, ∃ slots slot, s.slots.get? q = some slots ∧
    slot ∈ slots) (p : CodePoint) (a : Allocations) : ∃ slot, slot ∈ (opening p s a).1 := by
  rw [opening]
  split
  · exact ⟨_, OrdSet.mem_singleton.2 rfl⟩
  · rename_i hopen
    obtain ⟨q, hq⟩ := OrdSet.exists_mem_of_isEmpty_eq_false (Bool.eq_false_iff.2 hopen)
    obtain ⟨slots, slot, hslots, hslot⟩ := h q hq
    exact ⟨slot, SlotState.mem_openSlots.2 ⟨q, hq, slots, hslots, hslot⟩⟩

/-- What an opening point stands for is known from then on. -/
theorem Grounded.knows_opening (h : Grounded c s) (hopens : i.opensAllocation = true)
    (hslot : slot ∈ (opening p s c.allocations).1) : (step i p s c).2.Knows slot := by
  rw [step_of_opens hopens]
  refine ⟨?_, p, Ledger.has_noteAll (List.mem_map.2 ⟨slot, hslot, rfl⟩)⟩
  rw [opening] at hslot ⊢
  split
  · rename_i hempty
    rw [if_pos hempty] at hslot
    rw [OrdSet.mem_singleton.1 hslot]
    exact ⟨p, c.allocations.get?_fresh p⟩
  · rename_i hopen
    rw [if_neg hopen] at hslot
    exact (h.openSlots hslot).1

/-- **A step leads to a grounded state.** -/
theorem Grounded.step (h : Grounded c s) (i : Instruction) (p : CodePoint) :
    Grounded (step i p s c).2 (step i p s c).1 := by
  have hkept : Grounded (Slots.step i p s c).2 s := h.mono (extends_step i p s c)
  cases ho : i.opensAllocation with
  | true =>
    have hknown : ∀ slot ∈ (opening p s c.allocations).1, (Slots.step i p s c).2.Knows slot :=
      fun slot => h.knows_opening ho
    rw [step_of_opens ho] at hkept hknown ⊢
    constructor
    · intro q hq
      simp only [SlotState.openAt, OrdMap.get?_insert]
      split
      · obtain ⟨slot, hslot⟩ := exists_mem_opening h.listed p c.allocations
        exact ⟨_, slot, rfl, hslot⟩
      · rename_i hne
        exact h.listed q ((OrdSet.mem_insert.1 hq).resolve_left hne)
    · intro q slots slot hq hslot
      simp only [SlotState.openAt, OrdMap.get?_insert] at hq
      split at hq
      · rw [← Option.some.inj hq] at hslot
        exact hknown slot hslot
      · exact hkept.known hq hslot
  | false =>
    cases hc : i.closesAllocations with
    | true =>
      rw [step_of_closes ho hc] at hkept ⊢
      exact ⟨fun q hq => absurd hq (OrdSet.not_mem_empty q), hkept.known⟩
    | false =>
      rw [step_of_not_closes ho hc] at hkept ⊢
      exact hkept

/-- Numbers are consecutive, they belong to reachable instructions that open an allocation, and the
ledger speaks about known allocations only. -/
structure Context.Sound (g : CodeGraph) (entry : BlockId) (c : Context) : Prop where
  consecutive : c.allocations.Consecutive
  opening : ∀ {p slot}, c.allocations.byPoint.get? p = some slot →
    g.flow.Path entry p.block ∧ ∃ i, g.instruction? p = some i ∧ i.Opens
  ledger : c.ledger.Only fun _ a => ∃ slot, (a = .opens slot ∨ a = .closes slot) ∧ c.Knows slot

theorem sound_empty : Context.Sound g entry ⟨.empty, ∅⟩ where
  consecutive := Allocations.consecutive_empty
  opening h := by simp [Allocations.empty] at h
  ledger := Ledger.only_empty

/-- **A step keeps the context sound.** -/
theorem Context.Sound.step (h : c.Sound g entry) (hs : Grounded c s)
    (hpath : g.flow.Path entry p.block) (hi : g.instruction? p = some i) :
    (step i p s c).2.Sound g entry := by
  have hledger : c.ledger.Only fun _ a => ∃ slot, (a = .opens slot ∨ a = .closes slot) ∧
      (Slots.step i p s c).2.Knows slot := h.ledger.mono fun _ _ ⟨slot, ha, hslot⟩ =>
    ⟨slot, ha, (extends_step i p s c).knows hslot⟩
  cases ho : i.opensAllocation with
  | true =>
    have hknown : ∀ slot ∈ (Slots.opening p s c.allocations).1,
        (Slots.step i p s c).2.Knows slot := fun slot => hs.knows_opening ho
    rw [step_of_opens ho] at hledger hknown ⊢
    refine ⟨?_, ?_, hledger.noteAll fun a ha => ?_⟩
    · simp only [Slots.opening]
      split
      · exact h.consecutive.fresh p
      · exact h.consecutive
    · intro q slot hq
      simp only [Slots.opening] at hq
      split at hq
      · rcases Allocations.get?_of_fresh hq with rfl | hq
        · exact ⟨hpath, i, hi, Instruction.opensAllocation_iff.1 ho⟩
        · exact h.opening hq
      · exact h.opening hq
    · obtain ⟨slot, hslot, rfl⟩ := List.mem_map.1 ha
      exact ⟨slot, Or.inl rfl, hknown slot hslot⟩
  | false =>
    cases hc : i.closesAllocations with
    | true =>
      have hknown : ∀ slot ∈ s.openSlots, (Slots.step i p s c).2.Knows slot := fun slot hslot =>
        (extends_step i p s c).knows (hs.openSlots hslot)
      rw [step_of_closes ho hc] at hledger hknown ⊢
      refine ⟨h.consecutive, h.opening, hledger.noteAll fun a ha => ?_⟩
      obtain ⟨slot, hslot, rfl⟩ := List.mem_map.1 ha
      exact ⟨slot, Or.inr rfl, hknown slot hslot⟩
    | false =>
      rw [step_of_not_closes ho hc]
      exact h

/-- Sound contexts and grounded states are an invariant. -/
theorem invariant_sound (g : CodeGraph) (entry : BlockId) :
    domain.Invariant g entry (Context.Sound g entry) fun c _ s => Grounded c s where
  join hs ht := hs.join ht
  context hpath hi hc hs := hc.step hs hpath hi
  next _ _ _ hs := hs.step _ _
  kept _ _ _ _ _ _ ht := ht.mono (extends_step _ _ _ _)
  leave _ _ _ hs := hs

/-- Once the open allocations are found, the context is sound and all recorded states are
grounded. -/
theorem sound_of_solve {config : Config} {r : Run BlockId SlotState}
    (hsolve : MemoryAnalysis.solveSlots g config = .ok (r, c)) :
    c.Sound g config.entry ∧ r.Everywhere fun _ _ s => Grounded c s := by
  obtain ⟨hsound, hgrounded⟩ :=
    (invariant_sound g config.entry).solve sound_empty (grounded_initial _) hsolve
  exact ⟨hsound, fun id f hf j s hs => (hgrounded id f hf j s hs).2⟩

/-- Behind an instruction that opens an allocation, the recorded state has one for it. -/
theorem exists_mem_after_opens {config : Config} {r : Run BlockId SlotState}
    (hsolve : MemoryAnalysis.solveSlots g config = .ok (r, c))
    (hpath : g.flow.Path config.entry p.block) (hi : g.instruction? p = some i) (hopens : i.Opens) :
    ∃ f s slots slot, r.facts.get? p.block = some f ∧ f.stateAt? p.index = some s ∧
      s.slots.get? p = some slots ∧ slot ∈ slots := by
  obtain ⟨f, s, k, hf, hs, hafter⟩ := Domain.exists_before_of_path hsolve hpath hi
  obtain ⟨slot, hslot⟩ := exists_mem_opening
    ((sound_of_solve hsolve).2 p.block f hf p.index s hs).listed p k.allocations
  refine ⟨f, _, _, slot, hf, hafter, ?_, hslot⟩
  change (step i p s k).1.slots.get? p = _
  rw [step_of_opens (Instruction.opensAllocation_iff.2 hopens), SlotState.openAt,
    OrdMap.get?_insert, if_pos rfl]

end Slots

/-! ### Accesses to memory -/

/-- The allocation that an access is about. -/
def Access.slot? : Access → Option Slot
  | .read (.cell c) | .write (.cell c) => some c.slot
  | .opens slot | .closes slot => some slot
  | _ => none

namespace Memory

variable {ev : Evidence} {i : Instruction} {p : CodePoint} {s : MemoryState} {a : Access}
  {position : Option Nat} {c : Cell} {t : Token} {slot : Slot} {k n : Nat}

/-- An address in the allocation is on the stack. -/
def Tracks (s : MemoryState) (slot : Slot) : Prop :=
  ∃ q cells c, s.stack.get? q = some cells ∧ c ∈ cells ∧ c.slot = slot

theorem tracks_of_tracked? {cells : CellSet} (hcells : s.tracked? position = some cells)
    (hc : c ∈ cells) : Tracks s c.slot := by
  obtain ⟨q, -, hq⟩ := Option.bind_eq_some_iff.1 hcells
  exact ⟨q, cells, c, hq, hc, rfl⟩

/-- The token is a memory word with a fixed role, or memory of an allocation of which an address is
on the stack. -/
def Located (s : MemoryState) : Token → Prop
  | .region _ => True
  | .cell c => Tracks s c.slot
  | .key _ => False

theorem located_of_mem_regions (regions : List Region) (h : t ∈ regions.map .region) :
    Located s t := by
  obtain ⟨r, -, rfl⟩ := List.mem_map.1 h
  trivial

theorem located_of_mem_preciseTokens (h : t ∈ preciseTokens s position) : Located s t := by
  rw [preciseTokens] at h
  split at h
  · rename_i cells hcells
    obtain ⟨c, hc, rfl⟩ := List.mem_map.1 h
    exact tracks_of_tracked? hcells hc
  · exact located_of_mem_regions [.unknown] h

theorem located_of_mem_wholeTokens (h : t ∈ wholeTokens s position) : Located s t := by
  obtain ⟨c, hc, rfl⟩ := List.mem_map.1 h
  cases hcells : s.tracked? position with
  | none => simp [hcells] at hc
  | some cells =>
    rw [hcells, Option.getD_some] at hc
    exact tracks_of_tracked? (c := c) hcells hc

theorem located_of_mem_operandTokens (h : t ∈ operandTokens ev p s position) : Located s t := by
  rw [operandTokens] at h
  split at h
  · exact located_of_mem_wholeTokens h
  · split at h
    · cases h
    · exact located_of_mem_regions [.unknown] h

theorem located_of_mem_readTokens (h : t ∈ readTokens ev i p s) : Located s t := by
  simp only [readTokens] at h
  split at h
  case h_5 =>
    split at h
    · exact located_of_mem_wholeTokens h
    · split at h
      · split at h
        · exact located_of_mem_regions [.mem0, .mem32] h
        · exact located_of_mem_regions [.mem0] h
      · exact located_of_mem_regions [.mem0] h
  case h_1 =>
    split at h
    · exact located_of_mem_regions [.mem40] h
    · exact located_of_mem_preciseTokens h
  case h_13 => cases h
  all_goals exact located_of_mem_operandTokens h

theorem located_of_mem_writeTokens (h : t ∈ writeTokens i s) : Located s t := by
  simp only [writeTokens] at h
  split at h
  case h_1 =>
    split at h
    · exact located_of_mem_wholeTokens h
    · exact located_of_mem_regions [.unknown] h
  case h_2 =>
    split at h
    case h_5 => exact located_of_mem_preciseTokens h
    all_goals exact located_of_mem_regions [_] h
  case h_12 => cases h
  all_goals exact located_of_mem_wholeTokens h

/-- **An access reads or writes memory**, words with a fixed role or allocations of which an address
is on the stack, or it strays. -/
theorem of_mem_accesses (ha : a ∈ accesses ev i p s) :
    (∃ t, (a = .read t ∨ a = .write t) ∧ Located s t) ∨ a = .stray := by
  simp only [accesses, List.mem_append, List.mem_map] at ha
  rcases ha with (⟨t, ht, rfl⟩ | ⟨t, ht, rfl⟩) | hstray
  · exact Or.inl ⟨t, Or.inl rfl, located_of_mem_readTokens ht⟩
  · exact Or.inl ⟨t, Or.inr rfl, located_of_mem_writeTokens ht⟩
  · split at hstray
    · exact Or.inr (List.mem_singleton.1 hstray)
    · cases hstray

/-- An access is to an allocation whose address is on the stack, and opens or closes none. -/
theorem tracks_of_mem_accesses (ha : a ∈ accesses ev i p s) (hslot : a.slot? = some slot) :
    Tracks s slot ∧ a ≠ .opens slot ∧ a ≠ .closes slot := by
  rcases of_mem_accesses ha with ⟨t, ha, ht⟩ | rfl
  · cases t with
    | cell c =>
      obtain rfl : c.slot = slot := by rcases ha with rfl | rfl <;> exact Option.some.inj hslot
      rcases ha with rfl | rfl
      · exact ⟨ht, nofun, nofun⟩
      · exact ⟨ht, nofun, nofun⟩
    | _ => rcases ha with rfl | rfl <;> cases hslot
  · cases hslot

theorem InCells.tracks (h : InCells k n s) (hslot : Tracks s slot) : slot ∈ Slot.upTo n := by
  obtain ⟨q, cells, c, hq, hc, rfl⟩ := hslot
  exact (Cell.mem_upTo.1 ((h.1 q cells hq).2 c hc)).1

theorem InCells.mono {k' : Nat} (h : InCells k n s) (hk : k ≤ k') : InCells k' n s :=
  ⟨fun q cells hq => ⟨List.mem_range.2
    (Nat.lt_of_lt_of_le (List.mem_range.1 (h.1 q cells hq).1) hk), (h.1 q cells hq).2⟩, h.2⟩

theorem InCells.join (ev : Evidence) {t : MemoryState} (hs : InCells k n s) (ht : InCells k n t) :
    InCells k n (s.join t) :=
  ((((CellSet.landmarks n).pointwise (List.range k)).prod
    (AbstractMemory.landmarks n)).of_embeds (embeds ev)).closed hs ht

theorem exists_inCells_join (ev : Evidence) {t : MemoryState} (hs : ∃ k, InCells k n s)
    (ht : ∃ k, InCells k n t) : ∃ k, InCells k n (s.join t) := by
  obtain ⟨k, hs⟩ := hs
  obtain ⟨k', ht⟩ := ht
  exact ⟨k + k', (hs.mono (by omega)).join ev (ht.mono (by omega))⟩

/-- With enough positions there is always room on the stack. -/
theorem exists_inCells_next (hev : ev.InCells n) (hs : ∃ k, InCells k n s) :
    ∃ k, InCells k n (next ev i p s) := by
  obtain ⟨k, hs⟩ := hs
  exact ⟨k + s.height + 1, (hs.mono (by omega)).next hev (by omega)⟩

/-- States that mention only the first `n` allocations are an invariant, and so are ledgers that
mention only these, and keep what was entered before in `l`. -/
theorem invariant_inCells (g : CodeGraph) (entry : BlockId) (hev : ev.InCells n) (l : Ledger) :
    (domain ev).Invariant g entry
      (fun l' => l.Extends l' ∧ l'.Only fun _ a => ∀ slot, a.slot? = some slot →
        slot ∈ Slot.upTo n ∧ (a = .closes slot → ∃ q, l.Has q (.opens slot)))
      fun _ _ s => ∃ k, InCells k n s where
  join hs ht := exists_inCells_join ev hs ht
  context := by
    rintro p i s l' - - ⟨hext, honly⟩ ⟨k, hs⟩
    refine ⟨fun q a ha => (hext q a ha).noteAll p _, honly.noteAll fun a ha slot hslot => ?_⟩
    obtain ⟨htracks, -, hcloses⟩ := tracks_of_mem_accesses ha hslot
    exact ⟨hs.tracks htracks, fun h => absurd h hcloses⟩
  next _ _ _ hs := exists_inCells_next hev hs
  kept _ _ _ _ _ _ ht := ht
  leave _ _ _ hs := hs

end Memory

/-! ### From one analysis to the next -/

namespace Slots.Context.Sound

variable {g : CodeGraph} {entry : BlockId} {c : Context} {slot : Slot}

theorem mem_upTo (h : c.Sound g entry) (hslot : c.Knows slot) :
    slot ∈ Slot.upTo c.allocations.byPoint.size :=
  h.consecutive.has_iff_mem_upTo.1 hslot.1

/-- Grounded states are evidence of numbered allocations only. -/
theorem inCells (h : c.Sound g entry) {r : Run BlockId SlotState}
    (hr : r.Everywhere fun _ _ s => Grounded c s) (offsets : Run BlockId OffsetState) :
    Memory.Evidence.InCells c.allocations.byPoint.size ⟨r, offsets⟩ := by
  intro b f hf
  have hrecorded : r.Recorded (Grounded c) := hr.recorded fun _ _ _ hs => hs
  obtain ⟨hinput, hstates⟩ := hrecorded b f hf
  exact ⟨fun _ _ hq _ hslot => h.mem_upTo (hinput.known hq hslot),
    fun s hs _ _ hq _ hslot => h.mem_upTo ((hstates s hs).known hq hslot)⟩

/-- The ledger speaks about numbered allocations only, and what it closes it opens. -/
theorem ledger_upTo (h : c.Sound g entry) :
    c.ledger.Only fun _ a => ∀ slot, a.slot? = some slot →
      slot ∈ Slot.upTo c.allocations.byPoint.size ∧
        (a = .closes slot → ∃ q, c.ledger.Has q (.opens slot)) := by
  refine h.ledger.mono fun _ a ha slot hslot => ?_
  obtain ⟨slot', ha, hknows⟩ := ha
  obtain rfl : slot' = slot := by rcases ha with rfl | rfl <;> exact Option.some.inj hslot
  exact ⟨h.mem_upTo hknows, fun _ => hknows.2⟩

end Slots.Context.Sound

/-! ### The memory analysis -/

namespace MemoryAnalysis

variable {g : CodeGraph} {config : Config} {a : MemoryAnalysis}

/-- How the numbers of allocations hang together in the result of the memory analysis. -/
structure Bookkeeping (g : CodeGraph) (entry : BlockId) (a : MemoryAnalysis) : Prop where
  /-- No number is given twice, and those that are given are the first ones. -/
  consecutive : a.allocations.Consecutive
  /-- Numbers belong to instructions that paths lead to and that read the free memory pointer. -/
  opening : ∀ {p slot}, a.allocations.byPoint.get? p = some slot →
    g.flow.Path entry p.block ∧ ∃ i, g.instruction? p = some i ∧ i.Opens
  /-- In every recorded state each open point stands for some allocation. -/
  listed : a.slots.Recorded fun s =>
    ∀ q ∈ s.opened, ∃ slots slot, s.slots.get? q = some slots ∧ slot ∈ slots
  /-- Behind every instruction that paths lead to and that reads the free memory pointer, the
  recorded state has some allocation for it. -/
  opened : ∀ {p i}, g.flow.Path entry p.block → g.instruction? p = some i → i.Opens →
    ∃ f s slots slot, a.slots.facts.get? p.block = some f ∧ f.stateAt? p.index = some s ∧
      s.slots.get? p = some slots ∧ slot ∈ slots
  /-- The allocations that open points stand for have numbers. -/
  slots : a.slots.Recorded fun s => ∀ q slots, s.slots.get? q = some slots →
    ∀ slot ∈ slots, a.allocations.Has slot
  /-- The allocations whose addresses are on the stack have numbers. -/
  stack : a.memory.Recorded fun s => ∀ q cells, s.stack.get? q = some cells →
    ∀ c ∈ cells, a.allocations.Has c.slot
  /-- The allocations that hold addresses have numbers, and so have those of the addresses. -/
  memory : a.memory.Recorded fun s => ∀ c content, s.memory.get? c = some content →
    a.allocations.Has c.slot ∧ ∀ d ∈ content, a.allocations.Has d.slot
  /-- The allocations that are read, written, opened or closed have numbers. -/
  ledger : ∀ {p access slot}, a.ledger.Has p access → access.slot? = some slot →
    a.allocations.Has slot
  /-- What is closed at some point is opened at some point. -/
  closed : ∀ {p slot}, a.ledger.Has p (.closes slot) → ∃ q, a.ledger.Has q (.opens slot)

/-- **The bookkeeping of allocations is consistent**, whenever the memory analysis succeeds. -/
theorem bookkeeping_of_run (h : run g config = .ok a) : a.Bookkeeping g config.entry := by
  obtain ⟨c, -, hslots, -, hmemory, halloc, -, -⟩ := run_eq_ok_iff.1 h
  obtain ⟨hsound, hgrounded⟩ := Slots.sound_of_solve hslots
  -- The memory analysis starts with the ledger in which the allocations were entered.
  obtain ⟨⟨hext, honly⟩, hcells⟩ := (Memory.invariant_inCells g config.entry
      (hsound.inCells hgrounded a.offsets) c.ledger).solve
    ⟨fun _ _ ha => ha, hsound.ledger_upTo⟩ ⟨0, Memory.inCells_initial 0 _⟩ hmemory
  have hslot : ∀ {slot}, slot ∈ Slot.upTo c.allocations.byPoint.size → a.allocations.Has slot :=
    fun hslot => halloc ▸ hsound.consecutive.has_iff_mem_upTo.2 hslot
  have hcell : ∀ {d : Cell}, d ∈ Cell.upTo c.allocations.byPoint.size → a.allocations.Has d.slot :=
    fun hd => hslot (Cell.mem_upTo.1 hd).1
  exact
    { consecutive := halloc ▸ hsound.consecutive
      opening := fun hp => hsound.opening (halloc ▸ hp)
      listed := hgrounded.recorded fun _ _ _ hs => hs.listed
      opened := Slots.exists_mem_after_opens hslots
      slots := hgrounded.recorded fun _ _ _ hs _ _ hq _ hmem =>
        hslot (hsound.mem_upTo (hs.known hq hmem))
      stack := hcells.recorded fun _ _ s ⟨_, _, hs⟩ q cells hq d hd =>
        hcell ((hs.1 q cells hq).2 d hd)
      memory := hcells.recorded fun _ _ s ⟨_, _, hs⟩ d content hd =>
        ⟨hcell (hs.2 d content hd).1, fun d' hd' => hcell ((hs.2 d content hd).2 d' hd')⟩
      ledger := by
        intro p access slot haccess hnamed
        obtain ⟨q, hq⟩ := honly.of_has haccess
        exact hslot (hq slot hnamed).1
      closed := by
        intro p slot hclosed
        obtain ⟨q, hq⟩ := honly.of_has hclosed
        obtain ⟨q', hq'⟩ := (hq slot rfl).2 rfl
        exact ⟨q', hext q' _ hq'⟩ }

/-- The loop that closes its allocation in each round has one number, which is opened where the free
memory pointer is read. -/
theorem bookkeeping_bumping :
    ∃ a, run Slots.bumping ⟨false, 0, ⟨0, none⟩⟩ = .ok a ∧
      a.ledger.Has ⟨⟨7, none⟩, 1⟩ (.closes ⟨0⟩) ∧ (∃ q, a.ledger.Has q (.opens ⟨0⟩)) ∧
      a.allocations.Has ⟨0⟩ ∧ ¬ a.allocations.Has ⟨1⟩ := by
  have hrun : (run Slots.bumping ⟨false, 0, ⟨0, none⟩⟩).toOption.map (fun a =>
      (a.allocations.byPoint.size, (a.ledger.closed.atPoint ⟨⟨7, none⟩, 1⟩).toList)) =
        some (1, [⟨0⟩]) := rfl
  cases ha : run Slots.bumping ⟨false, 0, ⟨0, none⟩⟩ with
  | error fault => simp [ha, Except.toOption] at hrun
  | ok a =>
    rw [ha] at hrun
    obtain ⟨hsize, hlist⟩ := Prod.mk.inj (Option.some.inj hrun)
    have hbook := bookkeeping_of_run ha
    have hclosed : a.ledger.Has ⟨⟨7, none⟩, 1⟩ (.closes ⟨0⟩) := by
      change _ ∈ (a.ledger.closed.atPoint _).toList
      rw [hlist]
      exact List.mem_singleton_self _
    refine ⟨a, rfl, hclosed, hbook.closed hclosed, hbook.ledger hclosed rfl, ?_⟩
    rw [hbook.consecutive.has_iff, hsize]
    exact Nat.lt_irrefl 1

end MemoryAnalysis

end EvmAccess
