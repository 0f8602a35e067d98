import EvmAccess.Proofs.Access.Ledger
import EvmAccess.Proofs.Domain.MemoryOrder
import EvmAccess.Proofs.Domain.OffsetOrder
import EvmAccess.Proofs.Domain.OpenAllocations
import EvmAccess.Proofs.Flow.Replay

/-!
# The analyses are closed under replay

An analysis enters accesses in its ledger, and numbers allocations, while it still changes its mind
about the states. Nevertheless its result is complete: executing the reached blocks once more from
their final inputs finds no access that is not in the ledger, and no allocation without a number.

Constants and memory addresses only ever note accesses, and noting an access again changes nothing.
Open allocations also look into the numbering: a point that opens an allocation gets the number it
has, or the next one. So here a step repeats itself once its point has a number, and numbers are
never taken back. The ledger grows after the open allocations were found, and that does no harm
either.

## Main results

- `Slots.Context.Extends.repeats`: what repeats itself goes on doing so when the context grows.
- `Slots.notes_repeats`, `Offsets.notes_repeats`, `Memory.notes_repeats`: steps repeat themselves.
- `analyses_closedUnderReplay`: the results of both analyses are closed under replay.
-/

namespace EvmAccess

/-! ### Numbers of allocations -/

namespace Allocations

variable {a a' : Allocations} {p : CodePoint} {slot : Slot}

theorem fresh_of_get? (h : a.byPoint.get? p = some slot) : a.fresh p = (slot, a) := by
  rw [fresh, h]

/-- A point has a number once it was asked for. -/
theorem get?_fresh (a : Allocations) (p : CodePoint) :
    (a.fresh p).2.byPoint.get? p = some (a.fresh p).1 := by
  cases h : a.byPoint.get? p with
  | some slot => rw [fresh_of_get? h, h]
  | none => simp [fresh, h, OrdMap.get?_insert]

/-- All numbers that were given are kept. -/
def Extends (a a' : Allocations) : Prop :=
  ∀ p slot, a.byPoint.get? p = some slot → a'.byPoint.get? p = some slot

theorem extends_fresh (a : Allocations) (p : CodePoint) : a.Extends (a.fresh p).2 := by
  intro q slot hq
  cases hp : a.byPoint.get? p with
  | some slot' => rwa [fresh_of_get? hp]
  | none =>
    have hne : q ≠ p := by
      rintro rfl
      rw [hp] at hq
      cases hq
    simp [fresh, hp, OrdMap.get?_insert, hne, hq]

/-- A point that has its number already keeps it. -/
theorem Extends.fresh_eq (h : a.Extends a') (ha : (a.fresh p).2 = a) :
    a'.fresh p = ((a.fresh p).1, a') := by
  have hp := get?_fresh a p
  rw [ha] at hp
  exact fresh_of_get? (h p _ hp)

end Allocations

/-! ### Open allocations -/

namespace Slots

variable {i : Instruction} {p : CodePoint} {s t : SlotState} {a a' : Allocations} {c c' : Context}

theorem extends_opening (p : CodePoint) (s : SlotState) (a : Allocations) :
    a.Extends (opening p s a).2 := by
  rw [opening]
  split
  · exact a.extends_fresh p
  · exact fun _ _ h => h

theorem opening_eq (h : a.Extends a') (ha : (opening p s a).2 = a) :
    opening p s a' = ((opening p s a).1, a') := by
  unfold opening at ha ⊢
  split
  · rename_i hempty
    rw [if_pos hempty] at ha
    rw [h.fresh_eq ha]
  · rfl

theorem opening_opening (p : CodePoint) (s : SlotState) (a : Allocations) :
    opening p s (opening p s a).2 = opening p s a := by
  unfold opening
  split
  · rw [Allocations.fresh_of_get? (a.get?_fresh p)]
  · rfl

/-- All numbers are kept, and all entries of the ledger. -/
structure Context.Extends (c c' : Context) : Prop where
  allocations : c.allocations.Extends c'.allocations
  ledger : c.ledger.Extends c'.ledger

/-- A step takes nothing back. -/
theorem extends_step (i : Instruction) (p : CodePoint) (s : SlotState) (c : Context) :
    c.Extends (step i p s c).2 := by
  cases ho : i.opensAllocation with
  | true =>
    rw [step_of_opens ho]
    exact ⟨extends_opening p s _, Ledger.extends_noteAll _ _ _⟩
  | false =>
    cases hc : i.closesAllocations with
    | true =>
      rw [step_of_closes ho hc]
      exact ⟨fun _ _ h => h, Ledger.extends_noteAll _ _ _⟩
    | false =>
      rw [step_of_not_closes ho hc]
      exact ⟨fun _ _ h => h, fun _ _ h => h⟩

/-- **What repeats itself goes on doing so when the context grows.** -/
theorem Context.Extends.repeats (hext : c.Extends c') (h : domain.Repeats i p s t c) :
    domain.Repeats i p s t c' := by
  have h : step i p s c = (t, c) := h
  change step i p s c' = (t, c')
  cases ho : i.opensAllocation with
  | true =>
    obtain ⟨a, l⟩ := c
    rw [step_of_opens ho] at h ⊢
    simp only [Prod.mk.injEq, Context.mk.injEq] at h
    obtain ⟨rfl, ha, hl⟩ := h
    rw [opening_eq hext.allocations ha, hext.ledger.noteAll_eq_self hl]
  | false =>
    cases hc : i.closesAllocations with
    | true =>
      obtain ⟨a, l⟩ := c
      rw [step_of_closes ho hc] at h ⊢
      simp only [Prod.mk.injEq, Context.mk.injEq, true_and] at h
      obtain ⟨rfl, hl⟩ := h
      rw [hext.ledger.noteAll_eq_self hl]
    | false =>
      rw [step_of_not_closes ho hc] at h ⊢
      rw [(Prod.mk.inj h).1]

/-- A step that was taken repeats itself, then and later. -/
theorem notes_repeats : domain.Notes domain.Repeats where
  own i p s c := by
    change step i p s (step i p s c).2 = ((step i p s c).1, (step i p s c).2)
    cases ho : i.opensAllocation with
    | true => simp only [step_of_opens ho, opening_opening, Ledger.noteAll_noteAll]
    | false =>
      cases hc : i.closesAllocations with
      | true => simp only [step_of_closes ho hc, Ledger.noteAll_noteAll]
      | false => simp only [step_of_not_closes ho hc]
  kept h i' p' s' := (extends_step i' p' s' _).repeats h

end Slots

/-! ### Constants and memory addresses -/

theorem Offsets.notes_repeats : domain.Notes domain.Repeats where
  own i p s c := by
    cases c with
    | none => rfl
    | some l => exact congrArg (fun l => (next i s, some l)) (l.noteAll_noteAll p (accesses i s))
  kept {i p s t c} h i' p' s' := by
    cases c with
    | none => exact h
    | some l =>
      obtain ⟨rfl, hl⟩ := Prod.mk.inj h
      have hl : l.noteAll p (accesses i s) = l := Option.some.inj hl
      exact congrArg (fun l => (next i s, some l))
        ((l.extends_noteAll p' (accesses i' s')).noteAll_eq_self hl)

theorem Memory.notes_repeats (ev : Evidence) : (domain ev).Notes (domain ev).Repeats where
  own i p s l := congrArg (Prod.mk (next ev i p s)) (l.noteAll_noteAll p (accesses ev i p s))
  kept {i p s t l} h i' p' s' := by
    obtain ⟨rfl, hl⟩ := Prod.mk.inj h
    exact congrArg (Prod.mk (next ev i p s))
      ((l.extends_noteAll p' (accesses ev i' p' s')).noteAll_eq_self hl)

/-! ### The analyses -/

/-- A solved domain is closed under replay in every context in which the steps repeat themselves
that do so in its final context. -/
theorem Domain.closedUnderReplay_of_solve {σ γ : Type} {d : Domain BlockId Instruction σ γ}
    {g : CodeGraph} {config : Config} {s₀ : σ} {r : Run BlockId σ} {c c' c'' : γ} (ho : d.Lawful)
    (hN : d.Notes d.Repeats) (hsolve : d.solve g config s₀ c = .ok (r, c'))
    (hext : ∀ {i p s t}, d.Repeats i p s t c' → d.Repeats i p s t c'') :
    (d.engine g config).ClosedUnderReplay r c'' := by
  obtain ⟨r₀, hstart, hrun⟩ := solve_eq_ok_iff.1 hsolve
  refine Engine.closedUnderReplay_of_noted ho hstart hrun fun b f n hf hn j i s t hi hs ht => ?_
  exact hext (Engine.noted_of_analyze (e := d.engine g config) hN hstart hrun b f n hf hn j i s t
    hi hs ht)

/-- **The results of the analyses are closed under replay.** Whenever the memory analysis succeeds,
executing any block again, for the open allocations, the constants or the memory addresses, hands
over nothing new, goes through the recorded states, numbers no allocation and enters nothing in the
ledger. The same holds for the constants and the ledger of the storage analysis. -/
theorem analyses_closedUnderReplay (g : CodeGraph) (config : Config) :
    (∀ a, MemoryAnalysis.run g config = .ok a →
      (Slots.domain.engine g config).ClosedUnderReplay a.slots ⟨a.allocations, a.ledger⟩ ∧
      (Offsets.domain.engine g config).ClosedUnderReplay a.offsets none ∧
      ((Memory.domain ⟨a.slots, a.offsets⟩).engine g config).ClosedUnderReplay a.memory a.ledger) ∧
    (∀ a, StorageAnalysis.run g config = .ok a →
      (Offsets.domain.engine g config).ClosedUnderReplay a.offsets (some a.ledger)) := by
  constructor
  · intro a ha
    obtain ⟨c, c', hslots, hoffsets, hmemory, halloc, -, -⟩ := MemoryAnalysis.run_eq_ok_iff.1 ha
    -- The memory addresses were found last, and their accesses came on top of the others.
    have hext : c.Extends ⟨a.allocations, a.ledger⟩ := by
      refine ⟨fun p slot h => by rwa [halloc], ?_⟩
      refine Domain.context_of_solve (C := c.ledger.Extends) ?_ hmemory fun _ _ h => h
      exact fun s l _ hl q access h => (hl q access h).noteAll _ _
    have hnone : c' = none :=
      Domain.context_of_solve (C := (· = none)) (fun _ _ _ hc => by rw [hc]; rfl) hoffsets rfl
    refine ⟨?_, ?_, ?_⟩
    · exact Domain.closedUnderReplay_of_solve Slots.lawful Slots.notes_repeats hslots hext.repeats
    · exact Domain.closedUnderReplay_of_solve Offsets.lawful Offsets.notes_repeats hoffsets
        fun h => hnone ▸ h
    · exact Domain.closedUnderReplay_of_solve (Memory.lawful _) (Memory.notes_repeats _) hmemory id
  · intro a ha
    obtain ⟨c, hoffsets, hledger, -⟩ := StorageAnalysis.run_eq_ok_iff.1 ha
    obtain ⟨l, rfl, -⟩ := Offsets.exists_ledger_of_solve hoffsets
    rw [hledger]
    exact Domain.closedUnderReplay_of_solve Offsets.lawful Offsets.notes_repeats hoffsets id

/-- Every round of a loop asks for the free memory pointer, writes to the allocation, and reads the
storage. -/
def looping : CodeGraph where
  blocks :=
    [⟨⟨0, none⟩, 0, 9, .conditional,
       [⟨.push1, some "0x40"⟩, ⟨.mload, some "64"⟩, ⟨.dup1, none⟩, ⟨.dup1, none⟩, ⟨.mstore, none⟩,
        ⟨.sload, none⟩, ⟨.push1, some "0x00"⟩, ⟨.jumpi, none⟩],
       .block ⟨0, none⟩, some ⟨10, none⟩, ∅⟩,
     ⟨⟨10, none⟩, 10, 10, .terminal, [⟨.stop, none⟩], .none, none, ∅⟩]
  increasing := by decide
  shaped := by decide
  closed := by decide

/-- The program is analysed from its first block, without a limit. -/
def loopingConfig : Config := ⟨false, 0, ⟨0, none⟩⟩

/-- The loop is visited twice for the open allocations: at first its point opens a fresh allocation,
and in the second round it stands for the one that is open. -/
theorem closedUnderReplay_looping :
    ∃ a b, MemoryAnalysis.run looping loopingConfig = .ok a ∧
      StorageAnalysis.run looping loopingConfig = .ok b ∧ a.slots.visits = 3 ∧
      (Slots.domain.engine looping loopingConfig).ClosedUnderReplay a.slots
        ⟨a.allocations, a.ledger⟩ ∧
      (Offsets.domain.engine looping loopingConfig).ClosedUnderReplay a.offsets none ∧
      ((Memory.domain ⟨a.slots, a.offsets⟩).engine looping loopingConfig).ClosedUnderReplay a.memory
        a.ledger ∧
      (Offsets.domain.engine looping loopingConfig).ClosedUnderReplay b.offsets
        (some b.ledger) := by
  have hvisits : (MemoryAnalysis.run looping loopingConfig).toOption.map (·.slots.visits) =
      some 3 := rfl
  have hstorage : (StorageAnalysis.run looping loopingConfig).isOk = true := rfl
  cases ha : MemoryAnalysis.run looping loopingConfig with
  | error fault => simp [ha, Except.toOption] at hvisits
  | ok a =>
    cases hb : StorageAnalysis.run looping loopingConfig with
    | error fault => simp [hb, Except.isOk, Except.toBool] at hstorage
    | ok b =>
      rw [ha] at hvisits
      obtain ⟨hmemory, hstorage⟩ := analyses_closedUnderReplay looping loopingConfig
      obtain ⟨hslots, hoffsets, hmemory⟩ := hmemory a ha
      exact ⟨a, b, rfl, rfl, Option.some.inj hvisits, hslots, hoffsets, hmemory, hstorage b hb⟩

end EvmAccess
