import EvmAccess.Proofs.Access.Locations
import EvmAccess.Proofs.Allocations
import EvmAccess.Proofs.Domain.KeptOffsets
import EvmAccess.Proofs.Domain.Sums

/-!
# Constants stay small and aligned

Only multiples of a granularity are followed, and only up to a bound. Constants enter below the
bound, and a sum may reach it but not exceed it. This holds along every way in which states are
made, also where two ways meet, so it holds of all states of the constants domain, whatever the
program.

The memory domain gets its constants from there, but does not rely on it: a shift tests the bound
and the alignment of every sum itself. In all states of the memory analysis the offsets of
addresses, on the stack, in memory and as keys of memory, are multiples of the word size up to the
same bound.

## Main definitions

- `Domain.Obtained`: the states that instructions and joins lead to.
- `OffsetState.Followed`, `MemoryState.Followed`: all constants of a state are followed.

## Main results

- `Domain.obtained_of_solve`: all recorded states are obtained.
- `Offsets.every_followed_of_obtained`, `Memory.followed_of_obtained`: the two domains.
- `constants_followed`: constants stay small and aligned.
-/

namespace EvmAccess

/-! ### States that instructions and joins lead to -/

section Obtained

variable {σ γ : Type}

/-- The states that instructions, at any points and in any contexts, and joins lead to. -/
inductive Domain.Obtained (d : Domain BlockId Instruction σ γ) (s₀ : σ) : σ → Prop
  | initial : d.Obtained s₀ s₀
  | step {s : σ} (i : Instruction) (p : CodePoint) (c : γ) :
      d.Obtained s₀ s → d.Obtained s₀ (d.step i p s c).1
  | join {s t : σ} : d.Obtained s₀ s → d.Obtained s₀ t → d.Obtained s₀ (d.join s t)

/-- The state is recorded at the start or the end of a block, or behind an instruction. -/
def Run.Has (r : Run BlockId σ) (s : σ) : Prop :=
  ∃ id f, r.facts.get? id = some f ∧ (s ∈ f.input :: f.states ∨ f.output = some s)

variable {d : Domain BlockId Instruction σ γ} {g : CodeGraph} {config : Config} {s₀ s : σ}
  {r : Run BlockId σ} {c c' : γ}

theorem Run.has_of_stateAt? {id : BlockId} {index : Nat}
    (h : (r.facts.get? id).bind (·.stateAt? index) = some s) : r.Has s := by
  obtain ⟨f, hf, hs⟩ := Option.bind_eq_some_iff.1 h
  exact ⟨id, f, hf, Or.inl (List.mem_cons_of_mem _ (List.mem_of_getElem? hs))⟩

/-- All recorded states are obtained from the first one. -/
theorem Domain.obtained_of_solve (hsolve : d.solve g config s₀ c = .ok (r, c')) (h : r.Has s) :
    d.Obtained s₀ s := by
  obtain ⟨r₀, hstart, hrun⟩ := solve_eq_ok_iff.1 hsolve
  have hrecorded : r.Recorded (d.Obtained s₀) :=
    Engine.recorded_of_analyze (e := d.engine g config) (fun _ _ hs ht => .join hs ht)
      (fun i p _ c hs => .step i p c hs) .initial hstart hrun
  obtain ⟨id, f, hf, hs⟩ := h
  have hmem : s ∈ f.input :: f.states := by
    rcases hs with hs | hs
    · exact hs
    · -- The state at the end of a block is that behind its last instruction.
      obtain ⟨n, k, -, hex⟩ := Engine.executed_of_analyze hstart hrun hf
      have hfinal : f.output = some (Domain.final f.input f.states) := by rw [hex]; rfl
      rw [Option.some.inj (hs.symm.trans hfinal)]
      exact Domain.final_mem _ _
  obtain ⟨hinput, hstates⟩ := hrecorded id f hf
  rcases List.mem_cons.1 hmem with rfl | hs
  · exact hinput
  · exact hstates s hs

end Obtained

/-! ### The constants domain -/

instance (target : Target) : (o : Offset) → Decidable (o.Followed target)
  | .exact _ => inferInstanceAs (Decidable (_ ∧ _))
  | .beyond | .any => isTrue trivial

theorem Offset.followed_iff {target : Target} {o : Offset} : o.Followed target ↔
    ∀ value, o = .exact value → value ≤ target.bound ∧ value % target.granularity = 0 := by
  cases o with
  | exact value =>
    constructor
    · rintro h _ ⟨⟩
      exact h
    · exact fun h => h value rfl
  | beyond | any => simp [Followed]

theorem Offset.Followed.multipleOf {target : Target} {o : Offset} (h : o.Followed target) :
    o.MultipleOf target.granularity :=
  fun value hvalue => (followed_iff.1 h value hvalue).2

/-- **Sums may reach the bound, and keep the alignment**; all other sources are below the bound. -/
theorem Target.keeps_followed (target : Target) : target.Keeps (Offset.Followed target) where
  any := trivial
  pushed hlt haligned := ⟨Nat.le_of_lt hlt, haligned⟩
  plus ha hb := by
    refine Offset.followed_iff.2 fun value hvalue => ?_
    obtain ⟨x, y, -, -, -, hle⟩ := Offset.plus_eq_exact_iff.1 hvalue
    exact ⟨hle, ha.multipleOf.plus hb.multipleOf target.bound value hvalue⟩

/-- The set has a member, `any` stands alone in it, and its exact numbers are followed. -/
structure OffsetSet.Followed (target : Target) (v : OffsetSet) : Prop where
  nonempty : ∃ o, o ∈ v
  alone : .any ∈ v → ∀ o ∈ v, o = .any
  members : ∀ o ∈ v, o.Followed target

theorem OffsetSet.Every.followed {target : Target} {v : OffsetSet}
    (h : v.Every (Offset.Followed target)) : v.Followed target where
  nonempty := v.exists_mem
  alone hany := OffsetSet.eq_singleton_iff.1 (OffsetSet.ext (v.absorbing hany))
  members := h

/-- All sets of the state are as they should be, and only followed words are listed. -/
structure OffsetState.Followed (target : Target) (s : OffsetState) : Prop where
  stack : s.stack.Every fun _ v => v.Followed target
  words : s.words.Every fun a v => a ∈ [0, 32, 64] ∧ v.Followed target

/-- All states for a target have followed offsets only. -/
theorem Offsets.every_followed_of_obtained {target : Target} {s : OffsetState}
    (h : domain.Obtained (.initial target) s) :
    s.target = target ∧ Every (Offset.Followed target) s := by
  induction h with
  | initial => exact ⟨rfl, every_initial target⟩
  | step i p c _ ih =>
    obtain ⟨rfl, hs⟩ := ih
    exact ⟨rfl, hs.next (Target.keeps_followed _) i⟩
  | join _ _ ihs iht => exact ⟨ihs.1, ihs.2.join iht.2 trivial⟩

/-! ### The memory domain -/

/-- All exact offsets of cells, on the stack and in memory, are followed. -/
structure MemoryState.Followed (s : MemoryState) : Prop where
  stack : s.stack.Every fun _ cells => ∀ c ∈ cells, c.offset.Followed .memory
  memory : s.memory.Every fun c content =>
    c.offset.Followed .memory ∧ ∀ d ∈ content, d.offset.Followed .memory

namespace Memory

variable {ev : Evidence} {s : MemoryState} {k n : Nat}

/-- The offsets that occur inside an allocation are followed. -/
theorem followed_of_mem_upTo {c : Cell} (hc : c ∈ Cell.upTo n) : c.offset.Followed .memory := by
  have hoffsets : ∀ o ∈ Cell.offsets, o.Followed .memory := by decide
  exact hoffsets c.offset (Cell.mem_upTo.1 hc).2

theorem InCells.followed (h : InCells k n s) : s.Followed where
  stack q cells hq c hc := followed_of_mem_upTo ((h.1 q cells hq).2 c hc)
  memory c content hc :=
    ⟨followed_of_mem_upTo (h.2 c content hc).1,
      fun d hd => followed_of_mem_upTo ((h.2 c content hc).2 d hd)⟩

/-- With evidence of finitely many allocations, only their cells occur. -/
theorem followed_of_obtained (hev : ev.InCells n) (h : (domain ev).Obtained .initial s) :
    s.Followed := by
  have hcells : ∃ k, InCells k n s := by
    induction h with
    | initial => exact ⟨0, inCells_initial 0 n⟩
    | step i p c _ ih => exact exists_inCells_next hev ih
    | join _ _ ihs iht => exact exists_inCells_join ev ihs iht
  obtain ⟨k, hcells⟩ := hcells
  exact hcells.followed

end Memory

/-! ### All states -/

namespace MemoryAnalysis

/-- The memory analysis uses evidence of the allocations that were numbered before. -/
theorem exists_inCells_of_run {g : CodeGraph} {config : Config} {a : MemoryAnalysis}
    (h : run g config = .ok a) : ∃ n, Memory.Evidence.InCells n ⟨a.slots, a.offsets⟩ := by
  obtain ⟨c, -, hslots, -⟩ := run_eq_ok_iff.1 h
  obtain ⟨hsound, hgrounded⟩ := Slots.sound_of_solve hslots
  exact ⟨_, hsound.inCells hgrounded a.offsets⟩

end MemoryAnalysis

/-- **Constants stay small and aligned.** In every state that instructions and joins lead to from
the initial state for a target, the sets have members, `any` stands alone, exact numbers are
multiples of the granularity up to the bound, and only the words at 0, 32 and 64 are listed. And in
every state that the memory analysis of a program comes to or records, the exact offsets of all
cells are multiples of 32 up to 128. -/
theorem constants_followed :
    (∀ target s, Offsets.domain.Obtained (.initial target) s → s.Followed target) ∧
    ∀ g config a, MemoryAnalysis.run g config = .ok a →
      ∀ s, (Memory.domain ⟨a.slots, a.offsets⟩).Obtained .initial s ∨ a.memory.Has s →
        s.Followed := by
  constructor
  · intro target s hs
    obtain ⟨-, hstack, hwords⟩ := Offsets.every_followed_of_obtained hs
    exact ⟨hstack.mono fun _ _ hv => hv.followed, hwords.mono fun _ _ hv => ⟨hv.1, hv.2.followed⟩⟩
  · intro g config a hrun s hs
    obtain ⟨n, hev⟩ := MemoryAnalysis.exists_inCells_of_run hrun
    obtain ⟨c, -, -, -, hmemory, -⟩ := MemoryAnalysis.run_eq_ok_iff.1 hrun
    rcases hs with hs | hs
    · exact Memory.followed_of_obtained hev hs
    · exact Memory.followed_of_obtained hev (Domain.obtained_of_solve hmemory hs)

/-- A program that adds two constants to the bound, adds the sum to an address, and then goes beyond
the bound. -/
def reaching : CodeGraph where
  blocks :=
    [⟨⟨0, none⟩, 0, 13, .terminal,
       [⟨.push1, some "0x60"⟩, ⟨.push1, some "0x20"⟩, ⟨.add, none⟩, ⟨.push1, some "0x40"⟩,
        ⟨.mload, some "64"⟩, ⟨.add, none⟩, ⟨.push1, some "0x20"⟩, ⟨.add, none⟩, ⟨.stop, none⟩],
       .none, none, ∅⟩]
  increasing := by decide
  shaped := by decide
  closed := by decide

/-- The sum reaches the bound, and so does the address. -/
theorem followed_reaching :
    ∃ a o s, MemoryAnalysis.run reaching ⟨false, 0, ⟨0, none⟩⟩ = .ok a ∧
      a.offsets.Has o ∧ o.stack.get? 0 = some (.singleton (.exact 128)) ∧ o.Followed .memory ∧
      a.memory.Has s ∧ s.stack.get? 0 = some (.singleton ⟨⟨0⟩, .exact 128⟩) ∧ s.Followed := by
  have hrun : (MemoryAnalysis.run reaching ⟨false, 0, ⟨0, none⟩⟩).toOption.map (fun a =>
      (((a.offsets.facts.get? ⟨0, none⟩).bind (·.stateAt? 2)).bind (·.stack.get? 0),
        ((a.memory.facts.get? ⟨0, none⟩).bind (·.stateAt? 5)).bind (·.stack.get? 0))) =
      some (some (.singleton (.exact 128)), some (.singleton ⟨⟨0⟩, .exact 128⟩)) := rfl
  cases ha : MemoryAnalysis.run reaching ⟨false, 0, ⟨0, none⟩⟩ with
  | error fault => simp [ha, Except.toOption] at hrun
  | ok a =>
    rw [ha] at hrun
    obtain ⟨hoffset, hcell⟩ := Prod.mk.inj (Option.some.inj hrun)
    obtain ⟨o, ho, hoffset⟩ := Option.bind_eq_some_iff.1 hoffset
    obtain ⟨s, hs, hcell⟩ := Option.bind_eq_some_iff.1 hcell
    have ho : a.offsets.Has o := Run.has_of_stateAt? ho
    have hs : a.memory.Has s := Run.has_of_stateAt? hs
    obtain ⟨c, c', -, hoffsets, -⟩ := MemoryAnalysis.run_eq_ok_iff.1 ha
    have hobtained := Domain.obtained_of_solve hoffsets ho
    exact ⟨a, o, s, rfl, ho, hoffset, constants_followed.1 .memory o hobtained, hs, hcell,
      constants_followed.2 reaching _ a ha s (Or.inr hs)⟩

end EvmAccess
