import EvmAccess.Proofs.Domain.SlotBound
import EvmAccess.Proofs.Flow.Reached
import EvmAccess.Proofs.Solution

/-!
# The open allocations are those that may be open

Which allocations are open before an instruction is a question about paths: some path from the entry
passes the point that opens the allocation, and then comes to the instruction without passing one
that closes. The recorded states answer it exactly.

No open allocation is missing, because every state on the path is recorded, and what is recorded at
the next position lists what was open before unless it was closed. None is listed without a path,
because this is so at the start, and no instruction, edge or join can make it wrong. The other
components of a state, which decide how often a block is visited, do not enter into it.

## Main results

- `Slots.mem_opened_step`: what a step opens and closes.
- `Slots.mayBeOpen_of_solve`: whatever is listed may be open.
- `Slots.exists_mem_opened_of_staysOpen`: whatever may be open is listed.
- `Slots.mem_opened_iff_mayBeOpen`: both together.
-/

namespace EvmAccess

/-! ### Instructions that open and close -/

namespace Instruction

variable {i : Instruction}

/-- The instruction reads the word at 64, which is the free memory pointer. -/
def Opens (i : Instruction) : Prop := i.opcode = .mload ∧ i.annotatedAddress? = some 64

/-- The instruction writes the word at 64, or leaves the call. -/
def Closes (i : Instruction) : Prop :=
  i.opcode = .mstore ∧ i.annotatedAddress? = some 64 ∨
    i.opcode ∈ [Opcode.ret, .revert, .stop, .selfdestruct]

theorem opensAllocation_iff : i.opensAllocation = true ↔ i.Opens := decide_eq_true_iff

theorem closesAllocations_iff : i.closesAllocations = true ↔ i.Closes := by
  have h64 : (i.annotatedAddress? = some freeMemoryPointer) = (i.annotatedAddress? = some 64) := rfl
  rw [closesAllocations, Closes, ← h64]
  cases i.opcode <;> simp

/-- No instruction does both. -/
theorem Opens.not_closes (h : i.Opens) : ¬ i.Closes := by
  simp [Closes, h.1]

end Instruction

/-! ### Paths -/

namespace CodeGraph

/-- A path leads from `q` on to `p`, and passes no closing instruction in between. -/
inductive StaysOpen (g : CodeGraph) (q : CodePoint) : CodePoint → Prop
  | start {p} : g.Move q p → StaysOpen g q p
  | move {m p} : StaysOpen g q m → (∀ i, g.instruction? m = some i → ¬ i.Closes) → g.Move m p →
      StaysOpen g q p

/-- What is opened at `q` may be open before `p`: some path from the entry passes `q`, and then
comes to `p` without passing a closing instruction. -/
structure MayBeOpen (g : CodeGraph) (entry : BlockId) (q p : CodePoint) : Prop where
  opens : ∃ i, g.instruction? q = some i ∧ i.Opens
  reached : Relation.ReflTransGen g.Move ⟨entry, 0⟩ q
  unclosed : g.StaysOpen q p

variable {g : CodeGraph} {entry : BlockId} {q m p : CodePoint}

theorem MayBeOpen.move (h : g.MayBeOpen entry q m)
    (hclosed : ∀ i, g.instruction? m = some i → ¬ i.Closes) (hmove : g.Move m p) :
    g.MayBeOpen entry q p := { h with unclosed := h.unclosed.move hclosed hmove }

end CodeGraph

/-! ### Steps -/

namespace Slots

variable {i : Instruction} {p q : CodePoint} {s : SlotState} {c c' : Context} {g : CodeGraph}
  {config : Config} {r : Run BlockId SlotState}

/-- **A step opens what it stands for, and closes everything or nothing.** -/
theorem mem_opened_step :
    q ∈ (step i p s c).1.opened ↔ i.Opens ∧ q = p ∨ q ∈ s.opened ∧ ¬ i.Closes := by
  cases ho : i.opensAllocation with
  | true =>
    have hopens := Instruction.opensAllocation_iff.1 ho
    rw [step_of_opens ho]
    simp [SlotState.openAt, hopens, hopens.not_closes]
  | false =>
    have hopens : ¬ i.Opens := by simp [← Instruction.opensAllocation_iff, ho]
    cases hc : i.closesAllocations with
    | true =>
      rw [step_of_closes ho hc]
      simp [SlotState.closeAt, hopens, Instruction.closesAllocations_iff.1 hc]
    | false =>
      have hcloses : ¬ i.Closes := by simp [← Instruction.closesAllocations_iff, hc]
      rw [step_of_not_closes ho hc]
      simp [hopens, hcloses]

theorem mem_opened_of_leq {s t : SlotState} (h : s.leq t = true) (hq : q ∈ s.opened) :
    q ∈ t.opened := by
  simp only [SlotState.leq, Bool.and_eq_true] at h
  exact OrdSet.subset_iff.1 h.1.1 q hq

/-! ### Recorded states -/

/-- **Whatever is listed may be open.** The invariant also says that a path leads to the position,
since an allocation that is opened there needs one. -/
theorem mayBeOpen_of_solve (hsolve : domain.solve g config .initial c = .ok (r, c'))
    {f : Facts SlotState} (hf : r.facts.get? p.block = some f) (hs : f.before? p.index = some s)
    (hq : q ∈ s.opened) : g.MayBeOpen config.entry q p := by
  suffices h : r.Everywhere fun id index s =>
      Relation.ReflTransGen g.Move ⟨config.entry, 0⟩ ⟨id, index⟩ ∧
        ∀ q ∈ s.opened, g.MayBeOpen config.entry q ⟨id, index⟩ from (h _ f hf _ s hs).2 q hq
  refine Domain.everywhere_of_solve
    (J := fun p s => Relation.ReflTransGen g.Move ⟨config.entry, 0⟩ p ∧
      ∀ q ∈ s.opened, g.MayBeOpen config.entry q p) ?_ ?_ ?_ ?_ hsolve
  · rintro p s t ⟨hreached, hs⟩ ⟨-, ht⟩
    refine ⟨hreached, fun q hq => ?_⟩
    rcases OrdSet.mem_union.1 hq with hq | hq
    · exact hs q hq
    · exact ht q hq
  · rintro p i s k hi ⟨hreached, hs⟩
    refine ⟨hreached.tail (.next hi), fun q hq => ?_⟩
    rcases mem_opened_step.1 hq with ⟨hopens, rfl⟩ | ⟨hq, hcloses⟩
    · exact ⟨⟨i, hi, hopens⟩, hreached, .start (.next hi)⟩
    · refine (hs q hq).move (fun j hj => ?_) (.next hi)
      rwa [Option.some.inj (hj.symm.trans hi)]
  · rintro p b t s hb hend ht ⟨hreached, hs⟩
    have hmove : g.Move p ⟨t, 0⟩ := .leave hb hend ht
    refine ⟨hreached.tail hmove, fun q hq => (hs q hq).move (fun i hi => ?_) hmove⟩
    rw [CodeGraph.instruction?_of_end hb hend] at hi
    cases hi
  · exact ⟨.refl, fun q hq => absurd hq (OrdSet.not_mem_empty q)⟩

/-- What is listed at a position is listed wherever a path moves on from there, unless the
instruction at the position closes it. -/
theorem exists_mem_opened_of_move (hsolve : domain.solve g config .initial c = .ok (r, c'))
    {m : CodePoint} (hmove : g.Move m p) {f : Facts SlotState}
    (hf : r.facts.get? m.block = some f) (hs : f.before? m.index = some s)
    (hq : ∀ i, g.instruction? m = some i → i.Opens ∧ q = m ∨ q ∈ s.opened ∧ ¬ i.Closes)
    (hend : g.instruction? m = none → q ∈ s.opened) :
    ∃ f t, r.facts.get? p.block = some f ∧ f.before? p.index = some t ∧ q ∈ t.opened := by
  obtain ⟨f', t, hf', ht, hstep⟩ := Domain.exists_before_of_move lawful hsolve hmove hf hs
  refine ⟨f', t, hf', ht, ?_⟩
  rcases hstep with ⟨i, k, hi, rfl⟩ | ⟨hnone, hle⟩
  · exact mem_opened_step.2 (hq i hi)
  · exact mem_opened_of_leq hle (hend hnone)

/-- **Whatever may be open is listed**, by induction on the path from the opening point. -/
theorem exists_mem_opened_of_staysOpen (hsolve : domain.solve g config .initial c = .ok (r, c'))
    {i : Instruction} (hi : g.instruction? q = some i) (hopens : i.Opens)
    (hreached : Relation.ReflTransGen g.Move ⟨config.entry, 0⟩ q) (h : g.StaysOpen q p) :
    ∃ f s, r.facts.get? p.block = some f ∧ f.before? p.index = some s ∧ q ∈ s.opened := by
  induction h with
  | start hmove =>
    obtain ⟨f, s, hf, hs⟩ := Domain.exists_before_of_moves lawful hsolve hreached
    refine exists_mem_opened_of_move hsolve hmove hf hs ?_ ?_
    · intro j hj
      rw [Option.some.inj (hj.symm.trans hi)]
      exact Or.inl ⟨hopens, rfl⟩
    · intro hnone
      rw [hi] at hnone
      cases hnone
  | move _ hcloses hmove ih =>
    obtain ⟨f, s, hf, hs, hq⟩ := ih
    exact exists_mem_opened_of_move hsolve hmove hf hs
      (fun j hj => Or.inr ⟨hq, hcloses j hj⟩) fun _ => hq

/-- **The open allocations are exactly those that may be open.** When the open allocations of a
program have been found, there is a state before every instruction of a block that paths lead to,
and what it lists as open is what may be open there. -/
theorem mem_opened_iff_mayBeOpen (hsolve : domain.solve g config .initial c = .ok (r, c'))
    (hblock : g.flow.Path config.entry p.block) (hp : (g.instruction? p).isSome = true)
    (hindex : p.index < 0x8000000000000000) :
    ∃ s, r.stateBefore p = .ok s ∧ ∀ q, q ∈ s.opened ↔ g.MayBeOpen config.entry q p := by
  obtain ⟨i, hi⟩ := Option.isSome_iff_exists.1 hp
  obtain ⟨b, hb, hcode⟩ := CodeGraph.instruction?_eq_some_iff.1 hi
  obtain ⟨f, hf⟩ : ∃ f, r.facts.get? p.block = some f := by
    obtain ⟨r₀, hstart, hrun⟩ := Domain.solve_eq_ok_iff.1 hsolve
    obtain ⟨hturns, hdone⟩ := Engine.turns_of_analyze hrun
    exact Option.isSome_iff_exists.1 ((Engine.reached_iff_path hstart hturns hdone).2 hblock)
  obtain ⟨k, hex⟩ := Domain.executed_of_solve hsolve hf hb
  obtain ⟨s, hs⟩ := Facts.exists_before_executed hex
    (Nat.le_of_lt (List.getElem?_eq_some_iff.1 hcode).1)
  refine ⟨s, Run.stateBefore_eq_ok hf hindex hs, fun q => ⟨mayBeOpen_of_solve hsolve hf hs, ?_⟩⟩
  rintro ⟨⟨j, hj, hopens⟩, hreached, hopen⟩
  obtain ⟨f', s', hf', hs', hq⟩ := exists_mem_opened_of_staysOpen hsolve hj hopens hreached hopen
  obtain rfl := Option.some.inj (hf.symm.trans hf')
  obtain rfl := Option.some.inj (hs.symm.trans hs')
  exact hq

/-- A loop that moves the free memory pointer on before it comes back to its start, and a way out of
it that does not. -/
def bumping : CodeGraph where
  blocks :=
    [⟨⟨0, none⟩, 0, 6, .conditional,
       [⟨.push1, some "0x40"⟩, ⟨.mload, some "64"⟩, ⟨.callvalue, none⟩, ⟨.push1, some "0x0d"⟩,
        ⟨.jumpi, none⟩],
       .block ⟨13, none⟩, some ⟨7, none⟩, ∅⟩,
     ⟨⟨7, none⟩, 7, 12, .unconditional,
       [⟨.push1, some "0x40"⟩, ⟨.mstore, some "64"⟩, ⟨.push1, some "0x00"⟩, ⟨.jump, none⟩],
       .block ⟨0, none⟩, none, ∅⟩,
     ⟨⟨13, none⟩, 13, 13, .terminal, [⟨.stop, none⟩], .none, none, ∅⟩]
  increasing := by decide
  shaped := by decide
  closed := by decide

/-- The open allocations of the program. -/
def bumpingSlots : Run BlockId SlotState × Context :=
  ((domain.engine bumping ⟨false, 0, ⟨0, none⟩⟩).analyze 8
    ⟨(∅ : OrdMap BlockId _).insert ⟨0, none⟩ (.start .initial), [⟨0, none⟩], 0⟩ ⟨.empty, ∅⟩).1

/-- The allocation of the loop may be open behind it, but not at its start: all paths that come back
there have closed it. -/
theorem mayBeOpen_bumping :
    domain.solve bumping ⟨false, 0, ⟨0, none⟩⟩ .initial ⟨.empty, ∅⟩ = .ok bumpingSlots ∧
      bumping.MayBeOpen ⟨0, none⟩ ⟨⟨0, none⟩, 1⟩ ⟨⟨13, none⟩, 0⟩ ∧
      ¬ bumping.MayBeOpen ⟨0, none⟩ ⟨⟨0, none⟩, 1⟩ ⟨⟨0, none⟩, 0⟩ := by
  have hsolve : domain.solve bumping ⟨false, 0, ⟨0, none⟩⟩ .initial ⟨.empty, ∅⟩ =
      .ok (bumpingSlots.1, bumpingSlots.2) := rfl
  have hentry : bumping.flow.Path ⟨0, none⟩ ⟨0, none⟩ := .refl rfl
  have hexit : bumping.flow.Path ⟨0, none⟩ ⟨13, none⟩ :=
    hentry.edge (n := (bumping.flow.node? ⟨0, none⟩).get rfl) rfl List.mem_cons_self rfl
  have hopened : (bumpingSlots.1.stateBefore ⟨⟨13, none⟩, 0⟩).toOption.map (·.opened.toList) =
      some [⟨⟨0, none⟩, 1⟩] := rfl
  have hclosed : (bumpingSlots.1.stateBefore ⟨⟨0, none⟩, 0⟩).toOption.map (·.opened.toList) =
      some [] := rfl
  obtain ⟨s, hs, hiff⟩ :=
    mem_opened_iff_mayBeOpen (p := ⟨⟨13, none⟩, 0⟩) hsolve hexit rfl (by decide)
  obtain ⟨t, ht, hiff'⟩ :=
    mem_opened_iff_mayBeOpen (p := ⟨⟨0, none⟩, 0⟩) hsolve hentry rfl (by decide)
  rw [hs] at hopened
  rw [ht] at hclosed
  have hopened : s.opened.toList = [⟨⟨0, none⟩, 1⟩] := Option.some.inj hopened
  have hclosed : t.opened.toList = [] := Option.some.inj hclosed
  refine ⟨hsolve, (hiff _).1 ?_, fun h => ?_⟩
  · rw [OrdSet.mem_def, hopened]
    exact List.mem_singleton_self _
  · have hmem := (hiff' _).2 h
    rw [OrdSet.mem_def, hclosed] at hmem
    exact List.not_mem_nil hmem

end Slots

end EvmAccess
