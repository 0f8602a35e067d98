import EvmAccess.Proofs.Flow.Agreement
import EvmAccess.Proofs.Reachability

/-!
# Heights of the stack

Constants and memory addresses are listed by stack position, counted from the bottom, and a merge
keeps the height of the state that was there first. The memory analysis asks for the constants at a
position of its own stack. So everything depends on heights: two analyses which reach a block first
from different sides may disagree about them, and then the wrong operand is looked up.

In a *balanced* program they cannot. There the height at the start of each block is the same on all
paths, as compilers arrange it. Then all states at a point have the height of the point, at every
turn and in both analyses. In particular only states of equal height are ever compared or merged.
This is said without looking into the loop: an order that differs from that of the domain on states
of different heights only, in whatever way, leads to the same result.

## Main results

- `CodeGraph.Balanced`: the height at the start of each block is the same on all paths.
- `Domain.CountsHeight.invariant`: all states at a point have the height of the point.
- `Domain.CountsHeight.solve_eq`: only states of equal height are compared and merged.
- `heights_of_balanced`: both analyses agree on heights and operands.
-/

namespace EvmAccess

/-! ### Balanced programs -/

/-- The height of the stack behind a sequence of instructions. -/
def heightBehind (code : List Instruction) (height : Nat) : Nat :=
  code.foldl (fun height i => i.opcode.heightAfter height) height

namespace CodeGraph

variable {g : CodeGraph} {h : BlockId → Nat}

/-- The height of the stack before a point, where `h` is the height at the start of each block. -/
def heightAt (g : CodeGraph) (h : BlockId → Nat) (p : CodePoint) : Nat :=
  heightBehind (((g.block? p.block).elim [] (·.code)).take p.index) (h p.block)

/-- The stack is empty at the entry, and every edge leads to a block with the height that the stack
has at its end. Only blocks that paths lead to count. -/
structure Balanced (g : CodeGraph) (entry : BlockId) (h : BlockId → Nat) : Prop where
  start : h entry = 0
  edge : ∀ {id b t}, g.flow.Path entry id → g.block? id = some b → t ∈ b.successors →
    h t = heightBehind b.code (h id)

theorem heightAt_zero (g : CodeGraph) (h : BlockId → Nat) (id : BlockId) :
    g.heightAt h ⟨id, 0⟩ = h id := rfl

theorem heightAt_next {p : CodePoint} {i : Instruction} (hi : g.instruction? p = some i) :
    g.heightAt h ⟨p.block, p.index + 1⟩ = i.opcode.heightAfter (g.heightAt h p) := by
  obtain ⟨b, hb, hcode⟩ := instruction?_eq_some_iff.1 hi
  simp only [heightAt, heightBehind, hb, Option.elim_some, List.take_add_one, hcode,
    Option.toList_some, List.foldl_append, List.foldl_cons, List.foldl_nil]

theorem heightAt_end {id : BlockId} {b : BasicBlock} (hb : g.block? id = some b) :
    g.heightAt h ⟨id, b.code.length⟩ = heightBehind b.code (h id) := by
  simp only [heightAt, hb, Option.elim_some, List.take_length]

end CodeGraph

/-- The stack has the height of the point, and only positions below it are listed. -/
def CodeGraph.StackFits {β : Type} (g : CodeGraph) (h : BlockId → Nat) (p : CodePoint)
    (height : Nat) (stack : OrdMap Nat β) : Prop :=
  height = g.heightAt h p ∧ ∀ q v, stack.get? q = some v → q < height

/-! ### Domains that count the height -/

/-- Two orders agree on states of the same height. -/
def JoinOrder.AgreesAt {σ : Type} (height : σ → Nat) (o o' : JoinOrder σ) : Prop :=
  ∀ s t, height s = height t → o'.leq s t = o.leq s t ∧ o'.join s t = o.join s t

namespace Domain

variable {σ γ β : Type} {d : Domain BlockId Instruction σ γ} {height : σ → Nat}
  {stack : σ → OrdMap Nat β} {g : CodeGraph} {config : Config} {h : BlockId → Nat} {s₀ : σ}
  {c c' : γ} {r₀ r : Run BlockId σ}

/-- States have a height and list positions of the stack. Steps count the height, and list positions
below it only; a merge keeps the first height, and lists what either side does. -/
structure CountsHeight (d : Domain BlockId Instruction σ γ) (height : σ → Nat)
    (stack : σ → OrdMap Nat β) : Prop where
  height_step : ∀ i p s c, height (d.step i p s c).1 = i.opcode.heightAfter (height s)
  stack_step : ∀ {i p s c q v}, (stack (d.step i p s c).1).get? q = some v →
    q < height (d.step i p s c).1
  height_join : ∀ s t, height (d.join s t) = height s
  stack_join : ∀ {s t q v}, (stack (d.join s t)).get? q = some v →
    ∃ w, (stack s).get? q = some w ∨ (stack t).get? q = some w

/-- **In a balanced program all states at a point have the height of the point.** -/
theorem CountsHeight.invariant (hd : d.CountsHeight height stack)
    (hbal : g.Balanced config.entry h) :
    d.Invariant g config.entry (fun _ => True)
      fun _ p s => g.StackFits h p (height s) (stack s) where
  join {id s t c} hs ht := by
    refine ⟨(hd.height_join s t).trans hs.1, fun q v hv => ?_⟩
    rw [hd.height_join]
    obtain ⟨w, hw | hw⟩ := hd.stack_join hv
    · exact hs.2 q w hw
    · rw [hs.1, ← ht.1]
      exact ht.2 q w hw
  context _ _ _ _ := trivial
  next {p i s c} _ hi _ hs := by
    refine ⟨?_, fun q v hv => hd.stack_step hv⟩
    rw [hd.height_step, hs.1, CodeGraph.heightAt_next hi]
  kept _ _ _ _ _ _ ht := ht
  leave {id b t s c} hpath hb ht hs := by
    refine ⟨?_, hs.2⟩
    rw [hs.1, CodeGraph.heightAt_end hb, CodeGraph.heightAt_zero, hbal.edge hpath hb ht]

/-- A fresh run starts with an empty stack. -/
theorem stackFits_start (hbal : g.Balanced config.entry h) (hheight : height s₀ = 0)
    (hstack : stack s₀ = ∅) (hstart : Run.start g.flow config.entry s₀ = .ok r₀) :
    r₀.Everywhere fun id j s =>
      g.flow.Path config.entry id ∧ g.StackFits h ⟨id, j⟩ (height s) (stack s) := by
  refine Run.everywhere_start hstart ⟨.refl (Run.start_eq_ok_iff.1 hstart).1, ?_, ?_⟩
  · rw [hheight, CodeGraph.heightAt_zero, hbal.start]
  · simp [hstack]

/-- This is so after any number of turns, and in the next one. -/
theorem CountsHeight.turns (hd : d.CountsHeight height stack) (hbal : g.Balanced config.entry h)
    (hheight : height s₀ = 0) (hstack : stack s₀ = ∅)
    (hstart : Run.start g.flow config.entry s₀ = .ok r₀)
    (hturns : (d.engine g config).Turns (r₀, c) (r, c')) :
    (r.Everywhere fun id j s => g.StackFits h ⟨id, j⟩ (height s) (stack s)) ∧
      ∀ p s, (d.engine g config).Passes r c' p s → g.StackFits h p (height s) (stack s) := by
  have inv := (hd.invariant hbal).engine config
  have hall := (inv.turns hturns trivial (stackFits_start hbal hheight hstack hstart)).2
  refine ⟨fun id f hf j s hs => (hall id f hf j s hs).2, fun p s hp => ?_⟩
  obtain ⟨-, -, hs⟩ := inv.passes trivial hall hp
  exact hs.2

/-- **Only states of equal height are compared and merged**: what an order says of others has no
influence on the result. -/
theorem CountsHeight.solve_eq (hd : d.CountsHeight height stack) (hbal : g.Balanced config.entry h)
    (hheight : height s₀ = 0) (hstack : stack s₀ = ∅) {o : JoinOrder σ}
    (ho : d.toJoinOrder.AgreesAt height o) (c : γ) :
    Domain.solve { d with toJoinOrder := o } g config s₀ c = d.solve g config s₀ c := by
  have hagree : (d.engine g config).AgreesOn (Domain.engine { d with toJoinOrder := o } g config)
      fun p s => g.flow.Path config.entry p.block ∧ g.StackFits h p (height s) (stack s) :=
    { step := rfl
      limit := rfl
      node := fun _ => rfl
      edge := fun _ _ _ => rfl
      leq := fun hs ht => (ho _ _ (hs.2.1.trans ht.2.1.symm)).1
      join := fun hs ht => (ho _ _ (hs.2.1.trans ht.2.1.symm)).2 }
  rw [solve, solve]
  cases hstart : Run.start g.flow config.entry s₀ with
  | error fault => rfl
  | ok r₀ =>
    simp only
    rw [hagree.analyze ((hd.invariant hbal).engine config) trivial
      (stackFits_start hbal hheight hstack hstart)]

end Domain

theorem Offsets.countsHeight : domain.CountsHeight OffsetState.height OffsetState.stack where
  height_step _ _ _ _ := rfl
  stack_step hv := of_decide_eq_true
    (Option.filter_eq_some_iff.1 (OrdMap.get?_filter.symm.trans hv)).2
  height_join _ _ := rfl
  stack_join {s t q v} hv := by
    simp only [domain, OffsetState.join, OrdMap.get?_unionWith] at hv
    cases hs : s.stack.get? q <;> cases ht : t.stack.get? q <;> simp [hs, ht] at hv ⊢

theorem Memory.countsHeight (ev : Evidence) :
    (domain ev).CountsHeight MemoryState.height MemoryState.stack where
  height_step _ _ _ _ := rfl
  stack_step hv := of_decide_eq_true
    (Option.filter_eq_some_iff.1 (OrdMap.get?_filter.symm.trans hv)).2
  height_join _ _ := rfl
  stack_join {s t q v} hv := by
    simp only [domain, MemoryState.join, OrdMap.get?_unionWith] at hv
    cases hs : s.stack.get? q <;> cases ht : t.stack.get? q <;> simp [hs, ht] at hv ⊢

/-! ### The analyses -/

section Analyses

variable {g : CodeGraph} {config : Config} {h : BlockId → Nat}

/-- **In a balanced program the analyses agree on heights and operands.** Let the stack have the
same height at the start of a block on all paths from the entry, and let `h` be these heights. Then
after any number of turns of the analysis of constants, for whatever target, all recorded states
have the height of their point and list only positions below it, and so have the states that a visit
comes to in the next turn. The same holds for memory addresses, whatever the evidence. Neither
analysis compares or merges states of different heights: an order that agrees with that of the
domain on states of equal height gives the same result. So when memory addresses are followed
through an instruction and constants are found before it, they are those of the same operand. -/
theorem heights_of_balanced (hbal : g.Balanced config.entry h) :
    (∀ target c r₀ r c', Run.start g.flow config.entry (OffsetState.initial target) = .ok r₀ →
      (Offsets.domain.engine g config).Turns (r₀, c) (r, c') →
      (r.Everywhere fun id j s => g.StackFits h ⟨id, j⟩ s.height s.stack) ∧
        ∀ p s, (Offsets.domain.engine g config).Passes r c' p s →
          g.StackFits h p s.height s.stack) ∧
    (∀ ev l r₀ r l', Run.start g.flow config.entry MemoryState.initial = .ok r₀ →
      ((Memory.domain ev).engine g config).Turns (r₀, l) (r, l') →
      (r.Everywhere fun id j s => g.StackFits h ⟨id, j⟩ s.height s.stack) ∧
        ∀ p s, ((Memory.domain ev).engine g config).Passes r l' p s →
          g.StackFits h p s.height s.stack) ∧
    (∀ target c o, Offsets.domain.toJoinOrder.AgreesAt OffsetState.height o →
      Domain.solve { Offsets.domain with toJoinOrder := o } g config (.initial target) c =
        Offsets.domain.solve g config (.initial target) c) ∧
    (∀ ev l o, (Memory.domain ev).toJoinOrder.AgreesAt MemoryState.height o →
      Domain.solve { Memory.domain ev with toJoinOrder := o } g config .initial l =
        (Memory.domain ev).solve g config .initial l) ∧
    ∀ ev c c' l l' r₀ r, Run.start g.flow config.entry MemoryState.initial = .ok r₀ →
      Offsets.domain.solve g config (.initial .memory) c = .ok (ev.offsets, c') →
      ((Memory.domain ev).engine g config).Turns (r₀, l) (r, l') →
      ∀ p s t, ((Memory.domain ev).engine g config).Passes r l' p s →
        ev.offsets.stateBefore p = .ok t →
        t.height = s.height ∧
          ∀ depth, ev.constants? p (stackItem? s.height depth) = t.fromTop? depth := by
  refine ⟨?_, ?_, fun target c o ho => ?_, fun ev l o ho => ?_, ?_⟩
  · intro target c r₀ r c' hstart hturns
    exact Offsets.countsHeight.turns hbal rfl rfl hstart hturns
  · intro ev l r₀ r l' hstart hturns
    exact (Memory.countsHeight ev).turns hbal rfl rfl hstart hturns
  · exact Offsets.countsHeight.solve_eq hbal rfl rfl ho c
  · exact (Memory.countsHeight ev).solve_eq hbal rfl rfl ho l
  · intro ev c c' l l' r₀ r hstart hsolve hturns p s t hs ht
    obtain ⟨r₁, hstart₁, hrun⟩ := Domain.solve_eq_ok_iff.1 hsolve
    obtain ⟨f, hf, ht'⟩ := Run.exists_before_of_stateBefore ht
    have hoffsets := (Offsets.countsHeight.turns hbal rfl rfl hstart₁
      (Engine.turns_of_analyze hrun).1).1 p.block f hf p.index t ht'
    have hmemory := ((Memory.countsHeight ev).turns hbal rfl rfl hstart hturns).2 p s hs
    have hheight : t.height = s.height := hoffsets.1.trans hmemory.1.symm
    refine ⟨hheight, fun depth => ?_⟩
    rw [Memory.Evidence.constants?, ht, OffsetState.fromTop?, hheight]

end Analyses

/-- A loop that reads the free memory pointer, on one branch adds 32 to it, and stores the caller
there. Both branches come to the store with a stack of height 1. -/
def circling : CodeGraph where
  blocks :=
    [⟨⟨0, none⟩, 0, 6, .conditional,
       [⟨.push1, some "0x40"⟩, ⟨.mload, some "64"⟩, ⟨.callvalue, none⟩, ⟨.push1, some "0x0a"⟩,
        ⟨.jumpi, none⟩],
       .block ⟨10, none⟩, some ⟨7, none⟩, ∅⟩,
     ⟨⟨7, none⟩, 7, 9, .fallsTo, [⟨.push1, some "0x20"⟩, ⟨.add, none⟩],
       .none, some ⟨10, none⟩, ∅⟩,
     ⟨⟨10, none⟩, 10, 16, .unconditional,
       [⟨.jumpdest, none⟩, ⟨.caller, none⟩, ⟨.swap1, none⟩, ⟨.mstore, none⟩,
        ⟨.push1, some "0x00"⟩, ⟨.jump, none⟩],
       .block ⟨0, none⟩, none, ∅⟩]
  increasing := by decide
  shaped := by decide
  closed := by decide

/-- The heights at the start of the three blocks. -/
def circlingHeight (id : BlockId) : Nat :=
  if id = ⟨0, none⟩ then 0 else 1

/-- What is known of the program when its memory addresses are followed. -/
def circlingEvidence : Memory.Evidence where
  slots := ((Slots.domain.engine circling fromZero).analyze 16 (zeroStart .initial)
    ⟨.empty, ∅⟩).1.1
  offsets := ((Offsets.domain.engine circling fromZero).analyze 16
    (zeroStart (.initial .memory)) none).1.1

/-- The addresses of the program. -/
def circlingMemory : Run BlockId MemoryState × Ledger :=
  (((Memory.domain circlingEvidence).engine circling fromZero).analyze 16
    (zeroStart .initial) .empty).1

/-- The program is balanced. So the stack has height 2 whenever memory addresses are followed
through the addition, and the constant found for its first operand is that of the push. -/
theorem heights_circling :
    circling.Balanced ⟨0, none⟩ circlingHeight ∧
      (circlingMemory.1.Everywhere fun id j s =>
        circling.StackFits circlingHeight ⟨id, j⟩ s.height s.stack) ∧
      ∃ t, circlingEvidence.offsets.stateBefore ⟨⟨7, none⟩, 1⟩ = .ok t ∧ t.height = 2 ∧
        (t.fromTop? 0).isSome = true ∧
        ∀ s, ((Memory.domain circlingEvidence).engine circling fromZero).Passes
            circlingMemory.1 circlingMemory.2 ⟨⟨7, none⟩, 1⟩ s →
          s.height = 2 ∧ ∀ depth, circlingEvidence.constants? ⟨⟨7, none⟩, 1⟩
            (stackItem? s.height depth) = t.fromTop? depth := by
  have hedges : ∀ b ∈ circling.blocks, ∀ t ∈ b.successors,
      circlingHeight t = heightBehind b.code (circlingHeight b.id) := by decide
  have hbal : circling.Balanced ⟨0, none⟩ circlingHeight :=
    { start := rfl
      edge := fun _ hb ht => by
        obtain rfl := CodeGraph.id_of_block? hb
        exact hedges _ (CodeGraph.mem_of_block? hb) _ ht }
  have hmemory : ((Memory.domain circlingEvidence).engine circling fromZero).analyze 16
      (zeroStart .initial) .empty = ((circlingMemory.1, circlingMemory.2), .ok ()) := rfl
  have hturns := (Engine.turns_of_analyze hmemory).1
  obtain ⟨-, hfits, -, -, hoperands⟩ :=
    @heights_of_balanced circling fromZero circlingHeight hbal
  refine ⟨hbal, (hfits _ _ _ _ _ rfl hturns).1, _, rfl, rfl, rfl, fun s hs => ?_⟩
  obtain ⟨hheight, hsame⟩ := hoperands circlingEvidence none _ _ _ _ _ rfl rfl hturns _ s _ hs rfl
  exact ⟨hheight.symm, hsame⟩

end EvmAccess
