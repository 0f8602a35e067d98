import EvmAccess.Proofs.Evm.CodeGraph

/-!
# Which blocks make a graph

Building a graph sorts the blocks, looks at one after the other for edges that do not fit the kind
and for names that came before, then looks at all edges, and stops at the first fault. Whether a
fault is found can be said without any order and without any pass over the blocks: a list is well
formed if the names differ, the edges fit the kinds, and the edges lead to blocks of the list.

The order of the list plays no part in the result either. Names increase in a graph, so a graph is
determined by which blocks it has.

## Main definitions

- `BlockKind.Allows`: the edges that blocks of a kind have.
- `CodeGraph.WellFormed`: the lists of blocks that make a graph.

## Main results

- `CodeGraph.eq_of_perm`: a graph is determined by its blocks.
- `CodeGraph.build_eq_ok_iff`: which graph is built, if one is.
- `CodeGraph.build_exact`: exactly the well-formed lists make a graph, in any order the same one.
-/

namespace EvmAccess

open Std

/-- The edges that blocks of a kind have. The destination of a jump need not be known. -/
inductive BlockKind.Allows : BlockKind → JumpTarget → Option BlockId → Prop
  | terminal : Allows .terminal .none none
  | conditional {jump next} : jump ≠ .none → Allows .conditional jump (some next)
  | unconditional {jump} : jump ≠ .none → Allows .unconditional jump none
  | fallsTo {next} : Allows .fallsTo .none (some next)

namespace BasicBlock

variable {b : BasicBlock}

/-- No fault is found in the shape of a block exactly if its kind allows its edges. -/
theorem shapeFault?_eq_none_iff : b.shapeFault? = none ↔ b.kind.Allows b.jump b.next := by
  obtain ⟨_, _, _, kind, _, jump, next, _⟩ := b
  constructor
  · intro h
    simp only [shapeFault?] at h
    cases kind with
    | terminal =>
      obtain ⟨rfl, rfl⟩ : jump = .none ∧ next = none := by simpa using h
      exact .terminal
    | conditional =>
      obtain ⟨hjump, hnext⟩ : jump ≠ .none ∧ next.isSome = true := by grind
      obtain ⟨next, rfl⟩ := Option.isSome_iff_exists.1 hnext
      exact .conditional hjump
    | unconditional =>
      obtain ⟨hjump, hnext⟩ : jump ≠ .none ∧ ¬ next.isSome = true := by grind
      obtain rfl := Option.not_isSome_iff_eq_none.1 hnext
      exact .unconditional hjump
    | fallsTo =>
      obtain ⟨rfl, hnext⟩ : jump = .none ∧ next.isSome = true := by grind
      obtain ⟨next, rfl⟩ := Option.isSome_iff_exists.1 hnext
      exact .fallsTo
  · intro h
    cases h with
    | terminal => rfl
    | conditional hjump => simp [shapeFault?, hjump]
    | unconditional hjump => simp [shapeFault?, hjump]
    | fallsTo => rfl

/-- A block goes on with the destination of its jump and the block that it falls through to. -/
theorem mem_successors {id : BlockId} :
    id ∈ b.successors ↔ b.jump = .block id ∨ b.next = some id := by
  rw [successors, List.mem_append, Option.mem_toList]
  cases b.jump with
  | none | unresolved => simp
  | block target => simp [eq_comm]

end BasicBlock

namespace CodeGraph

variable {g g' : CodeGraph} {blocks other : List BasicBlock}

/-- Which blocks make a graph. -/
structure WellFormed (blocks : List BasicBlock) : Prop where
  /-- No name occurs twice. -/
  distinct : blocks.Pairwise fun a b => a.id ≠ b.id
  /-- Each block has the edges of its kind. -/
  fits : ∀ b ∈ blocks, b.kind.Allows b.jump b.next
  /-- Known destinations of jumps are among the blocks. -/
  jumps : ∀ b ∈ blocks, ∀ id, b.jump = .block id → ∃ c ∈ blocks, c.id = id
  /-- Blocks fall through to one of the blocks. -/
  falls : ∀ b ∈ blocks, ∀ id, b.next = some id → ∃ c ∈ blocks, c.id = id

/-- The two passes over the blocks find no fault exactly if the blocks are well formed. -/
theorem fault?_eq_none_iff_wellFormed : fault? blocks = none ↔ WellFormed blocks := by
  simp only [fault?_eq_none_iff, BasicBlock.shapeFault?_eq_none_iff, BasicBlock.mem_successors,
    List.mem_map]
  constructor
  · rintro ⟨hfits, hdistinct, hedges⟩
    exact ⟨List.pairwise_map.1 hdistinct, hfits, fun b hb id h => hedges b hb id (Or.inl h),
      fun b hb id h => hedges b hb id (Or.inr h)⟩
  · rintro ⟨hdistinct, hfits, hjumps, hfalls⟩
    exact ⟨hfits, List.pairwise_map.2 hdistinct, fun b hb id h =>
      h.elim (hjumps b hb id) (hfalls b hb id)⟩

/-- Being well formed does not depend on the order. -/
theorem WellFormed.perm (h : WellFormed blocks) (hperm : other.Perm blocks) : WellFormed other where
  distinct := h.distinct.perm hperm.symm Ne.symm
  fits b hb := h.fits b (hperm.mem_iff.1 hb)
  jumps b hb id hid := by
    obtain ⟨c, hc, hcid⟩ := h.jumps b (hperm.mem_iff.1 hb) id hid
    exact ⟨c, hperm.mem_iff.2 hc, hcid⟩
  falls b hb id hid := by
    obtain ⟨c, hc, hcid⟩ := h.falls b (hperm.mem_iff.1 hb) id hid
    exact ⟨c, hperm.mem_iff.2 hc, hcid⟩

theorem perm_inOrder (blocks : List BasicBlock) : (inOrder blocks).Perm blocks :=
  List.mergeSort_perm blocks _

/-- A graph is determined by its blocks, in whatever order they are given. -/
theorem eq_of_perm (h : g.blocks.Perm g'.blocks) : g = g' := by
  have hblocks : g.blocks = g'.blocks := by
    refine h.eq_of_pairwise (fun a b _ _ hab hba => ?_) g.increasing g'.increasing
    exact absurd hab (OrientedCmp.not_lt_of_lt hba)
  cases g
  cases g'
  cases hblocks
  rfl

/-- A graph is built of blocks exactly if they are well formed and it has these blocks. -/
theorem build_eq_ok_iff : build blocks = .ok g ↔ WellFormed blocks ∧ g.blocks.Perm blocks := by
  have hperm := perm_inOrder blocks
  have hwell : fault? (inOrder blocks) = none ↔ WellFormed blocks := by
    rw [fault?_eq_none_iff_wellFormed]
    exact ⟨fun h => h.perm hperm.symm, fun h => h.perm hperm⟩
  unfold build
  split
  · rename_i e he
    simp [← hwell, he]
  · rename_i hnone
    simp only [Except.ok.injEq, hwell.1 hnone, true_and]
    constructor
    · rintro rfl
      exact hperm
    · intro h
      exact eq_of_perm (hperm.trans h.symm)

/-- Exactly the well-formed lists of blocks make a graph. It has the blocks of the list, in the
order of their names; the position of a name is that of the block with the name; and every order of
the list makes the same graph. -/
theorem build_exact (blocks : List BasicBlock) :
    ((∃ g, build blocks = .ok g) ↔ WellFormed blocks) ∧
      ∀ g, build blocks = .ok g →
        g.blocks.Perm blocks ∧ (g.blocks.Pairwise fun a b => compare a.id b.id = .lt) ∧
          (∀ id i, g.indexOf? id = some i ↔ ∃ b, g.blocks[i]? = some b ∧ b.id = id) ∧
            ∀ other, other.Perm blocks → build other = .ok g := by
  refine ⟨⟨?_, ?_⟩, ?_⟩
  · rintro ⟨g, hg⟩
    exact (build_eq_ok_iff.1 hg).1
  · intro h
    have hfault := fault?_eq_none_iff_wellFormed.2 (h.perm (perm_inOrder blocks))
    have ok := fault?_eq_none_iff.1 hfault
    exact ⟨⟨inOrder blocks, increasing_inOrder ok.2.1, ok.1, ok.2.2⟩,
      build_eq_ok_iff.2 ⟨h, perm_inOrder blocks⟩⟩
  · intro g hg
    obtain ⟨hwell, hperm⟩ := build_eq_ok_iff.1 hg
    refine ⟨hperm, g.increasing, fun id i => indexOf?_eq_some_iff, fun other hother => ?_⟩
    exact build_eq_ok_iff.2 ⟨hwell.perm hother, hperm.trans hother.symm⟩

/-- Three blocks, the last one first: the entry may jump anywhere or go on with a copied block,
which jumps to the last one. -/
def scattered : List BasicBlock :=
  [⟨⟨7, none⟩, 7, 8, .terminal, [⟨.jumpdest, none⟩, ⟨.stop, none⟩], .none, none, ∅⟩,
   ⟨⟨0, none⟩, 0, 3, .conditional, [⟨.caller, none⟩, ⟨.callvalue, none⟩, ⟨.jumpi, none⟩],
    .unresolved, some ⟨4, some 1⟩, ∅⟩,
   ⟨⟨4, some 1⟩, 4, 6, .unconditional, [⟨.jump, none⟩], .block ⟨7, none⟩, none, ∅⟩]

/-- The blocks in the order of their names. -/
def gathered : CodeGraph where
  blocks := scattered.rotateLeft
  increasing := by decide
  shaped := by decide
  closed := by decide

/-- Both orders make the same graph, in which the last block is found at the last position. -/
theorem build_scattered :
    WellFormed scattered ∧ build scattered = .ok gathered ∧
      build gathered.blocks = .ok gathered ∧ gathered.indexOf? ⟨7, none⟩ = some 2 := by
  have hwell : WellFormed scattered := fault?_eq_none_iff_wellFormed.1 (by decide)
  obtain ⟨g, hg⟩ := (build_exact scattered).1.2 hwell
  obtain ⟨hperm, -, hindex, hother⟩ := (build_exact scattered).2 g hg
  have hrotate : gathered.blocks.Perm scattered := by decide
  obtain rfl : g = gathered := eq_of_perm (hperm.trans hrotate.symm)
  exact ⟨hwell, hg, hother _ hrotate, (hindex _ _).2 ⟨_, rfl, rfl⟩⟩

end CodeGraph

end EvmAccess
