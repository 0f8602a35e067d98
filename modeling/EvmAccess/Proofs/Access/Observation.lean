import EvmAccess.Access.DeadStore
import EvmAccess.Proofs.Access.Ledger
import EvmAccess.Proofs.Access.Relation
import EvmAccess.Proofs.Evm.CodeGraph

/-!
# Who may see a stored value

A value written at a point is observed by a read if some path of instructions leads from the write
to the read without passing, in between, a point that certainly overwrites the location. Paths run
through the rest of the block of the write and then through whole blocks, as often as edges allow.

The search for a read looks at blocks as a whole. This is enough: a pass through a block that does
not overwrite meets every instruction of it, and a pass through a block that does cannot leave it.
The one thing that the search leaves out is the point of the write itself. So a search without a
result means that nobody but the writing instruction can see the value, and that instruction sees it
exactly if it reads the location and a path leads back to it.

## Main results

- `Ledger.readIn?_of_searchRead_eq_none`: a failed search has looked into every block that can be
  reached through blocks that do not overwrite.
- `Ledger.Carries.examined`: every path stays in these blocks.
- `Ledger.observedAt_iff_of_searchRead_eq_none`: what a failed search means.
-/

namespace EvmAccess

/-! ### The blocks that a search examines -/

namespace Ledger

/-- The blocks that a search looks into: those on the stack, and the successors of every one that
does not overwrite the location, as far as they were not met before. -/
inductive Examined (l : Ledger) (w : CodePoint) (token : Token)
    (unseen : List (Node BlockId Instruction)) (stack : List BlockId) : BlockId → Prop
  | root {id n} : id ∈ stack → unseen.find? (·.id = id) = some n →
      Examined l w token unseen stack id
  | edge {id s n m} : Examined l w token unseen stack id → unseen.find? (·.id = id) = some n →
      l.overwritesIn w token id = false → s ∈ n.succs → unseen.find? (·.id = s) = some m →
      Examined l w token unseen stack s

variable {l : Ledger} {w : CodePoint} {token : Token}

/-- Nothing is examined from a stack none of whose names has an unseen node. -/
theorem Examined.exists_root {unseen : List (Node BlockId Instruction)} {stack : List BlockId}
    {x : BlockId} (h : l.Examined w token unseen stack x) :
    ∃ id ∈ stack, (unseen.find? (·.id = id)).isSome = true := by
  induction h with
  | root hid hn => exact ⟨_, hid, by simp [hn]⟩
  | edge _ _ _ _ _ ih => exact ih

/-- A name without an unseen node can be dropped from the stack. -/
theorem Examined.of_cons {unseen : List (Node BlockId Instruction)} {stack : List BlockId}
    {id x : BlockId} (hid : unseen.find? (·.id = id) = none)
    (h : l.Examined w token unseen (id :: stack) x) : l.Examined w token unseen stack x := by
  induction h with
  | root hmem hn =>
    rcases List.mem_cons.1 hmem with rfl | hmem
    · simp [hid] at hn
    · exact .root hmem hn
  | edge _ hn how hs hm ih => exact .edge ih hn how hs hm

/-- Once a node was met, it can be taken out of the unseen ones if its successors are on the stack,
unless it overwrites the location. -/
theorem Examined.remove {unseen : List (Node BlockId Instruction)} {stack stack' : List BlockId}
    {id x : BlockId} {n : Node BlockId Instruction} (hn : unseen.find? (·.id = id) = some n)
    (hstack : ∀ y ∈ stack, y ∈ stack')
    (hsuccs : l.overwritesIn w token id = false → ∀ y ∈ n.succs, y ∈ stack')
    (h : l.Examined w token unseen (id :: stack) x) :
    x = id ∨ l.Examined w token (Graph.others id unseen) stack' x := by
  induction h with
  | @root x m hmem hm =>
    by_cases hx : x = id
    · exact Or.inl hx
    · have hx' : x ∈ stack := (List.mem_cons.1 hmem).resolve_left hx
      exact Or.inr (.root (hstack x hx') (by rw [Graph.find?_others, if_neg hx, hm]))
  | @edge y x k m _ hk how hs hm ih =>
    by_cases hx : x = id
    · exact Or.inl hx
    · have hm' : (Graph.others id unseen).find? (·.id = x) = some m := by
        rw [Graph.find?_others, if_neg hx, hm]
      rcases ih with rfl | ih
      · obtain rfl : n = k := Option.some.inj (hn.symm.trans hk)
        exact Or.inr (.root (hsuccs how x hs) hm')
      · by_cases hy : y = id
        · subst hy
          obtain rfl : n = k := Option.some.inj (hn.symm.trans hk)
          exact Or.inr (.root (hsuccs how x hs) hm')
        · exact Or.inr (.edge ih (by rw [Graph.find?_others, if_neg hy, hk]) how hs hm')

/-- A search that finds nothing has found no read in any block that it examined. -/
theorem readIn?_of_searchFrom_eq_none {unseen : List (Node BlockId Instruction)}
    {stack : List BlockId} (h : (l.searchFrom w token unseen stack).found = none) {x : BlockId}
    (hx : l.Examined w token unseen stack x) : l.readIn? w token x = none := by
  fun_induction searchFrom l w token unseen stack with
  | case1 unseen =>
    obtain ⟨id, hid, -⟩ := hx.exists_root
    cases hid
  | case2 unseen id rest hid ih => exact ih h (hx.of_cons hid)
  | case3 unseen id rest n hn p hread => cases h
  | case4 unseen id rest n hn hread how result ih =>
    rcases hx.remove hn (fun _ hy => hy) (fun hno => by simp [how] at hno) with rfl | hx
    · exact hread
    · exact ih h hx
  | case5 unseen id rest n hn hread how ih =>
    rcases hx.remove hn (fun y hy => List.mem_append_right n.succs hy)
      (fun _ y hy => List.mem_append_left rest hy) with rfl | hx
    · exact hread
    · exact ih h hx

/-- What is examined once a node was met and taken out of the unseen ones, was to be examined
before. -/
theorem Examined.restore {unseen : List (Node BlockId Instruction)} {stack stack' : List BlockId}
    {id x : BlockId} {n : Node BlockId Instruction} (hn : unseen.find? (·.id = id) = some n)
    (hstack : ∀ y ∈ stack', y ∈ stack ∨ l.overwritesIn w token id = false ∧ y ∈ n.succs)
    (h : l.Examined w token (Graph.others id unseen) stack' x) :
    l.Examined w token unseen (id :: stack) x := by
  induction h with
  | @root x m hx hm =>
    rcases hstack x hx with hx | ⟨how, hx⟩
    · exact .root (List.mem_cons_of_mem _ hx) (Graph.find?_of_others hm)
    · exact .edge (.root List.mem_cons_self hn) hn how hx (Graph.find?_of_others hm)
  | edge _ hk how hs hm ih =>
    exact .edge ih (Graph.find?_of_others hk) how hs (Graph.find?_of_others hm)

/-- A longer stack leads to more blocks. -/
theorem Examined.cons {unseen : List (Node BlockId Instruction)} {stack : List BlockId}
    {x : BlockId} (id : BlockId) (h : l.Examined w token unseen stack x) :
    l.Examined w token unseen (id :: stack) x := by
  induction h with
  | root hx hm => exact .root (List.mem_cons_of_mem _ hx) hm
  | edge _ hk how hs hm ih => exact .edge ih hk how hs hm

/-- A search finds only what there is in a block that it examines. -/
theorem exists_examined_of_searchFrom {unseen : List (Node BlockId Instruction)}
    {stack : List BlockId} {p : CodePoint}
    (h : (l.searchFrom w token unseen stack).found = some p) :
    ∃ b, l.Examined w token unseen stack b ∧ l.readIn? w token b = some p := by
  fun_induction searchFrom l w token unseen stack with
  | case1 unseen => cases h
  | case2 unseen id rest hid ih =>
    obtain ⟨b, hb, hread⟩ := ih h
    exact ⟨b, hb.cons id, hread⟩
  | case3 unseen id rest n hn q hread =>
    exact ⟨id, .root List.mem_cons_self hn, hread.trans h⟩
  | case4 unseen id rest n hn hread how result ih =>
    obtain ⟨b, hb, hread⟩ := ih h
    exact ⟨b, hb.restore hn fun y hy => Or.inl hy, hread⟩
  | case5 unseen id rest n hn hread how ih =>
    obtain ⟨b, hb, hread⟩ := ih h
    refine ⟨b, hb.restore hn fun y hy => ?_, hread⟩
    exact (List.mem_append.1 hy).symm.imp_right fun hy => ⟨Bool.eq_false_iff.2 how, hy⟩

/-- A search finds only what it has found in some block. -/
theorem exists_readIn?_of_searchFrom {unseen : List (Node BlockId Instruction)}
    {stack : List BlockId} {p : CodePoint}
    (h : (l.searchFrom w token unseen stack).found = some p) :
    ∃ b, l.readIn? w token b = some p := by
  obtain ⟨b, -, hb⟩ := exists_examined_of_searchFrom h
  exact ⟨b, hb⟩

/-! ### Reads and overwrites of a block -/

/-- One location is certainly overwritten by a single token that certainly means it. -/
theorem relationOfSets_singleton_eq_equal_iff {a : Token} {s : OrdSet Token} :
    Token.relationOfSets (OrdSet.singleton a) s = .equal ↔
      ∃ t, s = OrdSet.singleton t ∧ a.relation t = .equal := by
  rw [Token.relationOfSets_eq_equal_iff]
  constructor
  · rintro ⟨a', t, ha, hs, h⟩
    obtain rfl : a' = a := OrdSet.mem_singleton.1 (ha ▸ OrdSet.mem_singleton.2 rfl)
    exact ⟨t, hs, h⟩
  · rintro ⟨t, hs, h⟩
    exact ⟨a, t, rfl, hs, h⟩

/-- What is recorded at a point certainly overwrites the location. -/
def Clobbers (l : Ledger) (token : Token) (p : CodePoint) : Prop :=
  ∃ t, l.writes.get? p = some (OrdSet.singleton t) ∧ token.relation t = .equal

/-- In a block that overwrites the location some point does, in the block of the write a later
one. -/
theorem exists_clobbers_of_overwritesIn {b : BlockId} (h : l.overwritesIn w token b = true) :
    ∃ j, l.Clobbers token ⟨b, j⟩ ∧ (b ≠ w.block ∨ w.index < j) := by
  rw [overwritesIn, List.any_eq_true] at h
  obtain ⟨⟨p, s⟩, hmem, hp⟩ := h
  obtain ⟨hget, rfl⟩ := PointTable.mem_inBlock.1 hmem
  simp only [decide_eq_true_eq] at hp
  obtain ⟨t, rfl, ht⟩ := relationOfSets_singleton_eq_equal_iff.1 hp.2
  exact ⟨p.index, ⟨t, hget, ht⟩, hp.1⟩

/-- In a block without a result, only the point of the write may read the location. -/
theorem eq_of_readIn?_eq_none {r : CodePoint} (h : l.readIn? w token r.block = none)
    {t : Token} (ht : t ∈ l.reads.atPoint r) (halias : t.mayAlias token = true) : r = w := by
  rw [readIn?, Option.map_eq_none_iff, List.find?_eq_none] at h
  obtain ⟨s, hget, hs⟩ := PointTable.mem_atPoint_iff.1 ht
  refine Decidable.byContradiction fun hne => ?_
  refine h (r, s) (PointTable.mem_inBlock.2 ⟨hget, rfl⟩) ?_
  simp only [decide_eq_true_eq]
  exact ⟨hne, OrdSet.any_iff.2 ⟨t, hs, halias⟩⟩

/-- A result is a recorded read that may mean the location, and not at the point of the write. -/
theorem exists_mayAlias_of_readIn? {b : BlockId} {p : CodePoint}
    (h : l.readIn? w token b = some p) :
    p ≠ w ∧ ∃ s, l.reads.get? p = some s ∧ s.any (·.mayAlias token) = true := by
  rw [readIn?] at h
  obtain ⟨e, he, rfl⟩ := Option.map_eq_some_iff.1 h
  have hread := List.find?_some he
  simp only [decide_eq_true_eq] at hread
  obtain ⟨hget, -⟩ := PointTable.mem_inBlock.1 (List.mem_of_find?_eq_some he)
  exact ⟨hread.1, e.2, hget, hread.2⟩

/-- What a search finds is a recorded read that may mean the location, and not at the point of the
write. -/
theorem exists_mayAlias_of_searchRead {g : CodeGraph} {p : CodePoint}
    (h : l.searchRead g w token = some p) :
    p ≠ w ∧ ∃ s, l.reads.get? p = some s ∧ s.any (·.mayAlias token) = true := by
  obtain ⟨b, hb⟩ := exists_readIn?_of_searchFrom h
  exact exists_mayAlias_of_readIn? hb

/-- A result is a recorded read, and not at the point of the write. -/
theorem ne_of_readIn?_eq_some {b : BlockId} {p : CodePoint} (h : l.readIn? w token b = some p) :
    p ≠ w ∧ (l.reads.get? p).isSome = true := by
  obtain ⟨hne, s, hs, -⟩ := exists_mayAlias_of_readIn? h
  exact ⟨hne, by rw [hs]; rfl⟩

/-! ### Paths of instructions -/

/-- A value is carried along a path from one position to another, through whole instructions none
of which certainly overwrites it. The position behind the last instruction of a block is where the
path leaves the block. -/
inductive Carries (l : Ledger) (g : CodeGraph) (token : Token) (p : CodePoint) : CodePoint → Prop
  | start : Carries l g token p p
  | step {q i} : Carries l g token p q → g.instruction? q = some i → ¬ l.Clobbers token q →
      Carries l g token p ⟨q.block, q.index + 1⟩
  | leave {q b s} : Carries l g token p q → g.block? q.block = some b →
      q.index = b.code.length → s ∈ b.successors → Carries l g token p ⟨s, 0⟩

/-- What is written to `token` at `w` may be seen by the instruction at `r`: the value is carried
from right behind `w` to `r`, and a read is recorded there that may mean the location. -/
structure ObservedAt (l : Ledger) (g : CodeGraph) (w : CodePoint) (token : Token)
    (r : CodePoint) : Prop where
  carried : l.Carries g token ⟨w.block, w.index + 1⟩ r
  instruction : (g.instruction? r).isSome = true
  reads : ∃ t ∈ l.reads.atPoint r, t.mayAlias token = true

variable {g : CodeGraph}

/-- **Every path stays in the examined blocks.** The invariant names the place `k` where the present
pass through the block began: its start, or the place behind the write. From there on nothing was
overwritten, so a block that is left does not overwrite and its successors are examined too. -/
theorem Carries.examined {p : CodePoint}
    (hpoints : ∀ p s, l.writes.get? p = some s → (g.instruction? p).isSome = true)
    (hblock : (g.block? w.block).isSome = true)
    (h : l.Carries g token ⟨w.block, w.index + 1⟩ p) :
    l.Examined w token g.flow.nodes [w.block] p.block ∧
      ∃ k, (k = 0 ∨ p.block = w.block ∧ k = w.index + 1) ∧
        ∀ j, k ≤ j → j < p.index → ¬ l.Clobbers token ⟨p.block, j⟩ := by
  induction h with
  | start =>
    obtain ⟨b, hb⟩ := Option.isSome_iff_exists.1 hblock
    refine ⟨.root (n := b.node) List.mem_cons_self ?_, w.index + 1, Or.inr ⟨rfl, rfl⟩, ?_⟩
    · exact (g.node?_flow w.block).trans (by rw [hb]; rfl)
    · intro j hj hlt
      exact absurd hlt (by simp only; omega)
  | @step q i _ hi hq ih =>
    obtain ⟨hex, k, hk, hclear⟩ := ih
    refine ⟨hex, k, hk, fun j hj hlt => ?_⟩
    by_cases hjq : j = q.index
    · subst hjq
      exact hq
    · exact hclear j hj (by simp only at hlt; omega)
  | @leave q b s _ hb hend hs ih =>
    obtain ⟨hex, k, hk, hclear⟩ := ih
    have hnone : l.overwritesIn w token q.block = false := by
      refine Bool.eq_false_iff.2 fun how => ?_
      obtain ⟨j, hj, hlater⟩ := exists_clobbers_of_overwritesIn how
      obtain ⟨t, hget, -⟩ := id hj
      obtain ⟨i, hi⟩ := Option.isSome_iff_exists.1 (hpoints _ _ hget)
      obtain ⟨b', hb', hcode⟩ := CodeGraph.instruction?_eq_some_iff.1 hi
      obtain rfl : b = b' := Option.some.inj (hb.symm.trans hb')
      have hlt : j < b.code.length := (List.getElem?_eq_some_iff.1 hcode).1
      refine hclear j ?_ (by omega) hj
      rcases hk with rfl | ⟨hqw, rfl⟩
      · exact Nat.zero_le j
      · rcases hlater with hne | hlt'
        · exact absurd hqw hne
        · exact hlt'
    obtain ⟨b', hb'⟩ := Option.isSome_iff_exists.1 (g.isSome_block?_of_mem_successors hb hs)
    refine ⟨.edge (n := b.node) (m := b'.node) hex ?_ hnone hs ?_, 0, Or.inl rfl, ?_⟩
    · exact (g.node?_flow q.block).trans (by rw [hb]; rfl)
    · exact (g.node?_flow s).trans (by rw [hb']; rfl)
    · intro j _ hlt
      exact absurd hlt (Nat.not_lt_zero j)

/-- A failed search has found no read in any block that a path can come to. -/
theorem readIn?_of_searchRead_eq_none (h : l.searchRead g w token = none) {b : BlockId}
    (hb : l.Examined w token g.flow.nodes [w.block] b) : l.readIn? w token b = none :=
  readIn?_of_searchFrom_eq_none h hb

/-- **What a failed search means.** Let every recorded write stand at an instruction of the program,
and let `token` be recorded as written at `w`. If no read is found, the value is observed at `r`
exactly if `r` is `w` itself, `w` also reads the location, and a path carries the value back to
`w`. -/
theorem observedAt_iff_of_searchRead_eq_none
    (hpoints : ∀ p s, l.writes.get? p = some s → (g.instruction? p).isSome = true)
    (hw : token ∈ l.writes.atPoint w) (h : l.searchRead g w token = none) (r : CodePoint) :
    l.ObservedAt g w token r ↔
      r = w ∧ l.Carries g token ⟨w.block, w.index + 1⟩ w ∧
        ∃ t ∈ l.reads.atPoint w, t.mayAlias token = true := by
  have hinstr : (g.instruction? w).isSome = true := by
    cases hget : l.writes.get? w with
    | none => simp [PointTable.atPoint, hget] at hw
    | some s => exact hpoints w s hget
  have hblock : (g.block? w.block).isSome = true := by
    obtain ⟨i, hi⟩ := Option.isSome_iff_exists.1 hinstr
    obtain ⟨b, hb, -⟩ := CodeGraph.instruction?_eq_some_iff.1 hi
    simp [hb]
  constructor
  · rintro ⟨hcarried, -, t, ht, halias⟩
    obtain ⟨hex, -⟩ := hcarried.examined hpoints hblock
    obtain rfl := eq_of_readIn?_eq_none (readIn?_of_searchRead_eq_none h hex) ht halias
    exact ⟨rfl, hcarried, t, ht, halias⟩
  · rintro ⟨rfl, hcarried, hreads⟩
    exact ⟨hcarried, hinstr, hreads⟩

/-- A block that copies memory and jumps back to itself. -/
def copyLoop : CodeGraph where
  blocks := [⟨⟨0, none⟩, 0, 0, .unconditional, [⟨.mcopy, none⟩], .block ⟨0, none⟩, none, ∅⟩]
  increasing := List.pairwise_singleton _ _
  shaped := by decide
  closed := by decide

/-- The copying instruction reads and writes one allocation. -/
def copyLedger : Ledger :=
  Ledger.empty.noteAll ⟨⟨0, none⟩, 0⟩
    [.read (.cell (.whole ⟨0⟩)), .write (.cell (.whole ⟨0⟩))]

/-- Each round of the loop reads what the round before has written. No read is found all the
same. -/
theorem observedAt_copyLoop :
    copyLedger.searchRead copyLoop ⟨⟨0, none⟩, 0⟩ (.cell (.whole ⟨0⟩)) = none ∧
      copyLedger.ObservedAt copyLoop ⟨⟨0, none⟩, 0⟩ (.cell (.whole ⟨0⟩)) ⟨⟨0, none⟩, 0⟩ := by
  have hsearch :
      copyLedger.searchRead copyLoop ⟨⟨0, none⟩, 0⟩ (.cell (.whole ⟨0⟩)) = none := by
    refine Option.eq_none_iff_forall_ne_some.2 fun p hp => ?_
    obtain ⟨b, hb⟩ := exists_readIn?_of_searchFrom hp
    obtain ⟨hne, hread⟩ := ne_of_readIn?_eq_some hb
    obtain ⟨s, hs⟩ := Option.isSome_iff_exists.1 hread
    exact hne (Prod.mk.inj (List.mem_singleton.1 (OrdMap.get?_eq_some_iff.1 hs))).1
  have hpoints : ∀ p s, copyLedger.writes.get? p = some s →
      (copyLoop.instruction? p).isSome = true := by
    intro p s h
    have hmem := OrdMap.get?_eq_some_iff.1 h
    obtain ⟨rfl, rfl⟩ := Prod.mk.inj (List.mem_singleton.1 hmem)
    decide
  have hcarried : copyLedger.Carries copyLoop (.cell (.whole ⟨0⟩)) ⟨⟨0, none⟩, 1⟩
      ⟨⟨0, none⟩, 0⟩ :=
    .leave (.start) (b := ⟨⟨0, none⟩, 0, 0, .unconditional, [⟨.mcopy, none⟩], .block ⟨0, none⟩,
      none, ∅⟩) (by decide) rfl (by decide)
  exact ⟨hsearch, (observedAt_iff_of_searchRead_eq_none hpoints (by decide) hsearch _).2
    ⟨rfl, hcarried, .cell (.whole ⟨0⟩), by decide, by decide⟩⟩

end Ledger

end EvmAccess
