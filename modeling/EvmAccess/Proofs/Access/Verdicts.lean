import EvmAccess.Proofs.Access.Observation

/-!
# What the search for a read finds, and what the verdicts say

A value written at a point stays exposed along the edges of the program, until a block overwrites
it. The exposed blocks are the least set with the block of the write that is closed under the edges
out of its members that do not overwrite the location. The search for a read goes through a stack of
block names and gives up each block once it was met; it stops at the first read. It looks into
exposed blocks only, and into all of them if it finds nothing.

Every recorded write gets one verdict, in the order of points and then of locations. There are four
verdicts, and each of them has a condition of its own.

## Main results

- `Ledger.examined_iff_exposed`: the search examines the exposed blocks.
- `Ledger.pairwise_stores`: the order of recorded writes.
- `Ledger.mem_classify`: there is one verdict for each recorded write.
- `Ledger.verdict_cases`: the conditions of the four verdicts.
- `Ledger.verdicts_exact`: what the search finds and what the verdicts say.
-/

namespace EvmAccess

open Std

namespace Ledger

variable {l : Ledger} {g : CodeGraph} {w p : CodePoint} {token : Token} {b : BlockId}

/-! ### Exposed blocks -/

/-- The block holds a recorded write that certainly means the location written at `w`; in the block
of `w` only points behind `w` count. -/
def Overwrites (l : Ledger) (w : CodePoint) (token : Token) (b : BlockId) : Prop :=
  ∃ p s, l.writes.get? p = some s ∧ p.block = b ∧ (b = w.block → w.index < p.index) ∧
    Token.relationOfSets (OrdSet.singleton token) s = .equal

/-- The least set of blocks with the block of `w` and the successors of every member that does not
overwrite the location. A point outside the program exposes nothing. -/
inductive Exposed (l : Ledger) (g : CodeGraph) (w : CodePoint) (token : Token) : BlockId → Prop
  | origin : (g.block? w.block).isSome = true → Exposed l g w token w.block
  | edge {x s : BlockId} {b : BasicBlock} : Exposed l g w token x → g.block? x = some b →
      ¬ l.Overwrites w token x → s ∈ b.successors → Exposed l g w token s

/-- At the point, which is not that of the write, a read is recorded that may mean the location. -/
def MayRead (l : Ledger) (w : CodePoint) (token : Token) (p : CodePoint) : Prop :=
  p ≠ w ∧ ∃ t ∈ l.reads.atPoint p, t.mayAlias token = true

theorem overwritesIn_iff : l.overwritesIn w token b = true ↔ l.Overwrites w token b := by
  simp only [overwritesIn, List.any_eq_true, decide_eq_true_eq, Overwrites]
  constructor
  · rintro ⟨⟨p, s⟩, hmem, hlater, heq⟩
    obtain ⟨hget, hb⟩ := PointTable.mem_inBlock.1 hmem
    exact ⟨p, s, hget, hb, fun h => hlater.resolve_left fun hne => hne h, heq⟩
  · rintro ⟨p, s, hget, hb, hlater, heq⟩
    refine ⟨(p, s), PointTable.mem_inBlock.2 ⟨hget, hb⟩, ?_, heq⟩
    by_cases h : b = w.block
    · exact Or.inr (hlater h)
    · exact Or.inl h

/-- The search examines the exposed blocks. -/
theorem examined_iff_exposed :
    l.Examined w token g.flow.nodes [w.block] b ↔ l.Exposed g w token b := by
  have hsome : ∀ {x n}, g.flow.nodes.find? (·.id = x) = some n →
      ∃ b, g.block? x = some b ∧ b.node = n := fun h => CodeGraph.node?_flow_eq_some_iff.1 h
  have hnode : ∀ {x b}, g.block? x = some b → g.flow.nodes.find? (·.id = x) = some b.node :=
    fun h => CodeGraph.node?_flow_eq_some_iff.2 ⟨_, h, rfl⟩
  constructor
  · intro h
    induction h with
    | root hx hn =>
      obtain rfl := List.mem_singleton.1 hx
      obtain ⟨b, hb, -⟩ := hsome hn
      exact .origin (Option.isSome_iff_exists.2 ⟨b, hb⟩)
    | edge _ hn how hs _ ih =>
      obtain ⟨b, hb, rfl⟩ := hsome hn
      refine .edge ih hb (fun h => ?_) hs
      rw [overwritesIn_iff.2 h] at how
      cases how
  · intro h
    induction h with
    | origin hw =>
      obtain ⟨b, hb⟩ := Option.isSome_iff_exists.1 hw
      exact .root (List.mem_singleton_self _) (hnode hb)
    | edge _ hb hnot hs ih =>
      obtain ⟨b', hb'⟩ := Option.isSome_iff_exists.1 (g.isSome_block?_of_mem_successors hb hs)
      exact .edge ih (hnode hb) (Bool.eq_false_iff.2 fun h => hnot (overwritesIn_iff.1 h)) hs
        (hnode hb')

/-- A result in a block is a read of that block. -/
theorem mayRead_of_readIn? (h : l.readIn? w token b = some p) :
    p.block = b ∧ l.MayRead w token p := by
  obtain ⟨hne, s, hget, halias⟩ := exists_mayAlias_of_readIn? h
  obtain ⟨t, ht, halias⟩ := OrdSet.any_iff.1 halias
  obtain ⟨e, he, rfl⟩ := Option.map_eq_some_iff.1 h
  exact ⟨(PointTable.mem_inBlock.1 (List.mem_of_find?_eq_some he)).2, hne, t,
    PointTable.mem_atPoint_iff.2 ⟨s, hget, ht⟩, halias⟩

/-- What the search finds is a read in an exposed block. -/
theorem exposed_of_searchRead (h : l.searchRead g w token = some p) :
    l.Exposed g w token p.block ∧ l.MayRead w token p := by
  obtain ⟨b, hb, hread⟩ := exists_examined_of_searchFrom h
  obtain ⟨rfl, hmay⟩ := mayRead_of_readIn? hread
  exact ⟨examined_iff_exposed.1 hb, hmay⟩

/-- If there is a read in an exposed block, the search finds one. -/
theorem isSome_searchRead (hb : l.Exposed g w token p.block) (hp : l.MayRead w token p) :
    (l.searchRead g w token).isSome = true := by
  obtain ⟨hne, t, ht, halias⟩ := hp
  cases h : l.searchRead g w token with
  | some q => rfl
  | none =>
    have hnone := readIn?_of_searchRead_eq_none h (examined_iff_exposed.2 hb)
    exact absurd (eq_of_readIn?_eq_none hnone ht halias) hne

/-! ### Recorded writes -/

/-- The recorded writes. -/
theorem mem_stores : (p, token) ∈ l.stores ↔ token ∈ l.writes.atPoint p := by
  simp only [stores, List.mem_flatMap, List.mem_map, Prod.mk.injEq, PointTable.mem_atPoint_iff]
  constructor
  · rintro ⟨⟨q, s⟩, he, t, ht, rfl, rfl⟩
    exact ⟨s, OrdMap.get?_eq_some_iff.2 he, ht⟩
  · rintro ⟨s, hget, ht⟩
    exact ⟨(p, s), OrdMap.get?_eq_some_iff.1 hget, token, ht, rfl, rfl⟩

/-- The recorded writes are listed by point and then by location. -/
theorem pairwise_stores (l : Ledger) : l.stores.Pairwise fun x y =>
    compare x.1 y.1 = .lt ∨ x.1 = y.1 ∧ compare x.2 y.2 = .lt := by
  refine List.pairwise_flatMap.2 ⟨fun e _ => ?_, l.writes.increasing.imp fun hlt x hx y hy => ?_⟩
  · exact List.pairwise_map.2 (e.2.increasing.imp fun hlt => Or.inr ⟨rfl, hlt⟩)
  · obtain ⟨t, -, rfl⟩ := List.mem_map.1 hx
    obtain ⟨u, -, rfl⟩ := List.mem_map.1 hy
    exact Or.inl hlt

theorem nodup_stores (l : Ledger) : l.stores.Nodup := by
  refine l.pairwise_stores.imp fun {x y} hlt heq => ?_
  subst heq
  rcases hlt with hlt | ⟨-, hlt⟩
  · rw [show compare x.1 x.1 = .eq from ReflCmp.compare_self] at hlt
    cases hlt
  · rw [show compare x.2 x.2 = .eq from ReflCmp.compare_self] at hlt
    cases hlt

/-! ### Verdicts -/

/-- There is one verdict for each recorded write. -/
theorem mem_classify {r : StoreReport} : r ∈ l.classify g ↔
    r.token ∈ l.writes.atPoint r.point ∧ r.verdict = l.verdict g r.point r.token := by
  rw [classify, List.mem_map]
  constructor
  · rintro ⟨⟨p, t⟩, hs, rfl⟩
    exact ⟨mem_stores.1 hs, rfl⟩
  · rintro ⟨ht, hv⟩
    obtain ⟨p, t, v⟩ := r
    exact ⟨(p, t), mem_stores.2 ht, by rw [← hv]⟩

/-- No recorded write gets a second verdict. -/
theorem countP_classify (l : Ledger) (g : CodeGraph) (p : CodePoint) (token : Token) :
    (l.classify g).countP (fun r => r.point = p ∧ r.token = token) =
      if token ∈ l.writes.atPoint p then 1 else 0 := by
  have hcount : (l.classify g).countP (fun r => r.point = p ∧ r.token = token) =
      l.stores.count (p, token) := by
    rw [classify, List.countP_map, List.count_eq_countP]
    refine List.countP_congr fun x _ => ?_
    simp [Prod.ext_iff]
  rw [hcount, l.nodup_stores.count]
  simp only [mem_stores]

/-- **The conditions of the four verdicts.** -/
theorem verdict_cases (l : Ledger) (g : CodeGraph) (p : CodePoint) (token : Token) :
    (endsInRevert g p = true ∧ l.verdict g p token = .beforeRevert) ∨
    (endsInRevert g p = false ∧ ∃ read, l.searchRead g p token = some read ∧
      l.verdict g p token = .live read) ∨
    (endsInRevert g p = false ∧ l.searchRead g p token = none ∧ l.strayed = true ∧
      l.verdict g p token = .suppressed) ∨
    (endsInRevert g p = false ∧ l.searchRead g p token = none ∧ l.strayed = false ∧
      l.verdict g p token = .dead) := by
  rw [verdict]
  cases endsInRevert g p with
  | true => simp
  | false => cases l.searchRead g p token <;> cases l.strayed <;> simp

/-- A location is dead if the block ends by reverting, or no read is found and no address may have
left its allocation. -/
theorem isDead_iff_of_mem_classify {r : StoreReport} (hr : r ∈ l.classify g) :
    r.isDead = true ↔ endsInRevert g r.point = true ∨
      l.searchRead g r.point r.token = none ∧ l.strayed = false := by
  rw [StoreReport.isDead, decide_eq_true_iff, (mem_classify.1 hr).2]
  rcases l.verdict_cases g r.point r.token with ⟨hrevert, hv⟩ | ⟨hrevert, read, hread, hv⟩ |
    ⟨hrevert, hnone, hstray, hv⟩ | ⟨hrevert, hnone, hstray, hv⟩
  · simp [hrevert, hv]
  · simp [hrevert, hread, hv]
  · simp [hrevert, hstray, hv]
  · simp [hnone, hstray, hv]

/-- A location is live if a read is found. -/
theorem verdict_eq_live_iff {read : CodePoint} : l.verdict g p token = .live read ↔
    endsInRevert g p = false ∧ l.searchRead g p token = some read := by
  rcases l.verdict_cases g p token with ⟨hrevert, hv⟩ | ⟨hrevert, read', hread, hv⟩ |
    ⟨hrevert, hnone, -, hv⟩ | ⟨hrevert, hnone, -, hv⟩
  · simp [hrevert, hv]
  · simp [hrevert, hread, hv]
  · simp [hnone, hv]
  · simp [hnone, hv]

theorem endsInRevert_iff : endsInRevert g p = true ↔
    ∃ b, g.block? p.block = some b ∧ b.lastOpcode? = some .revert := by
  rw [endsInRevert, decide_eq_true_iff, Option.bind_eq_some_iff]

/-- **What the search finds and what the verdicts say.** A search succeeds exactly if some exposed
block holds a recorded read that may mean the location, other than at the point of the write, and it
finds such a read. There is exactly one verdict for each recorded write and none besides. The
verdict is that the block reverts if its last opcode says so; otherwise that the read which the
search finds is seen; otherwise it is suppressed if an address may have left its allocation, and
that the value is dead if not. -/
theorem verdicts_exact (l : Ledger) (g : CodeGraph) :
    (∀ w token,
      ((l.searchRead g w token).isSome = true ↔
        ∃ p, l.Exposed g w token p.block ∧ l.MayRead w token p) ∧
      ∀ p, l.searchRead g w token = some p →
        l.Exposed g w token p.block ∧ l.MayRead w token p) ∧
    (∀ p token, (l.classify g).countP (fun r => r.point = p ∧ r.token = token) =
      if token ∈ l.writes.atPoint p then 1 else 0) ∧
    ∀ r ∈ l.classify g,
      let reverts := ∃ b, g.block? r.point.block = some b ∧ b.lastOpcode? = some .revert
      let search := l.searchRead g r.point r.token
      (r.verdict = .beforeRevert ↔ reverts) ∧
      (∀ read, r.verdict = .live read ↔ ¬ reverts ∧ search = some read) ∧
      (r.verdict = .suppressed ↔ ¬ reverts ∧ search = none ∧ l.strayed = true) ∧
      (r.verdict = .dead ↔ ¬ reverts ∧ search = none ∧ l.strayed = false) := by
  refine ⟨fun w token => ⟨⟨fun h => ?_, fun ⟨p, hb, hp⟩ => isSome_searchRead hb hp⟩,
    fun p h => exposed_of_searchRead h⟩, countP_classify l g, fun r hr => ?_⟩
  · obtain ⟨p, hp⟩ := Option.isSome_iff_exists.1 h
    exact ⟨p, exposed_of_searchRead hp⟩
  · rw [(mem_classify.1 hr).2]
    simp only [← endsInRevert_iff]
    rcases l.verdict_cases g r.point r.token with ⟨hrevert, hv⟩ | ⟨hrevert, read, hread, hv⟩ |
      ⟨hrevert, hnone, hstray, hv⟩ | ⟨hrevert, hnone, hstray, hv⟩
    · simp [hrevert, hv]
    · simp [hrevert, hread, hv]
    · simp [hrevert, hnone, hstray, hv]
    · simp [hrevert, hnone, hstray, hv]

/-- A location is written; on one branch it is written again and then read, on the other one nothing
happens to it. -/
def rewriting : CodeGraph where
  blocks :=
    [⟨⟨0, none⟩, 0, 1, .conditional, [⟨.mstore, none⟩, ⟨.jumpi, none⟩], .block ⟨5, none⟩,
       some ⟨2, none⟩, ∅⟩,
     ⟨⟨2, none⟩, 2, 2, .fallsTo, [⟨.mstore, none⟩], .none, some ⟨3, none⟩, ∅⟩,
     ⟨⟨3, none⟩, 3, 4, .terminal, [⟨.mload, none⟩, ⟨.stop, none⟩], .none, none, ∅⟩,
     ⟨⟨5, none⟩, 5, 6, .terminal, [⟨.jumpdest, none⟩, ⟨.stop, none⟩], .none, none, ∅⟩]
  increasing := by decide
  shaped := by decide
  closed := by decide

/-- The accesses of the program to the location. -/
def rewritingLedger : Ledger :=
  ((Ledger.empty.note ⟨⟨0, none⟩, 0⟩ (.write (.cell ⟨⟨0⟩, .exact 0⟩))).note
    ⟨⟨2, none⟩, 0⟩ (.write (.cell ⟨⟨0⟩, .exact 0⟩))).note
    ⟨⟨3, none⟩, 0⟩ (.read (.cell ⟨⟨0⟩, .exact 0⟩))

/-- There is only one read. -/
theorem eq_of_mayRead_rewriting (h : rewritingLedger.MayRead w token p) : p = ⟨⟨3, none⟩, 0⟩ := by
  obtain ⟨-, t, ht, -⟩ := h
  obtain ⟨s, hs, -⟩ := PointTable.mem_atPoint_iff.1 ht
  exact (Prod.mk.inj (List.mem_singleton.1 (OrdMap.get?_eq_some_iff.1 hs))).1

/-- The only way to the read leads through the second write. -/
theorem not_exposed_rewriting :
    ¬ rewritingLedger.Exposed rewriting ⟨⟨0, none⟩, 0⟩ (.cell ⟨⟨0⟩, .exact 0⟩) ⟨3, none⟩ := by
  intro h
  cases h with
  | @edge x _ b _ hb hnot hs =>
    have hedge : ∀ b ∈ rewriting.blocks, ⟨3, none⟩ ∈ b.successors → b.id = ⟨2, none⟩ := by decide
    have hx := hedge b (CodeGraph.mem_of_block? hb) hs
    rw [CodeGraph.id_of_block? hb] at hx
    exact hnot (overwritesIn_iff.1 (by rw [hx]; decide))

/-- The first write is dead, although the read can be reached from it; the second one is seen. -/
theorem dead_rewriting :
    ⟨⟨⟨0, none⟩, 0⟩, .cell ⟨⟨0⟩, .exact 0⟩, .dead⟩ ∈ rewritingLedger.classify rewriting ∧
      ⟨⟨⟨2, none⟩, 0⟩, .cell ⟨⟨0⟩, .exact 0⟩, .live ⟨⟨3, none⟩, 0⟩⟩ ∈
        rewritingLedger.classify rewriting := by
  obtain ⟨hsearch, -, hverdict⟩ := verdicts_exact rewritingLedger rewriting
  have hmem : ∀ p, .cell ⟨⟨0⟩, .exact 0⟩ ∈ rewritingLedger.writes.atPoint p →
      ⟨p, .cell ⟨⟨0⟩, .exact 0⟩, rewritingLedger.verdict rewriting p (.cell ⟨⟨0⟩, .exact 0⟩)⟩ ∈
        rewritingLedger.classify rewriting := fun p hp => mem_classify.2 ⟨hp, rfl⟩
  constructor
  · have hnone : rewritingLedger.searchRead rewriting ⟨⟨0, none⟩, 0⟩ (.cell ⟨⟨0⟩, .exact 0⟩) =
        none := by
      refine Option.eq_none_iff_forall_ne_some.2 fun p hp => ?_
      obtain ⟨hexposed, hmay⟩ := (hsearch _ _).2 p hp
      rw [eq_of_mayRead_rewriting hmay] at hexposed
      exact not_exposed_rewriting hexposed
    have hr := hmem ⟨⟨0, none⟩, 0⟩ (by decide)
    have hdead := (hverdict _ hr).2.2.2.2 ⟨(not_congr endsInRevert_iff).1 (by decide), hnone, rfl⟩
    exact hdead ▸ hr
  · have hsome := (hsearch ⟨⟨2, none⟩, 0⟩ (.cell ⟨⟨0⟩, .exact 0⟩)).1.2
      ⟨⟨⟨3, none⟩, 0⟩,
        .edge (.origin rfl) rfl ((not_congr overwritesIn_iff).1 (by decide)) (by decide),
        by decide, .cell ⟨⟨0⟩, .exact 0⟩, by decide, by decide⟩
    obtain ⟨p, hp⟩ := Option.isSome_iff_exists.1 hsome
    obtain rfl := eq_of_mayRead_rewriting ((hsearch _ _).2 p hp).2
    have hr := hmem ⟨⟨2, none⟩, 0⟩ (by decide)
    have hlive := ((hverdict _ hr).2.1 _).2 ⟨(not_congr endsInRevert_iff).1 (by decide), hp⟩
    exact hlive ▸ hr

end Ledger

end EvmAccess
