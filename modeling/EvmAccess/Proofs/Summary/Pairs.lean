import EvmAccess.Proofs.Access.Relation
import EvmAccess.Proofs.Summary.Entries

/-!
# What the pairs of a summary say about two points

A summary lists pairs of points, but what is compared are sets of tokens. A point may have two of
them, for what is read there and for what is written: an instruction that copies memory does both.
Two such points are compared up to four times, and a pair is listed as soon as one comparison is
certain. So a pair can be listed as equal because of what is read, and as non-equal because of what
is written.

Two points are apart if no token that is written at one of them can mean a location accessed at the
other. A pair that is listed as non-equal is apart exactly if all comparisons of its points say so.
If neither point both reads and writes then there is one comparison, because comparing is symmetric,
and the pair is apart and not listed as equal.

## Main results

- `Ledger.relates_iff`: which pairs are listed.
- `Ledger.apart_iff`: two points are apart if every comparison of them says so.
- `Summary.pairs_exact`: what the pairs of a summary say.
- `Summary.contradictory_storeThenCopy`: a pair that is listed as equal and as non-equal.
-/

namespace EvmAccess

open Std

/-! ### Pairs in order -/

/-- Two points make the pair of them in which the lower one is first. -/
theorem PointPair.ofPoints_eq_iff {a b p q : CodePoint} (hne : a ≠ b) :
    ofPoints a b = ⟨p, q⟩ ↔ compare p q = .lt ∧ (a = p ∧ b = q ∨ a = q ∧ b = p) := by
  rw [ofPoints]
  cases h : compare a b with
  | lt =>
    have hba : compare b a = .gt := OrientedCmp.gt_iff_lt.2 h
    rw [if_pos (by rfl), mk.injEq]
    constructor
    · rintro ⟨rfl, rfl⟩
      exact ⟨h, Or.inl ⟨rfl, rfl⟩⟩
    · rintro ⟨hlt, ⟨rfl, rfl⟩ | ⟨rfl, rfl⟩⟩
      · exact ⟨rfl, rfl⟩
      · simp [hba] at hlt
  | eq => exact absurd (LawfulEqCmp.eq_of_compare h) hne
  | gt =>
    have hba : compare b a = .lt := OrientedCmp.gt_iff_lt.1 h
    rw [if_neg (by simp [Ordering.isLE]), mk.injEq]
    constructor
    · rintro ⟨rfl, rfl⟩
      exact ⟨hba, Or.inr ⟨rfl, rfl⟩⟩
    · rintro ⟨hlt, ⟨rfl, rfl⟩ | ⟨rfl, rfl⟩⟩
      · simp [h] at hlt
      · exact ⟨rfl, rfl⟩

namespace Ledger

variable {l : Ledger} {p q : CodePoint} {rel rel' : Relation} {s t : OrdSet Token}

/-! ### Comparisons -/

/-- The set was recorded at the point, as what is read or as what is written. -/
def Touches (l : Ledger) (p : CodePoint) (s : OrdSet Token) : Prop :=
  l.reads.get? p = some s ∨ l.writes.get? p = some s

/-- What is written at the first point is compared with what is read or written at the second, and
this is the result. -/
def Compares (l : Ledger) (p q : CodePoint) (rel : Relation) : Prop :=
  ∃ s t, l.writes.get? p = some s ∧ l.Touches q t ∧ Token.relationOfSets s t = rel

/-- Some comparison of the two points has this result. -/
def Finds (l : Ledger) (p q : CodePoint) (rel : Relation) : Prop :=
  l.Compares p q rel ∨ l.Compares q p rel

/-- Something is read at the point, and something is written. -/
def Mixed (l : Ledger) (p : CodePoint) : Prop :=
  (l.reads.get? p).isSome = true ∧ (l.writes.get? p).isSome = true

/-- Each token written at the first point certainly differs from every token read or written at the
second. -/
def WritesApart (l : Ledger) (p q : CodePoint) : Prop :=
  ∀ t ∈ l.writes.atPoint p, ∀ u, u ∈ l.reads.atPoint q ∨ u ∈ l.writes.atPoint q →
    t.relation u = .notEqual

/-- Neither point writes what the other one accesses. -/
def Apart (l : Ledger) (p q : CodePoint) : Prop := l.WritesApart p q ∧ l.WritesApart q p

/-- A pair is listed if its points are two points of the block, in order, and some comparison of
them has the result. -/
theorem relates_iff {b : BlockId} : l.Relates b rel ⟨p, q⟩ ↔
    p.block = b ∧ q.block = b ∧ compare p q = .lt ∧ l.Finds p q rel := by
  have hother : ∀ {o : CodePoint × OrdSet Token}, o ∈ l.reads.inBlock b ++ l.writes.inBlock b ↔
      l.Touches o.1 o.2 ∧ o.1.block = b := by
    intro o
    rw [List.mem_append, PointTable.mem_inBlock, PointTable.mem_inBlock, Touches, or_and_right]
  constructor
  · rintro ⟨w, hw, o, ho, hne, hrel, heq⟩
    obtain ⟨hwrites, hwb⟩ := PointTable.mem_inBlock.1 hw
    obtain ⟨htouches, hob⟩ := hother.1 ho
    have hcompares : l.Compares w.1 o.1 rel := ⟨w.2, o.2, hwrites, htouches, hrel⟩
    obtain ⟨hlt, ⟨rfl, rfl⟩ | ⟨rfl, rfl⟩⟩ := (PointPair.ofPoints_eq_iff hne.symm).1 heq.symm
    · exact ⟨hwb, hob, hlt, Or.inl hcompares⟩
    · exact ⟨hob, hwb, hlt, Or.inr hcompares⟩
  · rintro ⟨hp, hq, hlt, hfinds⟩
    have hne : p ≠ q := by
      rintro rfl
      simp [ReflCmp.compare_self] at hlt
    rcases hfinds with ⟨s, t, hs, ht, hrel⟩ | ⟨s, t, hs, ht, hrel⟩
    · exact ⟨(p, s), PointTable.mem_inBlock.2 ⟨hs, hp⟩, (q, t), hother.2 ⟨ht, hq⟩, hne.symm, hrel,
        ((PointPair.ofPoints_eq_iff hne).2 ⟨hlt, Or.inl ⟨rfl, rfl⟩⟩).symm⟩
    · exact ⟨(q, s), PointTable.mem_inBlock.2 ⟨hs, hq⟩, (p, t), hother.2 ⟨ht, hp⟩, hne, hrel,
        ((PointPair.ofPoints_eq_iff hne.symm).2 ⟨hlt, Or.inr ⟨rfl, rfl⟩⟩).symm⟩

/-- What is written at one point is apart from what is accessed at another if all comparisons say
so. -/
theorem writesApart_iff :
    l.WritesApart p q ↔ ∀ rel, l.Compares p q rel → rel = .notEqual := by
  constructor
  · rintro h rel ⟨s, t, hs, ht, rfl⟩
    refine Token.relationOfSets_eq_notEqual_iff.2 fun a ha b hb => ?_
    refine h a (PointTable.mem_atPoint_iff.2 ⟨s, hs, ha⟩) b (ht.imp (fun ht => ?_) fun ht => ?_)
    · exact PointTable.mem_atPoint_iff.2 ⟨t, ht, hb⟩
    · exact PointTable.mem_atPoint_iff.2 ⟨t, ht, hb⟩
  · intro h a ha b hb
    obtain ⟨s, hs, ha⟩ := PointTable.mem_atPoint_iff.1 ha
    obtain ⟨t, ht, hb⟩ : ∃ t, l.Touches q t ∧ b ∈ t := by
      rcases hb with hb | hb
      · obtain ⟨t, ht, hb⟩ := PointTable.mem_atPoint_iff.1 hb
        exact ⟨t, Or.inl ht, hb⟩
      · obtain ⟨t, ht, hb⟩ := PointTable.mem_atPoint_iff.1 hb
        exact ⟨t, Or.inr ht, hb⟩
    exact Token.relationOfSets_eq_notEqual_iff.1 (h _ ⟨s, t, hs, ht, rfl⟩) a ha b hb

/-- **Two points are apart if every comparison of them says so.** -/
theorem apart_iff : l.Apart p q ↔ ∀ rel, l.Finds p q rel → rel = .notEqual := by
  rw [Apart, writesApart_iff, writesApart_iff]
  exact ⟨fun h rel hfinds => hfinds.elim (h.1 rel) (h.2 rel),
    fun h => ⟨fun rel hrel => h rel (Or.inl hrel), fun rel hrel => h rel (Or.inr hrel)⟩⟩

/-- A point that does not both read and write has one set. -/
theorem Touches.eq (hp : ¬ l.Mixed p) (hs : l.Touches p s) (ht : l.Touches p t) : s = t := by
  rcases hs with hs | hs <;> rcases ht with ht | ht
  · exact Option.some.inj (hs.symm.trans ht)
  · exact absurd ⟨by simp [hs], by simp [ht]⟩ hp
  · exact absurd ⟨by simp [ht], by simp [hs]⟩ hp
  · exact Option.some.inj (hs.symm.trans ht)

/-- Two points are compared in one way only if neither of them both reads and writes. -/
theorem Finds.eq (hp : ¬ l.Mixed p) (hq : ¬ l.Mixed q) (h : l.Finds p q rel)
    (h' : l.Finds p q rel') : rel = rel' := by
  rcases h with ⟨s, t, hs, ht, rfl⟩ | ⟨s, t, hs, ht, rfl⟩ <;>
    rcases h' with ⟨s', t', hs', ht', rfl⟩ | ⟨s', t', hs', ht', rfl⟩
  · obtain rfl := Touches.eq hp (Or.inr hs) (Or.inr hs')
    obtain rfl := Touches.eq hq ht ht'
    rfl
  · obtain rfl := Touches.eq hp (Or.inr hs) ht'
    obtain rfl := Touches.eq hq ht (Or.inr hs')
    exact Token.relationOfSets_comm s t
  · obtain rfl := Touches.eq hq (Or.inr hs) ht'
    obtain rfl := Touches.eq hp ht (Or.inr hs')
    exact Token.relationOfSets_comm s t
  · obtain rfl := Touches.eq hq (Or.inr hs) (Or.inr hs')
    obtain rfl := Touches.eq hp ht ht'
    rfl

/-! ### Listed pairs -/

/-- What the pairs of a block say. They are the pairs of two points of the block, in order, for
which some comparison has the result. A pair listed as non-equal is apart exactly if no comparison
of its points has another result; and it is, and is not listed as equal too, if neither point both
reads and writes. -/
structure Lists (l : Ledger) (b : BlockId) (f : PairFacts) : Prop where
  equal_iff : ∀ p q, ⟨p, q⟩ ∈ f.equal ↔
    p.block = b ∧ q.block = b ∧ compare p q = .lt ∧ l.Finds p q .equal
  nonequal_iff : ∀ p q, ⟨p, q⟩ ∈ f.nonequal ↔
    p.block = b ∧ q.block = b ∧ compare p q = .lt ∧ l.Finds p q .notEqual
  apart_iff : ∀ p q, ⟨p, q⟩ ∈ f.nonequal →
    (l.Apart p q ↔ ∀ rel, l.Finds p q rel → rel = .notEqual)
  consistent : ∀ p q, ⟨p, q⟩ ∈ f.nonequal → ¬ l.Mixed p → ¬ l.Mixed q →
    l.Apart p q ∧ ⟨p, q⟩ ∉ f.equal

theorem lists_relate (l : Ledger) (b : BlockId) : l.Lists b (PairFacts.empty.relate l b) := by
  have hmem : ∀ rel, rel ≠ .unknown → ∀ p q,
      ⟨p, q⟩ ∈ (PairFacts.empty.relate l b).certain rel ↔
        p.block = b ∧ q.block = b ∧ compare p q = .lt ∧ l.Finds p q rel := by
    intro rel hrel p q
    rw [PairFacts.mem_certain_relate hrel, relates_iff, or_iff_right]
    cases rel <;> exact OrdSet.not_mem_empty _
  have hequal := hmem .equal nofun
  have hnot := hmem .notEqual nofun
  refine ⟨hequal, hnot, fun p q _ => apart_iff, fun p q hpq hp hq => ?_⟩
  obtain ⟨-, -, -, hfinds⟩ := (hnot p q).1 hpq
  refine ⟨apart_iff.2 fun rel hrel => hrel.eq hp hq hfinds, fun heq => ?_⟩
  obtain ⟨-, -, -, hfinds'⟩ := (hequal p q).1 heq
  cases hfinds'.eq hp hq hfinds

end Ledger

namespace Summary

/-- **What the pairs of a summary say**, whatever was recorded: the memory pairs after memory
accesses were related in a fresh summary, and likewise the storage pairs. -/
theorem pairs_exact (g : CodeGraph) (l : Ledger) :
    ((initial g).relateMemory l).Every (fun b f => l.Lists b f.memory) ∧
      ((initial g).relateStorage l).Every fun b f => l.Lists b f.storage := by
  constructor
  · refine (every_initial g).map fun b f hf => ?_
    rw [hf]
    exact l.lists_relate b
  · refine (every_initial g).map fun b f hf => ?_
    rw [hf]
    exact l.lists_relate b

/-- A block that writes to memory and then copies memory. -/
def storeThenCopy : CodeGraph where
  blocks :=
    [⟨⟨0, none⟩, 0, 2, .terminal, [⟨.mstore, none⟩, ⟨.mcopy, none⟩, ⟨.stop, none⟩], .none, none,
      ∅⟩]
  increasing := List.pairwise_singleton _ _
  shaped := by decide
  closed := by decide

/-- The word that is written is copied to another one. -/
def storeThenCopyLedger : Ledger :=
  (Ledger.empty.noteAll ⟨⟨0, none⟩, 0⟩ [.write (.region .mem0)]).noteAll ⟨⟨0, none⟩, 1⟩
    [.read (.region .mem0), .write (.region .mem32)]

/-- The two points are listed as equal because of what the copy reads, and as non-equal because of
what it writes. They are not apart. -/
theorem contradictory_storeThenCopy :
    ∃ f, ((initial storeThenCopy).relateMemory storeThenCopyLedger).get? ⟨0, none⟩ = some f ∧
      ⟨⟨⟨0, none⟩, 0⟩, ⟨⟨0, none⟩, 1⟩⟩ ∈ f.memory.equal ∧
      ⟨⟨⟨0, none⟩, 0⟩, ⟨⟨0, none⟩, 1⟩⟩ ∈ f.memory.nonequal ∧
      ¬ storeThenCopyLedger.Apart ⟨⟨0, none⟩, 0⟩ ⟨⟨0, none⟩, 1⟩ := by
  obtain ⟨f, hf⟩ : ∃ f, ((initial storeThenCopy).relateMemory storeThenCopyLedger).get?
      ⟨0, none⟩ = some f := by
    refine Option.isSome_iff_exists.1 ?_
    rw [relateMemory, OrdMap.get?_map, Option.isSome_map, get?_initial]
    rfl
  have hlists := (pairs_exact storeThenCopy storeThenCopyLedger).1 _ f hf
  have hequal : storeThenCopyLedger.Finds ⟨⟨0, none⟩, 0⟩ ⟨⟨0, none⟩, 1⟩ .equal :=
    Or.inl ⟨.singleton (.region .mem0), .singleton (.region .mem0), rfl, Or.inl rfl, rfl⟩
  have hnot : storeThenCopyLedger.Finds ⟨⟨0, none⟩, 0⟩ ⟨⟨0, none⟩, 1⟩ .notEqual :=
    Or.inl ⟨.singleton (.region .mem0), .singleton (.region .mem32), rfl, Or.inr rfl, rfl⟩
  have hlisted := (hlists.nonequal_iff _ _).2 ⟨rfl, rfl, by decide, hnot⟩
  refine ⟨f, hf, (hlists.equal_iff _ _).2 ⟨rfl, rfl, by decide, hequal⟩, hlisted, fun hapart => ?_⟩
  cases (hlists.apart_iff _ _ hlisted).1 hapart .equal hequal

end Summary

end EvmAccess
