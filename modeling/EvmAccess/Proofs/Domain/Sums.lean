import EvmAccess.Proofs.Domain.MemoryOrder
import EvmAccess.Proofs.Domain.OffsetMonotone

/-!
# Sums of offsets, and shifted addresses

Offsets are added in two ways. The constants domain adds sets of offsets under a bound, and the
memory domain shifts the cells of a set by all offsets of another. The second addition also tests
whether a sum is aligned, and drops cells under whole allocations after each shift. On multiples of
the word size it makes no difference: shifting twice is shifting once, by the sum.

Both kinds of sets are determined by what they cover, so equations between them are equivalences
about what is covered. An offset covers itself, and `any` covers every offset. Sums are monotone in
this order, and so are shifts, which is why a cell can be dropped before the next shift: the whole
allocation stays whole.

## Main results

- `Offset.plus_comm`, `Offset.plus_assoc`: sums of offsets.
- `OffsetSet.sumLaws`: sums of sets of offsets.
- `CellSet.clean_eq_of_covers_iff`: what a set covers determines it.
- `CellSet.shift_shift_eq_shift_plus`: shifting an address twice is shifting it by the sum.
-/

namespace EvmAccess

/-! ### Offsets -/

namespace Offset

variable {bound n : Nat} {a b c a' b' : Offset}

/-- The offset is a multiple of `n`, if it is exact. -/
def MultipleOf (n : Nat) (a : Offset) : Prop := ∀ value, a = .exact value → value % n = 0

instance (n : Nat) : (a : Offset) → Decidable (a.MultipleOf n)
  | .exact value =>
    decidable_of_iff (value % n = 0) ⟨fun h _ heq => Offset.exact.inj heq ▸ h, fun h => h value rfl⟩
  | .beyond | .any => isTrue nofun

/-- The first offset leaves open whether the second one is meant. -/
def Covers (a b : Offset) : Prop := a = .any ∨ a = b

theorem Covers.refl (a : Offset) : a.Covers a := Or.inr rfl

theorem Covers.trans (hab : a.Covers b) (hbc : b.Covers c) : a.Covers c := by
  rcases hab with rfl | rfl
  · exact Or.inl rfl
  · exact hbc

theorem eq_of_iff (hany : a = .any ↔ b = .any)
    (hexact : ∀ value, a = .exact value ↔ b = .exact value) : a = b := by
  cases a with
  | exact x => exact ((hexact x).1 rfl).symm
  | any => exact (hany.1 rfl).symm
  | beyond =>
    cases b with
    | exact y => exact (hexact y).2 rfl
    | any => exact hany.2 rfl
    | beyond => rfl

theorem plus_eq_any_iff : a.plus bound b = .any ↔ a = .any ∨ b = .any := by
  cases a with
  | any => simp [plus]
  | beyond => cases b <;> simp [plus]
  | exact x =>
    cases b with
    | any | beyond => simp [plus]
    | exact y => by_cases h : x + y ≤ bound <;> simp [plus, h]

theorem plus_eq_exact_iff {value : Nat} : a.plus bound b = .exact value ↔
    ∃ x y, a = .exact x ∧ b = .exact y ∧ x + y = value ∧ value ≤ bound := by
  cases a with
  | any => simp [plus]
  | beyond => cases b <;> simp [plus]
  | exact x =>
    cases b with
    | any | beyond => simp [plus]
    | exact y =>
      by_cases h : x + y ≤ bound
      · simp only [plus, if_pos h, Offset.exact.injEq, exists_and_left, exists_eq_left']
        exact ⟨fun heq => ⟨heq, heq ▸ h⟩, And.left⟩
      · simp only [plus, if_neg h, Offset.exact.injEq, exists_and_left, exists_eq_left',
          reduceCtorEq, false_iff]
        rintro ⟨rfl, hle⟩
        exact h hle

theorem plus_comm (bound : Nat) (a b : Offset) : a.plus bound b = b.plus bound a := by
  refine eq_of_iff ?_ fun value => ?_
  · rw [plus_eq_any_iff, plus_eq_any_iff, or_comm]
  · rw [plus_eq_exact_iff, plus_eq_exact_iff, exists_comm]
    simp only [and_left_comm, Nat.add_comm]

/-- Neither partial sum exceeds the bound if the whole sum does not. -/
theorem plus_assoc (bound : Nat) (a b c : Offset) :
    (a.plus bound b).plus bound c = a.plus bound (b.plus bound c) := by
  refine eq_of_iff ?_ fun value => ?_
  · rw [plus_eq_any_iff, plus_eq_any_iff, plus_eq_any_iff, plus_eq_any_iff, or_assoc]
  · simp only [plus_eq_exact_iff]
    constructor
    · rintro ⟨_, z, ⟨x, y, rfl, rfl, rfl, -⟩, rfl, rfl, hle⟩
      exact ⟨x, y + z, rfl, ⟨y, z, rfl, rfl, rfl, by omega⟩, by omega, hle⟩
    · rintro ⟨x, _, rfl, ⟨y, z, rfl, rfl, rfl, -⟩, rfl, hle⟩
      exact ⟨x + y, z, ⟨x, y, rfl, rfl, rfl, by omega⟩, rfl, by omega, hle⟩

theorem Covers.plus (ha : a'.Covers a) (hb : b'.Covers b) :
    (a'.plus bound b').Covers (a.plus bound b) := by
  rcases ha with rfl | rfl
  · exact Or.inl rfl
  · rcases hb with rfl | rfl
    · exact Or.inl (plus_eq_any_iff.2 (Or.inr rfl))
    · exact .refl _

theorem MultipleOf.plus (ha : a.MultipleOf n) (hb : b.MultipleOf n) (bound : Nat) :
    (a.plus bound b).MultipleOf n := by
  intro value hvalue
  obtain ⟨x, y, rfl, rfl, rfl, -⟩ := plus_eq_exact_iff.1 hvalue
  have hx : n ∣ x := Nat.dvd_of_mod_eq_zero (ha x rfl)
  have hy : n ∣ y := Nat.dvd_of_mod_eq_zero (hb y rfl)
  exact Nat.mod_eq_zero_of_dvd (Nat.dvd_add hx hy)

end Offset

/-! ### Sets of offsets -/

namespace OffsetSet

variable {bound : Nat} {s t u : OffsetSet} {o : Offset}

theorem admits_iff_exists : s.admits o = true ↔ ∃ a ∈ s, a.Covers o := by
  rw [admits_iff]
  constructor
  · rintro (hany | ho)
    · exact ⟨.any, hany, Or.inl rfl⟩
    · exact ⟨o, ho, .refl o⟩
  · rintro ⟨a, ha, rfl | rfl⟩
    · exact Or.inl ha
    · exact Or.inr ha

/-- What a sum allows depends only on what its sides allow. -/
theorem admits_plus_iff_of_admits : (plus bound s t).admits o = true ↔
    ∃ a b, s.admits a = true ∧ t.admits b = true ∧ (a.plus bound b).Covers o := by
  rw [admits_plus_iff]
  constructor
  · rintro ⟨a, ha, b, hb, hcovers⟩
    exact ⟨a, b, admits_of_mem ha, admits_of_mem hb, hcovers⟩
  · rintro ⟨a, b, ha, hb, hcovers⟩
    obtain ⟨a', ha', hcovers_a⟩ := admits_iff_exists.1 ha
    obtain ⟨b', hb', hcovers_b⟩ := admits_iff_exists.1 hb
    exact ⟨a', ha', b', hb', (hcovers_a.plus hcovers_b).trans hcovers⟩

theorem plus_comm (bound : Nat) (s t : OffsetSet) : plus bound s t = plus bound t s := by
  refine eq_of_admits_iff fun o => ?_
  rw [admits_plus_iff_of_admits, admits_plus_iff_of_admits, exists_comm]
  simp only [Offset.plus_comm bound, and_left_comm]

/-- A sum of three allows the sums of three offsets that the sides allow. -/
theorem admits_plus_plus_iff : (plus bound (plus bound s t) u).admits o = true ↔
    ∃ a b c, s.admits a = true ∧ t.admits b = true ∧ u.admits c = true ∧
      ((a.plus bound b).plus bound c).Covers o := by
  rw [admits_plus_iff_of_admits]
  constructor
  · rintro ⟨d, c, hd, hc, hcovers⟩
    obtain ⟨a, b, ha, hb, hcovers_d⟩ := admits_plus_iff_of_admits.1 hd
    exact ⟨a, b, c, ha, hb, hc, (hcovers_d.plus (.refl c)).trans hcovers⟩
  · rintro ⟨a, b, c, ha, hb, hc, hcovers⟩
    refine ⟨a.plus bound b, c, ?_, hc, hcovers⟩
    exact admits_plus_iff_of_admits.2 ⟨a, b, ha, hb, .refl _⟩

theorem plus_assoc (bound : Nat) (s t u : OffsetSet) :
    plus bound (plus bound s t) u = plus bound s (plus bound t u) := by
  have hrotate : ∀ a b c : Offset,
      (a.plus bound b).plus bound c = (b.plus bound c).plus bound a := by
    intro a b c
    rw [Offset.plus_assoc, Offset.plus_comm]
  refine eq_of_admits_iff fun o => ?_
  rw [plus_comm bound s (plus bound t u), admits_plus_plus_iff, admits_plus_plus_iff]
  constructor
  · rintro ⟨a, b, c, ha, hb, hc, hcovers⟩
    exact ⟨b, c, a, hb, hc, ha, hrotate a b c ▸ hcovers⟩
  · rintro ⟨b, c, a, hb, hc, ha, hcovers⟩
    exact ⟨a, b, c, ha, hb, hc, hrotate a b c ▸ hcovers⟩

theorem plus_join (bound : Nat) (s t u : OffsetSet) :
    plus bound s (t.join u) = (plus bound s t).join (plus bound s u) := by
  refine eq_of_admits_iff fun o => ?_
  rw [admits_join]
  simp only [admits_plus_iff_of_admits, admits_join, or_and_right, and_or_left, exists_or]

/-- What is expected of sums under a bound. -/
structure SumLaws (bound : Nat) : Prop where
  comm : ∀ s t, plus bound s t = plus bound t s
  assoc : ∀ s t u, plus bound (plus bound s t) u = plus bound s (plus bound t u)
  monotone : ∀ {s s' t t'}, s.leq s' = true → t.leq t' = true →
    (plus bound s t).leq (plus bound s' t') = true
  join_left : ∀ s t u, plus bound (s.join t) u = (plus bound s u).join (plus bound t u)
  join_right : ∀ s t u, plus bound s (t.join u) = (plus bound s t).join (plus bound s u)

/-- **The laws of sums** hold under every bound. -/
theorem sumLaws (bound : Nat) : SumLaws bound where
  comm := plus_comm bound
  assoc := plus_assoc bound
  monotone := plus_leq_plus
  join_left s t u := by rw [plus_comm, plus_join, plus_comm bound u, plus_comm bound u]
  join_right := plus_join bound

end OffsetSet

/-! ### Cells -/

namespace Cell

variable {a b : Cell} {o o' p : Offset} {bound : Nat}

theorem leq_refl (a : Cell) : a.leq a = true := leq_iff.2 ⟨rfl, Or.inr rfl⟩

theorem leq_antisymm (hab : a.leq b = true) (hba : b.leq a = true) : a = b := by
  obtain ⟨s, o⟩ := a
  obtain ⟨t, q⟩ := b
  obtain ⟨rfl, hoq⟩ := leq_iff.1 hab
  obtain ⟨-, hqo⟩ := leq_iff.1 hba
  simp only at hoq hqo
  rcases hoq with rfl | rfl
  · rcases hqo with rfl | rfl <;> rfl
  · rfl

theorem shiftOffset_any (bound : Nat) (o : Offset) : shiftOffset bound o .any = .any := by
  cases o <;> rfl

/-- Larger cells and larger offsets lead to larger cells. -/
theorem shift_leq_shift (h : a.leq b = true) (ho : o'.Covers o) :
    (a.shift o bound).leq (b.shift o' bound) = true := by
  obtain ⟨hslot, hoffset⟩ := leq_iff.1 h
  refine leq_iff.2 ⟨hslot, ?_⟩
  simp only [shift]
  rcases hoffset with hany | hoffset
  · rw [hany]
    exact Or.inl rfl
  · rcases ho with rfl | rfl
    · exact Or.inl (shiftOffset_any ..)
    · exact Or.inr (by rw [hoffset])

/-- On multiples of the word size, shifting is adding. -/
theorem shiftOffset_eq_plus (ho : o.MultipleOf 32) (hp : p.MultipleOf 32) :
    shiftOffset bound o p = o.plus bound p := by
  cases o with
  | any => rfl
  | beyond => cases p <;> rfl
  | exact x =>
    cases p with
    | any | beyond => rfl
    | exact y =>
      have hx : x % 32 = 0 := ho x rfl
      have hy : y % 32 = 0 := hp y rfl
      have haligned : (x + y) % 32 = 0 := by omega
      by_cases hbound : x + y ≤ bound
      · simp [shiftOffset, Offset.plus, hbound, haligned, Nat.not_lt.2 hbound]
      · simp [shiftOffset, Offset.plus, hbound, Nat.lt_of_not_le hbound]

theorem shift_shift (ha : a.offset.MultipleOf 32) (ho : o.MultipleOf 32) (hp : p.MultipleOf 32) :
    (a.shift o bound).shift p bound = a.shift (o.plus bound p) bound := by
  simp only [shift, mk.injEq, true_and]
  calc shiftOffset bound (shiftOffset bound a.offset o) p
      = (a.offset.plus bound o).plus bound p := by
        rw [shiftOffset_eq_plus ha ho, shiftOffset_eq_plus (ha.plus ho bound) hp]
    _ = a.offset.plus bound (o.plus bound p) := Offset.plus_assoc ..
    _ = shiftOffset bound a.offset (o.plus bound p) :=
        (shiftOffset_eq_plus ha (ho.plus hp bound)).symm

end Cell

/-! ### Sets of cells -/

namespace CellSet

variable {m m' : CellSet} {s t : OffsetSet} {c d : Cell}

theorem covers_clean_iff : m.clean.covers c = true ↔ m.covers c = true :=
  ⟨covers_mono fun _ hd => (mem_clean.1 hd).1, covers_clean⟩

/-- In a set without superfluous cells no cell covers another one. -/
theorem eq_of_mem_clean (hc : c ∈ m.clean) (hd : d ∈ m.clean) (h : c.leq d = true) : c = d := by
  obtain ⟨hslot, hoffset⟩ := Cell.leq_iff.1 h
  rcases hoffset with hany | hoffset
  · have hwhole : Cell.whole c.slot ∈ m := by
      rw [hslot, AbstractMemory.whole_of_offset_any hany]
      exact (mem_clean.1 hd).1
    have hany' : c.offset = .any := (mem_clean.1 hc).2.resolve_right fun hnot => hnot hwhole
    exact Cell.leq_antisymm h (Cell.leq_iff.2 ⟨hslot.symm, Or.inl hany'⟩)
  · exact Cell.leq_antisymm h (Cell.leq_iff.2 ⟨hslot.symm, Or.inr hoffset.symm⟩)

theorem mem_clean_of_covers_iff (h : ∀ c, m.clean.covers c = true ↔ m'.clean.covers c = true)
    (hc : c ∈ m.clean) : c ∈ m'.clean := by
  obtain ⟨d, hd, hcd⟩ := covers_iff.1 ((h c).1 (covers_of_mem hc))
  obtain ⟨e, he, hde⟩ := covers_iff.1 ((h d).2 (covers_of_mem hd))
  -- From the cell up to one of the other set and back is up to the cell itself.
  obtain rfl := eq_of_mem_clean hc he (Cell.leq_trans hcd hde)
  obtain rfl := Cell.leq_antisymm hcd hde
  exact hd

/-- **What a set covers determines it**, once superfluous cells are dropped. -/
theorem clean_eq_of_covers_iff (h : ∀ c, m.clean.covers c = true ↔ m'.clean.covers c = true) :
    m.clean = m'.clean :=
  OrdSet.ext fun _ => ⟨mem_clean_of_covers_iff h, mem_clean_of_covers_iff fun c => (h c).symm⟩

theorem covers_shift_iff : (m.shift s).covers c = true ↔
    ∃ d ∈ m, ∃ o ∈ s, c.leq (d.shift o shiftBound) = true := by
  rw [shift, covers_clean_iff, covers_iff]
  simp only [OrdSet.mem_ofList, List.mem_flatMap, List.mem_map]
  constructor
  · rintro ⟨_, ⟨d, hd, o, ho, rfl⟩, hle⟩
    exact ⟨d, hd, o, ho, hle⟩
  · rintro ⟨d, hd, o, ho, hle⟩
    exact ⟨_, ⟨d, hd, o, ho, rfl⟩, hle⟩

/-- The second of two shifts leads to the same cells from all cells that the first one leads to. -/
theorem covers_shift_shift_iff : ((m.shift s).shift t).covers c = true ↔
    ∃ d ∈ m, ∃ o ∈ s, ∃ p ∈ t, c.leq ((d.shift o shiftBound).shift p shiftBound) = true := by
  rw [covers_shift_iff]
  constructor
  · rintro ⟨e, he, p, hp, hle⟩
    obtain ⟨d, hd, o, ho, hed⟩ := covers_shift_iff.1 (covers_of_mem he)
    exact ⟨d, hd, o, ho, p, hp, Cell.leq_trans hle (Cell.shift_leq_shift hed (.refl p))⟩
  · rintro ⟨d, hd, o, ho, p, hp, hle⟩
    obtain ⟨e, he, hde⟩ := covers_iff.1 (covers_shift_iff.2 ⟨d, hd, o, ho, Cell.leq_refl _⟩)
    exact ⟨e, he, p, hp, Cell.leq_trans hle (Cell.shift_leq_shift hde (.refl p))⟩

/-- A shift by a sum leads where the sums of members lead. -/
theorem covers_shift_plus_iff {bound : Nat} : (m.shift (s.plus bound t)).covers c = true ↔
    ∃ d ∈ m, ∃ o ∈ s, ∃ p ∈ t, c.leq (d.shift (o.plus bound p) shiftBound) = true := by
  rw [covers_shift_iff]
  constructor
  · rintro ⟨d, hd, q, hq, hle⟩
    obtain ⟨o, ho, p, hp, hcovers⟩ := OffsetSet.admits_plus_iff.1 (OffsetSet.admits_of_mem hq)
    exact ⟨d, hd, o, ho, p, hp, Cell.leq_trans hle (Cell.shift_leq_shift (Cell.leq_refl d) hcovers)⟩
  · rintro ⟨d, hd, o, ho, p, hp, hle⟩
    obtain ⟨q, hq, hcovers⟩ := OffsetSet.admits_iff_exists.1 (OffsetSet.admits_plus ho hp)
    exact ⟨d, hd, q, hq, Cell.leq_trans hle (Cell.shift_leq_shift (Cell.leq_refl d) hcovers)⟩

/-! ### Two additions -/

/-- **The two additions agree.** If all exact offsets are multiples of the word size, shifting
addresses twice is shifting them once, by the sum; and sums are commutative, associative, monotone
and distribute over joins, under every bound. -/
theorem shift_shift_eq_shift_plus :
    (∀ (m : CellSet) (s t : OffsetSet), (∀ c ∈ m, c.offset.MultipleOf 32) →
      (∀ o ∈ s, o.MultipleOf 32) → (∀ o ∈ t, o.MultipleOf 32) →
        (m.shift s).shift t = m.shift (s.plus 128 t)) ∧
    ∀ bound, OffsetSet.SumLaws bound := by
  refine ⟨fun m s t hm hs ht => clean_eq_of_covers_iff fun c => ?_, OffsetSet.sumLaws⟩
  have hcells : ∀ d ∈ m, ∀ o ∈ s, ∀ p ∈ t,
      (d.shift o shiftBound).shift p shiftBound = d.shift (o.plus 128 p) shiftBound :=
    fun d hd o ho p hp => Cell.shift_shift (hm d hd) (hs o ho) (ht p hp)
  refine covers_shift_shift_iff.trans (Iff.trans ?_ covers_shift_plus_iff.symm)
  constructor
  · rintro ⟨d, hd, o, ho, p, hp, hle⟩
    exact ⟨d, hd, o, ho, p, hp, hcells d hd o ho p hp ▸ hle⟩
  · rintro ⟨d, hd, o, ho, p, hp, hle⟩
    exact ⟨d, hd, o, ho, p, hp, hcells d hd o ho p hp ▸ hle⟩

/-- The start of an allocation, the largest aligned position of another one, and a whole third one
with one of its words. -/
def spread : CellSet :=
  OrdSet.ofList [⟨⟨0⟩, .exact 0⟩, ⟨⟨1⟩, .exact 18446744073709551584⟩, ⟨⟨2⟩, .any⟩, ⟨⟨2⟩, .exact 32⟩]

/-- The bound is reached from the first allocation and exceeded in the second one, and of the third
one only the whole is left after the first shift. -/
theorem shift_shift_spread :
    let s := OffsetSet.ofList [.exact 32, .exact 64]
    (spread.shift s).shift (.singleton (.exact 64)) =
        spread.shift (s.plus 128 (.singleton (.exact 64))) ∧
      (spread.shift (s.plus 128 (.singleton (.exact 64)))).toList =
        [⟨⟨0⟩, .exact 96⟩, ⟨⟨0⟩, .exact 128⟩, ⟨⟨1⟩, .beyond⟩, ⟨⟨2⟩, .any⟩] := by
  have hcells : ∀ c ∈ spread.toList, c.offset.MultipleOf 32 := by decide
  have hfirst : ∀ o ∈ (OffsetSet.ofList [.exact 32, .exact 64]).toList, o.MultipleOf 32 := by decide
  have hsecond : ∀ o ∈ (OffsetSet.singleton (.exact 64)).toList, o.MultipleOf 32 := by decide
  exact ⟨shift_shift_eq_shift_plus.1 _ _ _ hcells hfirst hsecond, by decide⟩

end CellSet

end EvmAccess
