import EvmAccess.Proofs.Access.Locations

/-!
# Certain relations and aliasing

Tokens are compared in two ways, and the search for dead stores uses both: reads that may alias see
the stored value, and writes that are certainly equal overwrite it. The two comparisons treat
imprecise tokens differently. Two offsets beyond the bound may alias, since they may be the same
number, but nothing is certain about them; an open offset or unknown memory may alias whatever it
may be, and nothing is certain about it either.

The comparisons never contradict each other. Tokens are certainly equal only if they are one and
the same precise token, which stands for a single location, and tokens that may alias are never
certainly different. On precise tokens the comparisons are the same. Sets of tokens inherit this.

## Main definitions

- `Token.isPrecise`: a token that stands for a single location.

## Main results

- `Token.relation_eq_equal_iff`: certainly equal tokens are the same precise token.
- `Token.relation_ne_notEqual_of_mayAlias`: tokens that may alias are not certainly different.
- `Token.relation_eq_of_isPrecise`: precise tokens are certainly equal if they may alias, and
  certainly different otherwise.
- `Token.MayBe.unique`: a precise token stands for one location.
- `Token.relations_respect_aliasing`: what follows for sets of tokens.
-/

namespace EvmAccess

namespace Offset

variable {target : Target} {a b : Offset} {n m : Nat}

theorem relation_eq_equal_iff_eq : a.relation b = .equal ↔ a = b ∧ a.isImprecise = false := by
  constructor
  · intro h
    obtain ⟨value, rfl, rfl⟩ := relation_eq_equal_iff.1 h
    exact ⟨rfl, rfl⟩
  · rintro ⟨rfl, ha⟩
    simp [relation, ha]

/-- Offsets that are the same or open are not certainly different. -/
theorem relation_ne_notEqual (h : a = b ∨ a = .any ∨ b = .any) : a.relation b ≠ .notEqual := by
  intro hrelation
  obtain ⟨x, y, rfl, rfl, hne⟩ := relation_eq_notEqual_iff.1 hrelation
  rcases h with h | h | h
  · exact hne (Offset.exact.inj h)
  · cases h
  · cases h

theorem relation_ne_unknown (ha : a.isImprecise = false) (hb : b.isImprecise = false) :
    a.relation b ≠ .unknown := by
  simp only [relation, ha, hb, Bool.or_self, Bool.false_eq_true, if_false]
  split <;> simp

theorem Allows.unique (ha : a.isImprecise = false) (hn : a.Allows target n)
    (hm : a.Allows target m) : n = m := by
  cases a with
  | exact value => exact Eq.trans hn (Eq.symm hm)
  | beyond | any => cases ha

end Offset

namespace Token

variable {t u : Token} {r r' : Region} {c d : Cell} {k l : Offset} {layout : Layout}
  {x y : Location}

/-- Whether the token stands for a single location: a known region, or an exact offset. -/
def isPrecise : Token → Bool
  | .region r => r ≠ .unknown
  | .cell c => !c.offset.isImprecise
  | .key k => !k.isImprecise

/-! ### Comparison by kind -/

theorem relation_cell : (cell c).relation (cell d) =
    if c.slot = d.slot then c.offset.relation d.offset else .notEqual := by
  simp [relation, isUnknownMemory]

theorem relation_region_cell :
    (region r).relation (cell c) = if r = .unknown then .unknown else .notEqual := by
  cases r <;> rfl

theorem relation_region_key : (region r).relation (key k) = .notEqual := by
  cases r <;> rfl

theorem relation_cell_key : (cell c).relation (key k) = .notEqual := rfl

theorem isPrecise_region : (region r).isPrecise = true ↔ r ≠ .unknown := decide_eq_true_iff

theorem isPrecise_cell : (cell c).isPrecise = true ↔ c.offset.isImprecise = false := by
  simp [isPrecise]

theorem isPrecise_key : (key k).isPrecise = true ↔ k.isImprecise = false := by
  simp [isPrecise]

/-! ### Certainly equal tokens -/

theorem relation_cell_eq_equal_iff :
    (cell c).relation (cell d) = .equal ↔ c = d ∧ c.offset.isImprecise = false := by
  obtain ⟨s, a⟩ := c
  obtain ⟨s', b⟩ := d
  rw [relation_cell, Cell.mk.injEq, and_assoc]
  by_cases hslot : s = s'
  · rw [if_pos hslot, Offset.relation_eq_equal_iff_eq, and_iff_right hslot]
  · simp [hslot]

theorem relation_region_cell_ne_equal : (region r).relation (cell c) ≠ .equal := by
  rw [relation_region_cell]
  split <;> simp

/-- **Certainly equal tokens** are the same precise token. -/
theorem relation_eq_equal_iff : t.relation u = .equal ↔ t = u ∧ t.isPrecise = true := by
  cases t with
  | region r =>
    cases u with
    | region r' => cases r <;> cases r' <;> decide
    | cell d => simp [relation_region_cell_ne_equal]
    | key l => simp [relation_region_key]
  | cell c =>
    cases u with
    | region r' => simp [relation_comm (cell c), relation_region_cell_ne_equal]
    | cell d => rw [relation_cell_eq_equal_iff, isPrecise_cell, cell.injEq]
    | key l => simp [relation_cell_key]
  | key k =>
    cases u with
    | region r' => simp [relation_comm (key k), relation_region_key]
    | cell d => simp [relation_comm (key k), relation_cell_key]
    | key l => rw [relation_key, Offset.relation_eq_equal_iff_eq, isPrecise_key, key.injEq]

theorem mayAlias_self (t : Token) : t.mayAlias t = true := by
  cases t with
  | region r => exact mayAlias_region.2 (Or.inl rfl)
  | cell c => exact mayAlias_cell.2 ⟨rfl, Or.inl rfl⟩
  | key k => exact mayAlias_key.2 (Or.inl rfl)

theorem mayAlias_of_relation_eq_equal (h : t.relation u = .equal) : t.mayAlias u = true := by
  obtain ⟨rfl, -⟩ := relation_eq_equal_iff.1 h
  exact mayAlias_self t

/-- **A precise token stands for one location.** -/
theorem MayBe.unique (ht : t.isPrecise = true) (hx : t.MayBe layout x) (hy : t.MayBe layout y) :
    x = y := by
  cases t with
  | region r =>
    obtain ⟨a, ha, rfl, -⟩ := hx.eq_word (isPrecise_region.1 ht)
    obtain ⟨b, hb, rfl, -⟩ := hy.eq_word (isPrecise_region.1 ht)
    rw [Option.some.inj (ha.symm.trans hb)]
  | cell c =>
    have hc := isPrecise_cell.1 ht
    cases hx with
    | whole => cases hc
    | cell hany ho =>
      cases hy with
      | whole => cases hc
      | cell _ ho' => rw [ho.unique hc ho']
  | key k =>
    cases hx with
    | key hn =>
      cases hy with
      | key hm => rw [hn.unique (isPrecise_key.1 ht) hm]

/-! ### Certainly different tokens -/

/-- **Tokens that may alias** are not certainly different. -/
theorem relation_ne_notEqual_of_mayAlias (h : t.mayAlias u = true) : t.relation u ≠ .notEqual := by
  cases t with
  | region r =>
    cases u with
    | region r' =>
      revert h
      cases r <;> cases r' <;> decide
    | cell d =>
      obtain rfl := mayAlias_region_cell.1 h
      nofun
    | key l => exact absurd h (not_mayAlias_key rfl)
  | cell c =>
    cases u with
    | region r' =>
      rw [mayAlias_comm] at h
      obtain rfl := mayAlias_region_cell.1 h
      nofun
    | cell d =>
      obtain ⟨hslot, hoffset⟩ := mayAlias_cell.1 h
      rw [relation_cell, if_pos hslot]
      exact Offset.relation_ne_notEqual hoffset
    | key l => exact absurd h (not_mayAlias_key rfl)
  | key k =>
    cases u with
    | region | cell =>
      rw [mayAlias_comm] at h
      exact absurd h (not_mayAlias_key rfl)
    | key l =>
      rw [relation_key]
      exact Offset.relation_ne_notEqual (mayAlias_key.1 h)

/-! ### Precise tokens -/

theorem relation_region_cell_ne_unknown (hr : r ≠ .unknown) :
    (region r).relation (cell c) ≠ .unknown := by
  simp [relation_region_cell, hr]

/-- Something is certain about precise tokens. -/
theorem relation_ne_unknown (ht : t.isPrecise = true) (hu : u.isPrecise = true) :
    t.relation u ≠ .unknown := by
  cases t with
  | region r =>
    cases u with
    | region r' =>
      revert ht hu
      cases r <;> cases r' <;> decide
    | cell d => exact relation_region_cell_ne_unknown (isPrecise_region.1 ht)
    | key l => simp [relation_region_key]
  | cell c =>
    cases u with
    | region r' =>
      rw [relation_comm]
      exact relation_region_cell_ne_unknown (isPrecise_region.1 hu)
    | cell d =>
      rw [relation_cell]
      split
      · exact Offset.relation_ne_unknown (isPrecise_cell.1 ht) (isPrecise_cell.1 hu)
      · simp
    | key l => simp [relation_cell_key]
  | key k =>
    cases u with
    | region r' => simp [relation_comm (key k), relation_region_key]
    | cell d => simp [relation_comm (key k), relation_cell_key]
    | key l =>
      rw [relation_key]
      exact Offset.relation_ne_unknown (isPrecise_key.1 ht) (isPrecise_key.1 hu)

/-- **On precise tokens the two comparisons are the same.** -/
theorem relation_eq_of_isPrecise (ht : t.isPrecise = true) (hu : u.isPrecise = true) :
    t.relation u = if t.mayAlias u then .equal else .notEqual := by
  cases hrelation : t.relation u with
  | equal => rw [if_pos (mayAlias_of_relation_eq_equal hrelation)]
  | notEqual => rw [if_neg fun halias => relation_ne_notEqual_of_mayAlias halias hrelation]
  | unknown => exact absurd hrelation (relation_ne_unknown ht hu)

/-! ### Sets of tokens -/

variable {s s' : OrdSet Token}

/-- Certainly equal sets are the same single precise token. -/
theorem relationOfSets_eq_equal_iff_precise : relationOfSets s s' = .equal ↔
    ∃ a, a.isPrecise = true ∧ s = OrdSet.singleton a ∧ s' = OrdSet.singleton a := by
  rw [relationOfSets_eq_equal_iff]
  constructor
  · rintro ⟨a, b, hs, hs', hab⟩
    obtain ⟨rfl, ha⟩ := relation_eq_equal_iff.1 hab
    exact ⟨a, ha, hs, hs'⟩
  · rintro ⟨a, ha, hs, hs'⟩
    exact ⟨a, a, hs, hs', relation_eq_equal_iff.2 ⟨rfl, ha⟩⟩

/-- Certainly equal sets stand for one location. -/
theorem MayBe.eq_of_relationOfSets (h : relationOfSets s s' = .equal) (ht : t ∈ s) (hu : u ∈ s')
    (hx : t.MayBe layout x) (hy : u.MayBe layout y) : x = y := by
  obtain ⟨a, ha, rfl, rfl⟩ := relationOfSets_eq_equal_iff_precise.1 h
  obtain rfl := OrdSet.mem_singleton.1 ht
  obtain rfl := OrdSet.mem_singleton.1 hu
  exact hx.unique ha hy

/-- **Relations respect aliasing.** Comparing sets and aliasing are symmetric. Sets that are
certainly different have no tokens that alias. Sets are certainly equal exactly if they are the same
single precise token, and then whatever they stand for, under any layout, is one location. Tokens
that are certainly equal alias, tokens that alias are not certainly different, and precise tokens
are one or the other. -/
theorem relations_respect_aliasing :
    (∀ A B : OrdSet Token, relationOfSets A B = relationOfSets B A ∧
      (relationOfSets A B = .notEqual → ∀ a ∈ A, ∀ b ∈ B, a.mayAlias b = false) ∧
      (relationOfSets A B = .equal ↔
        ∃ a, a.isPrecise = true ∧ A = OrdSet.singleton a ∧ B = OrdSet.singleton a) ∧
      (relationOfSets A B = .equal → ∀ a ∈ A, ∀ b ∈ B, ∀ (layout : Layout) (x y : Location),
        a.MayBe layout x → b.MayBe layout y → x = y)) ∧
    ∀ t u : Token, t.mayAlias u = u.mayAlias t ∧
      (t.relation u = .equal → t.mayAlias u = true) ∧
      (t.mayAlias u = true → t.relation u ≠ .notEqual) ∧
      (t.isPrecise = true → u.isPrecise = true →
        t.relation u = if t.mayAlias u then .equal else .notEqual) := by
  refine ⟨fun A B => ⟨relationOfSets_comm A B, fun h a ha b hb => ?_,
    relationOfSets_eq_equal_iff_precise, fun h a ha b hb layout x y hx hy => ?_⟩,
    fun t u => ⟨mayAlias_comm t u, mayAlias_of_relation_eq_equal,
      relation_ne_notEqual_of_mayAlias, relation_eq_of_isPrecise⟩⟩
  · refine Bool.eq_false_iff.2 fun halias => ?_
    exact relation_ne_notEqual_of_mayAlias halias (relationOfSets_eq_notEqual_iff.1 h a ha b hb)
  · exact hx.eq_of_relationOfSets h ha hb hy

/-- A word of the first allocation. -/
def nthWord (n : Nat) : Token := cell ⟨⟨0⟩, .exact (32 * n)⟩

/-- A word is certainly equal to itself, and so a single location. Two words are certainly different
from a third one, also with a storage key next to it, and do not alias it. A cell beyond the bound
aliases itself, and is not certainly different from itself. -/
theorem relations_of_words :
    (relationOfSets (.singleton (nthWord 0)) (.singleton (nthWord 0)) = .equal ∧
      ∀ (layout : Layout) (x y : Location),
        (nthWord 0).MayBe layout x → (nthWord 0).MayBe layout y → x = y) ∧
    (relationOfSets (.ofList [nthWord 0, nthWord 2]) (.ofList [nthWord 1, key .any]) = .notEqual ∧
      (nthWord 2).mayAlias (nthWord 1) = false) ∧
    (cell ⟨⟨0⟩, .beyond⟩).mayAlias (cell ⟨⟨0⟩, .beyond⟩) = true ∧
      (cell ⟨⟨0⟩, .beyond⟩).relation (cell ⟨⟨0⟩, .beyond⟩) ≠ .notEqual := by
  obtain ⟨hsets, htokens⟩ := relations_respect_aliasing
  have hequal : relationOfSets (.singleton (nthWord 0)) (.singleton (nthWord 0)) = .equal := by
    decide
  have hdifferent : relationOfSets (.ofList [nthWord 0, nthWord 2])
      (.ofList [nthWord 1, key .any]) = .notEqual := by
    decide
  have halias : (cell ⟨⟨0⟩, .beyond⟩).mayAlias (cell ⟨⟨0⟩, .beyond⟩) = true := by decide
  obtain ⟨-, -, -, hlocation⟩ := hsets (.singleton (nthWord 0)) (.singleton (nthWord 0))
  obtain ⟨-, hapart, -⟩ := hsets (.ofList [nthWord 0, nthWord 2]) (.ofList [nthWord 1, key .any])
  exact ⟨⟨hequal, hlocation hequal _ (by decide) _ (by decide)⟩,
    ⟨hdifferent, hapart hdifferent _ (by decide) _ (by decide)⟩,
    halias, (htokens _ _).2.2.1 halias⟩

end Token

end EvmAccess
