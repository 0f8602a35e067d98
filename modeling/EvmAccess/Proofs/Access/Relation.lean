import EvmAccess.Access.Token

/-!
# When locations are certainly related

Two offsets are related only if both are exact, and then the relation is equality of numbers. Sets
of tokens are certainly equal only if each is a single token, and certainly different exactly if all
pairs of tokens are. All of this is symmetric. Aliasing is weaker: tokens of one kind may alias if
they are the same or one of them is imprecise.

## Main results

- `Offset.relation_eq_equal_iff`, `Offset.relation_eq_notEqual_iff`.
- `Token.relationOfSets_eq_equal_iff`, `Token.relationOfSets_eq_notEqual_iff`.
- `Token.relationOfSets_comm`: comparing is symmetric.
- `Token.mayAlias_region`, `Token.mayAlias_cell`, `Token.mayAlias_key`, `Token.mayAlias_comm`.
-/

namespace EvmAccess

/-- Two relations are the same if neither is certain or both are, in the same way. -/
theorem Relation.eq_of_iff {r s : Relation} (hequal : r = .equal ↔ s = .equal)
    (hnot : r = .notEqual ↔ s = .notEqual) : r = s := by
  cases r <;> cases s <;> simp_all

namespace Offset

variable {a b : Offset}

theorem relation_eq_equal_iff :
    a.relation b = .equal ↔ ∃ value, a = .exact value ∧ b = .exact value := by
  cases a with
  | exact x =>
    cases b with
    | exact y =>
      by_cases h : x = y
      · simp [relation, isImprecise, h]
      · simp [relation, isImprecise, h, Ne.symm h]
    | beyond | any => simp [relation, isImprecise]
  | beyond | any => simp [relation, isImprecise]

theorem relation_eq_notEqual_iff :
    a.relation b = .notEqual ↔ ∃ x y, a = .exact x ∧ b = .exact y ∧ x ≠ y := by
  cases a with
  | exact x =>
    cases b with
    | exact y => by_cases h : x = y <;> simp [relation, isImprecise, h]
    | beyond | any => simp [relation, isImprecise]
  | beyond | any => simp [relation, isImprecise]

theorem relation_comm (a b : Offset) : a.relation b = b.relation a := by
  simp only [relation, Bool.or_comm, eq_comm]

end Offset

namespace Token

variable {s t : OrdSet Token} {k l : Offset}

/-- Storage keys are related as numbers. -/
theorem relation_key : (key k).relation (key l) = k.relation l := by
  simp [relation, isUnknownMemory]

/-- Sets are certainly equal if each has one token, and these are. -/
theorem relationOfSets_eq_equal_iff : relationOfSets s t = .equal ↔
    ∃ a b, s = OrdSet.singleton a ∧ t = OrdSet.singleton b ∧ a.relation b = .equal := by
  obtain ⟨as, has⟩ := s
  obtain ⟨bs, hbs⟩ := t
  constructor
  · intro h
    simp only [relationOfSets] at h
    split at h
    · rename_i a b
      exact ⟨a, b, rfl, rfl, h⟩
    · split at h <;> cases h
  · rintro ⟨a, b, ha, hb, h⟩
    rw [ha, hb]
    exact h

/-- Sets are certainly different if all pairs of tokens are. -/
theorem relationOfSets_eq_notEqual_iff : relationOfSets s t = .notEqual ↔
    ∀ a ∈ s, ∀ b ∈ t, a.relation b = .notEqual := by
  obtain ⟨as, has⟩ := s
  obtain ⟨bs, hbs⟩ := t
  simp only [relationOfSets, OrdSet.mem_def]
  split
  · simp
  · split
    · rename_i h
      simp only [List.any_eq_true, decide_eq_true_eq] at h
      obtain ⟨a, ha, b, hb, hne⟩ := h
      exact iff_of_false nofun fun hall => hne (hall a ha b hb)
    · rename_i h
      simp only [List.any_eq_true, decide_eq_true_eq, not_exists, not_and] at h
      exact iff_of_true rfl fun a ha b hb => Decidable.not_not.1 (h a ha b hb)

/-- Comparing two tokens is symmetric. -/
theorem relation_comm (a b : Token) : a.relation b = b.relation a := by
  cases a with
  | region r =>
    cases b with
    | region s => simp only [relation, Bool.or_comm, Bool.and_right_comm, eq_comm]
    | cell d => simp [relation, isMemory, isUnknownMemory]
    | key k => simp [relation, isMemory]
  | cell c =>
    cases b with
    | region s => simp [relation, isMemory, isUnknownMemory]
    | cell d =>
      simp only [relation, Bool.or_comm, Bool.and_right_comm, eq_comm,
        Offset.relation_comm c.offset]
    | key k => simp [relation, isMemory]
  | key k =>
    cases b with
    | region s => simp [relation, isMemory]
    | cell d => simp [relation, isMemory]
    | key l => rw [relation_key, relation_key, Offset.relation_comm]

/-- Comparing two sets of tokens is symmetric. -/
theorem relationOfSets_comm (s t : OrdSet Token) : relationOfSets s t = relationOfSets t s := by
  refine Relation.eq_of_iff ?_ ?_
  · rw [relationOfSets_eq_equal_iff, relationOfSets_eq_equal_iff, exists_comm]
    simp only [relation_comm, and_left_comm]
  · rw [relationOfSets_eq_notEqual_iff, relationOfSets_eq_notEqual_iff]
    constructor
    · intro h b hb a ha
      rw [relation_comm]
      exact h a ha b hb
    · intro h a ha b hb
      rw [relation_comm]
      exact h b hb a ha

/-! ### Aliasing -/

variable {r r' : Region} {c d : Cell}

theorem mayAlias_region :
    (region r).mayAlias (region r') = true ↔ r = r' ∨ r = .unknown ∨ r' = .unknown := by
  cases r <;> cases r' <;> decide

/-- Of the regions, only unknown memory may be a cell. -/
theorem mayAlias_region_cell : (region r).mayAlias (cell c) = true ↔ r = .unknown := by
  cases r <;> simp [mayAlias, isUnknownMemory, isMemory]

theorem mayAlias_cell : (cell c).mayAlias (cell d) = true ↔
    c.slot = d.slot ∧ (c.offset = d.offset ∨ c.offset = .any ∨ d.offset = .any) := by
  simp [mayAlias, isUnknownMemory]

theorem mayAlias_key : (key k).mayAlias (key l) = true ↔ k = l ∨ k = .any ∨ l = .any := by
  simp [mayAlias, isUnknownMemory]

/-- Memory is never storage. -/
theorem not_mayAlias_key {t : Token} (h : t.isMemory = true) : ¬ t.mayAlias (key k) = true := by
  cases t with
  | region r => cases r <;> simp [mayAlias, isUnknownMemory, isMemory]
  | cell c => simp [mayAlias, isUnknownMemory]
  | key l => cases h

theorem mayAlias_comm (a b : Token) : a.mayAlias b = b.mayAlias a := by
  cases a <;> cases b <;>
    simp only [mayAlias, Bool.or_comm, Bool.and_comm, eq_comm, or_comm]

end Token

end EvmAccess
