import EvmAccess.Domain.Offsets
import EvmAccess.Proofs.Evm.Opcode
import EvmAccess.Proofs.Flow.Order
import EvmAccess.Proofs.Ordered

/-!
# The order of the constants domain

A set of offsets *admits* an offset if the offset is a member or the set knows nothing. Everything
about these sets can be said with this word: one set covers another if it admits its members, a join
admits what either side does, and a sum admits the sums of members. So the order is lawful, and so
is that of the states, whose stacks grow in positions and whose words shrink.

## Main results

- `OffsetSet.leq_iff`, `OffsetSet.admits_join`, `OffsetSet.admits_plus_iff`: order, join and sum.
- `Offsets.lawful`: the laws of the domain.
-/

namespace EvmAccess

namespace OffsetSet

variable {s t u : OffsetSet} {o : Offset}

/-- Whether the set allows the offset. -/
def admits (s : OffsetSet) (o : Offset) : Bool := .any ∈ s || o ∈ s

theorem admits_iff : s.admits o = true ↔ .any ∈ s ∨ o ∈ s := by simp [admits]

theorem admits_of_mem (h : o ∈ s) : s.admits o = true := admits_iff.2 (Or.inr h)

theorem mem_singleton {a : Offset} : o ∈ singleton a ↔ o = a := OrdSet.mem_singleton

theorem mem_top : o ∈ top ↔ o = .any := mem_singleton

theorem exists_mem (s : OffsetSet) : ∃ o, o ∈ s := by
  obtain ⟨⟨l, hl⟩, hne, habs⟩ := s
  cases l with
  | nil => cases hne
  | cons o rest => exact ⟨o, List.mem_cons_self⟩

/-- Since there is a member, one that all members are is the only one. -/
theorem eq_singleton_iff {a : Offset} : s = singleton a ↔ ∀ o ∈ s, o = a := by
  constructor
  · rintro rfl o ho
    exact mem_singleton.1 ho
  · intro h
    obtain ⟨b, hb⟩ := s.exists_mem
    obtain rfl := h b hb
    exact ext (OrdSet.ext fun o => ⟨fun ho => mem_singleton.2 (h o ho),
      fun ho => mem_singleton.1 ho ▸ hb⟩)

theorem constant?_eq_some_iff {value : Nat} :
    s.constant? = some value ↔ s = singleton (.exact value) := by
  constructor
  · intro h
    rw [constant?] at h
    split at h
    · rename_i hlist
      obtain rfl := Option.some.inj h
      exact eq_singleton_iff.2 fun o ho => List.mem_singleton.1 (hlist ▸ ho)
    · cases h
  · rintro rfl
    rfl

/-- Bringing a set into normal form changes nothing about what it allows. -/
theorem admits_normal {items : OrdSet Offset} (h : ∃ a, a ∈ items) :
    (normal items).admits o = true ↔ .any ∈ items ∨ o ∈ items := by
  have hne : ¬ items.isEmpty = true := by
    obtain ⟨a, ha⟩ := h
    exact fun hempty => OrdSet.isEmpty_iff.1 hempty a ha
  rw [admits_iff, mem_normal, mem_normal]
  by_cases hany : Offset.any ∈ items <;> simp [hne, hany]

theorem leq_iff : s.leq t = true ↔ ∀ o ∈ s, t.admits o = true := by
  simp only [leq, isTop, Bool.or_eq_true, decide_eq_true_eq, OrdSet.subset_iff, admits_iff]
  constructor
  · rintro (htop | hsub) o ho
    · exact Or.inl htop
    · exact Or.inr (hsub o ho)
  · intro h
    by_cases htop : Offset.any ∈ t
    · exact Or.inl htop
    · exact Or.inr fun o ho => (h o ho).resolve_left htop

/-- What a smaller set allows, a larger one allows. -/
theorem admits_of_leq (h : s.leq t = true) (ho : s.admits o = true) : t.admits o = true := by
  rcases admits_iff.1 ho with hany | ho
  · rcases admits_iff.1 (leq_iff.1 h .any hany) with hany' | hany' <;>
      exact admits_iff.2 (Or.inl hany')
  · exact leq_iff.1 h o ho

/-- A join allows what either set allows. -/
theorem admits_join : (s.join t).admits o = true ↔ s.admits o = true ∨ t.admits o = true := by
  obtain ⟨a, ha⟩ := s.exists_mem
  rw [join, admits_normal ⟨a, OrdSet.mem_union.2 (Or.inl ha)⟩, OrdSet.mem_union, OrdSet.mem_union,
    admits_iff, admits_iff]
  exact or_or_or_comm

/-- A sum allows an offset if it is a sum of members, or some sum of members is unknown. -/
theorem admits_plus_iff {bound : Nat} : (plus bound s t).admits o = true ↔
    ∃ a ∈ s, ∃ b ∈ t, a.plus bound b = .any ∨ a.plus bound b = o := by
  have hmem (o : Offset) :
      o ∈ OrdSet.ofList (s.toList.flatMap fun a => t.toList.map fun b => a.plus bound b) ↔
        ∃ a ∈ s, ∃ b ∈ t, a.plus bound b = o := by
    simp only [OrdSet.mem_ofList, List.mem_flatMap, List.mem_map]
    rfl
  obtain ⟨a, ha⟩ := s.exists_mem
  obtain ⟨b, hb⟩ := t.exists_mem
  rw [plus, ofList, admits_normal ⟨_, (hmem _).2 ⟨a, ha, b, hb, rfl⟩⟩, hmem, hmem]
  simp only [← exists_or, ← and_or_left]

theorem admits_plus {bound : Nat} {a b : Offset} (ha : a ∈ s) (hb : b ∈ t) :
    (plus bound s t).admits (a.plus bound b) = true :=
  admits_plus_iff.2 ⟨a, ha, b, hb, Or.inr rfl⟩

/-- What a set allows determines it: nothing stands beside the member that allows everything. -/
theorem eq_of_admits_iff (h : ∀ o, s.admits o = true ↔ t.admits o = true) : s = t := by
  have hany : Offset.any ∈ s ↔ .any ∈ t := by
    have := h .any
    rwa [admits_iff, admits_iff, or_self, or_self] at this
  by_cases hs : Offset.any ∈ s
  · exact ext ((s.absorbing hs).trans (t.absorbing (hany.1 hs)).symm)
  · have ht : Offset.any ∉ t := fun ht => hs (hany.2 ht)
    refine ext (OrdSet.ext fun o => ?_)
    have := h o
    rwa [admits_iff, admits_iff, or_iff_right hs, or_iff_right ht] at this

/-- Sets of offsets, ordered by what they allow. -/
def order : JoinOrder OffsetSet := ⟨leq, join⟩

theorem lawful_order : order.Lawful where
  refl _ := leq_iff.2 fun _ ho => admits_of_mem ho
  trans hst htu := leq_iff.2 fun o ho => admits_of_leq htu (leq_iff.1 hst o ho)
  leq_join_left _ _ := leq_iff.2 fun _ ho => admits_join.2 (Or.inl (admits_of_mem ho))
  leq_join_right _ _ := leq_iff.2 fun _ ho => admits_join.2 (Or.inr (admits_of_mem ho))

theorem semilattice_order : order.Semilattice where
  toLawful := lawful_order
  join_leq hs ht := leq_iff.2 fun _ ho =>
    (admits_join.1 (admits_of_mem ho)).elim (admits_of_leq hs) (admits_of_leq ht)

theorem antisymmetric_order : order.Antisymmetric := fun _ _ h =>
  eq_of_admits_iff fun _ => ⟨admits_of_leq h.1, admits_of_leq h.2⟩

end OffsetSet

namespace Offsets

/-- States are ordered by their stacks, which grow in positions, and their words, which shrink. -/
theorem embeds : domain.Embeds (OffsetSet.order.pointwise.prod OffsetSet.order.shared)
    fun s => (s.stack, s.words) where
  leq s t := by
    simp only [domain, OffsetState.leq, JoinOrder.prod, JoinOrder.pointwise, JoinOrder.shared]
    congr 2
    · funext p v
      cases t.stack.get? p <;> rfl
    · funext a w
      cases s.words.get? a <;> rfl
  join _ _ := rfl

theorem lawful : domain.Lawful :=
  (OffsetSet.lawful_order.pointwise.prod OffsetSet.lawful_order.shared).of_embeds embeds

/-- A state that covers another covers it on the stack and in memory. -/
theorem leq_iff {s t : OffsetState} : domain.leq s t = true ↔
    (∀ p v, s.stack.get? p = some v → ∃ w, t.stack.get? p = some w ∧ v.leq w = true) ∧
      ∀ a w, t.words.get? a = some w → ∃ v, s.words.get? a = some v ∧ v.leq w = true := by
  rw [embeds.leq]
  exact Bool.and_eq_true_iff.trans
    (and_congr JoinOrder.pointwise_leq_iff JoinOrder.shared_leq_iff)

/-! ### The tables of the domain -/

theorem nextStack_of_isPlain {i : Instruction} (h : i.opcode.isPlain = true) (s : OffsetState) :
    nextStack i s = produceUnknown i.opcode s := by
  obtain ⟨o, operand⟩ := i
  cases o with
  | push | dup | swap | add | mload | mstore => cases h
  | _ => rfl

/-- Only stores of words change what is known of a word, short of forgetting all words. -/
theorem nextWords_of_ne_mstore {i : Instruction} (h : i.opcode ≠ .mstore) (s : OffsetState) :
    nextWords i s = if i.opcode.scribbles = true then ∅ else s.words := by
  obtain ⟨o, operand⟩ := i
  cases o with
  | mstore => cases h rfl
  | _ => rfl

/-- Nothing is known of what a plain opcode produces, and nothing below changes. -/
theorem get?_produceUnknown {o : Opcode} {s : OffsetState} {p : Nat} :
    (produceUnknown o s).get? p =
      if o.base s.height ≤ p ∧ p < o.base s.height + o.pushes then some .top
      else s.stack.get? p := by
  rw [produceUnknown, OrdMap.get?_foldl_insert]
  simp only [List.mem_range'_1]

/-- Loads read the keys on top of the stack, and stores write them. -/
theorem mem_accesses {i : Instruction} {s : OffsetState} {a : Access} :
    a ∈ accesses i s ↔ ∃ o ∈ (s.fromTop? 0).getD .top,
      i.opcode = .sload ∧ a = .read (.key o) ∨ i.opcode = .sstore ∧ a = .write (.key o) := by
  rw [accesses]
  split
  · rename_i h
    simp only [List.map_map, List.mem_map, h, true_and, reduceCtorEq, false_and, or_false]
    exact exists_congr fun o => and_congr_right fun _ => eq_comm
  · rename_i h
    simp only [List.map_map, List.mem_map, h, true_and, reduceCtorEq, false_and, false_or]
    exact exists_congr fun o => and_congr_right fun _ => eq_comm
  · rename_i hload hstore
    simp only [List.not_mem_nil, false_iff]
    rintro ⟨o, -, ⟨h, -⟩ | ⟨h, -⟩⟩
    · exact hload h
    · exact hstore h

end Offsets

end EvmAccess
