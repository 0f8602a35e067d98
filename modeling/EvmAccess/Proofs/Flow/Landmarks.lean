import EvmAccess.Proofs.Flow.Order
import EvmAccess.Proofs.Ordered

/-!
# Orders in which one can rise only so often

A state that grows must pass some landmark that it had not passed before, and no landmark is ever
lost. If there are only finitely many landmarks, a state can grow only so often. This works without
any law of the order, and in particular where `leq` is coarser than equality.

Landmarks of sets are their members, or what their members cover. Those of a map are its keys, and
for each key the landmarks of the values.

## Main results

- `JoinOrder.Landmarks.rank_lt_rank_join`: a state that grows rises in rank.
- `JoinOrder.Landmarks.ofMembers`: landmarks of sets.
- `JoinOrder.Landmarks.pointwise`, `JoinOrder.Landmarks.shared`: landmarks of maps.
-/

namespace EvmAccess

open Std

variable {σ τ : Type} {α β : Type}

namespace JoinOrder

/-- Landmarks on the way up, for the states with the property `Ok`. -/
structure Landmarks (o : JoinOrder σ) (Ok : σ → Prop) (α : Type) where
  /-- The landmarks. -/
  marks : List α
  /-- Whether a state has passed a landmark. -/
  passed : σ → α → Bool
  /-- Joining does not leave the states that are considered. -/
  closed : ∀ {s t}, Ok s → Ok t → Ok (o.join s t)
  /-- Joining loses no landmark. -/
  kept : ∀ {s t a}, Ok s → Ok t → passed s a = true → passed (o.join s t) a = true
  /-- Joining something new passes a landmark. -/
  gained : ∀ {s t}, Ok s → Ok t → o.leq t s = false →
    ∃ a ∈ marks, passed s a = false ∧ passed (o.join s t) a = true

namespace Landmarks

variable {o : JoinOrder σ} {Ok : σ → Prop} (L : o.Landmarks Ok α)

/-- The number of landmarks that a state has passed. -/
def rank (s : σ) : Nat := L.marks.countP (L.passed s)

theorem rank_le (s : σ) : L.rank s ≤ L.marks.length := List.countP_le_length

/-- A state that grows rises in rank. -/
theorem rank_lt_rank_join {s t : σ} (hs : Ok s) (ht : Ok t) (h : o.leq t s = false) :
    L.rank s < L.rank (o.join s t) := by
  obtain ⟨a, ha, hno, hyes⟩ := L.gained hs ht h
  obtain ⟨before, after, hsplit⟩ := List.append_of_mem ha
  have hmono : ∀ l : List α, l.countP (L.passed s) ≤ l.countP (L.passed (o.join s t)) :=
    fun l => List.countP_mono_left fun b _ hb => L.kept hs ht hb
  have hbefore := hmono before
  have hafter := hmono after
  simp only [rank, hsplit, List.countP_append, List.countP_cons, hno, hyes, if_true]
  simp only [Bool.false_eq_true, if_false]
  omega

end Landmarks

/-! ### Sets, pairs and embeddings -/

/-- Landmarks of states that consist of members, where one state is below another if its members are
covered there: a state has passed what it covers. -/
def Landmarks.ofMembers {o : JoinOrder σ} (marks : List α) (mem : σ → α → Prop)
    (covers : σ → α → Bool)
    (hleq : ∀ s t, (∀ a, mem s a → covers t a = true) → o.leq s t = true)
    (hmem : ∀ s a, mem s a → covers s a = true)
    (hjoin : ∀ s t a, covers s a = true ∨ covers t a = true → covers (o.join s t) a = true)
    (hclosed : ∀ s t, (∀ a, mem s a → a ∈ marks) → (∀ a, mem t a → a ∈ marks) →
      ∀ a, mem (o.join s t) a → a ∈ marks) :
    o.Landmarks (fun s => ∀ a, mem s a → a ∈ marks) α where
  marks := marks
  passed := covers
  closed hs ht := hclosed _ _ hs ht
  kept _ _ h := hjoin _ _ _ (Or.inl h)
  gained {s t} _ ht h := by
    have hnot : ¬ ∀ a, mem t a → covers s a = true := fun hall =>
      Bool.eq_false_iff.1 h (hleq t s hall)
    obtain ⟨a, hnot⟩ := Classical.not_forall.1 hnot
    obtain ⟨ha, hnot⟩ := Classical.not_imp.1 hnot
    exact ⟨a, ht a ha, Bool.eq_false_iff.2 hnot, hjoin s t a (Or.inr (hmem t a ha))⟩

/-- The landmarks of a set are its members. -/
def Landmarks.powerset [Ord α] [TransOrd α] [LawfulEqOrd α] [DecidableEq α]
    (members : List α) :
    (powerset : JoinOrder (OrdSet α)).Landmarks (fun s => ∀ a ∈ s, a ∈ members) α :=
  ofMembers members (fun s a => a ∈ s) (fun s a => a ∈ s)
    (fun _ _ h => OrdSet.subset_iff.2 fun a ha => of_decide_eq_true (h a ha))
    (fun _ _ ha => decide_eq_true ha)
    (fun _ _ _ h => decide_eq_true
      (OrdSet.mem_union.2 (h.imp of_decide_eq_true of_decide_eq_true)))
    (fun _ _ hs ht a ha => (OrdSet.mem_union.1 ha).elim (hs a) (ht a))

/-- The landmarks of a pair are those of both components. -/
def Landmarks.prod {o₁ : JoinOrder σ} {o₂ : JoinOrder τ} {Ok₁ : σ → Prop} {Ok₂ : τ → Prop}
    (L₁ : o₁.Landmarks Ok₁ α) (L₂ : o₂.Landmarks Ok₂ β) :
    (o₁.prod o₂).Landmarks (fun s => Ok₁ s.1 ∧ Ok₂ s.2) (α ⊕ β) where
  marks := L₁.marks.map .inl ++ L₂.marks.map .inr
  passed s
    | .inl a => L₁.passed s.1 a
    | .inr b => L₂.passed s.2 b
  closed hs ht := ⟨L₁.closed hs.1 ht.1, L₂.closed hs.2 ht.2⟩
  kept {s t a} hs ht h := by
    cases a with
    | inl a => exact L₁.kept hs.1 ht.1 h
    | inr b => exact L₂.kept hs.2 ht.2 h
  gained hs ht h := by
    rcases Bool.and_eq_false_iff.1 h with h | h
    · obtain ⟨a, ha, hno, hyes⟩ := L₁.gained hs.1 ht.1 h
      exact ⟨.inl a, List.mem_append_left _ (List.mem_map_of_mem ha), hno, hyes⟩
    · obtain ⟨b, hb, hno, hyes⟩ := L₂.gained hs.2 ht.2 h
      exact ⟨.inr b, List.mem_append_right _ (List.mem_map_of_mem hb), hno, hyes⟩

/-- An order that embeds has the landmarks of the other. -/
def Landmarks.of_embeds {o : JoinOrder σ} {o' : JoinOrder τ} {f : σ → τ} (hf : o.Embeds o' f)
    {Ok : τ → Prop} (L : o'.Landmarks Ok α) : o.Landmarks (fun s => Ok (f s)) α where
  marks := L.marks
  passed s a := L.passed (f s) a
  closed {s t} hs ht := by
    rw [hf.join]
    exact L.closed hs ht
  kept {s t a} hs ht h := by
    rw [hf.join]
    exact L.kept hs ht h
  gained {s t} hs ht h := by
    rw [hf.leq] at h
    rw [hf.join]
    exact L.gained hs ht h

/-! ### Maps -/

section Maps

variable {κ : Type}

/-- One landmark for each key, and one for each key and landmark of the values. -/
def keyed (keys : List κ) (marks : List α) : List (κ × Option α) :=
  keys.flatMap fun k => (k, none) :: marks.map fun a => (k, some a)

theorem length_keyed (keys : List κ) (marks : List α) :
    (keyed keys marks).length = keys.length * (marks.length + 1) := by
  induction keys with
  | nil => simp [keyed]
  | cons k keys ih =>
    simp only [keyed, List.flatMap_cons, List.length_append, List.length_cons,
      List.length_map] at ih ⊢
    rw [ih, Nat.succ_mul, Nat.add_comm]

theorem mem_keyed {keys : List κ} {marks : List α} {k : κ} {a? : Option α} (hk : k ∈ keys)
    (ha : ∀ a, a? = some a → a ∈ marks) : (k, a?) ∈ keyed keys marks := by
  refine List.mem_flatMap.2 ⟨k, hk, ?_⟩
  cases a? with
  | none => exact List.mem_cons_self
  | some a => exact List.mem_cons_of_mem _ (List.mem_map.2 ⟨a, ha a rfl, rfl⟩)

variable [Ord κ] {o : JoinOrder σ} {Ok : σ → Prop}

/-- The map has only the given keys, and values with the property. -/
def Within (keys : List κ) (Ok : σ → Prop) (m : OrdMap κ σ) : Prop :=
  m.Every fun k v => k ∈ keys ∧ Ok v

variable [LawfulEqOrd κ]

/-- A map that shrinks in keys passes a landmark when a key is gone, or when the value of a key has
passed one. -/
def Landmarks.shared (keys : List κ) (L : o.Landmarks Ok α) :
    (o.shared : JoinOrder (OrdMap κ σ)).Landmarks (Within keys Ok) (κ × Option α) where
  marks := keyed keys L.marks
  passed m
    | (k, none) => (m.get? k).isNone
    | (k, some a) => (m.get? k).all fun v => L.passed v a
  closed hm hn := OrdMap.Every.interWith hm hn fun _ _ _ hv hw => ⟨hv.1, L.closed hv.2 hw.2⟩
  kept {m n a} hm hn h := by
    obtain ⟨k, a?⟩ := a
    cases hv : m.get? k with
    | none => cases a? <;> simp [get?_shared_join, hv]
    | some v =>
      cases hv' : n.get? k with
      | none => cases a? <;> simp [get?_shared_join, hv, hv']
      | some v' =>
        cases a? with
        | none => simp [hv] at h
        | some a =>
          simp only [hv, Option.all_some] at h
          simp only [get?_shared_join, hv, hv', Option.bind_some, Option.map_some, Option.all_some]
          exact L.kept (hm k v hv).2 (hn k v' hv').2 h
  gained {m n} hm hn h := by
    obtain ⟨k, w, hw, hless⟩ := exists_of_shared_leq_eq_false h
    cases hv : n.get? k with
    | none =>
      refine ⟨(k, none), mem_keyed (hm k w hw).1 nofun, by simp [hw], ?_⟩
      simp [get?_shared_join, hw, hv]
    | some v =>
      obtain ⟨a, ha, hno, hyes⟩ := L.gained (hm k w hw).2 (hn k v hv).2 (hless v hv)
      refine ⟨(k, some a), mem_keyed (hm k w hw).1 ?_, by simp [hw, hno], ?_⟩
      · rintro _ ⟨⟩
        exact ha
      · simp [get?_shared_join, hw, hv, hyes]

variable [TransOrd κ]

/-- A map that grows in keys passes a landmark when it gets a key, or when the value of a key passes
one. -/
def Landmarks.pointwise (keys : List κ) (L : o.Landmarks Ok α) :
    (o.pointwise : JoinOrder (OrdMap κ σ)).Landmarks (Within keys Ok) (κ × Option α) where
  marks := keyed keys L.marks
  passed m
    | (k, none) => (m.get? k).isSome
    | (k, some a) => (m.get? k).any fun v => L.passed v a
  closed hm hn := OrdMap.Every.unionWith hm hn fun _ _ _ hv hw => ⟨hv.1, L.closed hv.2 hw.2⟩
  kept {m n a} hm hn h := by
    obtain ⟨k, a?⟩ := a
    cases hv : m.get? k with
    | none => cases a? <;> simp [hv] at h
    | some v =>
      cases hv' : n.get? k with
      | none =>
        have hjoin : (o.pointwise.join m n).get? k = m.get? k := by
          rw [get?_pointwise_join, hv, hv', Option.merge_none_right]
        cases a? <;> simpa only [hjoin] using h
      | some v' =>
        cases a? with
        | none => simp [get?_pointwise_join, hv, hv']
        | some a =>
          simp only [hv, Option.any_some] at h
          simp only [get?_pointwise_join, hv, hv', Option.merge_some_some, Option.any_some]
          exact L.kept (hm k v hv).2 (hn k v' hv').2 h
  gained {m n} hm hn h := by
    obtain ⟨k, v, hv, hless⟩ := exists_of_pointwise_leq_eq_false h
    cases hw : m.get? k with
    | none =>
      refine ⟨(k, none), mem_keyed (hn k v hv).1 nofun, by simp [hw], ?_⟩
      simp [get?_pointwise_join, hw, hv]
    | some w =>
      obtain ⟨a, ha, hno, hyes⟩ := L.gained (hm k w hw).2 (hn k v hv).2 (hless w hw)
      refine ⟨(k, some a), mem_keyed (hn k v hv).1 ?_, by simp [hw, hno], ?_⟩
      · rintro _ ⟨⟩
        exact ha
      · simp [get?_pointwise_join, hw, hv, hyes]

end Maps

end JoinOrder

end EvmAccess
