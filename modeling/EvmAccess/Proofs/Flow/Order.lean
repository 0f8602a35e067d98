import EvmAccess.Flow.Domain
import EvmAccess.Ordered.Map

/-!
# Laws of orders with joins

The engine relies on four laws of the order of a domain. They hold for sets ordered by inclusion,
and carry over from the values of a map to the map: to maps that grow in keys, where a missing key
is the least value, and to maps that shrink in keys, where a missing key is the greatest. Together
with pairs this covers the states of all domains, which embed into such orders. A fifth law, that
joins are least, is not needed to stop at a post-fixpoint, but to find the least one. It makes joins
commutative and associative, as far as the order can tell; in an antisymmetric order this is
equality.

## Main results

- `JoinOrder.lawful_powerset`, `JoinOrder.semilattice_powerset`: sets ordered by inclusion.
- `JoinOrder.Semilattice.join_comm`, `JoinOrder.Semilattice.join_assoc`: laws of least joins.
- `JoinOrder.Lawful.pointwise`, `JoinOrder.Lawful.shared`: maps.
- `JoinOrder.Lawful.prod`, `JoinOrder.Lawful.of_embeds`: pairs, and orders that embed.
- `JoinOrder.Embeds.equivalent_iff`: which states cover each other.
- `JoinOrder.Lawful.restrict`: orders on some of the states.
-/

namespace EvmAccess

open Std

variable {σ τ ρ : Type}

namespace JoinOrder

/-- The laws of the order that the engine relies on. -/
structure Lawful (o : JoinOrder σ) : Prop where
  refl : ∀ s, o.leq s s = true
  trans : ∀ {s t u}, o.leq s t = true → o.leq t u = true → o.leq s u = true
  leq_join_left : ∀ s t, o.leq s (o.join s t) = true
  leq_join_right : ∀ s t, o.leq t (o.join s t) = true

/-- The laws of a semilattice: the join is the least state that covers both. -/
structure Semilattice (o : JoinOrder σ) : Prop extends o.Lawful where
  join_leq : ∀ {s t u}, o.leq s u = true → o.leq t u = true → o.leq (o.join s t) u = true

/-- Each state covers the other. -/
def Equivalent (o : JoinOrder σ) (s t : σ) : Prop := o.leq s t = true ∧ o.leq t s = true

instance (o : JoinOrder σ) (s t : σ) : Decidable (o.Equivalent s t) :=
  inferInstanceAs (Decidable (_ ∧ _))

/-- Joining a state to itself changes nothing. -/
theorem Semilattice.join_self {o : JoinOrder σ} (h : o.Semilattice) (s : σ) :
    o.Equivalent (o.join s s) s :=
  ⟨h.join_leq (h.refl s) (h.refl s), h.leq_join_left s s⟩

/-- A join is covered by whatever covers both sides. -/
theorem Semilattice.join_leq_iff {o : JoinOrder σ} (h : o.Semilattice) {s t u : σ} :
    o.leq (o.join s t) u = true ↔ o.leq s u = true ∧ o.leq t u = true :=
  ⟨fun hu => ⟨h.trans (h.leq_join_left s t) hu, h.trans (h.leq_join_right s t) hu⟩,
    fun hu => h.join_leq hu.1 hu.2⟩

/-- States that are covered by the same states cover each other. -/
theorem Lawful.equivalent_of_leq_iff {o : JoinOrder σ} (h : o.Lawful) {s t : σ}
    (hst : ∀ u, o.leq s u = true ↔ o.leq t u = true) : o.Equivalent s t :=
  ⟨(hst t).2 (h.refl t), (hst s).1 (h.refl s)⟩

theorem Semilattice.join_comm {o : JoinOrder σ} (h : o.Semilattice) (s t : σ) :
    o.Equivalent (o.join s t) (o.join t s) :=
  h.equivalent_of_leq_iff fun u => by rw [h.join_leq_iff, h.join_leq_iff, and_comm]

theorem Semilattice.join_assoc {o : JoinOrder σ} (h : o.Semilattice) (s t u : σ) :
    o.Equivalent (o.join (o.join s t) u) (o.join s (o.join t u)) :=
  h.equivalent_of_leq_iff fun v => by simp only [h.join_leq_iff, and_assoc]

/-- States that cover each other are equal. -/
def Antisymmetric (o : JoinOrder σ) : Prop := ∀ s t, o.Equivalent s t → s = t

theorem Antisymmetric.equivalent_iff {o : JoinOrder σ} (hanti : o.Antisymmetric) (h : o.Lawful)
    {s t : σ} : o.Equivalent s t ↔ s = t := by
  refine ⟨hanti s t, ?_⟩
  rintro rfl
  exact ⟨h.refl s, h.refl s⟩

/-- Sets ordered by inclusion. -/
theorem lawful_powerset {α : Type} [Ord α] [TransOrd α] [LawfulEqOrd α]
    [DecidableEq α] : (powerset : JoinOrder (OrdSet α)).Lawful where
  refl _ := OrdSet.subset_iff.2 fun _ h => h
  trans h h' := OrdSet.subset_iff.2 fun a ha =>
    OrdSet.subset_iff.1 h' a (OrdSet.subset_iff.1 h a ha)
  leq_join_left _ _ := OrdSet.subset_iff.2 fun _ h => OrdSet.mem_union.2 (Or.inl h)
  leq_join_right _ _ := OrdSet.subset_iff.2 fun _ h => OrdSet.mem_union.2 (Or.inr h)

theorem semilattice_powerset {α : Type} [Ord α] [TransOrd α] [LawfulEqOrd α]
    [DecidableEq α] : (powerset : JoinOrder (OrdSet α)).Semilattice where
  toLawful := lawful_powerset
  join_leq {s t u} h h' := OrdSet.subset_iff.2 fun a ha => by
    rcases OrdSet.mem_union.1 ha with ha | ha
    · exact OrdSet.subset_iff.1 h a ha
    · exact OrdSet.subset_iff.1 h' a ha

theorem antisymmetric_powerset {α : Type} [Ord α] [TransOrd α] [LawfulEqOrd α]
    [DecidableEq α] : (powerset : JoinOrder (OrdSet α)).Antisymmetric := fun _ _ h =>
  OrdSet.ext fun a => ⟨OrdSet.subset_iff.1 h.1 a, OrdSet.subset_iff.1 h.2 a⟩

/-! ### Pairs and embeddings -/

/-- Pairs, ordered in both components. -/
def prod (o₁ : JoinOrder σ) (o₂ : JoinOrder τ) : JoinOrder (σ × τ) where
  leq s t := o₁.leq s.1 t.1 && o₂.leq s.2 t.2
  join s t := (o₁.join s.1 t.1, o₂.join s.2 t.2)

theorem Lawful.prod {o₁ : JoinOrder σ} {o₂ : JoinOrder τ} (h₁ : o₁.Lawful) (h₂ : o₂.Lawful) :
    (o₁.prod o₂).Lawful where
  refl s := Bool.and_eq_true_iff.2 ⟨h₁.refl _, h₂.refl _⟩
  trans h h' := by
    obtain ⟨ha, hb⟩ := Bool.and_eq_true_iff.1 h
    obtain ⟨ha', hb'⟩ := Bool.and_eq_true_iff.1 h'
    exact Bool.and_eq_true_iff.2 ⟨h₁.trans ha ha', h₂.trans hb hb'⟩
  leq_join_left _ _ := Bool.and_eq_true_iff.2 ⟨h₁.leq_join_left _ _, h₂.leq_join_left _ _⟩
  leq_join_right _ _ := Bool.and_eq_true_iff.2 ⟨h₁.leq_join_right _ _, h₂.leq_join_right _ _⟩

theorem Semilattice.prod {o₁ : JoinOrder σ} {o₂ : JoinOrder τ} (h₁ : o₁.Semilattice)
    (h₂ : o₂.Semilattice) : (o₁.prod o₂).Semilattice where
  toLawful := h₁.toLawful.prod h₂.toLawful
  join_leq h h' := by
    obtain ⟨ha, hb⟩ := Bool.and_eq_true_iff.1 h
    obtain ⟨ha', hb'⟩ := Bool.and_eq_true_iff.1 h'
    exact Bool.and_eq_true_iff.2 ⟨h₁.join_leq ha ha', h₂.join_leq hb hb'⟩

theorem Antisymmetric.prod {o₁ : JoinOrder σ} {o₂ : JoinOrder τ} (h₁ : o₁.Antisymmetric)
    (h₂ : o₂.Antisymmetric) : (o₁.prod o₂).Antisymmetric := fun _ _ h => by
  obtain ⟨ha, hb⟩ := Bool.and_eq_true_iff.1 h.1
  obtain ⟨ha', hb'⟩ := Bool.and_eq_true_iff.1 h.2
  exact Prod.ext (h₁ _ _ ⟨ha, ha'⟩) (h₂ _ _ ⟨hb, hb'⟩)

/-- A function that carries one order to another. -/
structure Embeds (o : JoinOrder σ) (o' : JoinOrder τ) (f : σ → τ) : Prop where
  leq : ∀ s t, o.leq s t = o'.leq (f s) (f t)
  join : ∀ s t, f (o.join s t) = o'.join (f s) (f t)

theorem Lawful.of_embeds {o : JoinOrder σ} {o' : JoinOrder τ} {f : σ → τ} (hf : o.Embeds o' f)
    (h : o'.Lawful) : o.Lawful where
  refl s := by
    rw [hf.leq]
    exact h.refl _
  trans hst htu := by
    rw [hf.leq] at hst htu ⊢
    exact h.trans hst htu
  leq_join_left s t := by
    rw [hf.leq, hf.join]
    exact h.leq_join_left _ _
  leq_join_right s t := by
    rw [hf.leq, hf.join]
    exact h.leq_join_right _ _

theorem Semilattice.of_embeds {o : JoinOrder σ} {o' : JoinOrder τ} {f : σ → τ}
    (hf : o.Embeds o' f) (h : o'.Semilattice) : o.Semilattice where
  toLawful := h.toLawful.of_embeds hf
  join_leq hs ht := by
    rw [hf.leq] at hs ht ⊢
    rw [hf.join]
    exact h.join_leq hs ht

/-- States cover each other if they are carried to the same state. -/
theorem Embeds.equivalent_iff {o : JoinOrder σ} {o' : JoinOrder τ} {f : σ → τ}
    (hf : o.Embeds o' f) (h : o'.Lawful) (hanti : o'.Antisymmetric) {s t : σ} :
    o.Equivalent s t ↔ f s = f t := by
  rw [Equivalent, hf.leq, hf.leq]
  exact hanti.equivalent_iff h

/-! ### Some of the states -/

/-- The order on the states with a property that joining keeps. -/
def restrict (o : JoinOrder σ) (P : σ → Prop) (hjoin : ∀ s t, P s → P t → P (o.join s t)) :
    JoinOrder { s // P s } where
  leq s t := o.leq s.1 t.1
  join s t := ⟨o.join s.1 t.1, hjoin s.1 t.1 s.2 t.2⟩

theorem Lawful.restrict {o : JoinOrder σ} (h : o.Lawful) {P : σ → Prop}
    (hjoin : ∀ s t, P s → P t → P (o.join s t)) : (o.restrict P hjoin).Lawful where
  refl s := h.refl s.1
  trans hst htu := h.trans hst htu
  leq_join_left s t := h.leq_join_left s.1 t.1
  leq_join_right s t := h.leq_join_right s.1 t.1

/-! ### Maps -/

section Maps

variable {κ : Type} [Ord κ] {o : JoinOrder σ} {m n : OrdMap κ σ}

/-- Maps that shrink in keys. -/
def shared (o : JoinOrder σ) : JoinOrder (OrdMap κ σ) where
  leq m n := n.all fun k w =>
    match m.get? k with
    | none => false
    | some v => o.leq v w
  join m n := m.interWith o.join n

variable [LawfulEqOrd κ]

theorem shared_leq_iff :
    o.shared.leq m n = true ↔
      ∀ k w, n.get? k = some w → ∃ v, m.get? k = some v ∧ o.leq v w = true := by
  rw [shared, OrdMap.all_iff]
  refine forall_congr' fun k => forall_congr' fun w => forall_congr' fun _ => ?_
  cases m.get? k <;> simp

theorem exists_of_shared_leq_eq_false (h : o.shared.leq m n = false) :
    ∃ k w, n.get? k = some w ∧ ∀ v, m.get? k = some v → o.leq v w = false := by
  obtain ⟨⟨k, w⟩, he, hnot⟩ := List.all_eq_false.1 h
  refine ⟨k, w, OrdMap.get?_eq_some_iff.2 he, fun v hv => ?_⟩
  simpa [hv] using hnot

theorem get?_shared_join {k : κ} :
    (o.shared.join m n).get? k =
      (m.get? k).bind fun v => (n.get? k).map (o.join v) :=
  OrdMap.get?_interWith

theorem Lawful.shared (h : o.Lawful) : (o.shared : JoinOrder (OrdMap κ σ)).Lawful where
  refl m := shared_leq_iff.2 fun _ v hv => ⟨v, hv, h.refl v⟩
  trans hst htu := shared_leq_iff.2 fun k w hw => by
    obtain ⟨v, hv, hvw⟩ := shared_leq_iff.1 htu k w hw
    obtain ⟨u, hu, huv⟩ := shared_leq_iff.1 hst k v hv
    exact ⟨u, hu, h.trans huv hvw⟩
  leq_join_left m n := shared_leq_iff.2 fun k w hw => by
    rw [get?_shared_join] at hw
    obtain ⟨v, hv, hw⟩ := Option.bind_eq_some_iff.1 hw
    obtain ⟨v', -, rfl⟩ := Option.map_eq_some_iff.1 hw
    exact ⟨v, hv, h.leq_join_left v v'⟩
  leq_join_right m n := shared_leq_iff.2 fun k w hw => by
    rw [get?_shared_join] at hw
    obtain ⟨v, -, hw⟩ := Option.bind_eq_some_iff.1 hw
    obtain ⟨v', hv', rfl⟩ := Option.map_eq_some_iff.1 hw
    exact ⟨v', hv', h.leq_join_right v v'⟩

theorem Semilattice.shared (h : o.Semilattice) :
    (o.shared : JoinOrder (OrdMap κ σ)).Semilattice where
  toLawful := h.toLawful.shared
  join_leq {m n k} hm hn := shared_leq_iff.2 fun key w hw => by
    obtain ⟨v, hv, hvw⟩ := shared_leq_iff.1 hm key w hw
    obtain ⟨v', hv', hvw'⟩ := shared_leq_iff.1 hn key w hw
    exact ⟨o.join v v', by simp [get?_shared_join, hv, hv'], h.join_leq hvw hvw'⟩

variable [TransOrd κ]

/-- Maps are equal if each has the keys of the other, with values that are related both ways, and
only equal values are. -/
theorem eq_of_get? {R : σ → σ → Prop} (hR : ∀ {v w}, R v w → R w v → v = w)
    (hmn : ∀ k v, m.get? k = some v → ∃ w, n.get? k = some w ∧ R v w)
    (hnm : ∀ k w, n.get? k = some w → ∃ v, m.get? k = some v ∧ R w v) : m = n := by
  refine OrdMap.ext fun k => ?_
  cases hv : m.get? k with
  | none =>
    cases hw : n.get? k with
    | none => rfl
    | some w =>
      obtain ⟨v, hv', -⟩ := hnm k w hw
      rw [hv] at hv'
      cases hv'
  | some v =>
    obtain ⟨w, hw, hvw⟩ := hmn k v hv
    obtain ⟨v', hv', hwv⟩ := hnm k w hw
    obtain rfl : v = v' := Option.some.inj (hv.symm.trans hv')
    rw [hw, hR hvw hwv]

theorem Antisymmetric.shared (h : o.Antisymmetric) :
    (o.shared : JoinOrder (OrdMap κ σ)).Antisymmetric := fun _ _ heq =>
  eq_of_get? (R := fun v w => o.leq w v = true) (fun hwv hvw => h _ _ ⟨hvw, hwv⟩)
    (shared_leq_iff.1 heq.2) (shared_leq_iff.1 heq.1)

/-- Maps that grow in keys. -/
def pointwise (o : JoinOrder σ) : JoinOrder (OrdMap κ σ) where
  leq m n := m.all fun k v =>
    match n.get? k with
    | none => false
    | some w => o.leq v w
  join m n := m.unionWith o.join n

theorem pointwise_leq_iff :
    o.pointwise.leq m n = true ↔
      ∀ k v, m.get? k = some v → ∃ w, n.get? k = some w ∧ o.leq v w = true := by
  rw [pointwise, OrdMap.all_iff]
  refine forall_congr' fun k => forall_congr' fun v => forall_congr' fun _ => ?_
  cases n.get? k <;> simp

theorem exists_of_pointwise_leq_eq_false (h : o.pointwise.leq m n = false) :
    ∃ k v, m.get? k = some v ∧ ∀ w, n.get? k = some w → o.leq v w = false := by
  obtain ⟨⟨k, v⟩, he, hnot⟩ := List.all_eq_false.1 h
  refine ⟨k, v, OrdMap.get?_eq_some_iff.2 he, fun w hw => ?_⟩
  simpa [hw] using hnot

theorem get?_pointwise_join {k : κ} :
    (o.pointwise.join m n).get? k = (m.get? k).merge o.join (n.get? k) :=
  OrdMap.get?_unionWith

theorem Lawful.pointwise (h : o.Lawful) : (o.pointwise : JoinOrder (OrdMap κ σ)).Lawful where
  refl m := pointwise_leq_iff.2 fun _ v hv => ⟨v, hv, h.refl v⟩
  trans hst htu := pointwise_leq_iff.2 fun k v hv => by
    obtain ⟨w, hw, hvw⟩ := pointwise_leq_iff.1 hst k v hv
    obtain ⟨u, hu, hwu⟩ := pointwise_leq_iff.1 htu k w hw
    exact ⟨u, hu, h.trans hvw hwu⟩
  leq_join_left m n := pointwise_leq_iff.2 fun k v hv => by
    rw [get?_pointwise_join, hv]
    cases n.get? k with
    | none => exact ⟨v, rfl, h.refl v⟩
    | some w => exact ⟨o.join v w, rfl, h.leq_join_left v w⟩
  leq_join_right m n := pointwise_leq_iff.2 fun k w hw => by
    rw [get?_pointwise_join, hw]
    cases m.get? k with
    | none => exact ⟨w, rfl, h.refl w⟩
    | some v => exact ⟨o.join v w, rfl, h.leq_join_right v w⟩

theorem Semilattice.pointwise (h : o.Semilattice) :
    (o.pointwise : JoinOrder (OrdMap κ σ)).Semilattice where
  toLawful := h.toLawful.pointwise
  join_leq {m n k} hm hn := pointwise_leq_iff.2 fun key u hu => by
    rw [get?_pointwise_join] at hu
    cases hv : m.get? key with
    | none =>
      simp only [hv, Option.merge_none_left] at hu
      exact pointwise_leq_iff.1 hn key u hu
    | some v =>
      obtain ⟨w, hw, hvw⟩ := pointwise_leq_iff.1 hm key v hv
      cases hv' : n.get? key with
      | none =>
        simp only [hv, hv', Option.merge_none_right] at hu
        obtain rfl := Option.some.inj hu
        exact ⟨w, hw, hvw⟩
      | some v' =>
        obtain ⟨w', hw', hvw'⟩ := pointwise_leq_iff.1 hn key v' hv'
        obtain rfl := Option.some.inj (hw.symm.trans hw')
        simp only [hv, hv', Option.merge_some_some] at hu
        obtain rfl := Option.some.inj hu
        exact ⟨w, hw, h.join_leq hvw hvw'⟩

theorem Antisymmetric.pointwise (h : o.Antisymmetric) :
    (o.pointwise : JoinOrder (OrdMap κ σ)).Antisymmetric := fun _ _ heq =>
  eq_of_get? (R := fun v w => o.leq v w = true) (fun hvw hwv => h _ _ ⟨hvw, hwv⟩)
    (pointwise_leq_iff.1 heq.1) (pointwise_leq_iff.1 heq.2)

end Maps

end JoinOrder

end EvmAccess
