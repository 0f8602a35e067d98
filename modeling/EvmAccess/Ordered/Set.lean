/-!
# Ordered sets

A finite set kept as the strictly increasing list of its members. Every set has exactly one such
list, so two sets with the same members are equal (`OrdSet.ext`), and the members are always
listed in order. Nothing outside this module looks at the list except through `toList`.

## Main results

- `OrdSet.mem_insert`, `OrdSet.mem_union`, `OrdSet.mem_filter`, `OrdSet.mem_ofList`: what each
  operation does to membership.
- `OrdSet.subset_iff`: the inclusion test decides inclusion.
- `OrdSet.ext`: equal members, equal sets.
-/

namespace EvmAccess

open Std

/-! ### Insertion into an increasing list -/

namespace Increasing

variable {α : Type} [Ord α]

/-- Put `a` where it belongs in an increasing list; a list that already holds `a` is unchanged. -/
def insert (a : α) : List α → List α
  | [] => [a]
  | b :: rest =>
    match compare a b with
    | .lt => a :: b :: rest
    | .eq => b :: rest
    | .gt => b :: insert a rest

variable [TransOrd α] [LawfulEqOrd α]

omit [TransOrd α] in
theorem mem_insert {a x : α} {l : List α} : x ∈ insert a l ↔ x = a ∨ x ∈ l := by
  induction l with
  | nil => simp [insert]
  | cons b rest ih =>
    rw [insert]
    split
    · simp
    · rename_i h
      obtain rfl := LawfulEqCmp.compare_eq_iff_eq.1 h
      simp
    · simp only [List.mem_cons, ih]
      exact or_left_comm

theorem pairwise_insert {a : α} {l : List α}
    (h : l.Pairwise fun x y => compare x y = .lt) :
    (insert a l).Pairwise fun x y => compare x y = .lt := by
  induction l with
  | nil => simp [insert]
  | cons b rest ih =>
    have hb := List.pairwise_cons.1 h
    rw [insert]
    split
    · rename_i hab
      refine List.pairwise_cons.2 ⟨fun x hx => ?_, h⟩
      rcases List.mem_cons.1 hx with rfl | hx
      · exact hab
      · exact TransCmp.lt_trans hab (hb.1 x hx)
    · exact h
    · rename_i hab
      refine List.pairwise_cons.2 ⟨fun x hx => ?_, ih hb.2⟩
      rcases mem_insert.1 hx with rfl | hx
      · exact OrientedCmp.gt_iff_lt.1 hab
      · exact hb.1 x hx

omit [LawfulEqOrd α] in
/-- An increasing list is determined by its members. -/
theorem eq_of_mem_iff {l m : List α} (hl : l.Pairwise fun x y => compare x y = .lt)
    (hm : m.Pairwise fun x y => compare x y = .lt) (h : ∀ a, a ∈ l ↔ a ∈ m) : l = m := by
  induction l generalizing m with
  | nil =>
    cases m with
    | nil => rfl
    | cons b m => exact absurd ((h b).2 List.mem_cons_self) List.not_mem_nil
  | cons a l ih =>
    cases m with
    | nil => exact absurd ((h a).1 List.mem_cons_self) List.not_mem_nil
    | cons b m =>
      have hl' := List.pairwise_cons.1 hl
      have hm' := List.pairwise_cons.1 hm
      have irrefl : ∀ x : α, compare x x ≠ .lt := fun x hx => by
        simp [ReflCmp.compare_self] at hx
      have asymm : ∀ x y : α, compare x y = .lt → compare y x ≠ .lt := fun x y hxy hyx =>
        irrefl x (TransCmp.lt_trans hxy hyx)
      have hab : a = b := by
        rcases List.mem_cons.1 ((h a).1 List.mem_cons_self) with hab | hab
        · exact hab
        · rcases List.mem_cons.1 ((h b).2 List.mem_cons_self) with hba | hba
          · exact hba.symm
          · exact absurd (hl'.1 b hba) (asymm _ _ (hm'.1 a hab))
      subst hab
      refine congrArg (a :: ·) (ih hl'.2 hm'.2 fun x => ⟨fun hx => ?_, fun hx => ?_⟩)
      · rcases List.mem_cons.1 ((h x).1 (List.mem_cons_of_mem _ hx)) with rfl | hx'
        · exact absurd (hl'.1 x hx) (irrefl x)
        · exact hx'
      · rcases List.mem_cons.1 ((h x).2 (List.mem_cons_of_mem _ hx)) with rfl | hx'
        · exact absurd (hm'.1 x hx) (irrefl x)
        · exact hx'

end Increasing

/-! ### The type -/

/-- A finite set, as the strictly increasing list of its members. -/
structure OrdSet (α : Type) [Ord α] where
  /-- The members, in increasing order. -/
  toList : List α
  /-- Each member is below all later ones. -/
  increasing : toList.Pairwise fun x y => compare x y = .lt

namespace OrdSet

variable {α β : Type} [Ord α] [Ord β]

instance : Membership α (OrdSet α) where
  mem s a := a ∈ s.toList

theorem mem_def {a : α} {s : OrdSet α} : a ∈ s ↔ a ∈ s.toList := Iff.rfl

instance [DecidableEq α] : DecidableEq (OrdSet α) := fun s t =>
  if h : s.toList = t.toList then
    isTrue (by cases s; cases t; cases h; rfl)
  else
    isFalse fun e => h (e ▸ rfl)

instance [DecidableEq α] (a : α) (s : OrdSet α) : Decidable (a ∈ s) :=
  inferInstanceAs (Decidable (a ∈ s.toList))

/-- The set without members. -/
def empty : OrdSet α := ⟨[], List.Pairwise.nil⟩

instance : EmptyCollection (OrdSet α) := ⟨empty⟩

instance : Inhabited (OrdSet α) := ⟨∅⟩

/-- The set with the one member `a`. -/
def singleton (a : α) : OrdSet α := ⟨[a], List.pairwise_singleton _ _⟩

/-- The number of members. -/
def size (s : OrdSet α) : Nat := s.toList.length

/-- Whether there is no member. -/
def isEmpty (s : OrdSet α) : Bool := s.toList.isEmpty

/-- Whether every member satisfies `p`. -/
def all (p : α → Bool) (s : OrdSet α) : Bool := s.toList.all p

/-- Whether some member satisfies `p`. -/
def any (p : α → Bool) (s : OrdSet α) : Bool := s.toList.any p

/-- The members that satisfy `p`. -/
def filter (p : α → Bool) (s : OrdSet α) : OrdSet α :=
  ⟨s.toList.filter p, s.increasing.filter p⟩

section Lawful

variable [TransOrd α] [LawfulEqOrd α] [TransOrd β] [LawfulEqOrd β]

/-- The set with `a` added. -/
def insert (a : α) (s : OrdSet α) : OrdSet α :=
  ⟨Increasing.insert a s.toList, Increasing.pairwise_insert s.increasing⟩

/-- The members of a list, in order and without repetition. -/
def ofList (l : List α) : OrdSet α := l.foldl (fun s a => s.insert a) ∅

/-- The members of either set. -/
def union (s t : OrdSet α) : OrdSet α := t.toList.foldl (fun s a => s.insert a) s

instance : Union (OrdSet α) := ⟨union⟩

/-- The images of the members under `f`. -/
def map (f : α → β) (s : OrdSet α) : OrdSet β := ofList (s.toList.map f)

end Lawful

/-- Whether every member of `s` is one of `t`. -/
def isSubset [DecidableEq α] (s t : OrdSet α) : Bool := s.all fun a => a ∈ t

/-! ### Membership -/

@[simp] theorem not_mem_empty (a : α) : ¬ a ∈ (∅ : OrdSet α) := List.not_mem_nil

@[simp] theorem toList_empty : (∅ : OrdSet α).toList = [] := rfl

@[simp] theorem mem_singleton {a b : α} : a ∈ singleton b ↔ a = b := List.mem_singleton

@[simp] theorem mem_filter {p : α → Bool} {a : α} {s : OrdSet α} :
    a ∈ s.filter p ↔ a ∈ s ∧ p a = true := List.mem_filter

theorem all_iff {p : α → Bool} {s : OrdSet α} : s.all p = true ↔ ∀ a ∈ s, p a = true :=
  List.all_eq_true

theorem any_iff {p : α → Bool} {s : OrdSet α} : s.any p = true ↔ ∃ a ∈ s, p a = true :=
  List.any_eq_true

theorem isEmpty_iff {s : OrdSet α} : s.isEmpty = true ↔ ∀ a, ¬ a ∈ s := by
  rw [isEmpty, List.isEmpty_iff, List.eq_nil_iff_forall_not_mem]
  exact Iff.rfl

theorem exists_mem_of_isEmpty_eq_false {s : OrdSet α} (h : s.isEmpty = false) : ∃ a, a ∈ s :=
  List.exists_mem_of_ne_nil s.toList fun hnil => by simp [isEmpty, hnil] at h

theorem subset_iff [DecidableEq α] {s t : OrdSet α} :
    s.isSubset t = true ↔ ∀ a ∈ s, a ∈ t := by
  simp [isSubset, all_iff]

section Lawful

variable [TransOrd α] [LawfulEqOrd α] [TransOrd β] [LawfulEqOrd β]

@[simp] theorem mem_insert {a x : α} {s : OrdSet α} : x ∈ s.insert a ↔ x = a ∨ x ∈ s :=
  Increasing.mem_insert

theorem mem_foldl_insert {x : α} {l : List α} {s : OrdSet α} :
    x ∈ l.foldl (fun s a => s.insert a) s ↔ x ∈ s ∨ x ∈ l := by
  induction l generalizing s with
  | nil => simp
  | cons a l ih =>
    simp only [List.foldl_cons, ih, mem_insert, List.mem_cons]
    exact ⟨by rintro ((h | h) | h) <;> simp [h], by rintro (h | h | h) <;> simp [h]⟩

@[simp] theorem mem_ofList {x : α} {l : List α} : x ∈ ofList l ↔ x ∈ l := by
  rw [ofList, mem_foldl_insert]
  simp

@[simp] theorem mem_union {x : α} {s t : OrdSet α} : x ∈ s ∪ t ↔ x ∈ s ∨ x ∈ t :=
  mem_foldl_insert

omit [TransOrd α] [LawfulEqOrd α] in
@[simp] theorem mem_map {f : α → β} {y : β} {s : OrdSet α} :
    y ∈ s.map f ↔ ∃ x ∈ s, f x = y := by
  rw [map, mem_ofList, List.mem_map]
  exact Iff.rfl

omit [LawfulEqOrd α] in
/-- Sets with the same members are equal. -/
theorem ext {s t : OrdSet α} (h : ∀ a, a ∈ s ↔ a ∈ t) : s = t := by
  obtain ⟨l, hl⟩ := s
  obtain ⟨m, hm⟩ := t
  obtain rfl := Increasing.eq_of_mem_iff hl hm h
  rfl

end Lawful

end OrdSet

end EvmAccess
