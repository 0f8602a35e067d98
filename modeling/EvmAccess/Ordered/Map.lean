/-!
# Ordered maps

A finite map kept as the list of its entries, strictly increasing by key. The list is canonical:
two maps that answer every look-up alike are equal (`OrdMap.ext`), and entries are always listed
in key order. Every update is a case of `OrdMap.alter`, so one equation, `OrdMap.get?_alter`,
describes them all.

## Main results

- `OrdMap.get?_insert`, `OrdMap.get?_erase`, `OrdMap.get?_filterMap`, `OrdMap.get?_unionWith`,
  `OrdMap.get?_interWith`: what each operation does to look-ups.
- `OrdMap.all_iff`: a test of all entries is a test of all look-ups.
- `OrdMap.ext`: equal look-ups, equal maps.
-/

namespace EvmAccess

open Std

/-! ### Lists of entries -/

namespace Entries

variable {κ β γ : Type} [Ord κ]

/-- The keys of a list of entries increase strictly. -/
abbrev Increasing (l : List (κ × β)) : Prop := l.Pairwise fun x y => compare x.1 y.1 = .lt

/-- The value of the first entry for `k`. -/
def lookup (k : κ) : List (κ × β) → Option β
  | [] => none
  | (j, v) :: rest => if compare k j = .eq then some v else lookup k rest

/-- Replace the value at `k`: `f` sees the present value and gives the new one, `none` standing
for no entry. -/
def alter (k : κ) (f : Option β → Option β) : List (κ × β) → List (κ × β)
  | [] =>
    match f none with
    | none => []
    | some w => [(k, w)]
  | (j, v) :: rest =>
    match compare k j with
    | .lt =>
      match f none with
      | none => (j, v) :: rest
      | some w => (k, w) :: (j, v) :: rest
    | .eq =>
      match f (some v) with
      | none => rest
      | some w => (j, w) :: rest
    | .gt => (j, v) :: alter k f rest

variable [TransOrd κ] [LawfulEqOrd κ]

omit [TransOrd κ] [LawfulEqOrd κ] in
theorem lookup_cons {k j : κ} {v : β} {rest : List (κ × β)} :
    lookup k ((j, v) :: rest) = if compare k j = .eq then some v else lookup k rest := rfl

omit [TransOrd κ] in
theorem mem_of_lookup {k : κ} {v : β} {l : List (κ × β)} (h : lookup k l = some v) :
    (k, v) ∈ l := by
  induction l with
  | nil => cases h
  | cons e rest ih =>
    obtain ⟨j, w⟩ := e
    rw [lookup_cons] at h
    split at h
    · rename_i hk
      obtain rfl := LawfulEqCmp.compare_eq_iff_eq.1 hk
      cases h
      exact List.mem_cons_self
    · exact List.mem_cons_of_mem _ (ih h)

omit [TransOrd κ] in
theorem lookup_of_mem {k : κ} {v : β} {l : List (κ × β)} (hl : Increasing l) (h : (k, v) ∈ l) :
    lookup k l = some v := by
  induction l with
  | nil => cases h
  | cons e rest ih =>
    obtain ⟨j, w⟩ := e
    have hl' := List.pairwise_cons.1 hl
    rw [lookup_cons]
    rcases List.mem_cons.1 h with h | h
    · cases h
      simp [ReflCmp.compare_self]
    · have hlt : compare j k = .lt := hl'.1 _ h
      rw [if_neg, ih hl'.2 h]
      intro hk
      obtain rfl := LawfulEqCmp.compare_eq_iff_eq.1 hk
      simp [ReflCmp.compare_self] at hlt

omit [TransOrd κ] in
theorem lookup_eq_some_iff {k : κ} {v : β} {l : List (κ × β)} (hl : Increasing l) :
    lookup k l = some v ↔ (k, v) ∈ l :=
  ⟨mem_of_lookup, lookup_of_mem hl⟩

omit [TransOrd κ] in
theorem lookup_eq_none {k : κ} {l : List (κ × β)} (h : ∀ e ∈ l, e.1 ≠ k) : lookup k l = none := by
  cases hk : lookup k l with
  | none => rfl
  | some v => exact absurd rfl (h _ (mem_of_lookup hk))

omit [TransOrd κ] in
/-- Below the first key nothing is found. -/
theorem lookup_eq_none_of_lt {k : κ} {l : List (κ × β)}
    (h : ∀ e ∈ l, compare k e.1 = .lt) : lookup k l = none := by
  refine lookup_eq_none fun e he hk => ?_
  have := h e he
  simp [hk, ReflCmp.compare_self] at this

omit [TransOrd κ] in
theorem key_mem_alter {k : κ} {f : Option β → Option β} {l : List (κ × β)} {e : κ × β}
    (h : e ∈ alter k f l) : e.1 = k ∨ e ∈ l := by
  induction l with
  | nil =>
    rw [alter] at h
    split at h
    · cases h
    · exact Or.inl (by rw [List.mem_singleton.1 h])
  | cons x rest ih =>
    obtain ⟨j, v⟩ := x
    rw [alter] at h
    split at h
    · split at h
      · exact Or.inr h
      · rcases List.mem_cons.1 h with rfl | h
        · exact Or.inl rfl
        · exact Or.inr h
    · rename_i hk
      obtain rfl := LawfulEqCmp.compare_eq_iff_eq.1 hk
      split at h
      · exact Or.inr (List.mem_cons_of_mem _ h)
      · rcases List.mem_cons.1 h with rfl | h
        · exact Or.inl rfl
        · exact Or.inr (List.mem_cons_of_mem _ h)
    · rcases List.mem_cons.1 h with rfl | h
      · exact Or.inr List.mem_cons_self
      · exact (ih h).imp_right (List.mem_cons_of_mem _)

theorem increasing_alter {k : κ} {f : Option β → Option β} {l : List (κ × β)}
    (hl : Increasing l) : Increasing (alter k f l) := by
  induction l with
  | nil =>
    rw [alter]
    split
    · exact List.Pairwise.nil
    · exact List.pairwise_singleton _ _
  | cons x rest ih =>
    obtain ⟨j, v⟩ := x
    have hl' := List.pairwise_cons.1 hl
    rw [alter]
    split
    · rename_i hk
      split
      · exact hl
      · refine List.pairwise_cons.2 ⟨fun e he => ?_, hl⟩
        rcases List.mem_cons.1 he with rfl | he
        · exact hk
        · exact TransCmp.lt_trans hk (hl'.1 e he)
    · split
      · exact hl'.2
      · exact List.pairwise_cons.2 ⟨hl'.1, hl'.2⟩
    · rename_i hk
      refine List.pairwise_cons.2 ⟨fun e he => ?_, ih hl'.2⟩
      rcases key_mem_alter he with he | he
      · rw [he]
        exact OrientedCmp.gt_iff_lt.1 hk
      · exact hl'.1 e he

theorem lookup_alter {k a : κ} {f : Option β → Option β} {l : List (κ × β)}
    (hl : Increasing l) :
    lookup a (alter k f l) = if compare a k = .eq then f (lookup k l) else lookup a l := by
  induction l with
  | nil =>
    rw [alter]
    split
    · rename_i hf
      simp [lookup, hf]
    · rename_i hf
      simp [lookup, hf]
  | cons x rest ih =>
    obtain ⟨j, v⟩ := x
    have hl' := List.pairwise_cons.1 hl
    rw [alter]
    split
    · rename_i hk
      have hnone : lookup k ((j, v) :: rest) = none := by
        refine lookup_eq_none_of_lt fun e he => ?_
        rcases List.mem_cons.1 he with rfl | he
        · exact hk
        · exact TransCmp.lt_trans hk (hl'.1 e he)
      rw [hnone]
      split
      · rename_i hf
        rw [hf]
        split
        · rename_i ha
          obtain rfl := LawfulEqCmp.compare_eq_iff_eq.1 ha
          exact hnone
        · rfl
      · rename_i hf
        rw [hf, lookup_cons]
    · rename_i hk
      obtain rfl := LawfulEqCmp.compare_eq_iff_eq.1 hk
      have hself : lookup k ((k, v) :: rest) = some v := by
        simp [lookup_cons, ReflCmp.compare_self]
      have hrest : lookup k rest = none := lookup_eq_none_of_lt fun e he => hl'.1 e he
      rw [hself]
      split
      · rename_i hf
        rw [hf, lookup_cons]
        split
        · rename_i ha
          obtain rfl := LawfulEqCmp.compare_eq_iff_eq.1 ha
          exact hrest
        · rfl
      · rename_i hf
        rw [hf, lookup_cons, lookup_cons]
        split <;> rfl
    · rename_i hk
      rw [lookup_cons, ih hl'.2, lookup_cons, lookup_cons]
      by_cases ha : compare a k = .eq
      · obtain rfl := LawfulEqCmp.compare_eq_iff_eq.1 ha
        simp [hk]
      · simp [ha]

omit [LawfulEqOrd κ] in
/-- An increasing list of entries is determined by its members. -/
theorem eq_of_mem_iff {l m : List (κ × β)} (hl : Increasing l) (hm : Increasing m)
    (h : ∀ e, e ∈ l ↔ e ∈ m) : l = m := by
  have irrefl : ∀ x : κ, compare x x ≠ .lt := fun x hx => by
    simp [ReflCmp.compare_self] at hx
  induction l generalizing m with
  | nil =>
    cases m with
    | nil => rfl
    | cons b m => exact absurd ((h b).2 List.mem_cons_self) List.not_mem_nil
  | cons a l ih =>
    cases m with
    | nil => exact absurd ((h a).1 List.mem_cons_self) List.not_mem_nil
    | cons b m =>
      have hl' := List.pairwise_cons.1 hl
      have hm' := List.pairwise_cons.1 hm
      have hab : a = b := by
        rcases List.mem_cons.1 ((h a).1 List.mem_cons_self) with hab | hab
        · exact hab
        · rcases List.mem_cons.1 ((h b).2 List.mem_cons_self) with hba | hba
          · exact hba.symm
          · exact absurd (TransCmp.lt_trans (hl'.1 b hba) (hm'.1 a hab)) (irrefl _)
      subst hab
      refine congrArg (a :: ·) (ih hl'.2 hm'.2 fun x => ⟨fun hx => ?_, fun hx => ?_⟩)
      · rcases List.mem_cons.1 ((h x).1 (List.mem_cons_of_mem _ hx)) with rfl | hx'
        · exact absurd (hl'.1 x hx) (irrefl _)
        · exact hx'
      · rcases List.mem_cons.1 ((h x).2 (List.mem_cons_of_mem _ hx)) with rfl | hx'
        · exact absurd (hm'.1 x hx) (irrefl _)
        · exact hx'

/-- Keep some entries, with new values. -/
def filterMap (f : κ → β → Option γ) : List (κ × β) → List (κ × γ) :=
  List.filterMap fun e => (f e.1 e.2).map fun w => (e.1, w)

omit [TransOrd κ] [LawfulEqOrd κ] in
theorem increasing_filterMap {f : κ → β → Option γ} {l : List (κ × β)} (hl : Increasing l) :
    Increasing (filterMap f l) := by
  refine List.Pairwise.filterMap _ (fun x y hxy x' hx y' hy => ?_) hl
  obtain ⟨v, _, rfl⟩ := Option.map_eq_some_iff.1 (Option.mem_def.1 hx)
  obtain ⟨w, _, rfl⟩ := Option.map_eq_some_iff.1 (Option.mem_def.1 hy)
  exact hxy

end Entries

/-! ### The type -/

/-- A finite map, as the list of its entries with strictly increasing keys. -/
structure OrdMap (κ β : Type) [Ord κ] where
  /-- The entries, in key order. -/
  toList : List (κ × β)
  /-- Each key is below all later ones. -/
  increasing : Entries.Increasing toList

namespace OrdMap

variable {κ β γ δ : Type} [Ord κ]

instance [DecidableEq κ] [DecidableEq β] : DecidableEq (OrdMap κ β) := fun m n =>
  if h : m.toList = n.toList then
    isTrue (by cases m; cases n; cases h; rfl)
  else
    isFalse fun e => h (e ▸ rfl)

/-- The map without entries. -/
def empty : OrdMap κ β := ⟨[], List.Pairwise.nil⟩

instance : EmptyCollection (OrdMap κ β) := ⟨empty⟩

instance : Inhabited (OrdMap κ β) := ⟨∅⟩

/-- The value at `k`. -/
def get? (m : OrdMap κ β) (k : κ) : Option β := Entries.lookup k m.toList

/-- Whether there is an entry for `k`. -/
def contains (m : OrdMap κ β) (k : κ) : Bool := (m.get? k).isSome

/-- The keys, in order. -/
def keys (m : OrdMap κ β) : List κ := m.toList.map (·.1)

/-- The number of entries. -/
def size (m : OrdMap κ β) : Nat := m.toList.length

/-- Whether there is no entry. -/
def isEmpty (m : OrdMap κ β) : Bool := m.toList.isEmpty

/-- Whether every entry satisfies `p`. -/
def all (p : κ → β → Bool) (m : OrdMap κ β) : Bool := m.toList.all fun e => p e.1 e.2

/-- Keep the entries for which `f` gives a value, with that value. -/
def filterMap (f : κ → β → Option γ) (m : OrdMap κ β) : OrdMap κ γ :=
  ⟨Entries.filterMap f m.toList, Entries.increasing_filterMap m.increasing⟩

/-- Change the values. -/
def map (f : κ → β → γ) (m : OrdMap κ β) : OrdMap κ γ := m.filterMap fun k v => some (f k v)

/-- Keep the entries that satisfy `p`. -/
def filter (p : κ → β → Bool) (m : OrdMap κ β) : OrdMap κ β :=
  m.filterMap fun k v => if p k v then some v else none

section Lawful

variable [TransOrd κ] [LawfulEqOrd κ]

/-- Replace the value at `k`: `f` sees the present value and gives the new one, `none` standing
for no entry. -/
def alter (m : OrdMap κ β) (k : κ) (f : Option β → Option β) : OrdMap κ β :=
  ⟨Entries.alter k f m.toList, Entries.increasing_alter m.increasing⟩

/-- The map with value `v` at `k`. -/
def insert (m : OrdMap κ β) (k : κ) (v : β) : OrdMap κ β := m.alter k fun _ => some v

/-- The map without an entry for `k`. -/
def erase (m : OrdMap κ β) (k : κ) : OrdMap κ β := m.alter k fun _ => none

/-- The map that takes value `v?` at `k`, and has no entry there if `v?` is `none`. -/
def assign (m : OrdMap κ β) (k : κ) (v? : Option β) : OrdMap κ β := m.alter k fun _ => v?

/-- The entries of a list; of two entries with one key the later counts. -/
def ofList (l : List (κ × β)) : OrdMap κ β := l.foldl (fun m e => m.insert e.1 e.2) ∅

/-- The entries of both maps, values at a common key being combined by `f`. -/
def unionWith (f : β → β → β) (m n : OrdMap κ β) : OrdMap κ β :=
  n.toList.foldl (fun r e => r.alter e.1 fun v? => v?.merge f (some e.2)) m

/-- The entries at common keys, values being combined by `f`. -/
def interWith (f : β → γ → δ) (m : OrdMap κ β) (n : OrdMap κ γ) : OrdMap κ δ :=
  m.filterMap fun k v => (n.get? k).map (f v)

/-! ### Look-ups -/

omit [TransOrd κ] [LawfulEqOrd κ] in
@[simp] theorem get?_empty (k : κ) : (∅ : OrdMap κ β).get? k = none := rfl

omit [TransOrd κ] [LawfulEqOrd κ] in
@[simp] theorem toList_empty : (∅ : OrdMap κ β).toList = [] := rfl

omit [TransOrd κ] in
theorem get?_eq_some_iff {m : OrdMap κ β} {k : κ} {v : β} :
    m.get? k = some v ↔ (k, v) ∈ m.toList :=
  Entries.lookup_eq_some_iff m.increasing

theorem get?_alter {m : OrdMap κ β} {k a : κ} {f : Option β → Option β} :
    (m.alter k f).get? a = if compare a k = .eq then f (m.get? k) else m.get? a :=
  Entries.lookup_alter m.increasing

theorem get?_alter_self {m : OrdMap κ β} {k : κ} {f : Option β → Option β} :
    (m.alter k f).get? k = f (m.get? k) := by
  simp [get?_alter, ReflCmp.compare_self]

theorem get?_alter_of_ne {m : OrdMap κ β} {k a : κ} {f : Option β → Option β} (h : a ≠ k) :
    (m.alter k f).get? a = m.get? a := by
  rw [get?_alter, if_neg (mt LawfulEqCmp.compare_eq_iff_eq.1 h)]

theorem get?_insert [DecidableEq κ] {m : OrdMap κ β} {k a : κ} {v : β} :
    (m.insert k v).get? a = if a = k then some v else m.get? a := by
  simp [insert, get?_alter]

theorem get?_erase [DecidableEq κ] {m : OrdMap κ β} {k a : κ} :
    (m.erase k).get? a = if a = k then none else m.get? a := by
  simp [erase, get?_alter]

theorem get?_assign [DecidableEq κ] {m : OrdMap κ β} {k a : κ} {v? : Option β} :
    (m.assign k v?).get? a = if a = k then v? else m.get? a := by
  simp [assign, get?_alter]

/-- Maps with the same look-ups are equal. -/
theorem ext {m n : OrdMap κ β} (h : ∀ k, m.get? k = n.get? k) : m = n := by
  have hmem : ∀ e, e ∈ m.toList ↔ e ∈ n.toList := fun e => by
    rw [← get?_eq_some_iff (m := m), ← get?_eq_some_iff (m := n), h]
  obtain ⟨l, hl⟩ := m
  obtain ⟨l', hl'⟩ := n
  obtain rfl := Entries.eq_of_mem_iff hl hl' hmem
  rfl

omit [TransOrd κ] in
theorem get?_filterMap {f : κ → β → Option γ} {m : OrdMap κ β} {k : κ} :
    (m.filterMap f).get? k = (m.get? k).bind (f k) := by
  refine Option.ext fun w => ?_
  rw [get?_eq_some_iff, Option.bind_eq_some_iff]
  simp only [filterMap, Entries.filterMap, List.mem_filterMap, Option.map_eq_some_iff]
  constructor
  · rintro ⟨⟨j, v⟩, hv, w', hw, he⟩
    cases he
    exact ⟨v, get?_eq_some_iff.2 hv, hw⟩
  · rintro ⟨v, hv, hw⟩
    exact ⟨(k, v), get?_eq_some_iff.1 hv, w, hw, rfl⟩

omit [TransOrd κ] in
theorem get?_map {f : κ → β → γ} {m : OrdMap κ β} {k : κ} :
    (m.map f).get? k = (m.get? k).map (f k) := by
  rw [map, get?_filterMap]
  cases m.get? k <;> rfl

omit [TransOrd κ] in
theorem get?_filter {p : κ → β → Bool} {m : OrdMap κ β} {k : κ} :
    (m.filter p).get? k = (m.get? k).filter (p k) := by
  rw [filter, get?_filterMap]
  cases m.get? k <;> rfl

omit [TransOrd κ] in
theorem get?_interWith {f : β → γ → δ} {m : OrdMap κ β} {n : OrdMap κ γ} {k : κ} :
    (m.interWith f n).get? k = (m.get? k).bind fun v => (n.get? k).map (f v) := by
  rw [interWith, get?_filterMap]

omit [TransOrd κ] in
theorem all_iff {p : κ → β → Bool} {m : OrdMap κ β} :
    m.all p = true ↔ ∀ k v, m.get? k = some v → p k v = true := by
  simp only [all, List.all_eq_true, Prod.forall, get?_eq_some_iff]

theorem get?_unionWith {f : β → β → β} {m n : OrdMap κ β} {k : κ} :
    (m.unionWith f n).get? k = (m.get? k).merge f (n.get? k) := by
  obtain ⟨l, hl⟩ := n
  change get? (l.foldl _ m) k = (m.get? k).merge f (Entries.lookup k l)
  induction l generalizing m with
  | nil => simp [Entries.lookup]
  | cons e rest ih =>
    obtain ⟨j, w⟩ := e
    have hl' := List.pairwise_cons.1 hl
    rw [List.foldl_cons, ih hl'.2, Entries.lookup_cons]
    by_cases hk : compare k j = .eq
    · obtain rfl := LawfulEqCmp.compare_eq_iff_eq.1 hk
      have hrest : Entries.lookup k rest = none :=
        Entries.lookup_eq_none_of_lt fun e he => hl'.1 e he
      simp [hrest, get?_alter_self]
    · rw [get?_alter, if_neg hk, if_neg hk]

end Lawful

end OrdMap

end EvmAccess
