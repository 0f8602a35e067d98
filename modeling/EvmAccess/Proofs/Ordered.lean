import EvmAccess.Ordered.Map
import EvmAccess.Ordered.Set

/-!
# Tables of which all entries are alike

The tables of a state are changed an entry at a time. What all entries have in common is kept by
every change, as long as the new entry has it too.

## Main results

- `OrdMap.Every`: all entries have a property.
- `OrdMap.Every.alter`, `OrdMap.Every.map`: changing one entry, and all of them.
- `OrdMap.Every.unionWith`, `OrdMap.Every.interWith`: putting two tables together.
- `OrdMap.nodup_keys`: a key occurs once.
-/

namespace EvmAccess

open Std

/-- What each element of a list may add, one after the other, is there at the end if some element
adds it or it was there before. -/
theorem foldl_iff_exists {α β : Type} {f : β → α → β} {M : β → Prop} {A : α → Prop}
    (h : ∀ b a, M (f b a) ↔ M b ∨ A a) (l : List α) (b : β) :
    M (l.foldl f b) ↔ M b ∨ ∃ a ∈ l, A a := by
  induction l generalizing b with
  | nil => simp
  | cons a l ih => simp [ih, h, or_assoc]

variable {κ β : Type} [Ord κ]

theorem OrdSet.mem_foldl_union [TransOrd κ] [LawfulEqOrd κ] [DecidableEq κ] {f : β → OrdSet κ}
    {l : List β} {s : OrdSet κ} {a : κ} :
    a ∈ l.foldl (fun s b => s ∪ f b) s ↔ a ∈ s ∨ ∃ b ∈ l, a ∈ f b :=
  foldl_iff_exists (M := fun s => a ∈ s) (A := fun b => a ∈ f b) (fun _ _ => mem_union) l s

/-- A key without an entry gets one. -/
theorem Entries.length_alter_of_lookup_eq_none {f : Option β → Option β} {v : β} {k : κ}
    (hf : f none = some v) {l : List (κ × β)} (h : lookup k l = none) :
    (alter k f l).length = l.length + 1 := by
  induction l with
  | nil => simp [alter, hf]
  | cons e rest ih =>
    rw [lookup_cons] at h
    split at h
    · cases h
    · rename_i hne
      rw [alter]
      split
      · simp [hf]
      · rename_i heq
        exact absurd heq hne
      · simp [ih h]

namespace OrdMap

/-- All entries have the property. -/
def Every (P : κ → β → Prop) (m : OrdMap κ β) : Prop := ∀ k v, m.get? k = some v → P k v

variable {m : OrdMap κ β} {P : κ → β → Prop} {k : κ}

theorem every_empty : Every P (∅ : OrdMap κ β) := fun _ _ hv => by simp at hv

theorem Every.mono {Q : κ → β → Prop} (h : m.Every P) (hPQ : ∀ k v, P k v → Q k v) : m.Every Q :=
  fun k v hv => hPQ k v (h k v hv)

variable [LawfulEqOrd κ]

/-- A key occurs once. -/
theorem nodup_keys (m : OrdMap κ β) : m.keys.Nodup := by
  refine List.pairwise_map.2 (m.increasing.imp fun {e e'} hlt heq => ?_)
  rw [heq, show compare e'.1 e'.1 = .eq from ReflCmp.compare_self] at hlt
  cases hlt

theorem Every.filter {p : κ → β → Bool} (h : m.Every P) :
    (m.filter p).Every fun k v => P k v ∧ p k v = true := fun k v hv => by
  rw [get?_filter, Option.filter_eq_some_iff] at hv
  exact ⟨h k v hv.1, hv.2⟩

/-- Keeping the entries at some keys. -/
theorem get?_filter_key {p : κ → Bool} :
    (m.filter fun k _ => p k).get? k = if p k = true then m.get? k else none := by
  rw [get?_filter]
  cases m.get? k <;> cases p k <;> rfl

/-- Changing every entry. -/
theorem Every.map {γ : Type} {Q : κ → γ → Prop} {f : κ → β → γ} (h : m.Every P)
    (hf : ∀ k v, P k v → Q k (f k v)) : (m.map f).Every Q := fun k w hw => by
  rw [get?_map] at hw
  obtain ⟨v, hv, rfl⟩ := Option.map_eq_some_iff.1 hw
  exact hf k v (h k v hv)

/-- Combining the values at common keys. -/
theorem Every.interWith {f : β → β → β} {n : OrdMap κ β} (hm : m.Every P) (hn : n.Every P)
    (hf : ∀ k v w, P k v → P k w → P k (f v w)) : (m.interWith f n).Every P := fun k u hu => by
  rw [get?_interWith] at hu
  obtain ⟨v, hv, hu⟩ := Option.bind_eq_some_iff.1 hu
  obtain ⟨w, hw, rfl⟩ := Option.map_eq_some_iff.1 hu
  exact hf k v w (hm k v hv) (hn k w hw)

/-- Gathering the entries of two maps. -/
theorem Every.unionWith [TransOrd κ] {f : β → β → β} {n : OrdMap κ β} (hm : m.Every P)
    (hn : n.Every P) (hf : ∀ k v w, P k v → P k w → P k (f v w)) : (m.unionWith f n).Every P := fun k u hu => by
  rw [get?_unionWith] at hu
  cases hv : m.get? k with
  | none =>
    rw [hv, Option.merge_none_left] at hu
    exact hn k u hu
  | some v =>
    cases hw : n.get? k with
    | none =>
      rw [hv, hw, Option.merge_none_right] at hu
      exact Option.some.inj hu ▸ hm k v hv
    | some w =>
      rw [hv, hw, Option.merge_some_some] at hu
      exact Option.some.inj hu ▸ hf k v w (hm k v hv) (hn k w hw)

theorem size_insert_of_get?_eq_none [TransOrd κ] {v : β} (h : m.get? k = none) :
    (m.insert k v).size = m.size + 1 :=
  Entries.length_alter_of_lookup_eq_none rfl h

variable [TransOrd κ] [DecidableEq κ]

/-- Changing one entry, making it, or dropping it. -/
theorem Every.alter (h : m.Every P) {f : Option β → Option β}
    (hf : ∀ v, f (m.get? k) = some v → P k v) : (m.alter k f).Every P := fun j w hw => by
  by_cases hj : j = k
  · subst hj
    rw [get?_alter_self] at hw
    exact hf w hw
  · rw [get?_alter_of_ne hj] at hw
    exact h j w hw

/-- Replacing one entry, or dropping it. -/
theorem Every.assign (h : m.Every P) {v? : Option β} (hv : ∀ v, v? = some v → P k v) :
    (m.assign k v?).Every P := h.alter hv

theorem Every.insert (h : m.Every P) {v : β} (hv : P k v) : (m.insert k v).Every P :=
  h.assign fun _ hw => Option.some.inj hw ▸ hv

/-- Entering the elements of a list. -/
theorem Every.foldl_insert {α : Type} {l : List α} {key : α → κ} {value : α → β} (h : m.Every P)
    (hl : ∀ a ∈ l, P (key a) (value a)) :
    (l.foldl (fun m a => m.insert (key a) (value a)) m).Every P :=
  List.foldlRecOn l _ h fun _ hm a ha => Every.insert hm (hl a ha)

theorem Every.erase (h : m.Every P) : (m.erase k).Every P := h.assign nofun

theorem get?_foldl_insert {ks : List κ} {v : β} :
    (ks.foldl (fun m j => m.insert j v) m).get? k = if k ∈ ks then some v else m.get? k := by
  induction ks generalizing m with
  | nil => simp
  | cons j ks ih =>
    rw [List.foldl_cons, ih, get?_insert]
    by_cases hk : k ∈ ks <;> by_cases hj : k = j <;> simp [hk, hj]

end OrdMap

end EvmAccess
