/-!
# Listings

Small pieces of text layout: listings in braces, and cutting a text at a separator.
-/

namespace EvmAccess

/-- The items between braces, separated by a comma and a blank. -/
def braced (items : List String) : String :=
  "\x7b" ++ ", ".intercalate items ++ "\x7d"

/-- The texts before and after the first `sep`, if there is one. -/
def cut? (sep : Char) : List Char → Option (List Char × List Char)
  | [] => none
  | c :: rest =>
    if c = sep then some ([], rest)
    else (cut? sep rest).map fun p => (c :: p.1, p.2)

/-- A text is cut exactly where it first shows the separator. -/
theorem cut?_eq_some_iff {sep : Char} {cs a b : List Char} :
    cut? sep cs = some (a, b) ↔ cs = a ++ sep :: b ∧ ¬ sep ∈ a := by
  induction cs generalizing a with
  | nil => simp [cut?]
  | cons c rest ih =>
    rw [cut?]
    split
    · rename_i hc
      subst hc
      simp only [Option.some.injEq, Prod.mk.injEq]
      constructor
      · rintro ⟨rfl, rfl⟩
        simp
      · rintro ⟨h, hn⟩
        cases a with
        | nil => simp_all
        | cons d a =>
          simp only [List.cons_append, List.cons.injEq] at h
          exact absurd (h.1 ▸ List.mem_cons_self) hn
    · rename_i hc
      simp only [Option.map_eq_some_iff, Prod.mk.injEq, Prod.exists]
      constructor
      · rintro ⟨a', b', h, rfl, rfl⟩
        obtain ⟨rfl, hn⟩ := ih.1 h
        refine ⟨rfl, fun hm => ?_⟩
        rcases List.mem_cons.1 hm with rfl | hm
        · exact hc rfl
        · exact hn hm
      · rintro ⟨h, hn⟩
        cases a with
        | nil =>
          simp only [List.nil_append, List.cons.injEq] at h
          exact absurd h.1 hc
        | cons d a =>
          simp only [List.cons_append, List.cons.injEq] at h
          refine ⟨a, b, ih.2 ⟨h.2, fun hm => hn (List.mem_cons_of_mem _ hm)⟩, ?_, rfl⟩
          rw [h.1]

theorem cut?_eq_none_iff {sep : Char} {cs : List Char} :
    cut? sep cs = none ↔ ¬ sep ∈ cs := by
  induction cs with
  | nil => simp [cut?]
  | cons c rest ih =>
    rw [cut?]
    split
    · rename_i hc
      simp [hc]
    · rename_i hc
      simp only [Option.map_eq_none_iff, ih, List.mem_cons, not_or]
      exact ⟨fun h => ⟨fun e => hc e.symm, h⟩, And.right⟩

end EvmAccess
