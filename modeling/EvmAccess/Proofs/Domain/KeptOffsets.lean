import EvmAccess.Proofs.Domain.OffsetOrder

/-!
# Properties of all recorded offsets

The offsets of a state come from few sources: constants that are pushed, sums, and values of which
nothing is known. All else that an instruction does is to move sets of offsets, on the stack or
between the stack and the followed words, or to drop them. So a property that these sources have,
and that sums keep, is one of all offsets in every state, and it is enough to look at the sources.

## Main definitions

- `Target.Keeps`: a property of offsets that the sources have.
- `Offsets.Every`: all offsets of a state have the property, and only followed words are listed.

## Main results

- `Offsets.Every.next`, `Offsets.Every.join`: what instructions and joins keep.
-/

namespace EvmAccess

/-- A property of offsets that no constant, no sum and no unknown value lacks. -/
structure Target.Keeps (target : Target) (P : Offset → Prop) : Prop where
  /-- Unknown values have it. -/
  any : P .any
  /-- Constants that are followed have it. -/
  pushed : ∀ {value : Nat}, value < target.bound → value % target.granularity = 0 →
    P (.exact value)
  /-- Sums have it. -/
  plus : ∀ {a b : Offset}, P a → P b → P (a.plus target.bound b)

variable {target : Target} {P : Offset → Prop}

/-! ### Sets of offsets -/

namespace OffsetSet

variable {u v : OffsetSet}

/-- All offsets of the set have the property. -/
def Every (P : Offset → Prop) (v : OffsetSet) : Prop := ∀ o ∈ v, P o

theorem every_normal {items : OrdSet Offset} (hany : P .any) (h : ∀ o ∈ items, P o) :
    (normal items).Every P := by
  intro o ho
  rw [mem_normal] at ho
  split at ho
  · exact ho ▸ hany
  · exact h o ho

theorem every_top (hany : P .any) : top.Every P := fun _ ho => mem_top.1 ho ▸ hany

theorem every_abstract (hP : target.Keeps P) (value? : Option Nat) :
    (target.abstract value?).Every P := by
  cases value? with
  | none => exact every_top hP.any
  | some value =>
    rw [Target.abstract]
    split
    · rename_i h
      exact fun _ ho => mem_singleton.1 ho ▸ hP.pushed h.1 h.2
    · exact every_top hP.any

theorem Every.plus (hu : u.Every P) (hv : v.Every P) (hP : target.Keeps P) :
    (plus target.bound u v).Every P := by
  refine every_normal hP.any fun o ho => ?_
  obtain ⟨a, ha, ho⟩ := List.mem_flatMap.1 (OrdSet.mem_ofList.1 ho)
  obtain ⟨b, hb, rfl⟩ := List.mem_map.1 ho
  exact hP.plus (hu a ha) (hv b hb)

theorem Every.join (hu : u.Every P) (hv : v.Every P) (hany : P .any) : (u.join v).Every P :=
  every_normal hany fun o ho => (OrdSet.mem_union.1 ho).elim (hu o) (hv o)

theorem every_getD {v? : Option OffsetSet} (hany : P .any) (h : ∀ v, v? = some v → v.Every P) :
    (v?.getD .top).Every P := by
  cases v? with
  | none => exact every_top hany
  | some v => exact h v rfl

end OffsetSet

/-! ### States -/

namespace Offsets

variable {s t : OffsetState} {i : Instruction}

/-- All offsets on the stack and in memory have the property, and only followed words are listed. -/
structure Every (P : Offset → Prop) (s : OffsetState) : Prop where
  stack : s.stack.Every fun _ v => v.Every P
  words : s.words.Every fun a v => a ∈ followedWords ∧ v.Every P

theorem every_initial (target : Target) : Every P (.initial target) :=
  ⟨OrdMap.every_empty, OrdMap.every_empty⟩

theorem Every.fromTop (h : Every P s) (hany : P .any) (depth : Nat) :
    ((s.fromTop? depth).getD .top).Every P := by
  refine OffsetSet.every_getD hany fun v hv => ?_
  obtain ⟨p, -, hv⟩ := Option.bind_eq_some_iff.1 hv
  exact h.stack p v hv

/-- What an instruction puts on the stack has the property. -/
theorem Every.nextStack (h : Every P s) (hP : s.target.Keeps P) :
    (nextStack i s).Every fun _ v => v.Every P := by
  have hstack := h.stack
  obtain ⟨o, operand⟩ := i
  rcases o.isPlain_or with hplain | ⟨width, rfl⟩ | ⟨below, rfl⟩ | ⟨below, rfl⟩ | rfl | rfl | rfl
  · intro p v hv
    rw [nextStack_of_isPlain hplain, get?_produceUnknown] at hv
    split at hv
    · exact Option.some.inj hv ▸ OffsetSet.every_top hP.any
    · exact hstack p v hv
  · exact hstack.insert (OffsetSet.every_abstract hP _)
  · simp only [Offsets.nextStack]
    split
    · rename_i u hu
      obtain ⟨q, -, hu⟩ := Option.bind_eq_some_iff.1 hu
      exact hstack.insert (hstack q u hu)
    · exact hstack
  · simp only [Offsets.nextStack]
    split
    · exact (hstack.assign (hstack _)).assign (hstack _)
    · exact hstack.erase
    · exact hstack
  · simp only [Offsets.nextStack]
    split
    · exact hstack.insert ((h.fromTop hP.any 0).plus (h.fromTop hP.any 1) hP)
    · exact hstack
  · simp only [Offsets.nextStack]
    split
    · refine hstack.insert (OffsetSet.every_getD hP.any fun u hu => ?_)
      obtain ⟨a, -, hu⟩ := Option.bind_eq_some_iff.1 hu
      exact (h.words a u hu).2
    · exact hstack
  · exact hstack

/-- What an instruction leaves in memory has the property. -/
theorem Every.nextWords (h : Every P s) (hany : P .any) :
    (nextWords i s).Every fun a v => a ∈ followedWords ∧ v.Every P := by
  by_cases hi : i.opcode = .mstore
  · simp only [Offsets.nextWords, hi]
    split
    · split
      · rename_i ha
        exact h.words.insert ⟨ha, h.fromTop hany 1⟩
      · exact OrdMap.every_empty
    · exact OrdMap.every_empty
  · rw [nextWords_of_ne_mstore hi]
    split
    · exact OrdMap.every_empty
    · exact h.words

/-- **An instruction keeps the property.** -/
theorem Every.next (h : Every P s) (hP : s.target.Keeps P) (i : Instruction) :
    Every P (next i s) where
  stack p v hv := ((h.nextStack hP).filter p v hv).1
  words := h.nextWords hP.any

/-- **A join keeps the property.** -/
theorem Every.join (hs : Every P s) (ht : Every P t) (hany : P .any) : Every P (s.join t) where
  stack := hs.stack.unionWith ht.stack fun _ _ _ hv hw => hv.join hw hany
  words := hs.words.interWith ht.words fun _ _ _ hv hw => ⟨hv.1, hv.2.join hw.2 hany⟩

end Offsets

end EvmAccess
