import EvmAccess.Proofs.Access.Ledger
import EvmAccess.Proofs.Domain.OffsetOrder

/-!
# The constants domain is monotone on full states

A state is *full* if it lists all positions of its stack, and no others. Full states of the same
height list the same positions, and then the step function is monotone: what is known less precisely
before an instruction is known no more precisely after it, and the keys that are recorded less
precisely cover those that are recorded more precisely.

Loads and stores of memory words are where this could fail, since they ask for single constants. But
a set that covers another is a single constant only if the other one is the same constant. So if the
larger state knows the address, both do; and if only the smaller one does, the larger one forgets
all words, and is only the larger for it.

No instruction can spoil the order, not even one that does not find its operands. What such an
instruction can spoil is fullness: a copy or an exchange that reaches below the bottom of the stack
leaves a hole at the top.

## Main results

- `OffsetSet.plus_leq_plus`: sums are monotone.
- `OffsetSet.constant?_of_leq`: below a single constant there is only that constant.
- `Offsets.Refines.next`, `Offsets.full_next_iff`: order and fullness after an instruction.
- `Offsets.step_monotone_of_full`: one step of the domain on full states.
-/

namespace EvmAccess

/-! ### Sets of offsets -/

namespace OffsetSet

variable {s s' t t' : OffsetSet}

theorem leq_top (s : OffsetSet) : s.leq top = true :=
  leq_iff.2 fun _ _ => admits_iff.2 (Or.inl (mem_top.2 rfl))

/-- **Sums are monotone.** -/
theorem plus_leq_plus {bound : Nat} (hs : s.leq s' = true) (ht : t.leq t' = true) :
    (plus bound s t).leq (plus bound s' t') = true := by
  refine leq_iff.2 fun o ho => ?_
  obtain ⟨a, ha, b, hb, hsum⟩ := admits_plus_iff.1 (admits_of_mem ho)
  obtain ⟨a', ha'⟩ := s'.exists_mem
  obtain ⟨b', hb'⟩ := t'.exists_mem
  -- a side that knows nothing makes the whole sum unknown
  rcases admits_iff.1 (leq_iff.1 hs a ha) with hany | ha
  · exact admits_plus_iff.2 ⟨.any, hany, b', hb', Or.inl rfl⟩
  rcases admits_iff.1 (leq_iff.1 ht b hb) with hany | hb
  · exact admits_plus_iff.2 ⟨a', ha', .any, hany, Or.inl (by cases a' <;> rfl)⟩
  exact admits_plus_iff.2 ⟨a, ha, b, hb, hsum⟩

/-- Below a single constant there is only that constant. -/
theorem constant?_of_leq {value : Nat} (h : s.leq t = true) (ht : t.constant? = some value) :
    s.constant? = some value := by
  obtain rfl := constant?_eq_some_iff.1 ht
  refine constant?_eq_some_iff.2 (eq_singleton_iff.2 fun o ho => ?_)
  rcases admits_iff.1 (leq_iff.1 h o ho) with hany | ho
  · cases mem_singleton.1 hany
  · exact mem_singleton.1 ho

/-- Both values are listed and the second covers the first, or neither is listed. -/
def OptLeq : Option OffsetSet → Option OffsetSet → Prop := Option.Rel fun v w => v.leq w = true

namespace OptLeq

variable {v w : OffsetSet} {v? w? : Option OffsetSet}

theorem of_leq (h : v.leq w = true) : OptLeq (some v) (some w) := .some h

theorem exists_right (h : OptLeq v? w?) (hv : v? = some v) :
    ∃ w, w? = some w ∧ v.leq w = true := by
  cases h with
  | some h => exact ⟨_, rfl, Option.some.inj hv ▸ h⟩
  | none => cases hv

theorem exists_left (h : OptLeq v? w?) (hw : w? = some w) :
    ∃ v, v? = some v ∧ v.leq w = true := by
  cases h with
  | some h => exact ⟨_, rfl, Option.some.inj hw ▸ h⟩
  | none => cases hw

theorem getD_top (h : OptLeq v? w?) : (v?.getD top).leq (w?.getD top) = true := by
  cases h with
  | some h => exact h
  | none => exact leq_top top

end OptLeq

/-! ### Stacks -/

/-- The stacks list the same positions, and the second covers the first. -/
def StackLeq (A B : OrdMap Nat OffsetSet) : Prop := ∀ p, OptLeq (A.get? p) (B.get? p)

namespace StackLeq

variable {A B : OrdMap Nat OffsetSet} {v w : OffsetSet} {v? w? : Option OffsetSet}

theorem assign (h : StackLeq A B) (k : Nat) (hvw : OptLeq v? w?) :
    StackLeq (A.assign k v?) (B.assign k w?) := by
  intro p
  rw [OrdMap.get?_assign, OrdMap.get?_assign]
  split
  · exact hvw
  · exact h p

theorem insert (h : StackLeq A B) (k : Nat) (hvw : v.leq w = true) :
    StackLeq (A.insert k v) (B.insert k w) :=
  h.assign k (.of_leq hvw)

theorem erase (h : StackLeq A B) (k : Nat) : StackLeq (A.erase k) (B.erase k) :=
  h.assign k .none

theorem filter (h : StackLeq A B) (height : Nat) :
    StackLeq (A.filter fun p _ => p < height) (B.filter fun p _ => p < height) := by
  intro p
  rw [OrdMap.get?_filter_key, OrdMap.get?_filter_key]
  split
  · exact h p
  · exact .none

end StackLeq

end OffsetSet

/-! ### Full states, and ledgers up to keys -/

/-- The access, with the key forgotten if it is to storage. -/
def Access.forgetKey : Access → Access
  | .read (.key _) => .read (.key .any)
  | .write (.key _) => .write (.key .any)
  | a => a

/-- What the first ledger has, the second has too, or it has the same with an unknown key. -/
def Ledger.KeysWithin (l l' : Ledger) : Prop :=
  ∀ p a, l.Has p a → l'.Has p a ∨ l'.Has p a.forgetKey

/-- The state lists all positions of its stack, and no others. -/
def OffsetState.Full (s : OffsetState) : Prop :=
  ∀ p, (s.stack.get? p).isSome = true ↔ p < s.height

namespace Offsets

open OffsetSet

variable {i : Instruction} {s t : OffsetState}

/-! ### Order -/

/-- The states list the same positions, and the second covers the first. -/
structure Refines (s t : OffsetState) : Prop where
  target : s.target = t.target
  height : s.height = t.height
  stack : StackLeq s.stack t.stack
  words : ∀ a w, t.words.get? a = some w → ∃ v, s.words.get? a = some v ∧ v.leq w = true

namespace Refines

theorem leq (h : Refines s t) : domain.leq s t = true :=
  leq_iff.2 ⟨fun p _ hv => (h.stack p).exists_right hv, h.words⟩

theorem fromTop (h : Refines s t) (depth : Nat) : OptLeq (s.fromTop? depth) (t.fromTop? depth) := by
  rw [OffsetState.fromTop?, OffsetState.fromTop?, OffsetState.value?, OffsetState.value?, h.height]
  cases stackItem? t.height depth with
  | none => exact .none
  | some p => exact h.stack p

/-- An address that the larger state knows, the smaller one knows. -/
theorem address (h : Refines s t) {a : Nat} (ha : address? i t = some a) :
    address? i s = some a := by
  rw [address?, Option.or_eq_some_iff] at ha ⊢
  refine ha.imp_right fun ⟨hi, ha⟩ => ⟨hi, ?_⟩
  obtain ⟨w, hw, hconst⟩ := Option.bind_eq_some_iff.1 ha
  obtain ⟨v, hv, hle⟩ := (h.fromTop 0).exists_left hw
  rw [hv]
  exact constant?_of_leq hle hconst

/-- What the larger state loads covers what the smaller one does. -/
theorem load (h : Refines s t) : (((address? i s).bind s.words.get?).getD .top).leq
    (((address? i t).bind t.words.get?).getD .top) = true := by
  cases hload : (address? i t).bind t.words.get? with
  | none => exact leq_top _
  | some w =>
    obtain ⟨a, ha, hw⟩ := Option.bind_eq_some_iff.1 hload
    obtain ⟨v, hv, hle⟩ := h.words a w hw
    rw [h.address ha, Option.bind_some, hv]
    exact hle

theorem nextStack (h : Refines s t) : StackLeq (nextStack i s) (nextStack i t) := by
  rcases i.opcode.isPlain_or with
    hplain | ⟨width, hi⟩ | ⟨below, hi⟩ | ⟨below, hi⟩ | hi | hi | hi
  · intro p
    rw [nextStack_of_isPlain hplain, nextStack_of_isPlain hplain, get?_produceUnknown,
      get?_produceUnknown, h.height]
    split
    · exact .of_leq (leq_top _)
    · exact h.stack p
  all_goals simp only [Offsets.nextStack, hi, h.height, h.target]
  · exact h.stack.insert _ (lawful_order.refl _)
  · -- both states list the item to be copied, or neither does
    have hcopy := h.fromTop below
    generalize s.fromTop? below = v?, t.fromTop? below = w? at hcopy ⊢
    cases hcopy with
    | some hle => exact h.stack.insert _ hle
    | none => exact h.stack
  · split
    · exact (h.stack.assign _ (h.stack _)).assign _ (h.stack _)
    · exact h.stack.erase _
    · exact h.stack
  · split
    · exact h.stack.insert _ (plus_leq_plus (h.fromTop 0).getD_top (h.fromTop 1).getD_top)
    · exact h.stack
  · split
    · exact h.stack.insert _ h.load
    · exact h.stack
  · exact h.stack

/-- A store at an address that only the smaller state knows leaves the larger one without words. -/
theorem nextWords (h : Refines s t) (a : Nat) (w : OffsetSet)
    (hw : (nextWords i t).get? a = some w) :
    ∃ v, (nextWords i s).get? a = some v ∧ v.leq w = true := by
  by_cases hi : i.opcode = .mstore
  · simp only [Offsets.nextWords, hi] at hw ⊢
    cases hb : address? i t with
    | none => simp [hb] at hw
    | some b =>
      simp only [hb] at hw
      simp only [h.address hb]
      split at hw
      · rename_i hfollowed
        rw [if_pos hfollowed, OrdMap.get?_insert]
        rw [OrdMap.get?_insert] at hw
        split
        · rename_i hab
          rw [if_pos hab] at hw
          exact ⟨_, rfl, Option.some.inj hw ▸ (h.fromTop 1).getD_top⟩
        · rename_i hab
          rw [if_neg hab] at hw
          exact h.words a w hw
      · cases hw
  · rw [nextWords_of_ne_mstore hi] at hw ⊢
    split at hw
    · cases hw
    · rename_i hscribbles
      rw [if_neg hscribbles]
      exact h.words a w hw

theorem next (h : Refines s t) (i : Instruction) : Refines (next i s) (next i t) where
  target := h.target
  height := by rw [Offsets.next, Offsets.next, h.height]
  stack := by
    rw [Offsets.next, Offsets.next, h.height]
    exact h.nextStack.filter _
  words := h.nextWords

end Refines

/-! ### Fullness -/

theorem fromTop?_of_full (hs : s.Full) (depth : Nat) (h : depth < s.height) :
    ∃ v, s.fromTop? depth = some v := by
  rw [OffsetState.fromTop?, stackItem?_of_lt h]
  exact Option.isSome_iff_exists.1 ((hs _).2 (by omega))

theorem refines_of_full (hs : s.Full) (ht : t.Full) (htarget : s.target = t.target)
    (hheight : s.height = t.height) (hle : domain.leq s t = true) : Refines s t where
  target := htarget
  height := hheight
  stack p := by
    cases hv : s.stack.get? p with
    | some v =>
      obtain ⟨w, hw, hvw⟩ := (leq_iff.1 hle).1 p v hv
      rw [hw]
      exact .of_leq hvw
    | none =>
      have hp : ¬ p < t.height := by
        rw [← hheight, ← hs p, hv]
        decide
      rw [← ht p, Bool.not_eq_true, Option.isSome_eq_false_iff, Option.isNone_iff_eq_none] at hp
      rw [hp]
      exact .none
  words := (leq_iff.1 hle).2

/-- The next state is full if the stack lists all positions of its new height. -/
theorem full_next_iff_forall : (next i s).Full ↔
    ∀ p < i.opcode.heightAfter s.height, ((nextStack i s).get? p).isSome = true := by
  refine forall_congr' fun p => ?_
  rw [next, OrdMap.get?_filter_key]
  by_cases hp : p < i.opcode.heightAfter s.height <;> simp [hp]

/-- An assignment lists its position, if there is something to assign. -/
theorem isSome_get?_assign {m : OrdMap Nat OffsetSet} {k p : Nat} {v? : Option OffsetSet}
    (hv : v?.isSome = true) (h : p ≠ k → (m.get? p).isSome = true) :
    ((m.assign k v?).get? p).isSome = true := by
  rw [OrdMap.get?_assign]
  split
  · exact hv
  · rename_i hp
    exact h hp

theorem isSome_get?_insert {m : OrdMap Nat OffsetSet} {k p : Nat} {v : OffsetSet}
    (h : p ≠ k → (m.get? p).isSome = true) : ((m.insert k v).get? p).isSome = true :=
  isSome_get?_assign rfl h

/-- An instruction that finds its operands leaves no hole. -/
theorem full_next (hs : s.Full) (h : i.opcode.pops ≤ s.height) : (next i s).Full := by
  refine full_next_iff_forall.2 fun p hp => ?_
  rw [Opcode.heightAfter_eq h] at hp
  rcases i.opcode.isPlain_or with
    hplain | ⟨width, hi⟩ | ⟨below, hi⟩ | ⟨below, hi⟩ | hi | hi | hi
  · rw [nextStack_of_isPlain hplain, get?_produceUnknown]
    split
    · rfl
    · rename_i hproduced
      exact (hs p).2 (by rw [Opcode.base] at hp hproduced; omega)
  all_goals
    simp only [hi, Opcode.base, Opcode.pops, Opcode.pushes, Opcode.stackEffect] at h hp
    simp only [nextStack, hi]
  · exact isSome_get?_insert fun hne => (hs p).2 (by omega)
  · obtain ⟨v, hv⟩ := fromTop?_of_full hs below (by omega)
    rw [hv]
    exact isSome_get?_insert fun hne => (hs p).2 (by omega)
  · have htop : stackItem? s.height 0 = some (s.height - 1) := stackItem?_of_lt (by omega)
    rw [htop, stackItem?_of_lt (show below + 1 < s.height by omega)]
    exact isSome_get?_assign ((hs _).2 (by omega)) fun _ =>
      isSome_get?_assign ((hs _).2 (by omega)) fun _ => (hs p).2 (by omega)
  · rw [stackItem?_of_lt (by omega)]
    exact isSome_get?_insert fun hne => (hs p).2 (by omega)
  · rw [stackItem?_of_lt (by omega)]
    exact isSome_get?_insert fun hne => (hs p).2 (by omega)
  · exact (hs p).2 (by omega)

/-- A copy or an exchange that reaches below the bottom leaves a hole at the top. -/
theorem not_full_next (hs : s.Full) (h : s.height < i.opcode.pops)
    (hpos : 0 < i.opcode.heightAfter s.height) : ¬ (next i s).Full := by
  intro hfull
  have hlisted := full_next_iff_forall.1 hfull (i.opcode.heightAfter s.height - 1) (by omega)
  rcases Opcode.heightAfter_eq_zero_or h with hzero | ⟨below, hi⟩ | ⟨below, hi⟩
  · omega
  · -- there is nothing to copy, so the new top is missing
    simp only [hi, Opcode.heightAfter, Opcode.pops, Opcode.pushes, Opcode.stackEffect] at h hlisted
    have habsent : s.fromTop? below = none := by
      rw [OffsetState.fromTop?, stackItem?_of_le (by omega)]
      rfl
    simp only [nextStack, hi, habsent] at hlisted
    have := (hs _).1 hlisted
    omega
  · -- there is nothing to exchange with, so the top is given up
    simp only [hi, Opcode.heightAfter, Opcode.pops, Opcode.pushes, Opcode.stackEffect]
      at h hpos hlisted
    simp only [nextStack, hi] at hlisted
    rw [stackItem?_of_lt (show 0 < s.height by omega), stackItem?_of_le (by omega)] at hlisted
    simp only [OrdMap.get?_erase] at hlisted
    rw [if_pos (by omega)] at hlisted
    cases hlisted

/-- **Fullness after an instruction.** -/
theorem full_next_iff (hs : s.Full) : (next i s).Full ↔
    i.opcode.pops ≤ s.height ∨ i.opcode.heightAfter s.height = 0 := by
  constructor
  · intro hfull
    rcases Nat.lt_or_ge s.height i.opcode.pops with hlow | h
    · exact Or.inr (Nat.eq_zero_of_not_pos fun hpos => not_full_next hs hlow hpos hfull)
    · exact Or.inl h
  · rintro (h | h)
    · exact full_next hs h
    · exact full_next_iff_forall.2 fun p hp => absurd hp (by omega)

/-! ### Keys -/

/-- The larger state makes the accesses of the smaller one, or makes them to unknown keys. -/
theorem Refines.accesses (h : Refines s t) {a : Access} (ha : a ∈ accesses i s) :
    a ∈ accesses i t ∨ a.forgetKey ∈ accesses i t := by
  obtain ⟨o, ho, haccess⟩ := mem_accesses.1 ha
  rcases admits_iff.1 (OffsetSet.leq_iff.1 (h.fromTop 0).getD_top o ho) with hany | ho
  · refine Or.inr (mem_accesses.2 ⟨.any, hany, haccess.imp ?_ ?_⟩)
    · rintro ⟨hi, rfl⟩
      exact ⟨hi, rfl⟩
    · rintro ⟨hi, rfl⟩
      exact ⟨hi, rfl⟩
  · exact Or.inl (mem_accesses.2 ⟨o, ho, haccess⟩)

theorem Refines.noteAll (h : Refines s t) (l : Ledger) (p : CodePoint) :
    (l.noteAll p (Offsets.accesses i s)).KeysWithin (l.noteAll p (Offsets.accesses i t)) := by
  intro q a ha
  rcases Ledger.has_noteAll_iff.1 ha with ha | ⟨ha, hq⟩
  · exact Or.inl (ha.noteAll p _)
  · refine (h.accesses ha).imp (fun hmem => Ledger.has_noteAll_iff.2 (Or.inr ⟨hmem, hq⟩))
      fun hmem => Ledger.has_noteAll_iff.2 (Or.inr ⟨hmem, hq.imp_right ?_⟩)
    rintro rfl
    rfl

/-! ### Steps -/

/-- **Steps are monotone on full states.** From full states with the same target and the same
height, of which the second covers the first, every instruction leads to states of the same height
of which the second covers the first, and each key that is recorded on the way is recorded from the
second state too, or an unknown key is. Both states are full again if the instruction finds its
operands; and if it does not, they are full only because nothing is left on the stack. -/
theorem step_monotone_of_full {p : CodePoint} {c : Option Ledger} (hs : s.Full) (ht : t.Full)
    (htarget : s.target = t.target) (hheight : s.height = t.height)
    (hle : domain.leq s t = true) :
    let s' := (domain.step i p s c).1
    let t' := (domain.step i p t c).1
    domain.leq s' t' = true ∧ s'.target = t'.target ∧ s'.height = t'.height ∧
      (s'.Full ↔ i.opcode.pops ≤ s.height ∨ i.opcode.heightAfter s.height = 0) ∧
      (t'.Full ↔ i.opcode.pops ≤ s.height ∨ i.opcode.heightAfter s.height = 0) ∧
      ∀ l, (domain.step i p s c).2 = some l →
        ∃ l', (domain.step i p t c).2 = some l' ∧ l.KeysWithin l' := by
  have h := refines_of_full hs ht htarget hheight hle
  have h' := h.next i
  refine ⟨h'.leq, h'.target, h'.height, full_next_iff hs, hheight ▸ full_next_iff ht, ?_⟩
  intro l hl
  obtain ⟨l₀, rfl, rfl⟩ := Option.map_eq_some_iff.1 hl
  exact ⟨_, rfl, h.noteAll l₀ p⟩

/-- A value below an address of which the given offsets are possible, and one known word. -/
def storing (address : OffsetSet) : OffsetState where
  target := .memory
  height := 2
  stack := ((∅ : OrdMap Nat OffsetSet).insert 0 (.singleton (.exact 96))).insert 1 address
  words := (∅ : OrdMap Nat OffsetSet).insert 0 (.singleton (.exact 32))

theorem full_storing (address : OffsetSet) : (storing address).Full := by
  intro p
  simp only [storing, OrdMap.get?_insert, OrdMap.get?_empty]
  split
  · simp only [Option.isSome_some, true_iff]
    omega
  · split
    · simp only [Option.isSome_some, true_iff]
      omega
    · simp only [Option.isSome_none, Bool.false_eq_true, false_iff]
      omega

/-- A store that updates a word in the smaller state, and makes the larger one forget all words. -/
theorem monotone_storing :
    let i : Instruction := ⟨.mstore, none⟩
    let s := storing (.singleton (.exact 64))
    let t := storing ((OffsetSet.singleton (.exact 64)).join (.singleton (.exact 32)))
    (next i s).words.get? 64 = some (.singleton (.exact 96)) ∧ (next i t).words.isEmpty = true ∧
      domain.leq (next i s) (next i t) = true ∧ (next i s).Full ∧ (next i t).Full := by
  have h := step_monotone_of_full (i := ⟨.mstore, none⟩) (p := ⟨⟨0, none⟩, 0⟩) (c := none)
    (full_storing (.singleton (.exact 64)))
    (full_storing ((OffsetSet.singleton (.exact 64)).join (.singleton (.exact 32))))
    rfl rfl (by decide)
  obtain ⟨hle, -, -, hs, ht, -⟩ := h
  exact ⟨by decide, by decide, hle, hs.2 (Or.inl (by decide)), ht.2 (Or.inl (by decide))⟩

end Offsets

end EvmAccess
