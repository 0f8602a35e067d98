import EvmAccess.Pipeline
import EvmAccess.Proofs.Domain.OffsetOrder
import EvmAccess.Proofs.Evm.CodeGraph
import EvmAccess.Proofs.Evm.Machine
import EvmAccess.Proofs.Flow.Invariant
import EvmAccess.Proofs.Flow.PostFixpoint

/-!
# What the constants domain says about runs

The states that the engine records for the constants domain describe every run of the program:
whenever a run is at some point, the recorded state has its height, lists all of its stack
positions with sets that allow the words there, and lists only memory words that are as it says.

There is one reservation. An offset `beyond` stands for a number above the bound, and sums with such
a number stay `beyond`; but additions of the machine wrap around, so that a sum may come out as any
small number. Hence `beyond` can be relied on only as long as no addition has wrapped around, and a
loop that doubles a number shows that the reservation is needed.

## Main results

- `OffsetState.Describes.next`: one instruction.
- `Offsets.describes_of_reaches`: whole runs.
- `Offsets.describes_doubling`: the reservation is needed.
-/

namespace EvmAccess

/-! ### The words that an offset stands for -/

/-- Whether an offset stands for a word; `wrapped` says whether an addition has wrapped around. -/
def Offset.Means (bound : Nat) (wrapped : Bool) (w : Word) : Offset → Prop
  | .exact value => w.toNat = value
  | .beyond => wrapped = false → bound < w.toNat
  | .any => True

namespace Offset

variable {bound : Nat} {wrapped : Bool} {x y : Word} {a b : Offset}

instance : Decidable (a.Means bound wrapped x) :=
  match a with
  | .exact value => inferInstanceAs (Decidable (x.toNat = value))
  | .beyond => inferInstanceAs (Decidable (wrapped = false → bound < x.toNat))
  | .any => inferInstanceAs (Decidable True)

theorem Means.or (h : a.Means bound wrapped x) (wraps : Bool) :
    a.Means bound (wrapped || wraps) x := by
  cases a with
  | exact value => exact h
  | beyond => exact fun hw => h (Bool.or_eq_false_iff.1 hw).1
  | any => trivial

/-- A sum of offsets stands for the sum of the words, with `beyond` only if it does not wrap
around. -/
theorem Means.plus (hbound : bound < 2 ^ 256) (ha : a.Means bound wrapped x)
    (hb : b.Means bound wrapped y) (hsum : wrapped = false → x.toNat + y.toNat < 2 ^ 256) :
    (a.plus bound b).Means bound wrapped (x + y) := by
  have hadd : wrapped = false → (x + y).toNat = x.toNat + y.toNat := fun hw => by
    rw [BitVec.toNat_add, Nat.mod_eq_of_lt (hsum hw)]
  cases a with
  | any => trivial
  | beyond =>
    cases b with
    | any => trivial
    | exact _ | beyond =>
      intro hw
      have hx : bound < x.toNat := ha hw
      rw [hadd hw]
      omega
  | exact u =>
    obtain rfl : x.toNat = u := ha
    cases b with
    | any => trivial
    | beyond =>
      intro hw
      have hy : bound < y.toNat := hb hw
      rw [hadd hw]
      omega
    | exact v =>
      obtain rfl : y.toNat = v := hb
      rw [Offset.plus]
      split
      · rename_i hle
        exact (BitVec.toNat_add x y).trans (Nat.mod_eq_of_lt (by omega))
      · rename_i hgt
        intro hw
        rw [hadd hw]
        omega

end Offset

/-- Whether a set allows a word. -/
def OffsetSet.Means (s : OffsetSet) (bound : Nat) (wrapped : Bool) (w : Word) : Prop :=
  ∃ o ∈ s, o.Means bound wrapped w

namespace OffsetSet

variable {bound : Nat} {wrapped : Bool} {x y : Word} {s t : OffsetSet} {o : Offset}

instance : Decidable (s.Means bound wrapped x) :=
  inferInstanceAs (Decidable (∃ o ∈ s.toList, o.Means bound wrapped x))

theorem means_of_admits (h : s.admits o = true) (ho : o.Means bound wrapped x) :
    s.Means bound wrapped x := by
  rcases admits_iff.1 h with hany | hmem
  · exact ⟨.any, hany, trivial⟩
  · exact ⟨o, hmem, ho⟩

theorem means_top : top.Means bound wrapped x := ⟨.any, mem_top.2 rfl, trivial⟩

theorem Means.or (h : s.Means bound wrapped x) (wraps : Bool) :
    s.Means bound (wrapped || wraps) x := by
  obtain ⟨o, ho, hx⟩ := h
  exact ⟨o, ho, hx.or wraps⟩

theorem Means.of_leq (h : s.Means bound wrapped x) (hle : s.leq t = true) :
    t.Means bound wrapped x := by
  obtain ⟨o, ho, hx⟩ := h
  exact means_of_admits (leq_iff.1 hle o ho) hx

theorem Means.plus (hbound : bound < 2 ^ 256) (hs : s.Means bound wrapped x)
    (ht : t.Means bound wrapped y) (hsum : wrapped = false → x.toNat + y.toNat < 2 ^ 256) :
    (OffsetSet.plus bound s t).Means bound wrapped (x + y) := by
  obtain ⟨a, ha, hx⟩ := hs
  obtain ⟨b, hb, hy⟩ := ht
  exact means_of_admits (admits_plus ha hb) (hx.plus hbound hy hsum)

/-- A single constant is the word. -/
theorem Means.constant (h : s.Means bound wrapped x) {value : Nat}
    (hc : s.constant? = some value) : x.toNat = value := by
  obtain rfl := constant?_eq_some_iff.1 hc
  obtain ⟨o, ho, hx⟩ := h
  obtain rfl := mem_singleton.1 ho
  exact hx

/-- What is known of a pushed value holds of it. -/
theorem means_abstract (target : Target) {value? : Option Nat}
    (h : ∀ value, value? = some value → x.toNat = value) :
    (target.abstract value?).Means bound wrapped x := by
  cases value? with
  | none => exact means_top
  | some value =>
    rw [Target.abstract]
    split
    · exact ⟨.exact value, OrdSet.mem_singleton.2 rfl, h value rfl⟩
    · exact means_top

end OffsetSet

theorem Target.bound_lt (t : Target) : t.bound < 2 ^ 256 := by cases t <;> decide

/-! ### Stacks -/

namespace Offsets

variable {stack stack' : OrdMap Nat OffsetSet} {bound : Nat} {wrapped : Bool}
  {items more : List Word}

/-- Every item, counted from the bottom, is listed with a set that allows it. -/
def Fits (stack : OrdMap Nat OffsetSet) (bound : Nat) (wrapped : Bool) (items : List Word) :
    Prop :=
  ∀ p w, items[p]? = some w → ∃ v, stack.get? p = some v ∧ v.Means bound wrapped w

theorem Fits.or (h : Fits stack bound wrapped items) (wraps : Bool) :
    Fits stack bound (wrapped || wraps) items := by
  intro p w hw
  obtain ⟨v, hv, hm⟩ := h p w hw
  exact ⟨v, hv, hm.or wraps⟩

/-- The items at the bottom fit after the others are gone. -/
theorem Fits.of_append (h : Fits stack bound wrapped (items ++ more)) :
    Fits stack bound wrapped items := by
  intro p w hw
  obtain ⟨hp, -⟩ := List.getElem?_eq_some_iff.1 hw
  exact h p w (by rw [List.getElem?_append_left hp, hw])

/-- Items on top fit if they are listed, and those below if nothing was changed there. -/
theorem Fits.append (h : Fits stack bound wrapped items)
    (hkeep : ∀ p, p < items.length → stack'.get? p = stack.get? p)
    (hnew : ∀ j w, more[j]? = some w →
      ∃ v, stack'.get? (items.length + j) = some v ∧ v.Means bound wrapped w) :
    Fits stack' bound wrapped (items ++ more) := by
  intro p w hw
  by_cases hp : p < items.length
  · rw [List.getElem?_append_left hp] at hw
    rw [hkeep p hp]
    exact h p w hw
  · rw [List.getElem?_append_right (by omega)] at hw
    have := hnew _ w hw
    rwa [show items.length + (p - items.length) = p by omega] at this

/-- One item put on top. -/
theorem Fits.push (h : Fits stack bound wrapped items) {v : OffsetSet} {w : Word}
    (hv : v.Means bound wrapped w) :
    Fits (stack.insert items.length v) bound wrapped (items ++ [w]) := by
  refine h.append (fun p hp => ?_) (fun j u hu => ?_)
  · rw [OrdMap.get?_insert, if_neg (by omega)]
  · cases j with
    | zero =>
      obtain rfl : w = u := by simpa using hu
      exact ⟨v, by simp [OrdMap.get?_insert], hv⟩
    | succ j => simp at hu

/-- Positions above the height may be dropped. -/
theorem Fits.filter (h : Fits stack bound wrapped items) :
    Fits (stack.filter fun p _ => p < items.length) bound wrapped items := by
  intro p w hw
  obtain ⟨hp, -⟩ := List.getElem?_eq_some_iff.1 hw
  obtain ⟨v, hv, hm⟩ := h p w hw
  exact ⟨v, by simp [OrdMap.get?_filter, hv, hp], hm⟩

/-- Two items exchanged. -/
theorem Fits.exchange {below between : List Word} {x y : Word}
    (h : Fits stack bound wrapped (below ++ x :: between ++ [y])) :
    Fits ((stack.assign (below.length + between.length + 1) (stack.get? below.length)).assign
        below.length (stack.get? (below.length + between.length + 1)))
      bound wrapped (below ++ y :: between ++ [x]) := by
  have htop : ∀ x y : Word,
      (below ++ x :: between ++ [y])[below.length + between.length + 1]? = some y := fun x y => by
    rw [List.getElem?_append_right (by simp; omega)]
    simp [show below.length + between.length + 1 - (below.length + (between.length + 1)) = 0 by
      omega]
  intro p w hw
  rw [OrdMap.get?_assign, OrdMap.get?_assign]
  by_cases hp : p = below.length
  · obtain rfl : y = w := by simpa [hp] using hw
    rw [if_pos hp]
    exact h _ y (htop x y)
  · rw [if_neg hp]
    by_cases hp' : p = below.length + between.length + 1
    · obtain rfl : x = w := Option.some.inj ((htop y x).symm.trans (hp' ▸ hw))
      rw [if_pos hp']
      exact h _ x (by simp)
    · rw [if_neg hp']
      refine h p w ?_
      rw [← hw]
      grind

end Offsets

/-! ### One instruction -/

/-- The state holds of the machine. -/
structure OffsetState.Describes (s : OffsetState) (wrapped : Bool) (m : Machine) : Prop where
  /-- The height is right. -/
  height : s.height = m.stack.length
  /-- Every position of the stack is listed, and the word there is allowed. -/
  stack : ∀ p w, m.at? p = some w →
    ∃ v, s.stack.get? p = some v ∧ v.Means s.target.bound wrapped w
  /-- Every listed word is followed, and the word there is allowed. -/
  words : ∀ a v, s.words.get? a = some v →
    a ∈ Offsets.followedWords ∧ v.Means s.target.bound wrapped (m.memory.load a)

namespace OffsetState

open Offsets

variable {s t : OffsetState} {wrapped : Bool} {m m' : Machine} {i : Instruction}

/-- A state that covers a state that holds, holds too, if the heights agree. -/
theorem Describes.of_leq (h : s.Describes wrapped m) (hle : domain.leq s t = true)
    (htarget : t.target = s.target) (hheight : t.height = m.stack.length) :
    t.Describes wrapped m := by
  obtain ⟨hstack, hwords⟩ := Offsets.leq_iff.1 hle
  refine ⟨hheight, fun p w hw => ?_, fun a v hv => ?_⟩
  · obtain ⟨u, hu, hm⟩ := h.stack p w hw
    obtain ⟨v, hv, huv⟩ := hstack p u hu
    exact ⟨v, hv, htarget ▸ hm.of_leq huv⟩
  · obtain ⟨u, hu, huv⟩ := hwords a v hv
    obtain ⟨ha, hm⟩ := h.words a u hu
    exact ⟨ha, htarget ▸ hm.of_leq huv⟩

/-- The item some way below the top is listed. -/
theorem Describes.fromTop (h : s.Describes wrapped m) {depth : Nat} {w : Word}
    (hw : m.stack[depth]? = some w) :
    ∃ v, s.fromTop? depth = some v ∧ v.Means s.target.bound wrapped w := by
  obtain ⟨hd, -⟩ := List.getElem?_eq_some_iff.1 hw
  have hitem : stackItem? s.height depth = some (m.stack.length - 1 - depth) := by
    rw [stackItem?, h.height, if_pos hd, show m.stack.length - (depth + 1) =
      m.stack.length - 1 - depth by omega]
  have hat : m.at? (m.stack.length - 1 - depth) = some w := by
    rw [Machine.at?, List.getElem?_reverse (by omega), ← hw]
    congr 1
    omega
  obtain ⟨v, hv, hm⟩ := h.stack _ w hat
  exact ⟨v, by rw [fromTop?, value?, hitem]; exact hv, hm⟩

/-- The address of a memory access, if it is known, is the one on the stack. -/
theorem Describes.address (h : s.Describes wrapped m) {address : Word} {rest : List Word}
    (hstack : m.stack = address :: rest)
    (hnote : ∀ value, i.annotatedAddress? = some value → address.toNat = value) {a : Nat}
    (ha : address? i s = some a) : address.toNat = a := by
  rw [address?, Option.or_eq_some_iff] at ha
  rcases ha with ha | ⟨-, ha⟩
  · exact hnote a ha
  · have htop : m.stack[0]? = some address := by rw [hstack, List.getElem?_cons_zero]
    obtain ⟨v, hv, hm⟩ := h.fromTop htop
    rw [hv] at ha
    exact hm.constant ha

/-- What memory is known to hold at the address of a load is what is loaded. -/
theorem Describes.means_load (h : s.Describes wrapped m) {address : Word} {rest : List Word}
    (hstack : m.stack = address :: rest)
    (hnote : ∀ value, i.annotatedAddress? = some value → address.toNat = value) :
    (((address? i s).bind s.words.get?).getD .top).Means s.target.bound wrapped
      (m.memory.load address.toNat) := by
  cases ha : address? i s with
  | none => exact OffsetSet.means_top
  | some a =>
    cases hv : s.words.get? a with
    | none =>
      simp only [Option.bind_some, hv]
      exact OffsetSet.means_top
    | some v =>
      simp only [Option.bind_some, hv, Option.getD_some]
      rw [h.address hstack hnote ha]
      exact (h.words a v hv).2

/-- What a plain opcode produces is listed as unknown. -/
theorem Describes.fits_produceUnknown (h : s.Describes wrapped m) {o : Opcode}
    {after : List Word} (hr : Machine.Replaces o m.stack after) :
    Fits (produceUnknown o s) s.target.bound wrapped after.reverse := by
  obtain ⟨consumed, produced, rest, hs, hc, rfl, hp⟩ := hr
  have hbase : o.base s.height = rest.length := by
    rw [Opcode.base, h.height, hs, List.length_append, hc]
    omega
  have hfits : Fits s.stack s.target.bound wrapped m.stack.reverse := h.stack
  rw [hs, List.reverse_append] at hfits
  rw [List.reverse_append]
  refine hfits.of_append.append (fun p hp => ?_) (fun j w hw => ?_)
  · rw [List.length_reverse] at hp
    rw [get?_produceUnknown, hbase, if_neg (by omega)]
  · obtain ⟨hj, -⟩ := List.getElem?_eq_some_iff.1 hw
    rw [List.length_reverse, hp] at hj
    refine ⟨.top, ?_, OffsetSet.means_top⟩
    rw [get?_produceUnknown, hbase, List.length_reverse]
    exact if_pos ⟨by omega, by omega⟩

/-- An exchange exchanges the entries of the two items. -/
theorem Describes.fits_swap (h : s.Describes wrapped m) {below : Fin 16} {operand : Option String}
    {top other : Word} {between rest : List Word} (hlen : between.length = below)
    (hs : m.stack = top :: (between ++ other :: rest)) :
    Fits (nextStack ⟨.swap below, operand⟩ s) s.target.bound wrapped
      (other :: (between ++ top :: rest)).reverse := by
  have hheight : s.height = rest.length + between.length + 2 := by
    rw [h.height, hs]
    simp only [List.length_cons, List.length_append]
    omega
  have htop : stackItem? s.height 0 = some (rest.length + between.length + 1) := by
    rw [stackItem?, if_pos (by omega), hheight]
    rfl
  have hother : stackItem? s.height (below + 1) = some rest.length := by
    rw [stackItem?, if_pos (by omega), hheight]
    congr 1
    omega
  have hrev : ∀ x y : Word, (x :: (between ++ y :: rest)).reverse =
      rest.reverse ++ y :: between.reverse ++ [x] := fun x y => by simp
  have hfits : Fits s.stack s.target.bound wrapped m.stack.reverse := h.stack
  rw [hs, hrev] at hfits
  have hswap := hfits.exchange
  rw [List.length_reverse, List.length_reverse] at hswap
  simp only [nextStack, htop, hother, hrev]
  exact hswap

/-- An addition puts the sum in the place of its operands. Only here it matters whether something
has wrapped around. -/
theorem Describes.fits_add (h : s.Describes wrapped m) {operand : Option String} {a b : Word}
    {rest : List Word} (hs : m.stack = a :: b :: rest) :
    Fits (nextStack ⟨.add, operand⟩ s) s.target.bound
      (wrapped || m.overflows ⟨.add, operand⟩) ((a + b) :: rest).reverse := by
  obtain ⟨u, hu, ha⟩ := h.fromTop (show m.stack[0]? = some a by rw [hs]; rfl)
  obtain ⟨v, hv, hb⟩ := h.fromTop (show m.stack[1]? = some b by rw [hs]; rfl)
  have hitem : stackItem? s.height 1 = some rest.length := by
    rw [stackItem?, h.height, hs]
    simp
  have hsum : (wrapped || m.overflows ⟨.add, operand⟩) = false →
      a.toNat + b.toNat < 2 ^ 256 := fun hw => by
    have hover := (Bool.or_eq_false_iff.1 hw).2
    simp only [Machine.overflows, hs, decide_eq_false_iff_not] at hover
    omega
  have hfits : Fits s.stack s.target.bound (wrapped || m.overflows ⟨.add, operand⟩)
      m.stack.reverse := Fits.or h.stack _
  rw [hs, List.reverse_cons, List.reverse_cons, List.append_assoc] at hfits
  have hpush := hfits.of_append.push ((ha.or _).plus s.target.bound_lt (hb.or _) hsum)
  rw [List.length_reverse] at hpush
  simp only [nextStack, hitem, hu, hv, Option.getD_some, List.reverse_cons]
  exact hpush

/-- The stack after an instruction fits the table after it. -/
theorem Describes.fits_nextStack (h : s.Describes wrapped m) (hstep : m.Step i m') :
    Fits (nextStack i s) s.target.bound (wrapped || m.overflows i) m'.stack.reverse := by
  have hfits : Fits s.stack s.target.bound (wrapped || m.overflows i) m.stack.reverse :=
    Fits.or h.stack _
  obtain ⟨o, operand⟩ := i
  rcases o.isPlain_or with hplain | ⟨width, rfl⟩ | ⟨below, rfl⟩ | ⟨below, rfl⟩ | rfl | rfl | rfl
  · rw [nextStack_of_isPlain hplain]
    exact (h.fits_produceUnknown ((Machine.step_iff_of_isPlain hplain).1 hstep).1).or _
  · obtain ⟨w, hw, rfl⟩ := hstep
    have hpush := hfits.push (OffsetSet.means_abstract s.target hw)
    rw [List.length_reverse, ← h.height] at hpush
    rw [List.reverse_cons]
    exact hpush
  · obtain ⟨w, hw, rfl⟩ := hstep
    obtain ⟨v, hv, hm⟩ := h.fromTop hw
    have hpush := hfits.push (hm.or _)
    rw [List.length_reverse, ← h.height] at hpush
    simp only [nextStack, hv, List.reverse_cons]
    exact hpush
  · obtain ⟨top, between, other, rest, hlen, hs, rfl⟩ := hstep
    exact (h.fits_swap hlen hs).or _
  · obtain ⟨a, b, rest, hs, rfl⟩ := hstep
    exact h.fits_add hs
  · obtain ⟨address, rest, hs, hnote, rfl⟩ := hstep
    have hitem : stackItem? s.height 0 = some rest.length := by
      rw [stackItem?, h.height, hs]
      simp
    rw [hs, List.reverse_cons] at hfits
    have hpush := hfits.of_append.push ((h.means_load hs hnote).or _)
    rw [List.length_reverse] at hpush
    simp only [nextStack, hitem, List.reverse_cons]
    exact hpush
  · obtain ⟨address, w, rest, hs, -, rfl⟩ := hstep
    rw [hs, List.reverse_cons, List.reverse_cons, List.append_assoc] at hfits
    exact hfits.of_append

/-- Followed words do not overlap. -/
theorem disjoint_of_mem_followedWords {a b : Nat} (ha : a ∈ followedWords)
    (hb : b ∈ followedWords) (hne : a ≠ b) : a + 32 ≤ b ∨ b + 32 ≤ a := by
  simp only [followedWords, List.mem_cons, List.not_mem_nil, or_false] at ha hb
  omega

/-- What is known of memory after a store holds after it. -/
theorem Describes.words_store (h : s.Describes wrapped m) {operand : Option String}
    {address w : Word} {rest : List Word} (hstack : m.stack = address :: w :: rest)
    (hnote : ∀ value, Instruction.annotatedAddress? ⟨.mstore, operand⟩ = some value →
      address.toNat = value) {a : Nat} {v : OffsetSet}
    (hv : (nextWords ⟨.mstore, operand⟩ s).get? a = some v) :
    a ∈ followedWords ∧
      v.Means s.target.bound wrapped ((m.memory.store address.toNat w).load a) := by
  simp only [nextWords] at hv
  split at hv
  · rename_i b hb
    obtain rfl := h.address hstack hnote hb
    split at hv
    · rename_i hfollowed
      rw [OrdMap.get?_insert] at hv
      split at hv
      · rename_i heq
        obtain ⟨u, hu, hm⟩ := h.fromTop (show m.stack[1]? = some w by rw [hstack]; rfl)
        rw [hu] at hv
        obtain rfl := Option.some.inj hv
        rw [heq, Bytes.load_store]
        exact ⟨hfollowed, hm⟩
      · rename_i hne
        obtain ⟨ha, hm⟩ := h.words a v hv
        rw [Bytes.load_store_of_disjoint _ _
          (disjoint_of_mem_followedWords hfollowed ha (Ne.symm hne))]
        exact ⟨ha, hm⟩
    · simp at hv
  · simp at hv

/-- What is known of memory after an instruction holds after it. -/
theorem Describes.words_next (h : s.Describes wrapped m) (hstep : m.Step i m') {a : Nat}
    {v : OffsetSet} (hv : (nextWords i s).get? a = some v) :
    a ∈ followedWords ∧ v.Means s.target.bound wrapped (m'.memory.load a) := by
  obtain ⟨o, operand⟩ := i
  rcases o.isPlain_or with hplain | ⟨width, rfl⟩ | ⟨below, rfl⟩ | ⟨below, rfl⟩ | rfl | rfl | rfl
  · obtain ⟨-, hmem⟩ := (Machine.step_iff_of_isPlain hplain).1 hstep
    rw [nextWords_of_ne_mstore (by rintro rfl; cases hplain)] at hv
    split at hv
    · simp at hv
    · rename_i hscribbles
      rw [hmem (Bool.eq_false_iff.2 hscribbles)]
      exact h.words a v hv
  · obtain ⟨w, -, rfl⟩ := hstep
    exact h.words a v hv
  · obtain ⟨w, -, rfl⟩ := hstep
    exact h.words a v hv
  · obtain ⟨top, between, other, rest, -, -, rfl⟩ := hstep
    exact h.words a v hv
  · obtain ⟨x, y, rest, -, rfl⟩ := hstep
    exact h.words a v hv
  · obtain ⟨address, rest, -, -, rfl⟩ := hstep
    exact h.words a v hv
  · obtain ⟨address, w, rest, hs, hnote, rfl⟩ := hstep
    exact h.words_store hs hnote hv

/-- **One instruction.** If a state holds before an instruction, the next state holds after it. -/
theorem Describes.next (h : s.Describes wrapped m) (hstep : m.Step i m') :
    (Offsets.next i s).Describes (wrapped || m.overflows i) m' := by
  have hheight : i.opcode.heightAfter s.height = m'.stack.length := by
    rw [h.height, hstep.length_stack]
  refine ⟨hheight, ?_, fun a v hv => ?_⟩
  · have hfits := (h.fits_nextStack hstep).filter
    rw [List.length_reverse, ← hheight] at hfits
    exact hfits
  · obtain ⟨ha, hm⟩ := h.words_next hstep hv
    exact ⟨ha, hm.or _⟩

end OffsetState

/-! ### Whole runs -/

namespace Offsets

variable {g : CodeGraph} {config : Config} {target : Target} {r₀ r : Run BlockId OffsetState}
  {fuel : Nat} {c c' : Option Ledger}

/-- All recorded states are about the same target. -/
theorem recorded_target (hstart : Run.start g.flow config.entry (.initial target) = .ok r₀)
    (hrun : (domain.engine g config).analyze fuel r₀ c = ((r, c'), .ok ())) :
    r.Recorded fun s => s.target = target := by
  refine Engine.recorded_of_analyze ?_ ?_ ?_ hstart hrun
  · intro s t hs _
    exact hs
  · intro op p s c hs
    exact hs
  · rfl

/-- At the end of a run the entry holds of an empty stack and any memory. -/
theorem describes_entry (hstart : Run.start g.flow config.entry (.initial target) = .ok r₀)
    (hrun : (domain.engine g config).analyze fuel r₀ c = ((r, c'), .ok ())) (memory : Bytes) :
    r.InputHas config.entry fun s => s.Describes false ⟨[], memory⟩ := by
  refine Engine.inputHas_of_analyze ?_ ?_ hstart hrun
  · intro s t hs
    exact hs.of_leq (lawful.leq_join_left s t) rfl hs.height
  · refine ⟨rfl, fun p w hw => ?_, fun a v hv => ?_⟩
    · simp [Machine.at?] at hw
    · simp [OffsetState.initial] at hv

/-- The state in which a block is entered. -/
theorem describes_leave (hstart : Run.start g.flow config.entry (.initial target) = .ok r₀)
    (hrun : (domain.engine g config).analyze fuel r₀ c = ((r, c'), .ok ())) {id t : BlockId}
    {b : BasicBlock} {f : Facts OffsetState} {s : OffsetState} {wrapped : Bool} {m : Machine}
    (hb : g.block? id = some b) (hf : r.facts.get? id = some f)
    (hs : f.before? b.code.length = some s) (hd : s.Describes wrapped m) (ht : t ∈ b.successors)
    (hheight : ∀ f, r.facts.get? t = some f → f.input.height = m.stack.length) :
    r.InputHas t fun s => s.Describes wrapped m := by
  have htarget := recorded_target hstart hrun
  obtain ⟨n, k, hn, hex, hcov⟩ := Engine.settled_of_analyze lawful hstart hrun hf
  obtain rfl : b.node = n := by
    have hn : g.flow.node? id = some n := hn
    simpa [CodeGraph.node?_flow, hb] using hn
  have hlen : f.states.length = b.code.length := by
    rw [hex]
    exact Domain.length_trace ..
  obtain rfl : Domain.final f.input f.states = s := by
    rw [Facts.before?, ← hlen, Domain.final_eq_getElem] at hs
    exact Option.some.inj hs
  obtain ⟨ft, hft, hle⟩ := hcov t ht
  refine ⟨ft, hft, hd.of_leq hle ?_ (hheight ft hft)⟩
  rw [(htarget t ft hft).1]
  rcases List.mem_cons.1 (Domain.final_mem f.input f.states) with heq | hmem
  · rw [heq, (htarget id f hf).1]
  · rw [(htarget id f hf).2 _ hmem]

/-- **The constants domain is sound.** Take a finished analysis and any run from the entry that
enters each block with the recorded height. At every moment of the run there is a recorded state,
and it holds of the machine. As long as no addition has wrapped around this includes that numbers
recorded as `beyond` are above the bound. -/
theorem describes_of_reaches
    (hstart : Run.start g.flow config.entry (.initial target) = .ok r₀)
    (hrun : (domain.engine g config).analyze fuel r₀ c = ((r, c'), .ok ())) {m : Moment}
    (hm : g.Reaches (fun b height => ∀ f, r.facts.get? b = some f → f.input.height = height)
      config.entry m) :
    ∃ f s, r.facts.get? m.block = some f ∧ f.before? m.index = some s ∧ s.target = target ∧
      s.Describes m.wrapped m.machine := by
  have htarget := recorded_target hstart hrun
  -- The induction follows the run; recorded states carry the target along by themselves.
  suffices h : ∃ f s, r.facts.get? m.block = some f ∧ f.before? m.index = some s ∧
      s.Describes m.wrapped m.machine by
    obtain ⟨f, s, hf, hs, hd⟩ := h
    refine ⟨f, s, hf, hs, ?_, hd⟩
    rcases List.mem_cons.1 (List.mem_of_getElem? hs) with heq | hmem
    · rw [heq, (htarget m.block f hf).1]
    · exact (htarget m.block f hf).2 s hmem
  induction hm with
  | start memory =>
    obtain ⟨f, hf, hd⟩ := describes_entry hstart hrun memory
    exact ⟨f, f.input, hf, rfl, hd⟩
  | step _ hb hi hstep ih =>
    obtain ⟨f, s, hf, hs, hd⟩ := ih
    obtain ⟨n, k, hn, hex, -⟩ := Engine.settled_of_analyze lawful hstart hrun hf
    obtain rfl : BasicBlock.node _ = n := by
      have hn : g.flow.node? _ = some n := hn
      simpa [CodeGraph.node?_flow, hb] using hn
    rw [hex] at hs
    obtain ⟨k', hk'⟩ := Domain.trace_step hi hs
    refine ⟨f, _, hf, ?_, hd.next hstep⟩
    rw [hex]
    exact hk'
  | leave _ hb hidx hsucc hheight ih =>
    obtain ⟨f, s, hf, hs, hd⟩ := ih
    rw [hidx] at hs
    obtain ⟨ft, hft, hdt⟩ := describes_leave hstart hrun hb hf hs hd hsucc hheight
    exact ⟨ft, ft.input, hft, rfl, hdt⟩

/-! ### A loop that wraps around -/

/-- The loop doubles a number until it is zero. -/
def doubling : CodeGraph where
  blocks :=
    [⟨⟨0, none⟩, 0, 0, .fallsTo, [⟨.push1, some "0x80"⟩], .none, some ⟨2, none⟩, ∅⟩,
     ⟨⟨2, none⟩, 2, 7, .conditional,
       [⟨.dup1, none⟩, ⟨.add, none⟩, ⟨.dup1, none⟩, ⟨.push1, some "0x02"⟩, ⟨.jumpi, none⟩],
       .block ⟨2, none⟩, some ⟨16, none⟩, ∅⟩,
     ⟨⟨16, none⟩, 16, 16, .terminal, [⟨.stop, none⟩], .none, none, ∅⟩]
  increasing := by decide
  shaped := by decide
  closed := by decide

/-- The loop is analysed from its first block, without a limit. -/
def doublingConfig : Config := ⟨false, 0, ⟨0, none⟩⟩

/-- The analysis of the loop before its first turn. -/
def doublingStart : Run BlockId OffsetState :=
  ⟨(∅ : OrdMap BlockId _).insert ⟨0, none⟩ (.start (.initial .storage)), [⟨0, none⟩], 0⟩

/-- The finished analysis of the loop. -/
def doublingRun : Run BlockId OffsetState :=
  ((domain.engine doubling doublingConfig).analyze 6 doublingStart none).1.1

/-- The loop is run with the recorded heights. -/
abbrev DoublingReaches : Moment → Prop :=
  doubling.Reaches
    (fun b height => ∀ f, doublingRun.facts.get? b = some f → f.input.height = height)
    doublingConfig.entry

/-- Both blocks after the first are entered with one item on the stack. -/
theorem height_doubling {b : BlockId} (hb : b ∈ [⟨2, none⟩, ⟨16, none⟩]) :
    ∀ f, doublingRun.facts.get? b = some f → f.input.height = 1 := by
  have hall : ∀ b ∈ [⟨2, none⟩, ⟨16, none⟩],
      (doublingRun.facts.get? b).map (·.input.height) = some 1 := by decide
  intro f hf
  simpa [hf] using hall b hb

/-- One round of the loop, up to its end. -/
theorem DoublingReaches.round {x : Word} {memory : Bytes} {wrapped : Bool}
    (h : DoublingReaches ⟨⟨2, none⟩, 0, ⟨[x], memory⟩, wrapped⟩) :
    DoublingReaches ⟨⟨2, none⟩, 5, ⟨[x + x], memory⟩,
      wrapped || decide (2 ^ 256 ≤ x.toNat + x.toNat)⟩ := by
  have h1 : DoublingReaches ⟨⟨2, none⟩, 1, ⟨[x, x], memory⟩, wrapped || false⟩ :=
    h.step rfl rfl ⟨x, rfl, rfl⟩
  have h2 : DoublingReaches ⟨⟨2, none⟩, 2, ⟨[x + x], memory⟩,
      wrapped || false || decide (2 ^ 256 ≤ x.toNat + x.toNat)⟩ :=
    h1.step rfl rfl ⟨x, x, [], rfl, rfl⟩
  rw [Bool.or_false] at h2
  generalize (wrapped || decide (2 ^ 256 ≤ x.toNat + x.toNat)) = wrapped at h2 ⊢
  have h3 : DoublingReaches ⟨⟨2, none⟩, 3, ⟨[x + x, x + x], memory⟩, wrapped || false⟩ :=
    h2.step rfl rfl ⟨x + x, rfl, rfl⟩
  have hpush : Instruction.pushValue? ⟨.push1, some "0x02"⟩ = some 2 := by decide
  have h4 : DoublingReaches ⟨⟨2, none⟩, 4, ⟨[2, x + x, x + x], memory⟩,
      wrapped || false || false⟩ :=
    h3.step rfl rfl ⟨2, fun value hv => by rw [hpush] at hv; cases hv; rfl, rfl⟩
  have h5 : DoublingReaches ⟨⟨2, none⟩, 5, ⟨[x + x], memory⟩,
      wrapped || false || false || false⟩ :=
    h4.step rfl rfl ⟨⟨[2, x + x], [], [x + x], rfl, rfl, rfl, rfl⟩, fun _ => rfl⟩
  simpa using h5

/-- Until it wraps around the loop has a power of two. -/
theorem reaches_doubling (memory : Bytes) {k : Nat} (hk : k ≤ 248) :
    DoublingReaches ⟨⟨2, none⟩, 0, ⟨[BitVec.ofNat 256 (2 ^ (7 + k))], memory⟩, false⟩ := by
  induction k with
  | zero =>
    have hpush : Instruction.pushValue? ⟨.push1, some "0x80"⟩ = some 128 := by decide
    have h0 : DoublingReaches ⟨⟨0, none⟩, 0, ⟨[], memory⟩, false⟩ := .start memory
    have h1 : DoublingReaches ⟨⟨0, none⟩, 1, ⟨[128], memory⟩, false⟩ :=
      h0.step rfl rfl ⟨128, fun value hv => by rw [hpush] at hv; cases hv; rfl, rfl⟩
    exact h1.leave rfl rfl (by decide) (height_doubling (by decide))
  | succ k ih =>
    have hlt : 2 ^ (7 + k) < 2 ^ 255 := Nat.pow_lt_pow_right (by decide) (by omega)
    have hval : (BitVec.ofNat 256 (2 ^ (7 + k))).toNat = 2 ^ (7 + k) := by
      rw [BitVec.toNat_ofNat, Nat.mod_eq_of_lt (by omega)]
    have hround := (ih (by omega)).round
    rw [hval, decide_eq_false (by omega), Bool.or_false, ← BitVec.ofNat_add,
      ← Nat.two_mul, ← Nat.pow_succ'] at hround
    exact hround.leave rfl rfl (by decide) (height_doubling (by decide))

/-- The loop is left with zero, after an addition that wraps around. -/
theorem reaches_doubling_end (memory : Bytes) :
    DoublingReaches ⟨⟨16, none⟩, 0, ⟨[0], memory⟩, true⟩ := by
  have hround := (reaches_doubling memory (Nat.le_refl 248)).round
  rw [show BitVec.ofNat 256 (2 ^ (7 + 248)) + BitVec.ofNat 256 (2 ^ (7 + 248)) = 0 by decide,
    show (false || decide (2 ^ 256 ≤ (BitVec.ofNat 256 (2 ^ (7 + 248))).toNat +
      (BitVec.ofNat 256 (2 ^ (7 + 248))).toNat)) = true by decide] at hround
  exact hround.leave rfl rfl (by decide) (height_doubling (by decide))

/-- When the loop is left its number is zero, and it is recorded as 256 or above the bound: the
state holds, but only with the reservation that an addition has wrapped around. -/
theorem describes_doubling :
    ∃ f s, DoublingReaches ⟨⟨16, none⟩, 0, ⟨[0], fun _ => 0⟩, true⟩ ∧
      doublingRun.facts.get? ⟨16, none⟩ = some f ∧ f.before? 0 = some s ∧
      s.Describes true ⟨[0], fun _ => 0⟩ ∧ ¬ s.Describes false ⟨[0], fun _ => 0⟩ := by
  have hstart : Run.start doubling.flow doublingConfig.entry (.initial .storage) =
      .ok doublingStart := rfl
  have hrun : (domain.engine doubling doublingConfig).analyze 6 doublingStart none =
      ((doublingRun, none), .ok ()) := rfl
  have hreach := reaches_doubling_end fun _ => 0
  obtain ⟨f, s, hf, hs, -, hd⟩ := describes_of_reaches hstart hrun hreach
  refine ⟨f, s, hreach, hf, hs, hd, fun h => ?_⟩
  have hinput : (doublingRun.facts.get? ⟨16, none⟩).map (·.input) = some
      ⟨.storage, 1, (∅ : OrdMap Nat OffsetSet).insert 0 (.ofList [.exact 256, .beyond]), ∅⟩ := by
    decide
  rw [hf, Option.map_some] at hinput
  obtain rfl : f.input = s := Option.some.inj hs
  rw [Option.some.inj hinput] at h
  obtain ⟨v, hv, hm⟩ := h.stack 0 0 rfl
  obtain rfl : OffsetSet.ofList [.exact 256, .beyond] = v := Option.some.inj hv
  revert hm
  decide

end Offsets

end EvmAccess
