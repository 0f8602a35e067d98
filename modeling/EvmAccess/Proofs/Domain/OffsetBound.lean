import EvmAccess.Evm.CodeGraph
import EvmAccess.Proofs.Domain.KeptOffsets
import EvmAccess.Proofs.Flow.Termination

/-!
# The constants domain is bounded

No number above 256 is ever recorded: pushed constants are below the bound of the target, and sums
that exceed it are not followed. So there are at most 259 offsets, and the landmarks of a state are
the offsets at each position of the stack and in each followed word.

## Main results

- `Offsets.small_next`: an instruction records only small offsets.
- `Offsets.bounded`: the engine ends on the domain.
-/

namespace EvmAccess

open JoinOrder

/-! ### Small offsets -/

/-- The offsets that occur. -/
def Offset.small : List Offset := .beyond :: .any :: (List.range 257).map .exact

theorem Offset.any_mem_small : .any ∈ small := by simp [small]

theorem Offset.exact_mem_small {value : Nat} : .exact value ∈ small ↔ value ≤ 256 := by
  simp only [small, List.mem_cons, reduceCtorEq, List.mem_map, List.mem_range, Offset.exact.injEq,
    exists_eq_right, false_or]
  omega

theorem Target.bound_le (t : Target) : t.bound ≤ 256 := by cases t <;> decide

theorem Offset.plus_mem_small {bound : Nat} (hbound : bound ≤ 256) (a b : Offset) :
    a.plus bound b ∈ small := by
  cases a with
  | any => simp [plus, small]
  | beyond => cases b <;> simp [plus, small]
  | exact u =>
    cases b with
    | any | beyond => simp [plus, small]
    | exact v =>
      rw [plus]
      split
      · exact exact_mem_small.2 (by omega)
      · simp [small]

namespace OffsetSet

/-- All offsets of the set are small. -/
def Small (v : OffsetSet) : Prop := ∀ o ∈ v, o ∈ Offset.small

/-- The landmarks of a set are the offsets that it allows. -/
def landmarks : order.Landmarks Small Offset :=
  .ofMembers Offset.small (fun v o => o ∈ v) admits (fun _ _ h => leq_iff.2 h)
    (fun _ _ ho => admits_of_mem ho) (fun _ _ _ h => admits_join.2 h)
    fun _ _ hu hv => Every.join hu hv Offset.any_mem_small

end OffsetSet

/-- The sources of offsets are small. -/
theorem Target.keeps_small (target : Target) : target.Keeps (· ∈ Offset.small) where
  any := Offset.any_mem_small
  pushed hlt _ := Offset.exact_mem_small.2 (by have := target.bound_le; omega)
  plus _ _ := Offset.plus_mem_small target.bound_le _ _

/-! ### States -/

namespace Offsets

variable {n : Nat} {s : OffsetState} {i : Instruction}

/-- Only the first `n` positions and the followed words are listed, with small offsets. -/
def Small (n : Nat) (s : OffsetState) : Prop :=
  Within (List.range n) OffsetSet.Small s.stack ∧ Within followedWords OffsetSet.Small s.words

theorem Small.every (h : Small n s) : Every (· ∈ Offset.small) s :=
  ⟨h.1.mono fun _ _ hv => hv.2, h.2⟩

/-- An instruction records only small offsets, as long as there is room on the stack. -/
theorem small_next (h : Small n s) (hroom : s.height < n) : Small n (next i s) := by
  have hsmall := s.target.keeps_small
  refine ⟨fun p v hv => ?_, h.every.nextWords hsmall.any⟩
  have hheight := i.opcode.heightAfter_le s.height
  obtain ⟨hsmall, hp⟩ := (h.every.nextStack hsmall).filter p v hv
  exact ⟨List.mem_range.2 (by simp only [decide_eq_true_eq] at hp; omega), hsmall⟩

theorem small_initial (n : Nat) (target : Target) : Small n (.initial target) :=
  ⟨OrdMap.every_empty, OrdMap.every_empty⟩

/-- The domain is bounded on every graph. -/
def bounded (g : Graph BlockId Instruction) :
    domain.Bounded g ((Nat × Option Offset) ⊕ (Nat × Option Offset)) where
  Ok := Small (g.total (·.ops.length))
  Ctx _ := True
  height := OffsetState.height
  landmarks := ((OffsetSet.landmarks.pointwise _).prod (OffsetSet.landmarks.shared _)).of_embeds
    embeds
  height_join _ _ := rfl
  step _ _ hs _ hroom := ⟨small_next hs hroom, trivial, Opcode.heightAfter_le _ _⟩

theorem length_marks (g : Graph BlockId Instruction) :
    (bounded g).landmarks.marks.length = g.total (·.ops.length) * 260 + 780 := by
  have hsmall : Offset.small.length = 259 := by simp [Offset.small]
  change ((keyed (List.range _) Offset.small).map Sum.inl ++
    (keyed followedWords Offset.small).map Sum.inr).length = _
  rw [List.length_append, List.length_map, List.length_map, length_keyed, length_keyed, hsmall,
    List.length_range]
  rfl

end Offsets

end EvmAccess
