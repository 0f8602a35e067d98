import EvmAccess.Evm.Instruction
import EvmAccess.Proofs.Evm.OpcodeNames

/-!
# Texts of instructions

The first word of a text names the opcode of an instruction, the second is its operand, and the rest
does not count. So there are many texts of an instruction, with other blanks, another name of the
opcode or more words. What is written for an instruction is one of them, and it is the same for all:
reading a text and writing the result brings it to a canonical form, from which the same instruction
is read again.

## Main definitions

- `Instruction.Regular`: the instructions that have a text.

## Main results

- `Instruction.read_eq_ok_iff`: which instruction is read from a text.
- `Instruction.read_render`: instructions that have a text are read from what is written for them.
- `Instruction.read_canonical`: which texts are accepted, what is read from them, and their
  canonical form.
-/

namespace EvmAccess

namespace Instruction

variable {text : String} {i : Instruction} {word rest operand rest' : List Char}

/-- The operand, if there is one, is a word. -/
def Regular (i : Instruction) : Prop := ∀ operand ∈ i.operand, IsWord operand.toList

/-! ### Reading -/

/-- Nothing is read if the first word is no name. -/
theorem read_of_not_named (hword : FirstWord text.toList word rest)
    (hnone : ∀ o, ¬ Opcode.Named (String.ofList word) o) :
    read text = .error (.unknownOpcode (String.ofList word)) := by
  have hname : Opcode.ofName? (String.ofList word) = none :=
    Option.eq_none_iff_forall_ne_some.2 fun o ho => hnone o (Opcode.ofName?_eq_some_iff.1 ho)
  rw [read, hword.takeWord_eq]
  simp only [readOpcode, hname]

/-- An instruction is read if the first word names its opcode and the second is its operand. -/
theorem read_eq_ok_iff (hword : FirstWord text.toList word rest)
    (hoperand : FirstWord rest operand rest') :
    read text = .ok i ↔ Opcode.Named (String.ofList word) i.opcode ∧
      i.operand = if operand.isEmpty then none else some (String.ofList operand) := by
  rw [← Opcode.ofName?_eq_some_iff, read, hword.takeWord_eq]
  simp only [hoperand.takeWord_eq, readOpcode]
  cases Opcode.ofName? (String.ofList word) with
  | none => simp
  | some o =>
    simp only [Except.ok.injEq, Option.some.injEq]
    constructor
    · rintro rfl
      exact ⟨rfl, rfl⟩
    · rintro ⟨rfl, hi⟩
      rw [← hi]

/-- What is read from a text is regular. -/
theorem regular_of_read (h : read text = .ok i) : i.Regular := by
  intro operand hmem
  have hsecond := firstWord_takeWord (takeWord text.toList).2
  have hi := ((read_eq_ok_iff (firstWord_takeWord text.toList) hsecond).1 h).2
  rw [Option.mem_def.1 hmem] at hi
  split at hi
  · cases hi
  · rename_i hne
    cases hi
    rw [String.toList_ofList]
    exact ⟨fun hnil => hne (List.isEmpty_iff.2 hnil), hsecond.solid⟩

/-! ### Writing -/

/-- Regular instructions are read from what is written for them. -/
theorem read_render (h : i.Regular) : read i.render = .ok i := by
  obtain ⟨o, operand⟩ := i
  have hname : Opcode.Named (String.ofList o.render.toList) o := by
    rw [String.ofList_toList]
    exact o.named_render
  have hisWord : IsWord o.render.toList := o.named_render.isWord
  cases operand with
  | none =>
    have hword : FirstWord o.render.toList o.render.toList [] := by
      simpa using hisWord.firstWord [] [] nofun nofun
    exact (read_eq_ok_iff hword firstWord_nil).2 ⟨hname, rfl⟩
  | some operand =>
    have hoperand : IsWord operand.toList := h operand rfl
    have hblank : isBlank ' ' = true := by decide
    have htext : (render ⟨o, some operand⟩).toList = o.render.toList ++ ' ' :: operand.toList := by
      change (o.render ++ " " ++ operand).toList = _
      simp
    have hfirst : FirstWord (o.render.toList ++ ' ' :: operand.toList) o.render.toList
        (' ' :: operand.toList) :=
      hisWord.firstWord [] _ nofun (by simpa using hblank)
    have hsecond : FirstWord (' ' :: operand.toList) operand.toList [] := by
      simpa using hoperand.firstWord [' '] [] (by simpa using hblank) nofun
    rw [← htext] at hfirst
    refine (read_eq_ok_iff hfirst hsecond).2 ⟨hname, ?_⟩
    simp [hoperand.1]

/-- **The texts of instructions have a canonical form.** An instruction without an operand, or with
a word as its operand, is read from what is written for it. What is read from a text is such an
instruction; so texts of the same instruction are those for which the same is written. The first
word of a text names the opcode of the instruction that is read, and the second word, if there is
one, is the operand. A text is accepted exactly if its first word is a name, and otherwise that word
is reported. -/
theorem read_canonical :
    (∀ i : Instruction, i.Regular → read i.render = .ok i) ∧
    ∀ text : String,
      (∀ i, read text = .ok i →
        i.Regular ∧ read i.render = .ok i ∧
          ∀ other j, read other = .ok j → (i = j ↔ i.render = j.render)) ∧
      (∃ word rest operand rest',
        FirstWord text.toList word rest ∧ FirstWord rest operand rest') ∧
      ∀ word rest, FirstWord text.toList word rest →
        ((∃ i, read text = .ok i) ↔ ∃ o, Opcode.Named (String.ofList word) o) ∧
        ((∀ o, ¬ Opcode.Named (String.ofList word) o) →
          read text = .error (.unknownOpcode (String.ofList word))) ∧
        ∀ operand rest', FirstWord rest operand rest' → ∀ i, read text = .ok i ↔
          Opcode.Named (String.ofList word) i.opcode ∧
            i.operand = if operand.isEmpty then none else some (String.ofList operand) := by
  refine ⟨fun i => read_render, fun text => ⟨fun i hi => ?_, ?_, fun word rest hword => ?_⟩⟩
  · have hread := read_render (regular_of_read hi)
    refine ⟨regular_of_read hi, hread, fun other j hj => ⟨congrArg render, fun heq => ?_⟩⟩
    have hread' := read_render (regular_of_read hj)
    rw [← heq, hread] at hread'
    exact Except.ok.inj hread'
  · exact ⟨_, _, _, _, firstWord_takeWord text.toList, firstWord_takeWord _⟩
  · have hread := fun i => read_eq_ok_iff (i := i) hword (firstWord_takeWord rest)
    refine ⟨⟨?_, ?_⟩, read_of_not_named hword, fun operand rest' hoperand i => ?_⟩
    · rintro ⟨i, hi⟩
      exact ⟨i.opcode, ((hread i).1 hi).1⟩
    · rintro ⟨o, ho⟩
      exact ⟨⟨o, _⟩, (hread _).2 ⟨ho, rfl⟩⟩
    · exact read_eq_ok_iff hword hoperand

/-- A text with another name of the opcode, more blanks and more words than the canonical one. -/
theorem canonical_push :
    ∃ i, read "\tPUSH+001  0x60 ; free memory" = .ok i ∧ i.Regular ∧ i.render = "PUSH1 0x60" ∧
      read "PUSH1 0x60" = .ok i := by
  have hread : read "\tPUSH+001  0x60 ; free memory" =
      .ok ⟨.push ⟨1, by decide⟩, some "0x60"⟩ := rfl
  obtain ⟨hregular, -⟩ := (read_canonical.2 _).1 _ hread
  exact ⟨_, hread, hregular, rfl, read_canonical.1 _ hregular⟩

end Instruction

end EvmAccess
