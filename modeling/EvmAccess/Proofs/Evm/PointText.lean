import EvmAccess.Evm.CodeGraph
import EvmAccess.Proofs.Text.Numeral

/-!
# Texts of blocks and points

A block is written as its address, or as its address and the number of the copy with an underscore
between them; a point as its block and its position with a colon between them. The numbers are
decimal numerals that fit machine words, so a leading `+` and leading zeros are accepted on reading,
although they are never written.

The readers cut a text at the first separator and then read the parts. Numerals have no separator in
them, so this finds the only way in which a text can be made up, and a text with separators in other
places is refused.

## Main definitions

- `BlockId.Written`, `CodePoint.Written`: the texts of block names and of points.

## Main results

- `BlockId.read?_eq_some_iff`: the texts of block names are read, and nothing else.
- `CodePoint.read_exact`: points are read from what is written for them, and in general from exactly
  their texts.
-/

namespace EvmAccess

open Numeral (Decimal)

/-- The texts of a block name. -/
inductive BlockId.Written : String → BlockId → Prop
  | plain {address : String} {a : UInt64} :
      Decimal address a.toNat → Written address ⟨a, none⟩
  | copy {address copy : String} {a : UInt64} {c : UInt32} :
      Decimal address a.toNat → Decimal copy c.toNat →
        Written (address ++ "_" ++ copy) ⟨a, some c⟩

/-- The texts of a point. Its position is a number of 64 bits. -/
inductive CodePoint.Written : String → CodePoint → Prop
  | mk {block index : String} {b : BlockId} {i : UInt64} :
      BlockId.Written block b → Decimal index i.toNat →
        Written (block ++ ":" ++ index) ⟨b, i.toNat⟩

/-- A text is cut exactly if it is two texts with the separator between them, the first of which
does not have it. -/
theorem cut?_toList_eq_some_iff {sep : Char} {text : String} {before after : List Char}
    (mark : String) (hmark : mark.toList = [sep]) :
    cut? sep text.toList = some (before, after) ↔
      text = String.ofList before ++ mark ++ String.ofList after ∧ ¬ sep ∈ before := by
  rw [cut?_eq_some_iff, ← String.toList_inj, String.toList_append, String.toList_append, hmark,
    String.toList_ofList, String.toList_ofList, List.append_assoc, List.singleton_append]

/-! ### Block names -/

namespace BlockId

variable {text : String} {b : BlockId}

theorem read?_of_written (h : Written text b) : read? text = some b := by
  cases h with
  | @plain _ a ha =>
    have hcut : cut? '_' text.toList = none :=
      cut?_eq_none_iff.2 (ha.not_mem '_' (by decide) (by decide))
    rw [read?, hcut, Numeral.read64?_eq_some_iff.2 ⟨a, rfl, ha⟩]
    simp
  | @copy address copy a c ha hc =>
    have hcut : cut? '_' (address ++ "_" ++ copy).toList = some (address.toList, copy.toList) :=
      (cut?_toList_eq_some_iff "_" (by decide)).2 ⟨by simp, ha.not_mem '_' (by decide) (by decide)⟩
    rw [read?, hcut]
    simp [Numeral.read64?_eq_some_iff.2 ⟨a, rfl, ha⟩, Numeral.read32?_eq_some_iff.2 ⟨c, rfl, hc⟩]

theorem written_of_read? (h : read? text = some b) : Written text b := by
  rw [read?] at h
  split at h
  · obtain ⟨n, hn, rfl⟩ := Option.map_eq_some_iff.1 h
    obtain ⟨a, rfl, ha⟩ := Numeral.read64?_eq_some_iff.1 hn
    rw [UInt64.ofNat_toNat]
    exact .plain ha
  · rename_i hcut
    split at h
    · rename_i n m hn hm
      obtain ⟨a, rfl, ha⟩ := Numeral.read64?_eq_some_iff.1 hn
      obtain ⟨c, rfl, hc⟩ := Numeral.read32?_eq_some_iff.1 hm
      rw [UInt64.ofNat_toNat, UInt32.ofNat_toNat, Option.some.injEq] at h
      subst h
      rw [((cut?_toList_eq_some_iff "_" (by decide)).1 hcut).1]
      exact .copy ha hc
    · cases h

/-- The texts of block names are read, and nothing else. -/
theorem read?_eq_some_iff : read? text = some b ↔ Written text b :=
  ⟨written_of_read?, read?_of_written⟩

theorem read_eq_ok_iff : read text = .ok b ↔ Written text b := by
  rw [← read?_eq_some_iff, read]
  cases read? text with
  | none => simp
  | some id => simp

/-- What is written for a block name is a text of it. -/
theorem written_render (b : BlockId) : Written b.render b := by
  obtain ⟨a, _ | c⟩ := b
  · exact .plain (Numeral.decimal_toString a.toNat)
  · exact .copy (Numeral.decimal_toString a.toNat) (Numeral.decimal_toString c.toNat)

/-- No text of a block name has a colon in it. -/
theorem Written.not_mem_colon (h : Written text b) : ¬ ':' ∈ text.toList := by
  cases h with
  | plain ha => exact ha.not_mem ':' (by decide) (by decide)
  | copy ha hc =>
    have ha' := ha.not_mem ':' (by decide) (by decide)
    have hc' := hc.not_mem ':' (by decide) (by decide)
    simp [String.toList_append, ha', hc']

end BlockId

/-! ### Points -/

/-- A point is read from the parts before and behind the first colon. -/
theorem Point.read_eq_ok_iff {ι ε : Type} {readBlock : String → Except ε ι} {text : String}
    {p : Point ι} :
    Point.read readBlock text = .ok p ↔ ∃ block index,
      cut? ':' text.toList = some (block, index) ∧ readBlock (String.ofList block) = .ok p.block ∧
        Numeral.read64? (String.ofList index) = some p.index := by
  rw [Point.read]
  cases cut? ':' text.toList with
  | none => simp
  | some parts =>
    obtain ⟨block, index⟩ := parts
    constructor
    · intro h
      refine ⟨block, index, rfl, ?_⟩
      cases hblock : readBlock (String.ofList block) with
      | error fault => simp [hblock] at h
      | ok b =>
        cases hindex : Numeral.read64? (String.ofList index) with
        | none => simp [hblock, hindex] at h
        | some i =>
          simp only [hblock, hindex, Except.ok.injEq] at h
          subst h
          exact ⟨rfl, rfl⟩
    · rintro ⟨block', index', heq, hblock, hindex⟩
      cases heq
      simp [hblock, hindex]

namespace CodePoint

variable {text : String} {p : CodePoint}

theorem read_of_written (h : Written text p) : CodePoint.read text = .ok p := by
  obtain @⟨block, index, b, i, hb, hi⟩ := h
  have hcut : cut? ':' (block ++ ":" ++ index).toList = some (block.toList, index.toList) :=
    (cut?_toList_eq_some_iff ":" (by decide)).2 ⟨by simp, hb.not_mem_colon⟩
  have hread : Point.read BlockId.read (block ++ ":" ++ index) = .ok ⟨b, i.toNat⟩ :=
    Point.read_eq_ok_iff.2 ⟨_, _, hcut, by simpa using BlockId.read_eq_ok_iff.2 hb,
      by simpa using Numeral.read64?_eq_some_iff.2 ⟨i, rfl, hi⟩⟩
  rw [CodePoint.read, hread]

theorem written_of_read (h : CodePoint.read text = .ok p) : Written text p := by
  rw [CodePoint.read] at h
  split at h
  · cases h
  · rename_i q hq
    cases h
    obtain ⟨block, index, hcut, hblock, hindex⟩ := Point.read_eq_ok_iff.1 hq
    obtain ⟨b, n⟩ := p
    obtain ⟨i, rfl, hi⟩ := Numeral.read64?_eq_some_iff.1 hindex
    rw [((cut?_toList_eq_some_iff ":" (by decide)).1 hcut).1]
    exact .mk (BlockId.read_eq_ok_iff.1 hblock) hi

/-- Every fault of a text is reported in the same way. -/
theorem read_eq_error {e : CodeError} (h : CodePoint.read text = .error e) :
    e = .malformedPoint text := by
  rw [CodePoint.read] at h
  split at h
  · cases h
    rfl
  · cases h

/-- Reading what is written for a point, with a position of 64 bits, returns the point; a text is
read as a point exactly if it is a text of it; and a text of no point is reported as malformed. -/
theorem read_exact :
    (∀ (b : BlockId) (i : UInt64),
      CodePoint.read (Point.render ⟨b, i.toNat⟩) = .ok ⟨b, i.toNat⟩) ∧
      ∀ text, (∀ p, CodePoint.read text = .ok p ↔ Written text p) ∧
        ((∀ p, ¬ Written text p) → CodePoint.read text = .error (.malformedPoint text)) := by
  refine ⟨fun b i => ?_, fun text => ⟨fun p => ⟨written_of_read, read_of_written⟩, fun h => ?_⟩⟩
  · exact read_of_written (.mk b.written_render (Numeral.decimal_toString i.toNat))
  · cases hread : CodePoint.read text with
    | error e => rw [read_eq_error hread]
    | ok p => exact absurd (written_of_read hread) (h p)

end CodePoint

end EvmAccess
