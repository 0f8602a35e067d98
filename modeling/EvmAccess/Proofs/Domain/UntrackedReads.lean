import EvmAccess.Proofs.Access.Relation
import EvmAccess.Proofs.Access.Verdicts
import EvmAccess.Proofs.Domain.AddressArithmetic
import EvmAccess.Proofs.Domain.OffsetOrder

/-!
# Reads through operands that are not tracked

An instruction that reads memory through a tracked operand reads from every allocation that the
operand may point into. If the operand is not tracked, it may be an address that was lost on the
way, and the instruction has to be taken to read anything; unless the operand is known to be a
number. Hashes are the exception to this rule in both directions: they are taken to read the scratch
words whatever their operand is, and nothing else.

Numbers are addresses too, of the words with a fixed role. Stores to these words are recorded when
the address is written behind the instruction. Reads of them by other instructions than loads are
not: a number counts as reading nothing, and a hash as reading the first scratch word, and the
second one if the length may be two words. So a value that is stored in a scratch word and returned
from there has no read that the search for a read can find.

## Main results

- `Memory.mem_regionReads_of_hash`, `Memory.mem_regionReads_of_ne`: the regions that are read.
- `Memory.reads_through_operand`: which reads are recorded, and which are not.
- `Memory.search_finds_word_iff`: when a store to a word with a fixed role is seen.
-/

namespace EvmAccess

/-! ### What is known of an operand -/

namespace Memory.Evidence

variable {ev : Evidence} {p : CodePoint} {position : Option Nat} {value n : Nat}

/-- Before the point, the position is known to hold one of some numbers. -/
def ShowsNumbers (ev : Evidence) (p : CodePoint) (position : Option Nat) : Prop :=
  ∃ values, ev.constants? p position = some values ∧ ∀ o ∈ values, ∃ n, o = .exact n

/-- Before the point, the position is known to hold some numbers, of which this is one. -/
def MayShow (ev : Evidence) (p : CodePoint) (position : Option Nat) (value : Nat) : Prop :=
  ∃ values, ev.constants? p position = some values ∧ .exact value ∈ values

/-- Before the point, the position is known to hold this number. -/
def Shows (ev : Evidence) (p : CodePoint) (position : Option Nat) (value : Nat) : Prop :=
  ev.constants? p position = some (.singleton (.exact value))

theorem isNumber_iff : ev.isNumber p position = true ↔ ev.ShowsNumbers p position := by
  rw [isNumber, ShowsNumbers]
  cases ev.constants? p position with
  | none => simp
  | some values =>
    simp only [Option.some.injEq, exists_eq_left', OffsetSet.isExact, OrdSet.all_iff]
    refine forall₂_congr fun o _ => ?_
    cases o <;> simp [Offset.isImprecise]

theorem Shows.showsNumbers (h : ev.Shows p position value) : ev.ShowsNumbers p position :=
  ⟨_, h, fun _ ho => ⟨value, OffsetSet.mem_singleton.1 ho⟩⟩

theorem Shows.mayShow_iff (h : ev.Shows p position value) :
    ev.MayShow p position n ↔ value = n := by
  rw [MayShow, show ev.constants? p position = _ from h]
  simp [OffsetSet.mem_singleton, eq_comm]

end Memory.Evidence

namespace Memory

variable {ev : Evidence} {i : Instruction} {p : CodePoint} {s : MemoryState} {l : Ledger}
  {depth height : Nat} {r : Region} {u : Token}

/-! ### Regions -/

theorem mem_regionReads_of_load (hi : i.opcode = .mload) :
    r ∈ regionReads ev i p height depth ↔ r = .unknown := by
  rw [regionReads, if_pos hi, List.mem_singleton]

/-- A hash is taken to read the first scratch word, and the second one if two words may be
hashed. -/
theorem mem_regionReads_of_hash (hi : i.opcode = .keccak256) :
    r ∈ regionReads ev i p height depth ↔
      r = .mem0 ∨ r = .mem32 ∧ ev.MayShow p (stackItem? height 1) 64 := by
  rw [regionReads, if_neg (by simp [hi]), if_pos hi, Evidence.MayShow]
  cases ev.constants? p (stackItem? height 1) with
  | none => simp
  | some lengths => by_cases h : Offset.exact 64 ∈ lengths <;> simp [h]

/-- Every other instruction reads unknown memory, or nothing if the operand is a number. -/
theorem mem_regionReads_of_ne (hload : i.opcode ≠ .mload) (hhash : i.opcode ≠ .keccak256) :
    r ∈ regionReads ev i p height depth ↔
      r = .unknown ∧ ¬ ev.ShowsNumbers p (stackItem? height depth) := by
  rw [regionReads, if_neg hload, if_neg hhash, ← Evidence.isNumber_iff]
  cases ev.isNumber p (stackItem? height depth) <;> simp

/-- Hashes are never taken to read unknown memory. -/
theorem unknown_mem_regionReads_iff (h : ¬ ev.ShowsNumbers p (stackItem? height depth)) :
    .unknown ∈ regionReads ev i p height depth ↔ i.opcode ≠ .keccak256 := by
  by_cases hhash : i.opcode = .keccak256
  · simp [mem_regionReads_of_hash hhash, hhash]
  by_cases hload : i.opcode = .mload
  · simp [mem_regionReads_of_load hload, hload]
  · simp [mem_regionReads_of_ne hload hhash, hhash, h]

/-- What is recorded for an operand that is not tracked. -/
theorem mem_reads_step_of_untracked (h : source? i = some depth) (hs : s.fromTop? depth = none) :
    u ∈ ((domain ev).step i p s l).2.reads.atPoint p ↔
      u ∈ l.reads.atPoint p ∨ ∃ r ∈ regionReads ev i p s.height depth, .region r = u := by
  rw [mem_reads_step, and_iff_right rfl, readTokens_of_untracked h hs, List.mem_map]

/-- Every allocation that a tracked operand points into is read. -/
theorem exists_mem_reads_step_of_tracked (h : source? i = some depth) {cells : CellSet}
    (hs : s.fromTop? depth = some cells) {slot : Slot} (hslot : cells.PointsInto slot) :
    ∃ c : Cell, c.slot = slot ∧ .cell c ∈ ((domain ev).step i p s l).2.reads.atPoint p := by
  obtain ⟨c, hc, rfl⟩ := hslot
  have hread : cellRead i c ∈ readTokens ev i p s := by
    rw [readTokens_of_tracked h hs]
    exact List.mem_map.2 ⟨c, hc, rfl⟩
  refine ⟨if i.opcode = .mload then c else .whole c.slot, ?_,
    mem_reads_step.2 (Or.inr ⟨rfl, hread⟩)⟩
  split <;> rfl

/-- **Reads through an operand.** Through a tracked operand a read is recorded of every allocation
that the operand may point into. If the operand is not tracked and not known to be a number, a read
of unknown memory is recorded, except for hashes: for a hash the ledger gets the first scratch word,
the second one if two words may be hashed, and nothing else. -/
theorem reads_through_operand (ev : Evidence) (i : Instruction) (p : CodePoint) (s : MemoryState)
    (l : Ledger) (h : source? i = some depth) :
    let operand := stackItem? s.height depth
    let reads := ((domain ev).step i p s l).2.reads.atPoint p
    (∀ cells slot, s.fromTop? depth = some cells → cells.PointsInto slot →
      ∃ c : Cell, c.slot = slot ∧ .cell c ∈ reads) ∧
    (s.fromTop? depth = none → ¬ ev.ShowsNumbers p operand →
      (.region .unknown ∈ reads ↔
        .region .unknown ∈ l.reads.atPoint p ∨ i.opcode ≠ .keccak256)) ∧
    (s.fromTop? depth = none → i.opcode = .keccak256 → ∀ u, u ∈ reads ↔
      u ∈ l.reads.atPoint p ∨ u = .region .mem0 ∨
        u = .region .mem32 ∧ ev.MayShow p (stackItem? s.height 1) 64) := by
  refine ⟨fun cells slot hs hslot => exists_mem_reads_step_of_tracked h hs hslot,
    fun hs hnumbers => ?_, fun hs hi u => ?_⟩
  · rw [mem_reads_step_of_untracked h hs, ← unknown_mem_regionReads_iff hnumbers]
    simp only [Token.region.injEq, exists_eq_right]
  · rw [mem_reads_step_of_untracked h hs]
    refine or_congr_right ?_
    simp only [mem_regionReads_of_hash hi]
    constructor
    · rintro ⟨r, rfl | ⟨rfl, hlength⟩, rfl⟩
      · exact Or.inl rfl
      · exact Or.inr ⟨rfl, hlength⟩
    · rintro (rfl | ⟨rfl, hlength⟩)
      · exact ⟨.mem0, Or.inl rfl, rfl⟩
      · exact ⟨.mem32, Or.inr ⟨rfl, hlength⟩, rfl⟩

/-- A stack with two items that are not known to be addresses. -/
def plainItems : MemoryState := ⟨2, ∅, ∅⟩

/-- Through an item of which nothing is known memory may be returned from anywhere, but a hash is
recorded as one of the first scratch word. -/
theorem unknown_read_missing_of_hash :
    let p : CodePoint := ⟨⟨0, none⟩, 9⟩
    .region .unknown ∈ recordedReads noEvidence ⟨.ret, none⟩ p plainItems ∧
      ¬ .region .unknown ∈ recordedReads noEvidence ⟨.keccak256, none⟩ p plainItems := by
  intro p
  have hnone : ¬ noEvidence.ShowsNumbers p (stackItem? plainItems.height 0) :=
    fun ⟨_, h, _⟩ => nomatch h
  obtain ⟨-, hreturn, -⟩ := reads_through_operand noEvidence ⟨.ret, none⟩ p plainItems ∅ rfl
  obtain ⟨-, hhash, -⟩ := reads_through_operand noEvidence ⟨.keccak256, none⟩ p plainItems ∅ rfl
  refine ⟨(hreturn rfl hnone).2 (Or.inr nofun), fun hmem => ?_⟩
  rcases (hhash rfl hnone).1 hmem with hempty | hne
  · exact OrdSet.not_mem_empty _ hempty
  · exact hne rfl

/-! ### Words with a fixed role -/

section Words

variable {store : Instruction} {t : MemoryState} {c n : Nat} {token : Token}

/-- The words that are written by stores with the address written behind them. -/
theorem of_mem_writeTokens (hstore : store.opcode = .mstore)
    (hannotated : store.annotatedAddress? = some c) (hc : c ∈ Offsets.followedWords)
    (htoken : token ∈ writeTokens store t) :
    c = 0 ∧ token = .region .mem0 ∨ c = 32 ∧ token = .region .mem32 ∨
      c = 64 ∧ token = .region .mem40 := by
  simp only [Offsets.followedWords, List.mem_cons, List.not_mem_nil, or_false] at hc
  simp only [writeTokens, hstore, hannotated] at htoken
  rcases hc with rfl | rfl | rfl
  · exact Or.inl ⟨rfl, List.mem_singleton.1 htoken⟩
  · exact Or.inr (Or.inl ⟨rfl, List.mem_singleton.1 htoken⟩)
  · exact Or.inr (Or.inr ⟨rfl, List.mem_singleton.1 htoken⟩)

/-- Of the instructions that read memory at a number, other than loads, only hashes read the word
there: the first scratch word, or the second one if two words are hashed. -/
theorem exists_mayAlias_iff (h : source? i = some depth) (hload : i.opcode ≠ .mload)
    (hs : s.fromTop? depth = none) (haddress : ev.Shows p (stackItem? s.height depth) c)
    (hlength : ev.Shows p (stackItem? s.height (depth + 1)) n)
    (hword : c = 0 ∧ token = .region .mem0 ∨ c = 32 ∧ token = .region .mem32 ∨
      c = 64 ∧ token = .region .mem40) :
    (∃ u ∈ readTokens ev i p s, u.mayAlias token = true) ↔
      i.opcode = .keccak256 ∧ (c = 0 ∨ c = 32 ∧ n = 64) := by
  have hregions : (∃ u ∈ readTokens ev i p s, u.mayAlias token = true) ↔
      ∃ r ∈ regionReads ev i p s.height depth, (Token.region r).mayAlias token = true := by
    rw [readTokens_of_untracked h hs]
    constructor
    · rintro ⟨u, hu, halias⟩
      obtain ⟨r, hr, rfl⟩ := List.mem_map.1 hu
      exact ⟨r, hr, halias⟩
    · rintro ⟨r, hr, halias⟩
      exact ⟨_, List.mem_map.2 ⟨r, hr, rfl⟩, halias⟩
  rw [hregions]
  by_cases hhash : i.opcode = .keccak256
  · obtain rfl : depth = 0 := by simpa [source?, hhash, eq_comm] using h
    simp only [mem_regionReads_of_hash hhash, hlength.mayShow_iff, hhash, true_and]
    rcases hword with ⟨rfl, rfl⟩ | ⟨rfl, rfl⟩ | ⟨rfl, rfl⟩
    · simp [Token.mayAlias_region]
    · simp [Token.mayAlias_region, or_and_right, and_assoc, exists_or]
    · simp [Token.mayAlias_region]
  · simp [mem_regionReads_of_ne hload hhash, haddress.showsNumbers, hhash]

/-- **When a store to a word with a fixed role is seen.** An instruction reads memory, other than by
a load, at a number that is the address of a word with a fixed role. The reads that it records
include one that may mean the word exactly if it is a hash, of the first scratch word or of the
second one with a length of two words. So a value that was stored there before, and that no earlier
read may see, is found to be read exactly then. -/
theorem search_finds_word_iff (ev : Evidence) (i : Instruction) (p : CodePoint) (s : MemoryState)
    (l : Ledger) (h : source? i = some depth) (hload : i.opcode ≠ .mload)
    (hs : s.fromTop? depth = none) (haddress : ev.Shows p (stackItem? s.height depth) c)
    (hlength : ev.Shows p (stackItem? s.height (depth + 1)) n) (hc : c ∈ Offsets.followedWords)
    (hstore : store.opcode = .mstore) (hannotated : store.annotatedAddress? = some c)
    (htoken : token ∈ writeTokens store t) :
    let l' := ((domain ev).step i p s l).2
    let seen := i.opcode = .keccak256 ∧ (c = 0 ∨ c = 32 ∧ n = 64)
    ((∃ u ∈ l'.reads.atPoint p, u.mayAlias token = true) ↔
      (∃ u ∈ l.reads.atPoint p, u.mayAlias token = true) ∨ seen) ∧
    ∀ g w, w ≠ p → l'.Exposed g w token p.block → (∀ q, ¬ l.MayRead w token q) →
      ((l'.searchRead g w token).isSome = true ↔ seen) := by
  intro l' seen
  have hseen : (∃ u ∈ readTokens ev i p s, u.mayAlias token = true) ↔ seen :=
    exists_mayAlias_iff h hload hs haddress hlength
      (of_mem_writeTokens hstore hannotated hc htoken)
  have hreads (q : CodePoint) : (∃ u ∈ l'.reads.atPoint q, u.mayAlias token = true) ↔
      (∃ u ∈ l.reads.atPoint q, u.mayAlias token = true) ∨ q = p ∧ seen := by
    rw [← hseen]
    simp only [l', mem_reads_step, or_and_right, exists_or, and_assoc, exists_and_left]
  refine ⟨by simpa using hreads p, fun g w hw hexposed hunread => ⟨fun hsome => ?_, fun h => ?_⟩⟩
  · obtain ⟨q, hq⟩ := Option.isSome_iff_exists.1 hsome
    obtain ⟨-, hne, hread⟩ := Ledger.exposed_of_searchRead hq
    rcases (hreads q).1 hread with hearlier | ⟨-, h⟩
    · exact absurd ⟨hne, hearlier⟩ (hunread q)
    · exact h
  · exact Ledger.isSome_searchRead hexposed ⟨hw.symm, (hreads p).2 (Or.inr ⟨rfl, h⟩)⟩

end Words

/-- A value is stored in the first scratch word and returned from there. -/
def returningCode : List Instruction :=
  [⟨.caller, none⟩, ⟨.push1, some "0x00"⟩, ⟨.mstore, some "0"⟩, ⟨.push1, some "0x20"⟩,
    ⟨.push1, some "0x00"⟩, ⟨.ret, none⟩]

/-- The program is a single block. -/
def returning : CodeGraph where
  blocks := [⟨⟨0, none⟩, 0, 8, .terminal, returningCode, .none, none, ∅⟩]
  increasing := by decide
  shaped := by decide
  closed := by decide

/-- The constants of the program. -/
def returningEvidence : Evidence where
  slots := ⟨∅, [], 0⟩
  offsets :=
    { facts := (∅ : OrdMap BlockId (Facts OffsetState)).insert ⟨0, none⟩
        ((Facts.start (.initial .memory)).execute Offsets.domain ⟨0, none⟩ returningCode none).1
      pending := []
      visits := 1 }

/-- The ledger of the program before its last instruction. -/
def returningLedger : Ledger :=
  ((domain returningEvidence).trace ⟨0, none⟩ 0 (returningCode.take 5) .initial ∅).2

/-- The store to the scratch word is recorded, but no read of it is found. -/
theorem unseen_store_of_return :
    let store : CodePoint := ⟨⟨0, none⟩, 2⟩
    let l := ((domain returningEvidence).step ⟨.ret, none⟩ ⟨⟨0, none⟩, 5⟩ plainItems
      returningLedger).2
    .region .mem0 ∈ l.writes.atPoint store ∧
      l.searchRead returning store (.region .mem0) = none := by
  intro store l
  have haddress : returningEvidence.Shows ⟨⟨0, none⟩, 5⟩ (some 1) 0 := rfl
  have hlength : returningEvidence.Shows ⟨⟨0, none⟩, 5⟩ (some 0) 32 := rfl
  have hstored : .region .mem0 ∈ writeTokens ⟨.mstore, some "0"⟩ plainItems := List.mem_cons_self
  have hunread (q : CodePoint) : ¬ returningLedger.MayRead store (.region .mem0) q :=
    fun ⟨_, u, hu, _⟩ => OrdSet.not_mem_empty u hu
  obtain ⟨-, hsearch⟩ := search_finds_word_iff returningEvidence ⟨.ret, none⟩ ⟨⟨0, none⟩, 5⟩
    plainItems returningLedger rfl nofun rfl haddress hlength List.mem_cons_self rfl rfl hstored
  have hiff := hsearch returning store (by decide) (.origin rfl) hunread
  refine ⟨by decide, Option.not_isSome_iff_eq_none.1 fun hsome => ?_⟩
  exact absurd (hiff.1 hsome).1 (by decide)

end Memory

end EvmAccess
