import EvmAccess.Domain.Offsets
import EvmAccess.Proofs.Access.Relation

/-!
# The locations that tokens mean

A token is a symbolic name. Once every allocation has a place in memory, it stands for the locations
that the instruction may touch: the bytes of a word, any bytes of an allocation, any bytes at all,
or the value under a storage key. Tokens that may not alias should then stand for locations that do
not overlap.

They do, with one exception. The word at 4 starts inside the scratch word at 0 and ends inside the
one at 32, but regions alias only if they are the same. In the other direction the comparison is as
exact as it can be without the layout: tokens alias only if one of them stands for every location
that the other one stands for, and so they overlap under some layout.

## Main definitions

- `Layout`: a range of bytes for every allocation.
- `Token.MayBe`: the locations that a token stands for under a layout.
- `Token.Meets`: two tokens stand for overlapping locations.
- `Token.Straddles`: the word at 4 and one of the words that it overlaps.
- `Token.Includes`: a token stands for all that another one stands for.

## Main results

- `Token.straddles_of_meets`: tokens that may not alias meet only if they straddle.
- `Token.includes_or_includes`: of tokens that may alias, one stands for all that the other does.
- `Token.meets_iff_straddles`: what aliasing says about bytes, both ways.
-/

namespace EvmAccess

/-! ### Bytes and words -/

/-- Consecutive bytes of memory. -/
structure Span where
  /-- The first byte. -/
  start : Nat
  /-- The number of bytes. -/
  length : Nat

instance : Membership Nat Span := ⟨fun r x => r.start ≤ x ∧ x < r.start + r.length⟩

theorem Span.mem_iff {r : Span} {x : Nat} : x ∈ r ↔ r.start ≤ x ∧ x < r.start + r.length :=
  Iff.rfl

/-- What an instruction touches. -/
inductive Location where
  /-- Bytes of memory. -/
  | bytes (has : Nat → Prop)
  /-- The value under a storage key. -/
  | entry (key : Nat)

namespace Location

/-- The word at an address. -/
def word (a : Nat) : Location := bytes (· ∈ Span.mk a 32)

/-- Whether a byte or a storage key belongs to both locations. Memory and storage are apart. -/
def Overlaps : Location → Location → Prop
  | bytes xs, bytes ys => ∃ x, xs x ∧ ys x
  | entry k, entry l => k = l
  | _, _ => False

theorem overlaps_word_iff {a b : Nat} :
    (word a).Overlaps (word b) ↔ a < b + 32 ∧ b < a + 32 := by
  simp only [word, Overlaps, Span.mem_iff]
  constructor
  · rintro ⟨x, ha, hb⟩
    omega
  · intro h
    exact ⟨max a b, by omega, by omega⟩

theorem overlaps_word_self (a : Nat) : (word a).Overlaps (word a) :=
  overlaps_word_iff.2 ⟨by omega, by omega⟩

theorem Overlaps.symm {x y : Location} (h : x.Overlaps y) : y.Overlaps x := by
  cases x with
  | bytes xs =>
    cases y with
    | bytes ys =>
      obtain ⟨b, hx, hy⟩ := h
      exact ⟨b, hy, hx⟩
    | entry l => cases h
  | entry k =>
    cases y with
    | bytes ys => cases h
    | entry l => exact Eq.symm h

end Location

/-! ### Layouts -/

/-- A place for every allocation. Allocations share no bytes, and the words with a fixed role are
below all of them. -/
structure Layout where
  /-- The bytes of an allocation. -/
  range : Slot → Span
  /-- No byte belongs to two allocations. -/
  apart : ∀ {s t : Slot} {x : Nat}, x ∈ range s → x ∈ range t → s = t
  /-- The first 96 bytes belong to none. -/
  above : ∀ {s : Slot} {x : Nat}, x ∈ range s → 96 ≤ x

namespace Layout

/-- The word at a position of an allocation. -/
def word (layout : Layout) (s : Slot) (o : Nat) : Location :=
  .word ((layout.range s).start + o)

/-- Whether that word is inside the allocation. -/
def HasWord (layout : Layout) (s : Slot) (o : Nat) : Prop := o + 32 ≤ (layout.range s).length

/-- Allocations of 1024 bytes each, in order. -/
def rows : Layout where
  range s := ⟨1024 * (s.number + 1), 1024⟩
  apart {s t x} hs ht := by
    rw [Span.mem_iff] at hs ht
    obtain ⟨n⟩ := s
    obtain ⟨m⟩ := t
    congr 1
    simp only at hs ht
    omega
  above {s x} h := by
    rw [Span.mem_iff] at h
    simp only at h
    omega

end Layout

/-! ### What tokens stand for -/

/-- The address of a word with a fixed role. -/
def Region.address? : Region → Option Nat
  | .mem0 => some 0
  | .mem4 => some 4
  | .mem32 => some 32
  | .mem40 => some 64
  | .unknown => none

namespace Offset

/-- The numbers that an offset stands for. -/
def Allows (target : Target) : Offset → Nat → Prop
  | .exact value, n => n = value
  | .beyond, n => target.bound < n ∧ n % target.granularity = 0
  | .any, _ => True

/-- Whether an exact number is one of those that are followed. -/
def Followed (target : Target) : Offset → Prop
  | .exact value => value ≤ target.bound ∧ value % target.granularity = 0
  | _ => True

/-- Two offsets that are followed and not open have a number in common only if they are the same. -/
theorem eq_of_allows {target : Target} {a b : Offset} {n : Nat} (ha : a.Followed target)
    (hb : b.Followed target) (hopen : a ≠ .any ∧ b ≠ .any) (han : a.Allows target n)
    (hbn : b.Allows target n) : a = b := by
  cases a with
  | exact value =>
    cases b with
    | exact other => exact congrArg Offset.exact (Eq.trans (Eq.symm han) hbn)
    | beyond => exact absurd hbn.1 (Nat.not_lt.2 (han ▸ ha.1))
    | any => exact absurd rfl hopen.2
  | beyond =>
    cases b with
    | exact other => exact absurd han.1 (Nat.not_lt.2 (hbn ▸ hb.1))
    | beyond => rfl
    | any => exact absurd rfl hopen.2
  | any => exact absurd rfl hopen.1

end Offset

namespace Token

/-- Whether the exact number of a token, if it has one, is followed. -/
def Followed : Token → Prop
  | .region _ => True
  | .cell c => c.offset.Followed .memory
  | .key k => k.Followed .storage

/-- The locations that a token stands for. -/
inductive MayBe (layout : Layout) : Token → Location → Prop where
  /-- A region is its word. -/
  | region {r : Region} {a : Nat} : r.address? = some a → MayBe layout (.region r) (.word a)
  /-- Unknown memory is any bytes. -/
  | unknown {has : Nat → Prop} : MayBe layout (.region .unknown) (.bytes has)
  /-- A cell is a word of its allocation, at a position that the offset allows. -/
  | cell {s : Slot} {offset : Offset} {o : Nat} : offset ≠ .any → offset.Allows .memory o →
      layout.HasWord s o → MayBe layout (.cell ⟨s, offset⟩) (layout.word s o)
  /-- If nothing is known of the offset, it is any bytes of its allocation. -/
  | whole {s : Slot} {has : Nat → Prop} : (∀ x, has x → x ∈ layout.range s) →
      MayBe layout (.cell ⟨s, .any⟩) (.bytes has)
  /-- A storage key is the value under one that the offset allows. -/
  | key {k : Offset} {n : Nat} : k.Allows .storage n → MayBe layout (.key k) (.entry n)

/-- Two tokens stand for overlapping locations. -/
def Meets (layout : Layout) (t u : Token) : Prop :=
  ∃ x y, t.MayBe layout x ∧ u.MayBe layout y ∧ x.Overlaps y

/-- One token is the word at 4, and the other one the word in which it starts or ends. -/
def Straddles (t u : Token) : Prop :=
  t = .region .mem4 ∧ (u = .region .mem0 ∨ u = .region .mem32) ∨
    u = .region .mem4 ∧ (t = .region .mem0 ∨ t = .region .mem32)

variable {layout : Layout} {t u : Token} {r r' : Region} {c d : Cell} {k l : Offset}
  {x y : Location}

theorem Meets.symm (h : Meets layout t u) : Meets layout u t := by
  obtain ⟨x, y, hx, hy, hxy⟩ := h
  exact ⟨y, x, hy, hx, hxy.symm⟩

/-! ### Tokens that may not alias -/

/-- A region that is not unknown is a word below all allocations. -/
theorem MayBe.eq_word (h : (Token.region r).MayBe layout x) (hr : r ≠ .unknown) :
    ∃ a, r.address? = some a ∧ x = .word a ∧ a ≤ 64 := by
  cases h with
  | @region _ a ha =>
    refine ⟨a, ha, rfl, ?_⟩
    cases r <;> simp [Region.address?] at ha <;> omega
  | unknown => exact absurd rfl hr

/-- A cell stays inside its allocation. -/
theorem MayBe.inside (h : (Token.cell c).MayBe layout x) :
    ∃ has, x = .bytes has ∧ ∀ b, has b → b ∈ layout.range c.slot := by
  cases h with
  | @cell s offset o hany ho hword =>
    refine ⟨_, rfl, fun b hb => ?_⟩
    simp only [Layout.HasWord, Span.mem_iff] at hb hword ⊢
    omega
  | whole hhas => exact ⟨_, rfl, hhas⟩

/-- A cell whose offset is not open is an aligned word of its allocation. -/
theorem MayBe.eq_slotWord (h : (Token.cell c).MayBe layout x) (hc : c.offset.Followed .memory)
    (hany : c.offset ≠ .any) :
    ∃ o, x = layout.word c.slot o ∧ c.offset.Allows .memory o ∧ o % 32 = 0 := by
  cases h with
  | @cell s offset o hne ho hword =>
    refine ⟨o, rfl, ho, ?_⟩
    cases offset with
    | exact value => exact ho ▸ hc.2
    | beyond => exact ho.2
    | any => exact absurd rfl hne
  | whole => exact absurd rfl hany

/-- Regions that may not alias are different words, and only the word at 4 overlaps others. -/
theorem straddles_of_overlaps (h : (region r).mayAlias (region r') = false)
    (hx : (region r).MayBe layout x) (hy : (region r').MayBe layout y) (hxy : x.Overlaps y) :
    (region r).Straddles (region r') := by
  rw [← Bool.not_eq_true, mayAlias_region, not_or, not_or] at h
  obtain ⟨a, ha, rfl, -⟩ := hx.eq_word h.2.1
  obtain ⟨b, hb, rfl, -⟩ := hy.eq_word h.2.2
  rw [Location.overlaps_word_iff] at hxy
  cases r <;> cases r' <;> simp_all [Region.address?, Straddles] <;> omega

/-- The words with a fixed role are below the allocations. -/
theorem not_overlaps_region_cell (h : (region r).mayAlias (cell c) = false)
    (hx : (region r).MayBe layout x) (hy : (cell c).MayBe layout y) : ¬ x.Overlaps y := by
  rw [← Bool.not_eq_true, mayAlias_region_cell] at h
  obtain ⟨a, -, rfl, ha⟩ := hx.eq_word h
  obtain ⟨has, rfl, hinside⟩ := hy.inside
  rintro ⟨b, hb, hhas⟩
  have habove : 96 ≤ b := layout.above (hinside b hhas)
  rw [Span.mem_iff] at hb
  simp only at hb
  omega

/-- Cells that may not alias are in different allocations, or different words of one. -/
theorem not_overlaps_cell (hc : (cell c).Followed) (hd : (cell d).Followed)
    (h : (cell c).mayAlias (cell d) = false) (hx : (cell c).MayBe layout x)
    (hy : (cell d).MayBe layout y) : ¬ x.Overlaps y := by
  intro hxy
  rw [← Bool.not_eq_true, mayAlias_cell, not_and, not_or, not_or] at h
  by_cases hslot : c.slot = d.slot
  · obtain ⟨hne, hopen⟩ := h hslot
    obtain ⟨o, rfl, ho, halign⟩ := hx.eq_slotWord hc hopen.1
    obtain ⟨q, rfl, hq, halign'⟩ := hy.eq_slotWord hd hopen.2
    rw [Layout.word, Layout.word, hslot, Location.overlaps_word_iff] at hxy
    obtain rfl : o = q := by omega
    exact hne (Offset.eq_of_allows hc hd hopen ho hq)
  · obtain ⟨xs, rfl, hxs⟩ := hx.inside
    obtain ⟨ys, rfl, hys⟩ := hy.inside
    obtain ⟨b, hxb, hyb⟩ := hxy
    exact hslot (layout.apart (hxs b hxb) (hys b hyb))

theorem not_overlaps_key (hk : (key k).Followed) (hl : (key l).Followed)
    (h : (key k).mayAlias (key l) = false) (hx : (key k).MayBe layout x)
    (hy : (key l).MayBe layout y) : ¬ x.Overlaps y := by
  rw [← Bool.not_eq_true, mayAlias_key, not_or, not_or] at h
  obtain ⟨hne, hopen⟩ := h
  cases hx with
  | @key _ n hn =>
    cases hy with
    | @key _ m hm =>
      rintro rfl
      exact hne (Offset.eq_of_allows hk hl hopen hn hm)

/-- Memory and storage are apart. -/
theorem not_overlaps_of_isMemory (ht : t.isMemory = true) (hx : t.MayBe layout x)
    (hy : (key k).MayBe layout y) : ¬ x.Overlaps y := by
  cases hy
  cases hx with
  | key => cases ht
  | region | unknown | cell | whole => exact id

/-- Tokens that may not alias meet only if they straddle. -/
theorem straddles_of_meets (ht : t.Followed) (hu : u.Followed) (h : t.mayAlias u = false)
    (hmeets : Meets layout t u) : t.Straddles u := by
  obtain ⟨x, y, hx, hy, hxy⟩ := hmeets
  -- One case for each pair of kinds; only two regions can overlap.
  cases t with
  | region r =>
    cases u with
    | region r' => exact straddles_of_overlaps h hx hy hxy
    | cell d => exact absurd hxy (not_overlaps_region_cell h hx hy)
    | key l => exact absurd hxy (not_overlaps_of_isMemory rfl hx hy)
  | cell c =>
    cases u with
    | region r' =>
      rw [mayAlias_comm] at h
      exact absurd hxy.symm (not_overlaps_region_cell h hy hx)
    | cell d => exact absurd hxy (not_overlaps_cell ht hu h hx hy)
    | key l => exact absurd hxy (not_overlaps_of_isMemory rfl hx hy)
  | key k =>
    cases u with
    | region r' => exact absurd hxy.symm (not_overlaps_of_isMemory rfl hy hx)
    | cell d => exact absurd hxy.symm (not_overlaps_of_isMemory rfl hy hx)
    | key l => exact absurd hxy (not_overlaps_key ht hu h hx hy)

/-- Tokens that straddle meet under every layout. -/
theorem Straddles.meets (h : t.Straddles u) (layout : Layout) : Meets layout t u := by
  have hfour : ∀ {r : Region}, r = .mem0 ∨ r = .mem32 →
      Meets layout (.region .mem4) (.region r) := by
    rintro r (rfl | rfl)
    · exact ⟨_, _, .region rfl, .region rfl, Location.overlaps_word_iff.2 (by decide)⟩
    · exact ⟨_, _, .region rfl, .region rfl, Location.overlaps_word_iff.2 (by decide)⟩
  rcases h with ⟨rfl, rfl | rfl⟩ | ⟨rfl, rfl | rfl⟩
  · exact hfour (.inl rfl)
  · exact hfour (.inr rfl)
  · exact (hfour (.inl rfl)).symm
  · exact (hfour (.inr rfl)).symm

/-! ### Tokens that may alias -/

/-- One token stands for every location that another one stands for. -/
def Includes (t u : Token) : Prop := ∀ layout x, u.MayBe layout x → t.MayBe layout x

theorem Includes.refl (t : Token) : t.Includes t := fun _ _ h => h

/-- Unknown memory stands for all memory. -/
theorem includes_unknown (hu : u.isMemory = true) : (region .unknown).Includes u := by
  intro layout x hx
  cases hx with
  | region | unknown | cell | whole => exact .unknown
  | key => cases hu

/-- A whole allocation stands for all cells of it. -/
theorem includes_whole (hc : c.offset = .any) (hslot : c.slot = d.slot) :
    (cell c).Includes (cell d) := by
  intro layout x hx
  obtain ⟨has, rfl, hinside⟩ := hx.inside
  rw [← hslot] at hinside
  obtain ⟨s, offset⟩ := c
  obtain rfl : offset = .any := hc
  exact .whole hinside

/-- An open key stands for all keys. -/
theorem includes_key : (key .any).Includes (key l) := by
  intro layout x hx
  cases hx
  exact .key trivial

/-- Of two tokens that may alias, one stands for all that the other one stands for. -/
theorem includes_or_includes (h : t.mayAlias u = true) : t.Includes u ∨ u.Includes t := by
  cases t with
  | region r =>
    cases u with
    | region r' =>
      rcases mayAlias_region.1 h with rfl | rfl | rfl
      · exact .inl (.refl _)
      · exact .inl (includes_unknown rfl)
      · exact .inr (includes_unknown rfl)
    | cell d =>
      obtain rfl := mayAlias_region_cell.1 h
      exact .inl (includes_unknown rfl)
    | key l => exact absurd h (not_mayAlias_key rfl)
  | cell c =>
    cases u with
    | region r' =>
      rw [mayAlias_comm] at h
      obtain rfl := mayAlias_region_cell.1 h
      exact .inr (includes_unknown rfl)
    | cell d =>
      obtain ⟨hslot, hsame | hany | hany⟩ := mayAlias_cell.1 h
      · obtain rfl : c = d := by
          obtain ⟨s, offset⟩ := c
          exact congr (congrArg Cell.mk hslot) hsame
        exact .inl (.refl _)
      · exact .inl (includes_whole hany hslot)
      · exact .inr (includes_whole hany hslot.symm)
    | key l => exact absurd h (not_mayAlias_key rfl)
  | key k =>
    cases u with
    | region | cell =>
      rw [mayAlias_comm] at h
      exact absurd h (not_mayAlias_key rfl)
    | key l =>
      rcases mayAlias_key.1 h with rfl | rfl | rfl
      · exact .inl (.refl _)
      · exact .inl includes_key
      · exact .inr includes_key

/-- In rows of 1024 bytes there is room for all that tokens stand for. -/
theorem exists_mayBe_rows (ht : t.Followed) : ∃ x, t.MayBe .rows x ∧ x.Overlaps x := by
  cases t with
  | region r =>
    cases r with
    | mem0 | mem4 | mem32 | mem40 =>
      exact ⟨_, .region rfl, Location.overlaps_word_self _⟩
    | unknown => exact ⟨.bytes fun _ => True, .unknown, 0, trivial, trivial⟩
  | cell c =>
    obtain ⟨s, offset⟩ := c
    cases offset with
    | exact value =>
      have hword : Layout.rows.HasWord s value := by
        have hvalue : value ≤ 128 := ht.1
        simp only [Layout.HasWord, Layout.rows]
        omega
      exact ⟨_, .cell nofun rfl hword, Location.overlaps_word_self _⟩
    | beyond =>
      have hword : Layout.rows.HasWord s 160 := by
        simp [Layout.HasWord, Layout.rows]
      exact ⟨_, .cell nofun ⟨by decide, rfl⟩ hword, Location.overlaps_word_self _⟩
    | any =>
      have hstart : 1024 * (s.number + 1) ∈ Layout.rows.range s := by
        simp [Span.mem_iff, Layout.rows]
      exact ⟨_, .whole fun _ hx => hx, _, hstart, hstart⟩
  | key k =>
    cases k with
    | exact value => exact ⟨_, .key rfl, rfl⟩
    | beyond => exact ⟨.entry 257, .key ⟨by decide, rfl⟩, rfl⟩
    | any => exact ⟨.entry 0, .key trivial, rfl⟩

theorem meets_rows (ht : t.Followed) (hu : u.Followed) (h : t.mayAlias u = true) :
    Meets .rows t u := by
  rcases includes_or_includes h with hincludes | hincludes
  · obtain ⟨x, hx, hself⟩ := exists_mayBe_rows hu
    exact ⟨x, x, hincludes _ _ hx, hx, hself⟩
  · obtain ⟨x, hx, hself⟩ := exists_mayBe_rows ht
    exact ⟨x, x, hx, hincludes _ _ hx, hself⟩

/-! ### What aliasing says about bytes -/

/-- Tokens that may not alias overlap under some layout exactly if they straddle, and then they do
under every layout; tokens that may alias overlap under some layout. -/
theorem meets_iff_straddles (t u : Token) (ht : t.Followed) (hu : u.Followed) :
    (t.mayAlias u = false → ∀ layout, Meets layout t u ↔ t.Straddles u) ∧
      (t.mayAlias u = true → ∃ layout, Meets layout t u) := by
  refine ⟨fun h layout => ⟨fun hmeets => ?_, fun hstraddles => ?_⟩, fun h => ?_⟩
  · exact straddles_of_meets ht hu h hmeets
  · exact hstraddles.meets layout
  · exact ⟨.rows, meets_rows ht hu h⟩

/-- The scratch word at 0 and the word at 4 are taken not to alias, but share bytes. -/
theorem meets_mem0_mem4 : (region .mem0).mayAlias (region .mem4) = false ∧
    Meets .rows (region .mem0) (region .mem4) := by
  refine ⟨rfl, ?_⟩
  have hiff := (meets_iff_straddles (region .mem0) (region .mem4) trivial trivial).1 rfl .rows
  exact hiff.2 (.inr ⟨rfl, .inl rfl⟩)

end Token

end EvmAccess
