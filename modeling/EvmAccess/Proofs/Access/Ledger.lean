import EvmAccess.Access.Ledger
import EvmAccess.Proofs.Ordered

/-!
# What is in a ledger

A ledger is filled by noting accesses and in no other way. So there are two sides to it: whatever
was noted is there from then on (`Ledger.Has`), and whatever is there was noted (`Ledger.Only`).

## Main results

- `Ledger.has_noteAll_iff`: noting keeps what is there, and adds what is noted.
- `Ledger.Only.noteAll`: noting adds nothing else.
- `Ledger.noteAll_eq_self_iff`: noting leaves a ledger as it is if everything is there already.
-/

namespace EvmAccess

/-! ### Tables -/

namespace PointTable

variable {α : Type} [Ord α] {m : PointTable α} {p : CodePoint} {a : α} {Q : CodePoint → α → Prop}

theorem atPoint_of_get? {s : OrdSet α} (h : m.get? p = some s) : m.atPoint p = s := by
  rw [atPoint, h]
  rfl

/-- What is listed at a point is in the entry of the point. -/
theorem mem_atPoint_iff : a ∈ m.atPoint p ↔ ∃ s, m.get? p = some s ∧ a ∈ s := by
  cases hs : m.get? p with
  | none => simp [atPoint, hs]
  | some s => simp [atPoint, hs]

theorem mem_inBlock {b : BlockId} {e : CodePoint × OrdSet α} :
    e ∈ m.inBlock b ↔ m.get? e.1 = some e.2 ∧ e.1.block = b := by
  rw [inBlock, List.mem_filter, decide_eq_true_iff, OrdMap.get?_eq_some_iff]

/-- Every entry has something, and only things with the property. -/
def Only (Q : CodePoint → α → Prop) (m : PointTable α) : Prop :=
  m.Every fun p s => (∃ a, a ∈ s) ∧ ∀ a ∈ s, Q p a

theorem Only.mono {R : CodePoint → α → Prop} (h : m.Only Q) (hQR : ∀ p a, Q p a → R p a) :
    m.Only R :=
  OrdMap.Every.mono h fun p _ hs => ⟨hs.1, fun a ha => hQR p a (hs.2 a ha)⟩

/-- What is listed at a point has the property. -/
theorem Only.of_mem (h : m.Only Q) (ha : a ∈ m.atPoint p) : Q p a := by
  obtain ⟨s, hs, ha⟩ := mem_atPoint_iff.1 ha
  exact (h p s hs).2 a ha

/-- A property of points holds wherever there is an entry. -/
theorem Only.of_get? {Q : CodePoint → Prop} {s : OrdSet α} (h : m.Only fun p _ => Q p)
    (hs : m.get? p = some s) : Q p := by
  obtain ⟨⟨a, ha⟩, hQ⟩ := h p s hs
  exact hQ a ha

/-- Where there is an entry, the property of the point and that of its things can be told apart. -/
theorem Only.and_of_get? {P : CodePoint → Prop} {Q : α → Prop} {s : OrdSet α}
    (h : m.Only fun p a => P p ∧ Q a) (hs : m.get? p = some s) : P p ∧ ∀ a ∈ s, Q a :=
  ⟨(h.mono fun _ _ hPQ => hPQ.1).of_get? hs, fun a ha => ((h p s hs).2 a ha).2⟩

/-- Nothing is entered in other blocks. -/
theorem Only.inBlock_eq_nil {Q : BlockId → Prop} {b : BlockId} (h : m.Only fun p _ => Q p.block)
    (hb : ¬ Q b) : m.inBlock b = [] := by
  refine List.eq_nil_iff_forall_not_mem.2 fun e he => hb ?_
  obtain ⟨hget, rfl⟩ := mem_inBlock.1 he
  exact h.of_get? hget

variable [Std.TransOrd α] [Std.LawfulEqOrd α]

/-- Adding what is there changes nothing. -/
theorem add_eq_self (h : a ∈ m.atPoint p) : m.add p a = m := by
  obtain ⟨s, hs, ha⟩ := mem_atPoint_iff.1 h
  have hsame : s.insert a = s := OrdSet.ext fun b => by
    rw [OrdSet.mem_insert, or_iff_right_of_imp fun hb => hb ▸ ha]
  refine OrdMap.ext fun q => ?_
  by_cases hq : q = p
  · rw [hq, add, OrdMap.get?_alter_self, hs, Option.getD_some, hsame]
  · rw [add, OrdMap.get?_alter_of_ne hq]

theorem Only.add (h : m.Only Q) (ha : Q p a) : (m.add p a).Only Q := by
  intro q s hs
  by_cases hq : q = p
  · subst hq
    rw [PointTable.add, OrdMap.get?_alter_self] at hs
    obtain rfl := Option.some.inj hs
    refine ⟨⟨a, OrdSet.mem_insert.2 (Or.inl rfl)⟩, fun b hb => ?_⟩
    rcases OrdSet.mem_insert.1 hb with rfl | hb
    · exact ha
    · cases hget : m.get? q with
      | none => simp [hget] at hb
      | some t => exact (h q t hget).2 b (by simpa [hget] using hb)
  · rw [PointTable.add, OrdMap.get?_alter_of_ne hq] at hs
    exact h q s hs

end PointTable

/-! ### Ledgers -/

namespace Ledger

variable {l : Ledger} {p q : CodePoint} {a : Access} {as : List Access}
  {A : CodePoint → Access → Prop}

/-- The access is entered at the point. An address that may have left its allocation is entered
without the point. -/
def Has (l : Ledger) (p : CodePoint) : Access → Prop
  | .read token => token ∈ l.reads.atPoint p
  | .write token => token ∈ l.writes.atPoint p
  | .opens slot => slot ∈ l.opened.atPoint p
  | .closes slot => slot ∈ l.closed.atPoint p
  | .stray => l.strayed = true

/-- Noting an access adds that access and nothing else. -/
theorem has_note_iff {b : Access} :
    (l.note p b).Has q a ↔ l.Has q a ∨ a = b ∧ (q = p ∨ a = .stray) := by
  cases a <;> cases b <;> simp [note, Has, PointTable.mem_atPoint_add, or_comm, and_comm]

/-- What is entered at a point was there, or is noted; a stray access is entered everywhere. -/
theorem has_noteAll_iff :
    (l.noteAll p as).Has q a ↔ l.Has q a ∨ a ∈ as ∧ (q = p ∨ a = .stray) := by
  have hfold := foldl_iff_exists (M := fun l : Ledger => l.Has q a)
    (A := fun b => a = b ∧ (q = p ∨ a = .stray)) (fun _ _ => has_note_iff) as l
  refine hfold.trans (or_congr_right ?_)
  constructor
  · rintro ⟨_, ha, rfl, hq⟩
    exact ⟨ha, hq⟩
  · rintro ⟨ha, hq⟩
    exact ⟨_, ha, rfl, hq⟩

/-- Noting keeps what is there. -/
theorem Has.noteAll (h : l.Has p a) (q : CodePoint) (as : List Access) :
    (l.noteAll q as).Has p a :=
  has_noteAll_iff.2 (Or.inl h)

/-- What is noted is there. -/
theorem has_noteAll (h : a ∈ as) : (l.noteAll p as).Has p a :=
  has_noteAll_iff.2 (Or.inr ⟨h, Or.inl rfl⟩)

/-- The reads at a point are those that were there, and those that are noted. -/
theorem mem_reads_noteAll {t : Token} :
    t ∈ (l.noteAll p as).reads.atPoint q ↔ t ∈ l.reads.atPoint q ∨ q = p ∧ .read t ∈ as := by
  refine (has_noteAll_iff (a := .read t)).trans (or_congr_right ?_)
  simp [and_comm]

theorem note_eq_self (h : l.Has p a) : l.note p a = l := by
  cases a with
  | stray => exact congrArg (fun b => { l with strayed := b }) (Eq.symm h)
  | _ => simp only [note, PointTable.add_eq_self h]

/-- **Noting leaves a ledger as it is exactly if everything is there already.** -/
theorem noteAll_eq_self_iff : l.noteAll p as = l ↔ ∀ a ∈ as, l.Has p a := by
  constructor
  · intro h a ha
    exact h ▸ has_noteAll ha
  · intro h
    refine List.foldlRecOn (motive := fun l' => l' = l) as _ rfl fun l' hl' a ha => ?_
    rw [hl', note_eq_self (h a ha)]

/-- What one ledger has, the other has too. -/
def Extends (l l' : Ledger) : Prop := ∀ p a, l.Has p a → l'.Has p a

theorem extends_noteAll (l : Ledger) (p : CodePoint) (as : List Access) :
    l.Extends (l.noteAll p as) := fun _ _ h => h.noteAll p as

theorem Extends.noteAll_eq_self {l' : Ledger} (h : l.Extends l') (hl : l.noteAll p as = l) :
    l'.noteAll p as = l' :=
  noteAll_eq_self_iff.2 fun a ha => h p a (noteAll_eq_self_iff.1 hl a ha)

/-- Noting once more changes nothing. -/
theorem noteAll_noteAll (l : Ledger) (p : CodePoint) (as : List Access) :
    (l.noteAll p as).noteAll p as = l.noteAll p as :=
  noteAll_eq_self_iff.2 fun _ ha => has_noteAll ha

/-- Everything in the ledger has the property. -/
structure Only (A : CodePoint → Access → Prop) (l : Ledger) : Prop where
  reads : l.reads.Only fun p t => A p (.read t)
  writes : l.writes.Only fun p t => A p (.write t)
  opened : l.opened.Only fun p s => A p (.opens s)
  closed : l.closed.Only fun p s => A p (.closes s)
  strayed : l.strayed = true → ∃ p, A p .stray

theorem only_empty : Only A ∅ where
  reads := OrdMap.every_empty
  writes := OrdMap.every_empty
  opened := OrdMap.every_empty
  closed := OrdMap.every_empty
  strayed := nofun

theorem Only.note (h : l.Only A) (ha : A p a) : (l.note p a).Only A := by
  cases a with
  | read token => exact { h with reads := h.reads.add ha }
  | write token => exact { h with writes := h.writes.add ha }
  | opens slot => exact { h with opened := h.opened.add ha }
  | closes slot => exact { h with closed := h.closed.add ha }
  | stray => exact { h with strayed := fun _ => ⟨p, ha⟩ }

theorem Only.mono {B : CodePoint → Access → Prop} (h : l.Only A) (hAB : ∀ p a, A p a → B p a) :
    l.Only B where
  reads := h.reads.mono fun p _ => hAB p _
  writes := h.writes.mono fun p _ => hAB p _
  opened := h.opened.mono fun p _ => hAB p _
  closed := h.closed.mono fun p _ => hAB p _
  strayed hstray := (h.strayed hstray).imp fun p => hAB p _

/-- Whatever is entered has the property, at some point. -/
theorem Only.of_has (h : l.Only A) (ha : l.Has p a) : ∃ q, A q a := by
  cases a with
  | read token => exact ⟨p, h.reads.of_mem ha⟩
  | write token => exact ⟨p, h.writes.of_mem ha⟩
  | opens slot => exact ⟨p, h.opened.of_mem ha⟩
  | closes slot => exact ⟨p, h.closed.of_mem ha⟩
  | stray => exact h.strayed ha

/-- Noting adds nothing but what is noted. -/
theorem Only.noteAll (h : l.Only A) (has : ∀ a ∈ as, A p a) : (l.noteAll p as).Only A :=
  List.foldlRecOn as _ h fun _ hl a ha => hl.note (has a ha)

end Ledger

end EvmAccess
