import EvmAccess.Proofs.Access.Relation
import EvmAccess.Proofs.Domain.OffsetSoundness
import EvmAccess.Proofs.Solution
import EvmAccess.Proofs.Summary.Entries

/-!
# What a summary says about addresses holds in every run

A summary lists storage accesses that certainly use the same key, storage accesses that certainly
use different keys, and accesses with a constant address. All of this holds in every run that enters
each block with the recorded height of its stack.

The keys of an access are entered in the ledger each time that its block is executed, also from
inputs that have grown since, so an entry may have more keys than runs can use. What matters is that
it lacks none. The last execution of the block has entered all keys that the final state allows, and
this state describes the machine. Numbers that are only known to be above the bound do no harm, even
though additions may wrap around: whatever is listed rests on exact numbers alone.

## Main results

- `Offsets.exists_means_of_uses`: the recorded state allows the word on top of the stack.
- `Offsets.exists_key_of_uses`: the entry of an access has a token for each key that it uses.
- `Token.holds_relationOfSets`: what is certain about sets of keys holds of the keys.
- `Summary.addresses_sound`: what a summary says about addresses.
-/

namespace EvmAccess

/-! ### The words that instructions use -/

/-- Some run has the word on top of the stack when it comes to the point. Runs enter a block with
the recorded height of its stack. -/
def Run.Uses (r : Run BlockId OffsetState) (g : CodeGraph) (entry : BlockId) (p : CodePoint)
    (x : Word) : Prop :=
  ∃ m, g.Reaches (fun b height => ∀ f, r.facts.get? b = some f → f.input.height = height) entry m ∧
    m.block = p.block ∧ m.index = p.index ∧ m.machine.stack.head? = some x

/-- An instruction of the block accesses what constants are followed for. -/
def CodeGraph.Accesses (g : CodeGraph) (target : Target) (b : BlockId) (p : CodePoint) : Prop :=
  p.block = b ∧ ∃ i, g.instruction? p = some i ∧ Summary.isRelevant target i.opcode = true

namespace Offsets

variable {g : CodeGraph} {config : Config} {target : Target} {r : Run BlockId OffsetState}
  {c c' : Option Ledger} {p : CodePoint} {x : Word}

/-- The recorded state allows the word on top of the stack. -/
theorem exists_means_of_uses (hsolve : domain.solve g config (.initial target) c = .ok (r, c'))
    (h : r.Uses g config.entry p x) :
    ∃ f s v wrapped, r.facts.get? p.block = some f ∧ f.before? p.index = some s ∧
      s.target = target ∧ s.fromTop? 0 = some v ∧ v.Means target.bound wrapped x := by
  obtain ⟨r₀, hstart, hrun⟩ := Domain.solve_eq_ok_iff.1 hsolve
  have htarget := recorded_target hstart hrun
  obtain ⟨m, hm, hblock, hindex, hhead⟩ := h
  obtain ⟨f, s, hf, hs, ht, hd⟩ := Domain.exists_before_of_reaches
    (D := fun s wrapped m => s.target = target ∧ s.Describes wrapped m) lawful hsolve
    (fun memory => by
      obtain ⟨f, hf, hd⟩ := describes_entry hstart hrun memory
      exact ⟨f, hf, (htarget _ f hf).1, hd⟩)
    (fun _ _ hD hmove => ⟨hD.1, hD.2.next hmove⟩)
    (fun {t f s wrapped m} hf hle hadmits hD =>
      ⟨(htarget t f hf).1, hD.2.of_leq hle ((htarget t f hf).1.trans hD.1.symm) (hadmits f hf)⟩)
    hm
  rw [List.head?_eq_getElem?] at hhead
  obtain ⟨v, hv, hx⟩ := hd.fromTop hhead
  rw [hblock] at hf
  rw [hindex] at hs
  exact ⟨f, s, v, m.wrapped, hf, hs, ht, hv, ht ▸ hx⟩

/-! ### The keys in the ledger -/

/-- An instruction that makes one kind of access makes it in all states, to all keys there. -/
theorem mem_accesses_of_mem {mk : Token → Access} (hmk : mk = .read ∨ mk = .write)
    {i : Instruction} {s : OffsetState} {t : Token} (h : mk t ∈ accesses i s) :
    Summary.isRelevant .storage i.opcode = true ∧
      ∀ {s : OffsetState} {o}, o ∈ (s.fromTop? 0).getD .top → mk (.key o) ∈ accesses i s := by
  obtain ⟨o, -, ⟨hi, ha⟩ | ⟨hi, ha⟩⟩ := mem_accesses.1 h
  · obtain rfl : mk = .read := hmk.resolve_right (by rintro rfl; cases ha)
    exact ⟨by rw [hi]; rfl, fun ho => mem_accesses.2 ⟨_, ho, Or.inl ⟨hi, rfl⟩⟩⟩
  · obtain rfl : mk = .write := hmk.resolve_left (by rintro rfl; cases ha)
    exact ⟨by rw [hi]; rfl, fun ho => mem_accesses.2 ⟨_, ho, Or.inr ⟨hi, rfl⟩⟩⟩

/-- Each step notes its accesses in the ledger, if there is one. -/
theorem notes_accesses : domain.Notes fun i p s _ c =>
    ∀ l, c = some l → ∀ a ∈ accesses i s, l.Has p a where
  own i p s c l hl a ha := by
    obtain ⟨l₀, -, rfl⟩ := Option.map_eq_some_iff.1 hl
    exact Ledger.has_noteAll ha
  kept h i' p' s' l hl a ha := by
    obtain ⟨l₀, hl₀, rfl⟩ := Option.map_eq_some_iff.1 hl
    exact (h l₀ hl₀ a ha).noteAll p' _

/-- **The entry of an access lacks none of its keys.** Entries stand at loads and stores, and have a
token for each key that a run uses there. -/
theorem exists_key_of_uses {l : Ledger} {b : BlockId}
    (hsolve : domain.solve g config (.initial .storage) (some ∅) = .ok (r, some l))
    {e : CodePoint × OrdSet Token} (he : e ∈ l.reads.inBlock b ++ l.writes.inBlock b) :
    g.Accesses .storage b e.1 ∧ ∀ x, r.Uses g config.entry e.1 x →
      ∃ o wrapped, Token.key o ∈ e.2 ∧ o.Means Target.storage.bound wrapped x := by
  obtain ⟨l', hl', honly⟩ := exists_ledger_of_solve hsolve
  obtain rfl : l = l' := Option.some.inj hl'
  -- Reads and writes are alike: the last execution has noted all keys of the recorded state.
  have hentry : ∀ {table : PointTable Token} {mk : Token → Access}, mk = .read ∨ mk = .write →
      (∀ t, l.Has e.1 (mk t) → t ∈ table.atPoint e.1) →
      (table.Only fun p t => ∃ i s, g.instruction? p = some i ∧ mk t ∈ accesses i s) →
      e ∈ table.inBlock b → g.Accesses .storage b e.1 ∧ ∀ x, r.Uses g config.entry e.1 x →
        ∃ o wrapped, Token.key o ∈ e.2 ∧ o.Means Target.storage.bound wrapped x := by
    intro table mk hmk hhas honly he
    obtain ⟨hget, hblock⟩ := PointTable.mem_inBlock.1 he
    obtain ⟨⟨t, ht⟩, hall⟩ := honly e.1 e.2 hget
    obtain ⟨i, s, hi, ha⟩ := hall t ht
    obtain ⟨hrelevant, haccess⟩ := mem_accesses_of_mem hmk ha
    refine ⟨⟨hblock, i, hi, hrelevant⟩, fun x hx => ?_⟩
    obtain ⟨f, s, v, wrapped, hf, hs, -, hv, o, ho, hm⟩ := exists_means_of_uses hsolve hx
    obtain ⟨_, -, hnoted⟩ := Domain.noted_of_solve notes_accesses hsolve hf hi hs
    have hkey := hhas _ (hnoted l rfl _ (haccess (o := o) (by rw [hv]; exact ho)))
    rw [PointTable.atPoint_of_get? hget] at hkey
    exact ⟨o, wrapped, hkey, hm⟩
  rcases List.mem_append.1 he with he | he
  · exact hentry (Or.inl rfl) (fun _ h => h) honly.reads he
  · exact hentry (Or.inr rfl) (fun _ h => h) honly.writes he

end Offsets

/-! ### Relations between words -/

/-- The words are related in the given way. -/
def Relation.Holds (x y : Word) : Relation → Prop
  | .equal => x = y
  | .notEqual => x ≠ y
  | .unknown => True

theorem Relation.Holds.symm {x y : Word} {rel : Relation} (h : rel.Holds x y) : rel.Holds y x := by
  cases rel with
  | equal => exact Eq.symm h
  | notEqual => exact Ne.symm h
  | unknown => trivial

/-- **What is certain about sets of keys holds of the keys**, if each set has a token for its
key. -/
theorem Token.holds_relationOfSets {s t : OrdSet Token} {a b : Offset} {bound : Nat}
    {wrapped wrapped' : Bool} {x y : Word} (ha : key a ∈ s) (hx : a.Means bound wrapped x)
    (hb : key b ∈ t) (hy : b.Means bound wrapped' y) : (relationOfSets s t).Holds x y := by
  cases hrel : relationOfSets s t with
  | equal =>
    obtain ⟨a', b', rfl, rfl, hab⟩ := relationOfSets_eq_equal_iff.1 hrel
    rw [← OrdSet.mem_singleton.1 ha, ← OrdSet.mem_singleton.1 hb, relation_key] at hab
    obtain ⟨value, rfl, rfl⟩ := Offset.relation_eq_equal_iff.1 hab
    exact BitVec.eq_of_toNat_eq (Eq.trans hx (Eq.symm hy))
  | notEqual =>
    have hab := relationOfSets_eq_notEqual_iff.1 hrel _ ha _ hb
    rw [relation_key] at hab
    obtain ⟨u, v, rfl, rfl, huv⟩ := Offset.relation_eq_notEqual_iff.1 hab
    intro heq
    have hu : x.toNat = u := hx
    have hv : y.toNat = v := hy
    rw [← hu, ← hv, heq] at huv
    exact huv rfl
  | unknown => trivial

/-! ### The facts -/

/-- The pairs are pairs of accesses, and those listed as equal use the same word, those listed as
different two words, whenever runs come to them. -/
structure PairFacts.Right (f : PairFacts) (accesses : CodePoint → Prop)
    (uses : CodePoint → Word → Prop) : Prop where
  /-- The same word. -/
  equal : ∀ e ∈ f.equal, accesses e.first ∧ accesses e.second ∧
    ∀ x y, uses e.first x → uses e.second y → x = y
  /-- Different words. -/
  nonequal : ∀ e ∈ f.nonequal, accesses e.first ∧ accesses e.second ∧
    ∀ x y, uses e.first x → uses e.second y → x ≠ y

namespace Summary

variable {g : CodeGraph} {config : Config} {target : Target} {r : Run BlockId OffsetState}
  {c c' : Option Ledger} {b : BlockId}

/-- Two entries of the ledger that are related are accesses with words that are related. -/
theorem holds_of_relates {l : Ledger} {rel : Relation} {e : PointPair}
    (hsolve : Offsets.domain.solve g config (.initial .storage) (some ∅) = .ok (r, some l))
    (h : l.Relates b rel e) :
    g.Accesses .storage b e.first ∧ g.Accesses .storage b e.second ∧
      ∀ x y, r.Uses g config.entry e.first x → r.Uses g config.entry e.second y →
        rel.Holds x y := by
  obtain ⟨w, hw, o, ho, -, rfl, rfl⟩ := h
  obtain ⟨hwa, hwk⟩ := Offsets.exists_key_of_uses hsolve (List.mem_append_right _ hw)
  obtain ⟨hoa, hok⟩ := Offsets.exists_key_of_uses hsolve ho
  have hholds : ∀ x y, r.Uses g config.entry w.1 x → r.Uses g config.entry o.1 y →
      (Token.relationOfSets w.2 o.2).Holds x y := by
    intro x y hx hy
    obtain ⟨a, wrapped, ha, hmx⟩ := hwk x hx
    obtain ⟨b, wrapped', hb, hmy⟩ := hok y hy
    exact Token.holds_relationOfSets ha hmx hb hmy
  rcases PointPair.ofPoints_cases w.1 o.1 with heq | heq
  · rw [heq]
    exact ⟨hwa, hoa, hholds⟩
  · rw [heq]
    exact ⟨hoa, hwa, fun x y hx hy => (hholds y x hy hx).symm⟩

/-- A constant that a recorded state shows is the word that runs use. -/
theorem toNat_of_showsConstant {p : CodePoint} {address : Nat}
    (hsolve : Offsets.domain.solve g config (.initial target) c = .ok (r, c'))
    (h : ShowsConstant g r b p address) :
    g.Accesses target b p ∧ ∀ x, r.Uses g config.entry p x → x.toNat = address := by
  obtain ⟨hblock, i, hi, hconst⟩ := h
  rw [constantAddress?] at hconst
  split at hconst
  · cases hconst
  · rename_i s hs
    obtain ⟨f, hf, hbefore⟩ := Run.exists_before_of_stateBefore hs
    split at hconst
    · rename_i hrelevant
      obtain ⟨v, hv, hconst⟩ := Option.bind_eq_some_iff.1 hconst
      constructor
      · -- No run has to come there: recorded states are about the target by themselves.
        obtain ⟨r₀, hstart, hrun⟩ := Domain.solve_eq_ok_iff.1 hsolve
        obtain ⟨hinput, hstates⟩ := Offsets.recorded_target hstart hrun _ f hf
        have htarget : s.target = target := by
          rcases List.mem_cons.1 (List.mem_of_getElem? hbefore) with rfl | hmem
          · exact hinput
          · exact hstates s hmem
        exact ⟨hblock, i, hi, htarget ▸ hrelevant⟩
      · intro x hx
        obtain ⟨f', s', v', wrapped, hf', hs', -, hv', hm⟩ :=
          Offsets.exists_means_of_uses hsolve hx
        obtain rfl := Option.some.inj (hf.symm.trans hf')
        obtain rfl := Option.some.inj (hbefore.symm.trans hs')
        obtain rfl := Option.some.inj (hv.symm.trans hv')
        exact hm.constant hconst
    · cases hconst

/-- **What a summary says about addresses holds in every run.** In the summary of the storage
analysis, the pairs of a block are storage accesses of the block whose keys are equal, or different,
in whatever runs come to them; and an access that is listed with a constant address has that address
each time. The constant addresses of the memory analysis are right in the same sense. -/
theorem addresses_sound (g : CodeGraph) (config : Config) :
    (∀ a, StorageAnalysis.run g config = .ok a → ∀ b f, a.summary.get? b = some f →
      f.storage.Right (g.Accesses .storage b) (a.offsets.Uses g config.entry) ∧
      f.constants.Every fun p address => g.Accesses .storage b p ∧
        ∀ x, a.offsets.Uses g config.entry p x → x.toNat = address) ∧
    ∀ a, MemoryAnalysis.run g config = .ok a → ∀ b f, a.summary.get? b = some f →
      f.constants.Every fun p address => g.Accesses .memory b p ∧
        ∀ x, a.offsets.Uses g config.entry p x → x.toNat = address := by
  constructor
  · intro a ha b f hf
    obtain ⟨c, hsolve, hledger, hsummary⟩ := StorageAnalysis.run_eq_ok_iff.1 ha
    obtain ⟨l, rfl, -⟩ := Offsets.exists_ledger_of_solve hsolve
    rw [hsummary, hledger] at hf
    obtain ⟨hstorage, hconstants⟩ := StorageAnalysis.every_summarize g a.offsets l b f hf
    have hpairs : ∀ rel e, rel ≠ .unknown → e ∈ f.storage.certain rel → l.Relates b rel e := by
      intro rel e hrel he
      rw [hstorage, PairFacts.mem_certain_relate hrel] at he
      refine he.resolve_left ?_
      cases rel <;> exact OrdSet.not_mem_empty e
    refine ⟨⟨fun e he => ?_, fun e he => ?_⟩, fun p address hp => ?_⟩
    · exact holds_of_relates hsolve (hpairs .equal e nofun he)
    · exact holds_of_relates hsolve (hpairs .notEqual e nofun he)
    · exact toNat_of_showsConstant hsolve (hconstants p address hp)
  · intro a ha b f hf p address hp
    obtain ⟨c, c', -, hsolve, -, -, -, hsummary⟩ := MemoryAnalysis.run_eq_ok_iff.1 ha
    rw [hsummary] at hf
    have hconstants := (MemoryAnalysis.every_summarize g a.offsets a.ledger a.reports b f hf).2
    exact toNat_of_showsConstant hsolve (hconstants p address hp)

/-! ### A key from two branches -/

/-- The key of the first store is 5 or 6, depending on the branch; after it, the key 7 is loaded and
stored to. -/
def branching : CodeGraph where
  blocks :=
    [⟨⟨0, none⟩, 0, 6, .conditional,
       [⟨.caller, none⟩, ⟨.push1, some "0x05"⟩, ⟨.callvalue, none⟩, ⟨.push1, some "0x0b"⟩,
        ⟨.jumpi, none⟩],
       .block ⟨11, none⟩, some ⟨8, none⟩, ∅⟩,
     ⟨⟨8, none⟩, 8, 10, .fallsTo, [⟨.push1, some "0x01"⟩, ⟨.add, none⟩], .none,
       some ⟨11, none⟩, ∅⟩,
     ⟨⟨11, none⟩, 11, 18, .terminal,
       [⟨.jumpdest, none⟩, ⟨.sstore, none⟩, ⟨.push1, some "0x07"⟩, ⟨.sload, none⟩,
        ⟨.push1, some "0x07"⟩, ⟨.sstore, none⟩, ⟨.stop, none⟩],
       .none, none, ∅⟩]
  increasing := by decide
  shaped := by decide
  closed := by decide

/-- The program is analysed from its first block, without a limit. -/
def branchingConfig : Config := ⟨false, 0, ⟨0, none⟩⟩

/-- The finished fixpoint of the program, with its ledger. -/
def branchingSolved : Run BlockId OffsetState × Option Ledger :=
  ((Offsets.domain.engine branching branchingConfig).analyze 4
    ⟨(∅ : OrdMap BlockId _).insert ⟨0, none⟩ (.start (.initial .storage)), [⟨0, none⟩], 0⟩
    (some ∅)).1

/-- The result of the storage analysis of the program. -/
def branchingAnalysis : StorageAnalysis :=
  ⟨branchingSolved.1, branchingSolved.2.getD ∅,
    StorageAnalysis.summarize branching branchingSolved.1 (branchingSolved.2.getD ∅)⟩

/-- A point of the last block. -/
def branchingPoint (index : Nat) : CodePoint := ⟨⟨11, none⟩, index⟩

/-- The program is run with the recorded heights. -/
abbrev BranchingReaches : Moment → Prop :=
  branching.Reaches
    (fun b height => ∀ f, branchingSolved.1.facts.get? b = some f → f.input.height = height)
    branchingConfig.entry

/-- Both blocks after the first are entered with two items on the stack. -/
theorem height_branching {b : BlockId} (hb : b ∈ [⟨8, none⟩, ⟨11, none⟩]) :
    ∀ f, branchingSolved.1.facts.get? b = some f → f.input.height = 2 := by
  have hall : ∀ b ∈ [⟨8, none⟩, ⟨11, none⟩],
      (branchingSolved.1.facts.get? b).map (·.input.height) = some 2 := by decide
  intro f hf
  simpa [hf] using hall b hb

/-- The end of the first block. -/
theorem reaches_branching (memory : Bytes) :
    BranchingReaches ⟨⟨0, none⟩, 5, ⟨[5, 0], memory⟩, false⟩ := by
  have hfive : Instruction.pushValue? ⟨.push1, some "0x05"⟩ = some 5 := by decide
  have heleven : Instruction.pushValue? ⟨.push1, some "0x0b"⟩ = some 11 := by decide
  have h0 : BranchingReaches ⟨⟨0, none⟩, 0, ⟨[], memory⟩, false⟩ := .start memory
  have h1 : BranchingReaches ⟨⟨0, none⟩, 1, ⟨[0], memory⟩, false⟩ :=
    h0.step rfl rfl ⟨⟨[], [0], [], rfl, rfl, rfl, rfl⟩, fun _ => rfl⟩
  have h2 : BranchingReaches ⟨⟨0, none⟩, 2, ⟨[5, 0], memory⟩, false⟩ :=
    h1.step rfl rfl ⟨5, fun value hv => by rw [hfive] at hv; cases hv; rfl, rfl⟩
  have h3 : BranchingReaches ⟨⟨0, none⟩, 3, ⟨[1, 5, 0], memory⟩, false⟩ :=
    h2.step rfl rfl ⟨⟨[], [1], [5, 0], rfl, rfl, rfl, rfl⟩, fun _ => rfl⟩
  have h4 : BranchingReaches ⟨⟨0, none⟩, 4, ⟨[11, 1, 5, 0], memory⟩, false⟩ :=
    h3.step rfl rfl ⟨11, fun value hv => by rw [heleven] at hv; cases hv; rfl, rfl⟩
  exact h4.step rfl rfl ⟨⟨[11, 1], [], [5, 0], rfl, rfl, rfl, rfl⟩, fun _ => rfl⟩

/-- The first store uses the key 6 if the branch is not taken. -/
theorem uses_branching_six : branchingSolved.1.Uses branching ⟨0, none⟩ (branchingPoint 1) 6 := by
  have hone : Instruction.pushValue? ⟨.push1, some "0x01"⟩ = some 1 := by decide
  have h0 : BranchingReaches ⟨⟨8, none⟩, 0, ⟨[5, 0], fun _ => 0⟩, false⟩ :=
    (reaches_branching _).leave rfl rfl (by decide) (height_branching (by decide))
  have h1 : BranchingReaches ⟨⟨8, none⟩, 1, ⟨[1, 5, 0], fun _ => 0⟩, false⟩ :=
    h0.step rfl rfl ⟨1, fun value hv => by rw [hone] at hv; cases hv; rfl, rfl⟩
  have h2 : BranchingReaches ⟨⟨8, none⟩, 2, ⟨[6, 0], fun _ => 0⟩, false⟩ :=
    h1.step rfl rfl ⟨1, 5, [0], rfl, rfl⟩
  have h3 : BranchingReaches ⟨⟨11, none⟩, 0, ⟨[6, 0], fun _ => 0⟩, false⟩ :=
    h2.leave rfl rfl (by decide) (height_branching (by decide))
  have h4 : BranchingReaches ⟨⟨11, none⟩, 1, ⟨[6, 0], fun _ => 0⟩, false⟩ :=
    h3.step rfl rfl ⟨⟨[], [], [6, 0], rfl, rfl, rfl, rfl⟩, fun _ => rfl⟩
  exact ⟨_, h4, rfl, rfl, rfl⟩

/-- The load uses the key 7. -/
theorem uses_branching_seven :
    branchingSolved.1.Uses branching ⟨0, none⟩ (branchingPoint 3) 7 := by
  have hseven : Instruction.pushValue? ⟨.push1, some "0x07"⟩ = some 7 := by decide
  have h0 : BranchingReaches ⟨⟨11, none⟩, 0, ⟨[5, 0], fun _ => 0⟩, false⟩ :=
    (reaches_branching _).leave rfl rfl (by decide) (height_branching (by decide))
  have h1 : BranchingReaches ⟨⟨11, none⟩, 1, ⟨[5, 0], fun _ => 0⟩, false⟩ :=
    h0.step rfl rfl ⟨⟨[], [], [5, 0], rfl, rfl, rfl, rfl⟩, fun _ => rfl⟩
  have h2 : BranchingReaches ⟨⟨11, none⟩, 2, ⟨[], fun _ => 0⟩, false⟩ :=
    h1.step rfl rfl ⟨⟨[5, 0], [], [], rfl, rfl, rfl, rfl⟩, fun _ => rfl⟩
  have h3 : BranchingReaches ⟨⟨11, none⟩, 3, ⟨[7], fun _ => 0⟩, false⟩ :=
    h2.step rfl rfl ⟨7, fun value hv => by rw [hseven] at hv; cases hv; rfl, rfl⟩
  exact ⟨_, h3, rfl, rfl, rfl⟩

/-- Keys from two branches are told apart from a third one, and two accesses with a constant key are
known to use the same. -/
theorem addresses_branching :
    ∃ f, StorageAnalysis.run branching branchingConfig = .ok branchingAnalysis ∧
      branchingAnalysis.summary.get? ⟨11, none⟩ = some f ∧
      .ofPoints (branchingPoint 3) (branchingPoint 5) ∈ f.storage.equal ∧
      .ofPoints (branchingPoint 1) (branchingPoint 3) ∈ f.storage.nonequal ∧
      f.constants.get? (branchingPoint 3) = some 7 ∧
      branchingSolved.1.Uses branching ⟨0, none⟩ (branchingPoint 1) 6 ∧
      branchingSolved.1.Uses branching ⟨0, none⟩ (branchingPoint 3) 7 ∧
      (6 : Word) ≠ 7 ∧ (7 : Word).toNat = 7 ∧
      f.storage.Right (branching.Accesses .storage ⟨11, none⟩)
        (branchingSolved.1.Uses branching ⟨0, none⟩) := by
  have hrun : StorageAnalysis.run branching branchingConfig = .ok branchingAnalysis := rfl
  have hlisted : ∃ f, branchingAnalysis.summary.get? ⟨11, none⟩ = some f ∧
      .ofPoints (branchingPoint 3) (branchingPoint 5) ∈ f.storage.equal ∧
      .ofPoints (branchingPoint 1) (branchingPoint 3) ∈ f.storage.nonequal ∧
      f.constants.get? (branchingPoint 3) = some 7 := ⟨_, rfl, by decide⟩
  obtain ⟨f, hf, hequal, hnonequal, hconstant⟩ := hlisted
  obtain ⟨hright, hconstants⟩ := (addresses_sound branching branchingConfig).1 _ hrun _ f hf
  have hne : (6 : Word) ≠ 7 :=
    (hright.nonequal _ hnonequal).2.2 6 7 uses_branching_six uses_branching_seven
  have hseven : (7 : Word).toNat = 7 := (hconstants _ 7 hconstant).2 7 uses_branching_seven
  exact ⟨f, hrun, hf, hequal, hnonequal, hconstant, uses_branching_six, uses_branching_seven, hne,
    hseven, hright⟩

end Summary

end EvmAccess
