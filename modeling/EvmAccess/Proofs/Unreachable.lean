import EvmAccess.Proofs.Flow.Agreement
import EvmAccess.Proofs.Reachability
import EvmAccess.Proofs.Summary.DeadWrites
import EvmAccess.Proofs.Totality

/-!
# Unreachable blocks

Blocks that no path leads to have no influence on the analyses. This is a statement about two runs,
on two programs that are the same as far as paths from the entry lead. The fixpoints are the same
turn by turn, although each has the fuel of its own program. So the ledgers are the same, and have
entries in blocks that paths lead to only. A search for a read starts at such an entry and follows
edges, so it does not see the difference either.

## Main results

- `CodeGraph.SameFrom`: two programs are the same as far as paths lead.
- `Domain.Ends.eq_of_sameFrom`: fixpoints are the same in both programs.
- `Ledger.classify_of_sameFrom`: verdicts are the same in both programs.
- `analyses_of_sameFrom`: the analyses are the same in both programs, and have nothing to say of
  blocks that no path leads to.
-/

namespace EvmAccess

/-! ### Programs that are the same from an entry on -/

namespace CodeGraph

variable {g g' : CodeGraph} {entry id : BlockId}

/-- Two programs have the same blocks where paths from the entry lead: the same names, instructions
and edges. -/
def SameFrom (g g' : CodeGraph) (entry : BlockId) : Prop :=
  ∀ id n, g.flow.Path entry id ∧ g.flow.node? id = some n ↔
    g'.flow.Path entry id ∧ g'.flow.node? id = some n

theorem SameFrom.symm (h : g.SameFrom g' entry) : g'.SameFrom g entry := fun id n => (h id n).symm

theorem SameFrom.node? (h : g.SameFrom g' entry) (hpath : g.flow.Path entry id) :
    g'.flow.node? id = g.flow.node? id := by
  obtain ⟨n, hn⟩ := Option.isSome_iff_exists.1 hpath.contains
  rw [hn, ((h id n).1 ⟨hpath, hn⟩).2]

theorem SameFrom.path (h : g.SameFrom g' entry) (hpath : g.flow.Path entry id) :
    g'.flow.Path entry id := by
  obtain ⟨n, hn⟩ := Option.isSome_iff_exists.1 hpath.contains
  exact ((h id n).1 ⟨hpath, hn⟩).1

theorem SameFrom.block? (h : g.SameFrom g' entry) (hpath : g.flow.Path entry id) :
    ∃ b b', g.block? id = some b ∧ g'.block? id = some b' ∧ b'.node = b.node := by
  obtain ⟨n, hn⟩ := Option.isSome_iff_exists.1 hpath.contains
  obtain ⟨b, hb, rfl⟩ := node?_flow_eq_some_iff.1 hn
  obtain ⟨b', hb', hnode⟩ := node?_flow_eq_some_iff.1 ((h.node? hpath).trans hn)
  exact ⟨b, b', hb, hb', hnode⟩

/-- The successors of a block that paths lead to are such blocks. -/
theorem path_of_mem_succs {n : Node BlockId Instruction} {t : BlockId}
    (hpath : g.flow.Path entry id) (hn : g.flow.node? id = some n) (ht : t ∈ n.succs) :
    g.flow.Path entry t :=
  .edge hpath hn ht (contains_of_mem_succs hn ht)

/-- Paths stay in a set of names that no edge leaves. If another program has the same nodes there,
they are paths in that program too. -/
theorem path_of_closed {names : List BlockId} (hentry : entry ∈ names)
    (hedge : ∀ id ∈ names, ∀ n ∈ g.flow.node? id, ∀ t ∈ n.succs, t ∈ names)
    (hnode : ∀ id ∈ names, g'.flow.node? id = g.flow.node? id) (hpath : g.flow.Path entry id) :
    id ∈ names ∧ g'.flow.Path entry id := by
  have hcontains : ∀ id ∈ names, g.flow.contains id = true → g'.flow.contains id = true :=
    fun id hid h => by rwa [Graph.contains, hnode id hid]
  induction hpath with
  | refl h => exact ⟨hentry, .refl (hcontains entry hentry h)⟩
  | @edge b t n _ hn ht h ih =>
    have hmem : t ∈ names := hedge b ih.1 n hn t ht
    exact ⟨hmem, .edge ih.2 ((hnode b ih.1).trans hn) ht (hcontains t hmem h)⟩

/-- It is enough that both programs have the same nodes on a set of names which has the entry and
which no edge leaves. -/
theorem sameFrom_of_closed {names : List BlockId} (hentry : entry ∈ names)
    (hedge : ∀ id ∈ names, ∀ n ∈ g.flow.node? id, ∀ t ∈ n.succs, t ∈ names)
    (hnode : ∀ id ∈ names, g'.flow.node? id = g.flow.node? id) : g.SameFrom g' entry := by
  have hedge' : ∀ id ∈ names, ∀ n ∈ g'.flow.node? id, ∀ t ∈ n.succs, t ∈ names :=
    fun id hid n hn => hedge id hid n (hnode id hid ▸ hn)
  intro id n
  constructor
  · rintro ⟨hpath, hn⟩
    obtain ⟨hid, hpath'⟩ := path_of_closed hentry hedge hnode hpath
    exact ⟨hpath', (hnode id hid).trans hn⟩
  · rintro ⟨hpath, hn⟩
    obtain ⟨hid, hpath'⟩ := path_of_closed hentry hedge' (fun id hid => (hnode id hid).symm) hpath
    exact ⟨hpath', (hnode id hid).symm.trans hn⟩

end CodeGraph

/-! ### Fixpoints -/

section Fixpoints

variable {σ γ : Type} {d : Domain BlockId Instruction σ γ} {g g' : CodeGraph} {config : Config}
  {s₀ : σ} {r r' : Run BlockId σ} {c k k' : γ}

/-- The engines of both programs agree on blocks that paths lead to. Without a limit nothing depends
on the number of blocks. -/
theorem CodeGraph.SameFrom.agreesOn (h : g.SameFrom g' config.entry) (hlimit : config.nodeLimit = 0)
    (d : Domain BlockId Instruction σ γ) :
    (d.engine g config).AgreesOn (d.engine g' config)
      fun p _ => g.flow.Path config.entry p.block where
  step := rfl
  limit := by simp [Engine.visitLimit, Domain.engine, hlimit]
  node hpath := h.node? hpath
  edge hpath hn ht := by
    have hpath := CodeGraph.path_of_mem_succs hpath hn ht
    exact (h.path hpath).contains.trans hpath.contains.symm
  leq _ _ := rfl
  join _ _ := rfl

/-- **Fixpoints are the same in both programs.** -/
theorem Domain.Ends.eq_of_sameFrom (h : g.SameFrom g' config.entry) (hlimit : config.nodeLimit = 0)
    (hends : d.Ends g config s₀ c r k) (hends' : d.Ends g' config s₀ c r' k') :
    r = r' ∧ k = k' := by
  obtain ⟨⟨r₀, hstart, hrun⟩, -⟩ := hends
  obtain ⟨⟨r₀', hstart', hrun'⟩, -⟩ := hends'
  obtain ⟨hentry, hr₀⟩ := Run.start_eq_ok_iff.1 hstart
  obtain rfl : r₀' = r₀ := (Run.start_eq_ok_iff.1 hstart').2.trans hr₀.symm
  -- Any fuel that is enough for both programs will do.
  have hsame := (h.agreesOn hlimit d).analyze ((d.engine g config).invariant_path config.entry)
    (c := c) trivial (Run.everywhere_start hstart (.refl hentry)) (max g.visitBudget g'.visitBudget)
  rw [hrun _ (Nat.le_max_left ..), hrun' _ (Nat.le_max_right ..)] at hsame
  injection hsame with hresult
  injection hresult with hr hk
  exact ⟨hr.symm, hk.symm⟩

end Fixpoints

/-! ### Entries of the ledger -/

/-- A domain whose instructions enter accesses at their own points enters them only where paths
lead. -/
theorem Domain.only_path_of_solve {σ γ : Type} {d : Domain BlockId Instruction σ γ} {g : CodeGraph}
    {config : Config} {s₀ : σ} {r : Run BlockId σ} {c c' : γ} (ledger : γ → Ledger)
    (hnote : ∀ i p s c, ∃ accesses, ledger (d.step i p s c).2 = (ledger c).noteAll p accesses)
    (hsolve : d.solve g config s₀ c = .ok (r, c'))
    (hc : (ledger c).Only fun p _ => g.flow.Path config.entry p.block) :
    (ledger c').Only fun p _ => g.flow.Path config.entry p.block := by
  have inv : d.Invariant g config.entry
      (fun c => (ledger c).Only fun p _ => g.flow.Path config.entry p.block) fun _ _ _ => True := by
    refine .of_context fun {p i} s c hpath _ hc => ?_
    obtain ⟨accesses, heq⟩ := hnote i p s c
    rw [heq]
    exact hc.noteAll fun _ _ => hpath
  exact (inv.solve hc trivial hsolve).1

/-- An instruction enters its storage accesses at its own point, if a ledger is kept. -/
theorem Offsets.exists_ledger_step (i : Instruction) (p : CodePoint) (s : OffsetState)
    (c : Option Ledger) :
    ∃ accesses, ((domain.step i p s c).2.getD ∅) = (c.getD ∅).noteAll p accesses := by
  cases c with
  | none => exact ⟨[], rfl⟩
  | some l => exact ⟨accesses i s, rfl⟩

/-! ### Verdicts -/

namespace Ledger

variable {l : Ledger} {g g' : CodeGraph} {entry : BlockId} {w p : CodePoint} {token : Token}

/-- One round of a search. -/
theorem searchFrom_cons {unseen : List (Node BlockId Instruction)} {id : BlockId}
    {rest : List BlockId} :
    l.searchFrom w token unseen (id :: rest) =
      match unseen.find? (·.id = id) with
      | none => l.searchFrom w token unseen rest
      | some n =>
        match l.readIn? w token id with
        | some p => ⟨some p, []⟩
        | none =>
          if l.overwritesIn w token id then
            let result := l.searchFrom w token (Graph.others id unseen) rest
            { result with overwrites := id :: result.overwrites }
          else l.searchFrom w token (Graph.others id unseen) (n.succs ++ rest) := by
  rw [searchFrom]
  split
  · rename_i hid
    simp only [hid]
  · rename_i n hn
    cases l.readIn? w token id <;> simp only [hn]

/-- A search sees only a set of names that has the names on its stack and which no edge leaves. -/
theorem searchFrom_congr {P : BlockId → Prop} {unseen unseen' : List (Node BlockId Instruction)}
    {stack : List BlockId}
    (hedge : ∀ id n, P id → unseen.find? (·.id = id) = some n → ∀ t ∈ n.succs, P t)
    (hnode : ∀ id, P id → unseen'.find? (·.id = id) = unseen.find? (·.id = id))
    (hstack : ∀ id ∈ stack, P id) :
    l.searchFrom w token unseen' stack = l.searchFrom w token unseen stack := by
  fun_induction searchFrom l w token unseen stack generalizing unseen' with
  | case1 unseen => rw [searchFrom]
  | case2 unseen id rest hid ih =>
    obtain ⟨hPid, hrest⟩ := List.forall_mem_cons.1 hstack
    rw [searchFrom_cons, hnode id hPid, hid]
    exact ih hedge hnode hrest
  | case3 unseen id rest n hn p hread =>
    obtain ⟨hPid, hrest⟩ := List.forall_mem_cons.1 hstack
    rw [searchFrom_cons, hnode id hPid, hn, hread]
  | case4 unseen id rest n hn hread how result =>
    rename_i ih
    obtain ⟨hPid, hrest⟩ := List.forall_mem_cons.1 hstack
    rw [searchFrom_cons, hnode id hPid, hn, hread]
    simp only [how, if_true]
    rw [ih (fun b m hb hm => hedge b m hb (Graph.find?_of_others hm))
      (fun b hb => by rw [Graph.find?_others, Graph.find?_others, hnode b hb]) hrest]
  | case5 unseen id rest n hn hread how ih =>
    obtain ⟨hPid, hrest⟩ := List.forall_mem_cons.1 hstack
    rw [searchFrom_cons, hnode id hPid, hn, hread]
    simp only [how, Bool.false_eq_true, if_false]
    refine ih (fun b m hb hm => hedge b m hb (Graph.find?_of_others hm))
      (fun b hb => by rw [Graph.find?_others, Graph.find?_others, hnode b hb])
      (fun b hb => ?_)
    rcases List.mem_append.1 hb with hb | hb
    · exact hedge id n hPid hn b hb
    · exact hrest b hb

theorem searchRead_of_sameFrom (h : g.SameFrom g' entry) (hpath : g.flow.Path entry p.block) :
    l.searchRead g' p token = l.searchRead g p token := by
  have hsame : l.search g' p token = l.search g p token :=
    searchFrom_congr (P := g.flow.Path entry)
      (fun _ _ hid hn _ ht => CodeGraph.path_of_mem_succs hid hn ht) (fun _ hid => h.node? hid)
      fun id hid => List.mem_singleton.1 hid ▸ hpath
  rw [searchRead, hsame, searchRead]

theorem endsInRevert_of_sameFrom (h : g.SameFrom g' entry) (hpath : g.flow.Path entry p.block) :
    endsInRevert g' p = endsInRevert g p := by
  obtain ⟨b, b', hb, hb', hnode⟩ := h.block? hpath
  have hcode : b'.code = b.code := congrArg Node.ops hnode
  simp only [endsInRevert, hb, hb', Option.bind_some, BasicBlock.lastOpcode?, hcode]

/-- **Verdicts are the same in both programs**, on writes where paths lead. -/
theorem classify_of_sameFrom (h : g.SameFrom g' entry)
    (hl : l.Only fun p _ => g.flow.Path entry p.block) : l.classify g' = l.classify g := by
  refine List.map_congr_left fun s hs => ?_
  have hpath : g.flow.Path entry s.1.block := hl.writes.of_mem (mem_stores.1 hs)
  rw [verdict, verdict, endsInRevert_of_sameFrom h hpath, searchRead_of_sameFrom h hpath]

end Ledger

/-! ### Summaries -/

/-- Nothing is related in a block without entries. -/
theorem PairFacts.relate_eq_self {l : Ledger} {id : BlockId} {P : BlockId → Prop} (f : PairFacts)
    (hl : l.Only fun p _ => P p.block) (hid : ¬ P id) : f.relate l id = f := by
  rw [relate, hl.writes.inBlock_eq_nil hid]
  rfl

namespace Summary

variable {g g' : CodeGraph} {entry : BlockId}

/-- There are no facts on blocks of the program that no path from the entry leads to. -/
def Silent (g : CodeGraph) (entry : BlockId) (s : Summary) : Prop :=
  ∀ id, g.flow.contains id = true → ¬ g.flow.Path entry id → s.get? id = some .empty

/-- Two summaries, of two programs, have the same facts on blocks that paths from the entry lead to,
and no facts on other blocks. -/
structure AgreeFrom (g g' : CodeGraph) (entry : BlockId) (s s' : Summary) : Prop where
  same : ∀ {id}, g.flow.Path entry id → ∃ f, s.get? id = some f ∧ s'.get? id = some f
  left : s.Silent g entry
  right : s'.Silent g' entry

variable {s s' : Summary} {facts : BlockId → BasicBlock → BlockFacts}

theorem silent_of_facts (hs : ∀ id, s.get? id = (g.block? id).map (facts id))
    (hempty : ∀ {b}, ¬ g.flow.Path entry b.id → facts b.id b = .empty) : s.Silent g entry := by
  intro id hcontains hpath
  rw [CodeGraph.contains_flow] at hcontains
  obtain ⟨b, hb⟩ := Option.isSome_iff_exists.1 hcontains
  obtain rfl := CodeGraph.id_of_block? hb
  rw [hs, hb, Option.map_some, hempty hpath]

/-- Summaries agree if the facts on a block depend on its instructions, and there are none on blocks
that no path leads to. -/
theorem agreeFrom_of_facts (h : g.SameFrom g' entry)
    (hs : ∀ id, s.get? id = (g.block? id).map (facts id))
    (hs' : ∀ id, s'.get? id = (g'.block? id).map (facts id))
    (hnode : ∀ {id b b'}, b'.node = b.node → facts id b' = facts id b)
    (hempty : ∀ {b}, ¬ g.flow.Path entry b.id → facts b.id b = .empty) :
    AgreeFrom g g' entry s s' where
  same {id} hpath := by
    obtain ⟨b, b', hb, hb', heq⟩ := h.block? hpath
    refine ⟨facts id b, ?_, ?_⟩
    · rw [hs, hb, Option.map_some]
    · rw [hs', hb', Option.map_some, hnode heq]
  left := silent_of_facts hs hempty
  right := silent_of_facts hs' fun hpath => hempty fun hpath' => hpath (h.path hpath')

theorem constantAccesses_of_node (offsets : Run BlockId OffsetState) {b b' : BasicBlock}
    (h : b'.node = b.node) : constantAccesses offsets b' = constantAccesses offsets b := by
  have hid : b'.id = b.id := congrArg Node.id h
  have hcode : b'.code = b.code := congrArg Node.ops h
  rw [constantAccesses, constantAccesses, hid, hcode]

/-- No constants are found in a block that was not reached. -/
theorem constantAccesses_eq_nil {offsets : Run BlockId OffsetState} {b : BasicBlock}
    (h : ¬ offsets.Reached b.id) : constantAccesses offsets b = [] := by
  have hnone : offsets.facts.get? b.id = none := by simpa [Run.Reached] using h
  refine List.filterMap_eq_nil_iff.2 fun e _ => ?_
  have haddress : constantAddress? offsets ⟨b.id, e.2⟩ e.1 = none := by
    rw [constantAddress?, Run.stateBefore_of_none hnone]
  simp only [haddress, Option.map_none]

/-- No store of a block without entries is dead. -/
theorem deadPoints_eq_nil {l : Ledger} {id : BlockId} {P : BlockId → Prop}
    (hl : l.Only fun p _ => P p.block) (hid : ¬ P id) : deadPoints (l.classify g) id = [] := by
  refine List.eq_nil_iff_forall_not_mem.2 fun p hp => hid ?_
  obtain ⟨rfl, r, hr, -, rfl⟩ := mem_deadPoints.1 hp
  exact hl.writes.of_mem (Ledger.mem_classify.1 hr).1

end Summary

/-! ### The analyses -/

/-- **Unreachable blocks have no influence.** Let two programs be the same as far as paths from the
entry lead, and let there be no node limit. Then both analyses succeed on both programs. The results
are equal: the numbering of allocations, the states of all fixpoints, the ledger and the reports, in
their order. The summaries have the same facts on blocks that paths lead to, and no facts on
others. -/
theorem analyses_of_sameFrom {g g' : CodeGraph} {config : Config} (hlimit : config.nodeLimit = 0)
    (hentry : (g.block? config.entry).isSome = true) (h : g.SameFrom g' config.entry) :
    (∃ a a', MemoryAnalysis.run g config = .ok a ∧ MemoryAnalysis.run g' config = .ok a' ∧
      a' = { a with summary := a'.summary } ∧
      Summary.AgreeFrom g g' config.entry a.summary a'.summary) ∧
    ∃ a a', StorageAnalysis.run g config = .ok a ∧ StorageAnalysis.run g' config = .ok a' ∧
      a' = { a with summary := a'.summary } ∧
      Summary.AgreeFrom g g' config.entry a.summary a'.summary := by
  have hentry' : (g'.block? config.entry).isSome = true := by
    rw [← CodeGraph.contains_flow] at hentry ⊢
    exact (h.path (.refl hentry)).contains
  constructor
  · obtain ⟨slots, c, hslots, hends, hrec⟩ := solve_slots hlimit hentry
    obtain ⟨_, _, hslots', hends', hrec'⟩ := solve_slots hlimit hentry'
    obtain ⟨rfl, rfl⟩ := hends.eq_of_sameFrom h hlimit hends'
    obtain ⟨offsets, o, hoffsets, hends⟩ := solve_offsets hlimit hentry .memory none
    obtain ⟨_, _, hoffsets', hends'⟩ := solve_offsets hlimit hentry' .memory none
    obtain ⟨rfl, rfl⟩ := hends.eq_of_sameFrom h hlimit hends'
    obtain ⟨memory, l, hmemory, hends⟩ := solve_memory hlimit hentry hrec offsets c.ledger
    obtain ⟨_, _, hmemory', hends'⟩ := solve_memory hlimit hentry' hrec' offsets c.ledger
    obtain ⟨rfl, rfl⟩ := hends.eq_of_sameFrom h hlimit hends'
    have hstart := Domain.only_path_of_solve Slots.Context.ledger Slots.exists_ledger_step hslots
      Ledger.only_empty
    have hl : l.Only fun p _ => g.flow.Path config.entry p.block :=
      Domain.only_path_of_solve id (fun _ _ _ _ => ⟨_, rfl⟩) hmemory hstart
    have hreports := Ledger.classify_of_sameFrom h hl
    refine ⟨_, _, MemoryAnalysis.run_eq_ok hslots hoffsets hmemory,
      MemoryAnalysis.run_eq_ok hslots' hoffsets' hmemory', by rw [hreports], ?_⟩
    rw [hreports]
    refine Summary.agreeFrom_of_facts h (MemoryAnalysis.get?_summarize g offsets l _)
      (MemoryAnalysis.get?_summarize g' offsets l _) (fun hnode => ?_) (fun hpath => ?_)
    · rw [Summary.constantAccesses_of_node offsets hnode]
    · rw [PairFacts.relate_eq_self _ hl hpath, Summary.deadPoints_eq_nil hl hpath,
        Summary.constantAccesses_eq_nil fun hreached =>
          hpath ((Domain.reached_of_solve hoffsets).1 hreached)]
      rfl
  · obtain ⟨offsets, o, hoffsets, hends⟩ := solve_offsets hlimit hentry .storage (some ∅)
    obtain ⟨_, _, hoffsets', hends'⟩ := solve_offsets hlimit hentry' .storage (some ∅)
    obtain ⟨rfl, rfl⟩ := hends.eq_of_sameFrom h hlimit hends'
    have hl := Domain.only_path_of_solve (·.getD ∅) Offsets.exists_ledger_step hoffsets
      Ledger.only_empty
    refine ⟨_, _, StorageAnalysis.run_eq_ok hoffsets, StorageAnalysis.run_eq_ok hoffsets', rfl, ?_⟩
    refine Summary.agreeFrom_of_facts h (StorageAnalysis.get?_summarize g offsets _)
      (StorageAnalysis.get?_summarize g' offsets _) (fun hnode => ?_) (fun hpath => ?_)
    · rw [Summary.constantAccesses_of_node offsets hnode]
    · rw [PairFacts.relate_eq_self _ hl hpath, Summary.constantAccesses_eq_nil fun hreached =>
        hpath ((Domain.reached_of_solve hoffsets).1 hreached)]
      rfl

/-- A program with a branch, and behind it a block that no path leads to. The block opens and closes
an allocation, stores to memory, and jumps to the end of the branch. -/
def stranded : CodeGraph where
  blocks := MemoryAnalysis.merging.blocks ++
    [⟨⟨17, none⟩, 17, 27, .unconditional,
       [⟨.push1, some "0x40"⟩, ⟨.mload, some "64"⟩, ⟨.dup1, none⟩, ⟨.dup1, none⟩, ⟨.mstore, none⟩,
        ⟨.push1, some "0x40"⟩, ⟨.mstore, some "64"⟩, ⟨.push1, some "0x0b"⟩, ⟨.jump, none⟩],
       .block ⟨11, none⟩, none, ∅⟩]
  increasing := by decide
  shaped := by decide
  closed := by decide

/-- The reports are those of the program without that block, and there are no facts on it. -/
theorem analyses_stranded :
    ∃ a a', MemoryAnalysis.run MemoryAnalysis.merging MemoryAnalysis.mergingConfig = .ok a ∧
      MemoryAnalysis.run stranded MemoryAnalysis.mergingConfig = .ok a' ∧
      a'.reports = a.reports ∧ a'.memory = a.memory ∧
      a'.summary.get? ⟨11, none⟩ = a.summary.get? ⟨11, none⟩ ∧
      a'.summary.get? ⟨17, none⟩ = some .empty := by
  have hedge : ∀ id ∈ [⟨0, none⟩, ⟨8, none⟩, ⟨11, none⟩],
      ∀ n ∈ stranded.flow.node? id, ∀ t ∈ n.succs, t ∈ [⟨0, none⟩, ⟨8, none⟩, ⟨11, none⟩] := by
    decide
  have hnode : ∀ id ∈ [⟨0, none⟩, ⟨8, none⟩, ⟨11, none⟩],
      MemoryAnalysis.merging.flow.node? id = stranded.flow.node? id := by decide
  have hsame := CodeGraph.sameFrom_of_closed List.mem_cons_self hedge hnode
  obtain ⟨⟨a, a', hrun, hrun', heq, hagree⟩, -⟩ := @analyses_of_sameFrom MemoryAnalysis.merging
    stranded MemoryAnalysis.mergingConfig rfl rfl hsame.symm
  have hpath : MemoryAnalysis.merging.flow.Path ⟨0, none⟩ ⟨11, none⟩ :=
    .edge (.refl rfl) rfl (by decide) rfl
  obtain ⟨f, hf, hf'⟩ := hagree.same hpath
  have hlost : ¬ stranded.flow.Path ⟨0, none⟩ ⟨17, none⟩ := fun h =>
    absurd (CodeGraph.path_of_closed List.mem_cons_self hedge hnode h).1 (by decide)
  exact ⟨a, a', hrun, hrun', by rw [heq], by rw [heq], hf'.trans hf.symm,
    hagree.right _ rfl hlost⟩

end EvmAccess
