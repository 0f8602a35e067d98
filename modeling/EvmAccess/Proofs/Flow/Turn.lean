import EvmAccess.Flow.Fixpoint
import EvmAccess.Proofs.Ordered
import Mathlib.Logic.Relation

/-!
# One turn of the engine, and what follows for a whole run

A turn takes the block on top of the stack, executes it, and hands its final state over to each
successor. This module says once what a turn can do: `Run.deliver_cases` for a single delivery,
`Engine.visit_ok_iff` for a visit. From there on nothing has to look into the loop again. What holds
after every turn holds at the end (`Engine.analyze_induct`), and a quantity that falls with every
turn makes the loop end by itself (`Engine.analyze_total`).

The engine takes the pending block on top of its stack. It might as well take any other one, and
most of what can be said does not depend on it. `Engine.Turn` is a visit to any pending block, and
`Engine.Turns` is any number of them.

## Main results

- `Domain.trace_induct`: what each operation keeps, the execution of a block keeps.
- `Run.deliver_cases`: the three things a delivery can do.
- `Engine.visit_ok_iff`: when a visit succeeds, and what it leaves behind.
- `Engine.ended_analyze`: the four ways in which the loop can end.
- `Engine.analyze_induct`: partial correctness of the loop.
- `Engine.analyze_total`: total correctness of the loop.
- `Engine.turns_of_analyze`: the engine's own order of turns is one of many.
- `Engine.every_visit`: what all facts have in common, a turn keeps.
-/

namespace EvmAccess

open Std

variable {ι ω σ γ : Type}

/-! ### Executing a block -/

namespace Domain

theorem final_cons {s t : σ} {states : List σ} : final s (t :: states) = final t states := by
  rw [final, final, List.getLast?_cons]
  rfl

/-- One state for each operation. -/
theorem length_trace (d : Domain ι ω σ γ) (id : ι) (i : Nat) (ops : List ω) (s : σ) (c : γ) :
    (d.trace id i ops s c).1.length = ops.length := by
  induction ops generalizing i s c with
  | nil => rfl
  | cons op ops ih => simp [trace, ih]

/-- What every operation keeps, the execution of a block keeps: `J j` is a property of the state
before the operation at `j`, and `C` one of the context. -/
theorem trace_induct {d : Domain ι ω σ γ} {id : ι} {J : Nat → σ → Prop} {C : γ → Prop}
    {ops : List ω} {i : Nat} {s : σ} {c : γ}
    (hstep : ∀ j op s c, ops[j]? = some op → J (i + j) s → C c →
      J (i + j + 1) (d.step op ⟨id, i + j⟩ s c).1 ∧ C (d.step op ⟨id, i + j⟩ s c).2)
    (hs : J i s) (hc : C c) :
    (∀ j t, (d.trace id i ops s c).1[j]? = some t → J (i + j + 1) t) ∧
      J (i + ops.length) (final s (d.trace id i ops s c).1) ∧ C (d.trace id i ops s c).2 := by
  induction ops generalizing i s c with
  | nil => exact ⟨fun j t h => by simp [trace] at h, hs, hc⟩
  | cons op ops ih =>
    obtain ⟨hs', hc'⟩ := hstep 0 op s c rfl hs hc
    have hstep' : ∀ j op' s c, ops[j]? = some op' → J (i + 1 + j) s → C c →
        J (i + 1 + j + 1) (d.step op' ⟨id, i + 1 + j⟩ s c).1 ∧
          C (d.step op' ⟨id, i + 1 + j⟩ s c).2 := by
      intro j op' s c hop hj hcc
      have hji : i + 1 + j = i + (j + 1) := by omega
      rw [hji] at hj ⊢
      exact hstep (j + 1) op' s c (by simpa using hop) hj hcc
    obtain ⟨hall, hfin, hctx⟩ := ih hstep' hs' hc'
    refine ⟨fun j t ht => ?_, ?_, hctx⟩
    · cases j with
      | zero =>
        simp only [trace, List.getElem?_cons_zero, Option.some.injEq] at ht
        exact ht ▸ hs'
      | succ j =>
        simp only [trace, List.getElem?_cons_succ] at ht
        have := hall j t ht
        rwa [show i + 1 + j + 1 = i + (j + 1) + 1 by omega] at this
    · simp only [trace, final_cons, List.length_cons]
      rwa [show i + (ops.length + 1) = i + 1 + ops.length by omega]

/-- The state after an operation comes from the state before it, which for the first operation is
the state at the start of the block. -/
theorem trace_step {d : Domain ι ω σ γ} {id : ι} {ops : List ω} {i j : Nat} {s t : σ} {c : γ}
    {op : ω} (hop : ops[j]? = some op)
    (ht : (s :: (d.trace id i ops s c).1)[j]? = some t) :
    ∃ k, (s :: (d.trace id i ops s c).1)[j + 1]? = some (d.step op ⟨id, i + j⟩ t k).1 := by
  induction ops generalizing i j s c with
  | nil => simp at hop
  | cons op' ops ih =>
    cases j with
    | zero =>
      simp only [List.getElem?_cons_zero, Option.some.injEq] at hop ht
      subst hop ht
      exact ⟨c, rfl⟩
    | succ j =>
      simp only [List.getElem?_cons_succ] at hop ht
      obtain ⟨k, hk⟩ := ih hop (by simpa [trace] using ht)
      refine ⟨k, ?_⟩
      rw [show i + (j + 1) = i + 1 + j by omega, ← hk]
      rfl

/-- Whether the next state never depends on the context. -/
def ContextFree (d : Domain ι ω σ γ) : Prop :=
  ∀ op p s c c', (d.step op p s c).1 = (d.step op p s c').1

theorem ContextFree.trace {d : Domain ι ω σ γ} (h : d.ContextFree) (id : ι) (i : Nat)
    (ops : List ω) (s : σ) (c c' : γ) : (d.trace id i ops s c).1 = (d.trace id i ops s c').1 := by
  induction ops generalizing i s c c' with
  | nil => rfl
  | cons op ops ih =>
    have hs : (d.step op ⟨id, i⟩ s c).1 = (d.step op ⟨id, i⟩ s c').1 := h op _ s c c'
    simp only [Domain.trace, hs]
    rw [ih]

/-- The last state of a block is the one at its end. -/
theorem final_eq_getElem (s : σ) (states : List σ) :
    (s :: states)[states.length]? = some (final s states) := by
  induction states generalizing s with
  | nil => rfl
  | cons t states ih => rw [final_cons, ← ih t, List.length_cons, List.getElem?_cons_succ]

theorem final_mem (s : σ) (states : List σ) : final s states ∈ s :: states :=
  List.mem_of_getElem? (final_eq_getElem s states)

end Domain

/-! ### Handing a state over -/

section Deliver

variable [Ord ι] [TransOrd ι] [LawfulEqOrd ι] [DecidableEq ι]

namespace Run

omit [DecidableEq ι] in
/-- A delivery finds a block, finds that it is covered, or makes an input grow. -/
theorem deliver_cases (o : JoinOrder σ) (t : ι) (s : σ) (r : Run ι σ) :
    (r.facts.get? t = none ∧
      r.deliver o t s =
        { r with facts := r.facts.insert t (.start s), pending := t :: r.pending }) ∨
    (∃ f, r.facts.get? t = some f ∧ o.leq s f.input = true ∧ r.deliver o t s = r) ∨
    (∃ f, r.facts.get? t = some f ∧ o.leq s f.input = false ∧
      r.deliver o t s =
        { r with
          facts := r.facts.insert t { f with input := o.join f.input s, states := [] }
          pending := t :: r.pending }) := by
  cases hf : r.facts.get? t with
  | none => exact Or.inl ⟨rfl, by simp [deliver, hf]⟩
  | some f =>
    cases hl : o.leq s f.input with
    | true => exact Or.inr (Or.inl ⟨f, rfl, hl, by simp [deliver, hf, Facts.receive?, hl]⟩)
    | false => exact Or.inr (Or.inr ⟨f, rfl, hl, by simp [deliver, hf, Facts.receive?, hl]⟩)

/-- The run after the states of one block were computed. -/
def enter (r : Run ι σ) (id : ι) (f : Facts σ) : Run ι σ :=
  { r with facts := r.facts.insert id f, visits := r.visits + 1 }

theorem get?_enter {r : Run ι σ} {id b : ι} {f : Facts σ} :
    (r.enter id f).facts.get? b = if b = id then some f else r.facts.get? b :=
  OrdMap.get?_insert

/-- A fresh run knows the entry, and has it pending. -/
theorem start_eq_ok_iff {g : Graph ι ω} {entry : ι} {s : σ} {r : Run ι σ} :
    start g entry s = .ok r ↔
      g.contains entry = true ∧
        r = ⟨(∅ : OrdMap ι (Facts σ)).insert entry (.start s), [entry], 0⟩ := by
  rw [start]
  split
  · rename_i h
    simp only [Except.ok.injEq, h, true_and]
    exact eq_comm
  · rename_i h
    simp [h]

end Run

namespace Facts

/-- The recorded state before the operation at a position; after the last operation this is the
state in which the block is left. -/
def before? (f : Facts σ) (index : Nat) : Option σ := (f.input :: f.states)[index]?

omit [Ord ι] [TransOrd ι] [LawfulEqOrd ι] [DecidableEq ι] in
/-- A block that is new or has grown has one state, at its start. -/
theorem before?_of_states_eq_nil {f : Facts σ} {J : Nat → σ → Prop} (hstates : f.states = [])
    (hin : J 0 f.input) (j : Nat) (s : σ) (hs : f.before? j = some s) : J j s := by
  rw [before?, hstates] at hs
  cases j with
  | zero => exact Option.some.inj hs ▸ hin
  | succ j => cases hs

/-- A block executed from its input in context `c`. -/
def executed (d : Domain ι ω σ γ) (id : ι) (ops : List ω) (s : σ) (c : γ) : Facts σ :=
  ⟨s, some (Domain.final s (d.trace id 0 ops s c).1), (d.trace id 0 ops s c).1⟩

end Facts

namespace Engine

variable {e : Engine ι ω σ γ}

/-- What every delivery keeps, handing a state over to all successors keeps. -/
theorem deliverAll_induct {R : Run ι σ → Prop} {source : ι} {s : σ} {succs : List ι}
    {r : Run ι σ}
    (hstep : ∀ t ∈ succs, e.graph.contains t = true → ∀ r, R r →
      R (r.deliver e.domain.toJoinOrder t s))
    (hr : R r) : R (e.deliverAll source s succs r).1 := by
  induction succs generalizing r with
  | nil => exact hr
  | cons t rest ih =>
    rw [deliverAll]
    split
    · rename_i ht
      exact ih (fun t' h' => hstep t' (List.mem_cons_of_mem _ h'))
        (hstep t List.mem_cons_self ht r hr)
    · exact hr

/-- Handing a state over succeeds if every successor is in the graph. -/
theorem deliverAll_ok_iff (source : ι) (s : σ) (succs : List ι) (r : Run ι σ) :
    (e.deliverAll source s succs r).2 = .ok () ↔
      ∀ t ∈ succs, e.graph.contains t = true := by
  induction succs generalizing r with
  | nil => simp [deliverAll]
  | cons t rest ih =>
    rw [deliverAll]
    split
    · rename_i ht
      rw [ih]
      simp [ht]
    · rename_i ht
      simp [ht]

/-- A visit succeeds if the block is known, both to the graph and to the run, and its edges stay
inside the graph. It leaves the block executed and its final state handed over. -/
theorem visit_ok_iff {id : ι} {r r' : Run ι σ} {c c' : γ} :
    e.visit id r c = ((r', c'), .ok ()) ↔
      ∃ n f, e.graph.node? id = some n ∧ r.facts.get? id = some f ∧
        (∀ t ∈ n.succs, e.graph.contains t = true) ∧
        c' = (e.domain.trace id 0 n.ops f.input c).2 ∧
        r' = (e.deliverAll id (Domain.final f.input (e.domain.trace id 0 n.ops f.input c).1)
          n.succs (r.enter id (.executed e.domain id n.ops f.input c))).1 := by
  cases hn : e.graph.node? id with
  | none => simp [visit, hn]
  | some n =>
    cases hf : r.facts.get? id with
    | none => simp [visit, hn, hf]
    | some f =>
      simp only [visit, hn, hf, Facts.execute, Option.getD_some, Prod.mk.injEq,
        Option.some.injEq, exists_and_left, exists_eq_left']
      rw [← deliverAll_ok_iff id (Domain.final f.input (e.domain.trace id 0 n.ops f.input c).1)
        n.succs (r.enter id (.executed e.domain id n.ops f.input c))]
      constructor
      · rintro ⟨⟨hr, hc⟩, hok⟩
        exact ⟨hok, hc.symm, hr.symm⟩
      · rintro ⟨hok, hc, hr⟩
        exact ⟨⟨hr.symm, hc.symm⟩, hok⟩

/-- A successful visit is counted once. -/
theorem visits_of_visit {id : ι} {r r' : Run ι σ} {c c' : γ}
    (hv : e.visit id r c = ((r', c'), .ok ())) : r'.visits = r.visits + 1 := by
  obtain ⟨n, f, -, -, -, -, rfl⟩ := visit_ok_iff.1 hv
  refine deliverAll_induct (R := fun r' => r'.visits = r.visits + 1) (fun t _ _ r₁ hr => ?_) rfl
  rcases r₁.deliver_cases e.domain.toJoinOrder t _ with ⟨-, heq⟩ | ⟨f, -, -, heq⟩ | ⟨f, -, -, heq⟩
  all_goals
    rw [heq]
    exact hr

/-! ### The loop -/

/-- Without pending blocks the loop ends. -/
theorem analyze_nil {fuel : Nat} {r : Run ι σ} {c : γ} (hp : r.pending = []) :
    e.analyze fuel r c = ((r, c), .ok ()) := by
  unfold analyze
  rw [hp]

/-- Without fuel the loop stops. -/
theorem analyze_zero {r : Run ι σ} {c : γ} {id : ι} {rest : List ι}
    (hp : r.pending = id :: rest) :
    e.analyze 0 r c = ((r, c), .error (.exhausted r.visits)) := by
  unfold analyze
  rw [hp]

/-- With fuel the loop takes the block on top, looks at the limit, and visits the block. -/
theorem analyze_succ {fuel : Nat} {r : Run ι σ} {c : γ} {id : ι} {rest : List ι}
    (hp : r.pending = id :: rest) :
    e.analyze (fuel + 1) r c =
      if e.atLimit { r with pending := rest } then
        (({ r with pending := rest }, c), .error (.noConvergence r.visits))
      else
        match e.visit id { r with pending := rest } c with
        | ((r, c), .error fault) => ((r, c), .error fault)
        | ((r, c), .ok ()) => e.analyze fuel r c := by
  obtain ⟨facts, pending, visits⟩ := r
  obtain rfl : pending = id :: rest := hp
  rfl

/-- How the loop can end, if all its turns keep a property. It runs out of pending blocks or of
fuel; it meets the node limit, with the block on top of the stack already taken off; or a visit
fails. -/
inductive Ended (e : Engine ι ω σ γ) (P : Run ι σ → γ → Prop) :
    (Run ι σ × γ) × Except (Fault ι) Unit → Prop
  | done {r : Run ι σ} {c : γ} : P r c → r.pending = [] → Ended e P ((r, c), .ok ())
  | exhausted {r : Run ι σ} {c : γ} : P r c → Ended e P ((r, c), .error (.exhausted r.visits))
  | limited {r : Run ι σ} {c : γ} (id : ι) : P { r with pending := id :: r.pending } c →
      e.atLimit r = true → Ended e P ((r, c), .error (.noConvergence r.visits))
  | failed {r : Run ι σ} {c : γ} {id : ι} {rest : List ι} {x : Run ι σ × γ} {fault : Fault ι} :
      P r c → r.pending = id :: rest →
      e.visit id { r with pending := rest } c = (x, .error fault) → Ended e P (x, .error fault)

/-- The loop ends in one of these ways. -/
theorem ended_analyze {P : Run ι σ → γ → Prop}
    (hvisit : ∀ {id rest r c r' c'}, P r c → r.pending = id :: rest →
      e.visit id { r with pending := rest } c = ((r', c'), .ok ()) → P r' c')
    {fuel : Nat} {r : Run ι σ} {c : γ} (hP : P r c) : e.Ended P (e.analyze fuel r c) := by
  induction fuel generalizing r c with
  | zero =>
    cases hp : r.pending with
    | nil =>
      rw [analyze_nil hp]
      exact .done hP hp
    | cons id rest =>
      rw [analyze_zero hp]
      exact .exhausted hP
  | succ fuel ih =>
    cases hp : r.pending with
    | nil =>
      rw [analyze_nil hp]
      exact .done hP hp
    | cons id rest =>
      rw [analyze_succ hp]
      split
      · rename_i hlimit
        have hr : { r with pending := id :: rest } = r := by rw [← hp]
        exact .limited (r := { r with pending := rest }) id (hr ▸ hP) hlimit
      · split
        · rename_i hv
          exact .failed hP hp hv
        · rename_i hv
          exact ih (hvisit hP hp hv)

/-- **Partial correctness of the loop.** What every successful turn keeps holds at the end of a run
that succeeds, and then nothing is pending. -/
theorem analyze_induct {P : Run ι σ → γ → Prop}
    (hvisit : ∀ {id rest r c r' c'}, P r c → r.pending = id :: rest →
      e.visit id { r with pending := rest } c = ((r', c'), .ok ()) → P r' c')
    {fuel : Nat} {r r' : Run ι σ} {c c' : γ} (hP : P r c)
    (h : e.analyze fuel r c = ((r', c'), .ok ())) : P r' c' ∧ r'.pending = [] := by
  have hended : e.Ended P (e.analyze fuel r c) := ended_analyze hvisit hP
  rw [h] at hended
  cases hended with
  | done hP' hdone => exact ⟨hP', hdone⟩

/-- **Total correctness of the loop.** If every turn succeeds and lowers `μ`, and there is no node
limit, then the loop ends within `μ` turns. The number of visits and `μ` together never grow. -/
theorem analyze_total {P : Run ι σ → γ → Prop} {μ : Run ι σ → Nat} (hlimit : e.nodeLimit = 0)
    (hvisit : ∀ {id rest r c}, P r c → r.pending = id :: rest →
      ∃ r' c', e.visit id { r with pending := rest } c = ((r', c'), .ok ()) ∧ P r' c' ∧
        μ r' < μ r ∧ r'.visits = r.visits + 1)
    {r : Run ι σ} {c : γ} (hP : P r c) :
    ∃ r' c', (∀ fuel, μ r ≤ fuel → e.analyze fuel r c = ((r', c'), .ok ())) ∧ P r' c' ∧
      r'.pending = [] ∧ r'.visits + μ r' ≤ r.visits + μ r := by
  have hfree : ∀ r : Run ι σ, e.atLimit r = false := fun r => by
    simp [atLimit, visitLimit, hlimit]
  induction hm : μ r using Nat.strongRecOn generalizing r c with
  | _ m ih =>
    cases hp : r.pending with
    | nil =>
      exact ⟨r, c, fun fuel _ => analyze_nil hp, hP, hp, by omega⟩
    | cons id rest =>
      obtain ⟨r₁, c₁, hv, hP₁, hlt, hvisits⟩ := hvisit hP hp
      obtain ⟨r', c', hrun, hP', hdone, hle⟩ := ih (μ r₁) (hm ▸ hlt) hP₁ rfl
      refine ⟨r', c', fun fuel hfuel => ?_, hP', hdone, by omega⟩
      obtain ⟨fuel, rfl⟩ : ∃ k, fuel = k + 1 := ⟨fuel - 1, by omega⟩
      rw [analyze_succ hp, hfree, if_neg Bool.false_ne_true, hv]
      exact hrun fuel (by omega)

/-! ### Turns in any order -/

/-- A turn that takes any pending block, and leaves the others pending in any order. -/
def Turn (e : Engine ι ω σ γ) (x y : Run ι σ × γ) : Prop :=
  ∃ id rest, x.1.pending.Perm (id :: rest) ∧
    e.visit id { x.1 with pending := rest } x.2 = (y, .ok ())

/-- Any number of turns. -/
abbrev Turns (e : Engine ι ω σ γ) : Run ι σ × γ → Run ι σ × γ → Prop :=
  Relation.ReflTransGen e.Turn

/-- A visit that succeeds is a turn. -/
theorem turn_of_visit {x : Run ι σ × γ} (id : ι) (rest : List ι)
    (hp : x.1.pending.Perm (id :: rest))
    (hok : (e.visit id { x.1 with pending := rest } x.2).2 = .ok ()) :
    e.Turn x (e.visit id { x.1 with pending := rest } x.2).1 :=
  ⟨id, rest, hp, Prod.ext rfl hok⟩

/-- What every turn keeps, turns in any order keep. -/
theorem Turns.induct {P : Run ι σ → Prop}
    (hvisit : ∀ {id rest r c r' c'}, P r → r.pending.Perm (id :: rest) →
      e.visit id { r with pending := rest } c = ((r', c'), .ok ()) → P r')
    {x y : Run ι σ × γ} (h : e.Turns x y) (hx : P x.1) : P y.1 := by
  induction h with
  | refl => exact hx
  | tail _ hturn ih =>
    obtain ⟨id, rest, hp, hv⟩ := hturn
    exact hvisit ih hp hv

/-- The engine's own order is one of many. -/
theorem turns_of_analyze {fuel : Nat} {r r' : Run ι σ} {c c' : γ}
    (hrun : e.analyze fuel r c = ((r', c'), .ok ())) :
    e.Turns (r, c) (r', c') ∧ r'.pending = [] := by
  refine analyze_induct (P := fun r' c' => e.Turns (r, c) (r', c')) ?_ .refl hrun
  intro id rest r₁ c₁ r₂ c₂ h hp hv
  exact h.tail ⟨id, rest, .of_eq hp, hv⟩

end Engine

/-! ### Properties of what is recorded -/

namespace Run

variable {o : JoinOrder σ} {r : Run ι σ} {Q Inv : σ → Prop}

/-- The block was reached, and its input has the property. -/
def InputHas (r : Run ι σ) (b : ι) (Q : σ → Prop) : Prop :=
  ∃ f, r.facts.get? b = some f ∧ Q f.input

/-- An execution changes no input. -/
theorem InputHas.enter {b id : ι} {f f' : Facts σ} (h : r.InputHas b Q)
    (hf : r.facts.get? id = some f) (hin : f'.input = f.input) :
    (r.enter id f').InputHas b Q := by
  obtain ⟨fb, hfb, hQ⟩ := h
  by_cases hb : b = id
  · subst hb
    obtain rfl : f = fb := by simpa [hf] using hfb
    exact ⟨f', by simp [get?_enter], hin ▸ hQ⟩
  · exact ⟨fb, by simp [get?_enter, hb, hfb], hQ⟩

/-- A property that joining keeps is never lost by a delivery. -/
theorem InputHas.deliver (hjoin : ∀ s t, Q s → Q (o.join s t)) {b : ι} (h : r.InputHas b Q)
    (t : ι) (s : σ) : (r.deliver o t s).InputHas b Q := by
  obtain ⟨fb, hfb, hQ⟩ := h
  rcases r.deliver_cases o t s with ⟨hn, heq⟩ | ⟨f, -, -, heq⟩ | ⟨f, hf, -, heq⟩
  · have hb : b ≠ t := fun hb => by simp [hb, hn] at hfb
    exact ⟨fb, by simp [heq, OrdMap.get?_insert, hb, hfb], hQ⟩
  · exact ⟨fb, by rw [heq, hfb], hQ⟩
  · by_cases hb : b = t
    · subst hb
      obtain rfl : f = fb := by simpa [hf] using hfb
      rw [heq]
      exact ⟨_, OrdMap.get?_insert.trans (if_pos rfl), hjoin _ _ hQ⟩
    · exact ⟨fb, by simp [heq, OrdMap.get?_insert, hb, hfb], hQ⟩

/-- Every recorded state, at the start of a block or inside it, has the property. -/
def Recorded (r : Run ι σ) (Inv : σ → Prop) : Prop :=
  ∀ b f, r.facts.get? b = some f → Inv f.input ∧ ∀ s ∈ f.states, Inv s

/-- Every recorded state has the property at its position. -/
def Everywhere (r : Run ι σ) (J : ι → Nat → σ → Prop) : Prop :=
  ∀ b f, r.facts.get? b = some f → ∀ j s, f.before? j = some s → J b j s

omit [TransOrd ι] [LawfulEqOrd ι] [DecidableEq ι] in
/-- A state that is found at a point was recorded. -/
theorem mem_of_stateAt {p : Point ι} {relative : Int} {s : σ}
    (h : r.stateAt p relative = .ok s) : ∃ b f, r.facts.get? b = some f ∧ s ∈ f.states := by
  simp only [stateAt] at h
  split at h
  · cases h
  · rename_i f hf
    split at h
    · cases h
    · rename_i s' hs
      cases h
      split at hs
      · exact ⟨p.block, f, hf, List.mem_of_getElem? hs⟩
      · cases hs

theorem Recorded.insert (h : r.Recorded Inv) {b : ι} {f : Facts σ} (hin : Inv f.input)
    (hst : ∀ s ∈ f.states, Inv s) (pending : List ι) (visits : Nat) :
    Recorded ⟨r.facts.insert b f, pending, visits⟩ Inv :=
  OrdMap.Every.insert h ⟨hin, hst⟩

/-- What all facts have in common a delivery keeps, if the facts of a new block have it and those of
a block that grows keep it. -/
theorem every_deliver {P : ι → Facts σ → Prop} (h : r.facts.Every P) {t : ι} {s : σ}
    (hnew : P t (.start s))
    (hgrown : ∀ f, P t f → P t { f with input := o.join f.input s, states := [] }) :
    (r.deliver o t s).facts.Every P := by
  rcases r.deliver_cases o t s with ⟨-, heq⟩ | ⟨f, -, -, heq⟩ | ⟨f, hf, -, heq⟩
  · rw [heq]
    exact h.insert hnew
  · rw [heq]
    exact h
  · rw [heq]
    exact h.insert (hgrown f (h t f hf))

end Run

namespace Engine

variable {e : Engine ι ω σ γ} {Q Inv : σ → Prop} {C : γ → Prop}

/-- A property that joining keeps is never lost by a turn. -/
theorem inputHas_visit (hjoin : ∀ s t, Q s → Q (e.domain.join s t)) {b id : ι} {rest : List ι}
    {r r' : Run ι σ} {c c' : γ} (h : r.InputHas b Q)
    (hv : e.visit id { r with pending := rest } c = ((r', c'), .ok ())) : r'.InputHas b Q := by
  obtain ⟨n, f, -, hf, -, -, rfl⟩ := visit_ok_iff.1 hv
  exact deliverAll_induct (R := fun r => r.InputHas b Q)
    (fun t _ _ _ hr => hr.deliver hjoin t _) (Run.InputHas.enter h hf rfl)

/-- At the start the input of the entry is the initial state. -/
theorem inputHas_start {entry : ι} {s₀ : σ} (hs₀ : Q s₀) {r₀ : Run ι σ}
    (hstart : Run.start e.graph entry s₀ = .ok r₀) : r₀.InputHas entry Q := by
  obtain ⟨-, rfl⟩ := Run.start_eq_ok_iff.1 hstart
  exact ⟨.start s₀, by simp [OrdMap.get?_insert], hs₀⟩

/-- At every turn the input of the entry has every property that the initial state has and that
joining keeps. -/
theorem inputHas_of_turns (hjoin : ∀ s t, Q s → Q (e.domain.join s t)) {entry : ι} {s₀ : σ}
    (hs₀ : Q s₀) {r₀ r : Run ι σ} {c c' : γ} (hstart : Run.start e.graph entry s₀ = .ok r₀)
    (hturns : e.Turns (r₀, c) (r, c')) : r.InputHas entry Q :=
  hturns.induct (P := fun r => r.InputHas entry Q) (fun h _ hv => inputHas_visit hjoin h hv)
    (inputHas_start hs₀ hstart)

theorem inputHas_of_analyze (hjoin : ∀ s t, Q s → Q (e.domain.join s t)) {entry : ι} {s₀ : σ}
    (hs₀ : Q s₀) {r₀ r : Run ι σ} {fuel : Nat} {c c' : γ}
    (hstart : Run.start e.graph entry s₀ = .ok r₀)
    (hrun : e.analyze fuel r₀ c = ((r, c'), .ok ())) : r.InputHas entry Q :=
  inputHas_of_turns hjoin hs₀ hstart (turns_of_analyze hrun).1

/-- What all facts have in common a turn keeps, if the visited block has it when it is executed, and
its successors have it when they get the final state. -/
theorem every_visit {P : ι → Facts σ → Prop} {id : ι} {rest : List ι} {r r' : Run ι σ} {c c' : γ}
    (h : r.facts.Every P) (hv : e.visit id { r with pending := rest } c = ((r', c'), .ok ()))
    (hex : ∀ n f, e.graph.node? id = some n → P id f →
      P id (.executed e.domain id n.ops f.input c))
    (hsucc : ∀ n f t, e.graph.node? id = some n → P id f → t ∈ n.succs →
      e.graph.contains t = true →
        let s := Domain.final f.input (e.domain.trace id 0 n.ops f.input c).1
        P t (.start s) ∧
          ∀ f', P t f' → P t { f' with input := e.domain.join f'.input s, states := [] }) :
    r'.facts.Every P := by
  obtain ⟨n, f, hn, hf, -, -, rfl⟩ := visit_ok_iff.1 hv
  have hP : P id f := h id f hf
  refine deliverAll_induct (R := fun r => r.facts.Every P) (fun t ht hcontains _ hr => ?_) ?_
  · obtain ⟨hnew, hgrown⟩ := hsucc n f t hn hP ht hcontains
    exact Run.every_deliver hr hnew hgrown
  · exact OrdMap.Every.insert h (hex n f hn hP)

/-- A fresh run knows nothing but its entry. -/
theorem every_start {P : ι → Facts σ → Prop} {entry : ι} {s₀ : σ} {r₀ : Run ι σ}
    (hstart : Run.start e.graph entry s₀ = .ok r₀)
    (h : e.graph.contains entry = true → P entry (.start s₀)) : r₀.facts.Every P := by
  obtain ⟨hentry, rfl⟩ := Run.start_eq_ok_iff.1 hstart
  exact OrdMap.every_empty.insert (h hentry)

end Engine

end Deliver

end EvmAccess
