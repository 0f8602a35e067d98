import EvmAccess.Domain.Slots
import EvmAccess.Proofs.Flow.Termination

/-!
# The domain of open allocations is bounded

Everything that a state lists is a point of the program or an allocation. Allocations are numbered
by the points that open them, and a point that is executed again gets its old number; so the numbers
stay below the number of points, and the landmarks of a state are points, pairs of points, and pairs
of a point and a number.

## Main results

- `Allocations.Numbered.fresh`: fresh numbers stay below the number of points.
- `Slots.step_of_opens`, `Slots.step_of_closes`, `Slots.step_of_not_closes`: what a step can do.
- `Slots.InCode.step`: a step lists only points of the program, and numbered allocations.
- `Slots.lawful`, `Slots.bounded`: the laws of the domain, and that the engine ends on it.
-/

namespace EvmAccess

open Std JoinOrder

/-! ### The points of a graph -/

namespace Graph

variable {ι ω : Type} {g : Graph ι ω}

/-- The points at which an operation stands. -/
def points (g : Graph ι ω) : List (Point ι) :=
  g.nodes.flatMap fun n => (List.range n.ops.length).map fun j => ⟨n.id, j⟩

theorem length_points (g : Graph ι ω) : g.points.length = g.total (·.ops.length) := by
  simp [points, total, List.length_flatMap]

theorem mem_points [DecidableEq ι] {b : ι} {n : Node ι ω} {j : Nat} {op : ω}
    (hn : g.node? b = some n) (hop : n.ops[j]? = some op) : ⟨b, j⟩ ∈ g.points := by
  obtain rfl := id_of_node? hn
  obtain ⟨hj, -⟩ := List.getElem?_eq_some_iff.1 hop
  exact List.mem_flatMap.2
    ⟨n, mem_of_node? hn, List.mem_map.2 ⟨j, List.mem_range.2 hj, rfl⟩⟩

end Graph

/-! ### Numbers of allocations -/

/-- As many numbers as there are points. -/
def Slot.upTo (n : Nat) : List Slot := (List.range n).map Slot.mk

namespace Allocations

variable {points : List CodePoint} {a : Allocations} {p : CodePoint}

/-- Allocations belong to the given points, and are numbered below their number. -/
def Numbered (points : List CodePoint) (a : Allocations) : Prop :=
  Within points (· ∈ Slot.upTo points.length) a.byPoint

/-- The number that comes next is small enough if there is a point without one. -/
theorem Numbered.size_lt (h : Numbered points a) (hp : p ∈ points)
    (hnew : a.byPoint.get? p = none) : a.byPoint.size < points.length := by
  have hkey : ∀ q ∈ a.byPoint.keys, ∃ slot, a.byPoint.get? q = some slot := by
    intro q hq
    obtain ⟨e, he, rfl⟩ := List.mem_map.1 hq
    exact ⟨e.2, OrdMap.get?_eq_some_iff.2 he⟩
  have hnodup : (p :: a.byPoint.keys).Nodup := by
    refine List.nodup_cons.2 ⟨fun hmem => ?_, a.byPoint.nodup_keys⟩
    obtain ⟨slot, hslot⟩ := hkey p hmem
    rw [hnew] at hslot
    cases hslot
  have hsub : p :: a.byPoint.keys ⊆ points := by
    intro q hq
    rcases List.mem_cons.1 hq with rfl | hq
    · exact hp
    · obtain ⟨slot, hslot⟩ := hkey q hq
      exact (h q slot hslot).1
  have hle := hnodup.length_le_of_subset hsub
  simp only [List.length_cons, OrdMap.keys, List.length_map] at hle
  exact hle

/-- Fresh numbers stay below the number of points. -/
theorem Numbered.fresh (h : Numbered points a) (hp : p ∈ points) :
    (a.fresh p).1 ∈ Slot.upTo points.length ∧ Numbered points (a.fresh p).2 := by
  rw [Allocations.fresh]
  cases hslot : a.byPoint.get? p with
  | some slot => exact ⟨(h p slot hslot).2, h⟩
  | none =>
    have hmem : (⟨a.byPoint.size⟩ : Slot) ∈ Slot.upTo points.length :=
      List.mem_map.2 ⟨_, List.mem_range.2 (h.size_lt hp hslot), rfl⟩
    exact ⟨hmem, OrdMap.Every.insert h ⟨hp, hmem⟩⟩

end Allocations

/-! ### Steps -/

/-- What is open are the allocations of the open points. -/
theorem SlotState.mem_openSlots {s : SlotState} {slot : Slot} : slot ∈ s.openSlots ↔
    ∃ q ∈ s.opened, ∃ slots, s.slots.get? q = some slots ∧ slot ∈ slots := by
  rw [openSlots, OrdSet.mem_ofList, List.mem_flatMap]
  refine exists_congr fun q => and_congr_right fun _ => ?_
  cases s.slots.get? q with
  | none => simp
  | some slots => simp [OrdSet.mem_def]

namespace Slots

variable {points : List CodePoint} {i : Instruction} {p : CodePoint} {s : SlotState} {c : Context}

/-- The allocations that an opening point stands for, and the numbering afterwards. -/
def opening (p : CodePoint) (s : SlotState) (a : Allocations) : OrdSet Slot × Allocations :=
  if s.opened.isEmpty then (.singleton (a.fresh p).1, (a.fresh p).2) else (s.openSlots, a)

theorem step_of_opens (h : i.opensAllocation = true) :
    step i p s c = (s.openAt p (opening p s c.allocations).1,
      ⟨(opening p s c.allocations).2,
        c.ledger.noteAll p ((opening p s c.allocations).1.toList.map .opens)⟩) := by
  rw [step, if_pos h]
  rfl

theorem step_of_closes (h : i.opensAllocation = false) (hc : i.closesAllocations = true) :
    step i p s c =
      (s.closeAt p, ⟨c.allocations, c.ledger.noteAll p (s.openSlots.toList.map .closes)⟩) := by
  rw [step, h, hc]
  rfl

theorem step_of_not_closes (h : i.opensAllocation = false) (hc : i.closesAllocations = false) :
    step i p s c = (s, c) := by
  rw [step, h, hc]
  rfl

/-- An instruction enters something at its own point, if at all. -/
theorem exists_ledger_step (i : Instruction) (p : CodePoint) (s : SlotState) (c : Context) :
    ∃ accesses, (step i p s c).2.ledger = c.ledger.noteAll p accesses := by
  cases hopens : i.opensAllocation with
  | true => exact ⟨_, by rw [step_of_opens hopens]⟩
  | false =>
    cases hcloses : i.closesAllocations with
    | true => exact ⟨_, by rw [step_of_closes hopens hcloses]⟩
    | false => exact ⟨[], by rw [step_of_not_closes hopens hcloses]; rfl⟩

/-! ### States -/

/-- States are ordered by their three components. -/
theorem embeds : domain.Embeds ((powerset.prod powerset.pointwise).prod powerset.pointwise)
    fun s => ((s.opened, s.slots), s.closings) where
  leq s t := by
    simp only [domain, SlotState.leq, SlotState.tableLeq, JoinOrder.prod, JoinOrder.pointwise]
    congr 2
    · congr 1
      funext q v
      cases t.slots.get? q <;> rfl
    · funext q v
      cases t.closings.get? q <;> rfl
  join _ _ := rfl

theorem lawful : domain.Lawful :=
  ((lawful_powerset.prod lawful_powerset.pointwise).prod lawful_powerset.pointwise).of_embeds embeds

/-- Everything that is listed is one of the given points, or numbered below their number. -/
def InCode (points : List CodePoint) (s : SlotState) : Prop :=
  ((∀ q ∈ s.opened, q ∈ points) ∧
    Within points (fun t => ∀ slot ∈ t, slot ∈ Slot.upTo points.length) s.slots) ∧
  Within points (fun t => ∀ q ∈ t, q ∈ points) s.closings

theorem InCode.openSlots (h : InCode points s) :
    ∀ slot ∈ s.openSlots, slot ∈ Slot.upTo points.length := by
  intro slot hslot
  obtain ⟨q, -, slots, hq, hslot⟩ := SlotState.mem_openSlots.1 hslot
  exact (h.1.2 q slots hq).2 slot hslot

theorem InCode.openAt (h : InCode points s) (hp : p ∈ points) {slots : OrdSet Slot}
    (hslots : ∀ slot ∈ slots, slot ∈ Slot.upTo points.length) :
    InCode points (s.openAt p slots) := by
  refine ⟨⟨fun q hq => ?_, h.1.2.insert ⟨hp, hslots⟩⟩, h.2⟩
  rcases OrdSet.mem_insert.1 hq with rfl | hq
  · exact hp
  · exact h.1.1 q hq

theorem InCode.closeAt (h : InCode points s) (hp : p ∈ points) :
    InCode points (s.closeAt p) :=
  ⟨⟨fun q hq => absurd hq (OrdSet.not_mem_empty q), h.1.2⟩, h.2.insert ⟨hp, h.1.1⟩⟩

theorem InCode.opening (h : InCode points s) (hp : p ∈ points) {a : Allocations}
    (ha : a.Numbered points) :
    (∀ slot ∈ (opening p s a).1, slot ∈ Slot.upTo points.length) ∧
      (opening p s a).2.Numbered points := by
  rw [Slots.opening]
  split
  · obtain ⟨hslot, hnumbered⟩ := ha.fresh hp
    refine ⟨fun slot hmem => ?_, hnumbered⟩
    rw [OrdSet.mem_singleton.1 hmem]
    exact hslot
  · exact ⟨h.openSlots, ha⟩

/-- A step at one of the points lists nothing else. -/
theorem InCode.step (h : InCode points s) (hp : p ∈ points)
    (hc : c.allocations.Numbered points) (i : Instruction) :
    InCode points (step i p s c).1 ∧ (step i p s c).2.allocations.Numbered points := by
  cases hopens : i.opensAllocation with
  | true =>
    obtain ⟨hslots, hnumbered⟩ := h.opening hp hc
    rw [step_of_opens hopens]
    exact ⟨h.openAt hp hslots, hnumbered⟩
  | false =>
    cases hcloses : i.closesAllocations with
    | true =>
      rw [step_of_closes hopens hcloses]
      exact ⟨h.closeAt hp, hc⟩
    | false =>
      rw [step_of_not_closes hopens hcloses]
      exact ⟨h, hc⟩

theorem inCode_initial (points : List CodePoint) : InCode points .initial :=
  ⟨⟨fun _ h => absurd h (OrdSet.not_mem_empty _), OrdMap.every_empty⟩, OrdMap.every_empty⟩

/-- The domain is bounded on every graph. States have no height. -/
def bounded (g : Graph BlockId Instruction) :
    domain.Bounded g ((CodePoint ⊕ CodePoint × Option Slot) ⊕ CodePoint × Option CodePoint) where
  Ok := InCode g.points
  Ctx c := c.allocations.Numbered g.points
  height _ := 0
  landmarks := (((Landmarks.powerset g.points).prod
    ((Landmarks.powerset (Slot.upTo g.points.length)).pointwise g.points)).prod
      ((Landmarks.powerset g.points).pointwise g.points)).of_embeds embeds
  height_join _ _ := rfl
  step hn hop hs hc _ := by
    obtain ⟨hs', hc'⟩ := hs.step (Graph.mem_points hn hop) hc _
    exact ⟨hs', hc', Nat.zero_le _⟩

theorem length_marks (g : Graph BlockId Instruction) :
    (bounded g).landmarks.marks.length =
      g.points.length + 2 * (g.points.length * (g.points.length + 1)) := by
  change (((g.points.map Sum.inl ++ (keyed g.points (Slot.upTo _)).map Sum.inr).map Sum.inl ++
    (keyed g.points g.points).map Sum.inr)).length = _
  simp only [List.length_append, List.length_map, length_keyed, Slot.upTo, List.length_range]
  omega

end Slots

end EvmAccess
