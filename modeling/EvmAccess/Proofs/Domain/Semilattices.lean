import EvmAccess.Proofs.Domain.OffsetOrder
import EvmAccess.Proofs.Domain.SlotBound

/-!
# The contract of the orders

What the engine may ask of an order is that it is a preorder in which joins are least upper bounds.
Sets, sets of offsets, the states of open allocations and those of constants all meet this, whatever
their tables hold and even if their stacks differ in height. Joining is then idempotent, commutative
and associative as far as the order can tell.

How far that is differs. Two sets that cover each other are equal, and so are two states of open
allocations, because a table that lists nothing for a point is not a table without the point. States
of constants that cover each other know the same of the stack and of memory, but need not agree on
the height of the stack or on what the constants are followed for: a join takes both from its first
side.

The order of the memory domain is the exception. Its joins are least among the well formed states
only (`Memory.semilattice_wellFormed`).

## Main results

- `Slots.semilattice`, `Offsets.semilattice`: joins of states are least.
- `contract_of_domains`: the contract of all four orders.
-/

namespace EvmAccess

open Std JoinOrder

namespace Slots

theorem semilattice : domain.Semilattice :=
  ((semilattice_powerset.prod semilattice_powerset.pointwise).prod
    semilattice_powerset.pointwise).of_embeds embeds

/-- States that cover each other are equal. -/
theorem equivalent_iff {s t : SlotState} : domain.Equivalent s t ↔ s = t := by
  rw [embeds.equivalent_iff
    ((lawful_powerset.prod lawful_powerset.pointwise).prod lawful_powerset.pointwise)
    ((antisymmetric_powerset.prod antisymmetric_powerset.pointwise).prod
      antisymmetric_powerset.pointwise)]
  cases s
  cases t
  simp only [Prod.mk.injEq, SlotState.mk.injEq]
  exact and_right_comm.trans and_assoc

end Slots

namespace Offsets

theorem semilattice : domain.Semilattice :=
  (OffsetSet.semilattice_order.pointwise.prod OffsetSet.semilattice_order.shared).of_embeds embeds

/-- States that cover each other know the same of the stack and of memory. -/
theorem equivalent_iff {s t : OffsetState} :
    domain.Equivalent s t ↔ (s.stack, s.words) = (t.stack, t.words) :=
  embeds.equivalent_iff (OffsetSet.lawful_order.pointwise.prod OffsetSet.lawful_order.shared)
    (OffsetSet.antisymmetric_order.pointwise.prod OffsetSet.antisymmetric_order.shared)

end Offsets

namespace JoinOrder

/-- The contract of an order whose states are told apart by what they show: joins are least upper
bounds, and up to states that cover each other they are idempotent, commutative and associative. -/
structure Contract {σ τ : Type} (o : JoinOrder σ) (view : σ → τ) : Prop extends o.Semilattice where
  join_self : ∀ s, o.Equivalent (o.join s s) s
  join_comm : ∀ s t, o.Equivalent (o.join s t) (o.join t s)
  join_assoc : ∀ s t u, o.Equivalent (o.join (o.join s t) u) (o.join s (o.join t u))
  equivalent_iff : ∀ {s t}, o.Equivalent s t ↔ view s = view t

/-- All but the last clause follows from leastness. -/
theorem Semilattice.contract {σ τ : Type} {o : JoinOrder σ} {view : σ → τ} (h : o.Semilattice)
    (hview : ∀ {s t}, o.Equivalent s t ↔ view s = view t) : o.Contract view :=
  { h with
    join_self := h.join_self
    join_comm := h.join_comm
    join_assoc := h.join_assoc
    equivalent_iff := hview }

end JoinOrder

/-- **The contract of the orders.** Sets ordered by inclusion, states of open allocations, sets of
offsets and states of constants are preorders in which joins are least upper bounds. States that
cover each other are equal, except that states of constants may differ in what they are followed for
and in the height of the stack. -/
theorem contract_of_domains {α : Type} [Ord α] [TransOrd α] [LawfulEqOrd α] [DecidableEq α] :
    (powerset : JoinOrder (OrdSet α)).Contract id ∧ Slots.domain.Contract id ∧
      OffsetSet.order.Contract id ∧ Offsets.domain.Contract fun s => (s.stack, s.words) :=
  ⟨semilattice_powerset.contract (antisymmetric_powerset.equivalent_iff lawful_powerset),
    Slots.semilattice.contract Slots.equivalent_iff,
    OffsetSet.semilattice_order.contract
      (OffsetSet.antisymmetric_order.equivalent_iff OffsetSet.lawful_order),
    Offsets.semilattice.contract Offsets.equivalent_iff⟩

/-- Constants for memory addresses: 32 is on the stack, and nothing is known of memory. -/
def OffsetState.short : OffsetState :=
  ⟨.memory, 1, (∅ : OrdMap Nat OffsetSet).insert 0 (.singleton (.exact 32)), ∅⟩

/-- Constants for storage keys, on a higher stack; the word at 64 is known too. -/
def OffsetState.tall : OffsetState :=
  ⟨.storage, 2, (∅ : OrdMap Nat OffsetSet).insert 1 (.singleton (.exact 5)),
    (∅ : OrdMap Nat OffsetSet).insert 64 .top⟩

/-- Joining states of different height is commutative as far as the order can tell, and no
further. -/
theorem contract_of_heights :
    let s := OffsetState.short
    let t := OffsetState.tall
    (powerset : JoinOrder (OrdSet Nat)).Contract id ∧
      Offsets.domain.Equivalent (Offsets.domain.join s t) (Offsets.domain.join t s) ∧
      Offsets.domain.join s t ≠ Offsets.domain.join t s ∧ Offsets.domain.leq s t = false := by
  obtain ⟨hsets, -, -, hoffsets⟩ := contract_of_domains (α := Nat)
  exact ⟨hsets, hoffsets.join_comm .short .tall, by decide, by decide⟩

end EvmAccess
