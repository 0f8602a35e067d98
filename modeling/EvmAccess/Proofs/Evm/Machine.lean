import EvmAccess.Evm.CodeGraph
import EvmAccess.Proofs.Evm.Opcode
import Mathlib.Algebra.Group.Nat.Defs

/-!
# The machine

What programs do when they run, as far as the analyses make statements about it: a stack of 256 bit
words and a memory of bytes. Pushes, copies, exchanges, additions, and memory words at an address
are followed exactly. Every other opcode replaces the items that it consumes by arbitrary ones, and
some may also change memory at will. Jumps are not followed either: a run may continue with any
listed successor of a block.

A run carries a mark that says whether some addition so far has exceeded the words. It changes
nothing about the run.

## Main results

- `Bytes.load_store`, `Bytes.load_store_of_disjoint`: a memory word is what was last stored there.
- `Machine.Step.length_stack`: the height of the stack changes as the opcode says.
-/

namespace EvmAccess

/-! ### Memory -/

/-- A machine word. -/
abbrev Word := BitVec 256

/-- The content of memory. -/
abbrev Bytes := Nat → BitVec 8

namespace Bytes

/-- The number that is written in `count` bytes, the most significant one first. -/
def number (m : Bytes) (address : Nat) : Nat → Nat
  | 0 => 0
  | count + 1 => m.number address count * 256 + (m (address + count)).toNat

/-- The word at an address. -/
def load (m : Bytes) (address : Nat) : Word := BitVec.ofNat 256 (m.number address 32)

/-- Write a word to an address. -/
def store (m : Bytes) (address : Nat) (w : Word) : Bytes := fun x =>
  if address ≤ x ∧ x < address + 32 then BitVec.ofNat 8 (w.toNat / 256 ^ (address + 31 - x))
  else m x

/-- The first bytes of a stored word make its leading digits to the base 256. -/
theorem number_store (m : Bytes) (address : Nat) (w : Word) {count : Nat} (h : count ≤ 32) :
    (m.store address w).number address count = w.toNat / 256 ^ (32 - count) := by
  induction count with
  | zero =>
    rw [number, eq_comm]
    exact Nat.div_eq_of_lt w.isLt
  | succ count ih =>
    have hdigit : (m.store address w (address + count)).toNat =
        w.toNat / 256 ^ (31 - count) % 256 := by
      rw [store, if_pos ⟨by omega, by omega⟩, BitVec.toNat_ofNat,
        show address + 31 - (address + count) = 31 - count by omega]
    have hlead : w.toNat / 256 ^ (32 - count) = w.toNat / 256 ^ (31 - count) / 256 := by
      rw [Nat.div_div_eq_div_mul, ← Nat.pow_succ, show 32 - count = 31 - count + 1 by omega]
    rw [number, ih (by omega), hdigit, hlead, show 32 - (count + 1) = 31 - count by omega,
      Nat.mul_comm]
    exact Nat.div_add_mod _ _

/-- A word is read back from where it was stored. -/
theorem load_store (m : Bytes) (address : Nat) (w : Word) :
    (m.store address w).load address = w := by
  rw [load, number_store m address w (Nat.le_refl 32), Nat.sub_self, Nat.pow_zero, Nat.div_one]
  simp

theorem number_congr {m m' : Bytes} {address count : Nat}
    (h : ∀ x, address ≤ x → x < address + count → m x = m' x) :
    m.number address count = m'.number address count := by
  induction count with
  | zero => rfl
  | succ count ih =>
    rw [number, number, ih fun x hle hlt => h x hle (by omega), h _ (by omega) (by omega)]

/-- A word keeps its value when another one is stored beside it. -/
theorem load_store_of_disjoint (m : Bytes) {a b : Nat} (w : Word)
    (h : a + 32 ≤ b ∨ b + 32 ≤ a) : (m.store a w).load b = m.load b := by
  rw [load, load, number_congr]
  intro x hle hlt
  rw [store, if_neg (by omega)]

end Bytes

/-! ### Steps -/

/-- What the machine works on. -/
structure Machine where
  /-- The stack, its top first. -/
  stack : List Word
  /-- The memory. -/
  memory : Bytes

namespace Machine

/-- The word at a position of the stack, counted from the bottom. -/
def at? (m : Machine) (p : Nat) : Option Word := m.stack.reverse[p]?

/-- The opcode replaces the items that it consumes by arbitrary ones. -/
def Replaces (o : Opcode) (before after : List Word) : Prop :=
  ∃ consumed produced rest, before = consumed ++ rest ∧ consumed.length = o.pops ∧
    after = produced ++ rest ∧ produced.length = o.pushes

/-- One instruction. The stack must be high enough, and an address that is written behind the
instruction must be the one on the stack. -/
def Step (m : Machine) (i : Instruction) (m' : Machine) : Prop :=
  match i.opcode with
  | .push _ =>
    ∃ w : Word, (∀ value, i.pushValue? = some value → w.toNat = value) ∧
      m' = ⟨w :: m.stack, m.memory⟩
  | .dup below => ∃ w, m.stack[below.val]? = some w ∧ m' = ⟨w :: m.stack, m.memory⟩
  | .swap below =>
    ∃ top between other rest, between.length = below.val ∧
      m.stack = top :: (between ++ other :: rest) ∧
      m' = ⟨other :: (between ++ top :: rest), m.memory⟩
  | .add => ∃ a b rest, m.stack = a :: b :: rest ∧ m' = ⟨(a + b) :: rest, m.memory⟩
  | .mload =>
    ∃ address rest, m.stack = address :: rest ∧
      (∀ value, i.annotatedAddress? = some value → address.toNat = value) ∧
      m' = ⟨m.memory.load address.toNat :: rest, m.memory⟩
  | .mstore =>
    ∃ address w rest, m.stack = address :: w :: rest ∧
      (∀ value, i.annotatedAddress? = some value → address.toNat = value) ∧
      m' = ⟨rest, m.memory.store address.toNat w⟩
  | o => Replaces o m.stack m'.stack ∧ (o.scribbles = false → m'.memory = m.memory)

theorem step_iff_of_isPlain {i : Instruction} {m m' : Machine} (h : i.opcode.isPlain = true) :
    Step m i m' ↔ Replaces i.opcode m.stack m'.stack ∧
      (i.opcode.scribbles = false → m'.memory = m.memory) := by
  obtain ⟨o, operand⟩ := i
  cases o with
  | push | dup | swap | add | mload | mstore => cases h
  | _ => rfl

/-- The height of the stack changes as the opcode says. -/
theorem Step.length_stack {i : Instruction} {m m' : Machine} (h : Step m i m') :
    m'.stack.length = i.opcode.heightAfter m.stack.length := by
  obtain ⟨o, operand⟩ := i
  rcases o.isPlain_or with hplain | ⟨width, rfl⟩ | ⟨below, rfl⟩ | ⟨below, rfl⟩ | rfl | rfl | rfl
  · obtain ⟨⟨consumed, produced, rest, hs, hc, hs', hp⟩, -⟩ := (step_iff_of_isPlain hplain).1 h
    rw [hs, hs', Opcode.heightAfter, List.length_append, List.length_append, hp, hc]
    omega
  · obtain ⟨w, -, rfl⟩ := h
    simp [Opcode.heightAfter, Opcode.pushes, Opcode.pops, Opcode.stackEffect]
  · obtain ⟨w, -, rfl⟩ := h
    simp only [Opcode.heightAfter, Opcode.pushes, Opcode.pops, Opcode.stackEffect,
      List.length_cons]
    omega
  · obtain ⟨top, between, other, rest, hlen, hs, rfl⟩ := h
    simp only [Opcode.heightAfter, Opcode.pushes, Opcode.pops, Opcode.stackEffect, hs,
      List.length_cons, List.length_append]
    omega
  · obtain ⟨a, b, rest, hs, rfl⟩ := h
    simp [Opcode.heightAfter, Opcode.pushes, Opcode.pops, Opcode.stackEffect, hs]
  · obtain ⟨address, rest, hs, -, rfl⟩ := h
    simp [Opcode.heightAfter, Opcode.pushes, Opcode.pops, Opcode.stackEffect, hs]
  · obtain ⟨address, w, rest, hs, -, rfl⟩ := h
    simp [Opcode.heightAfter, Opcode.pushes, Opcode.pops, Opcode.stackEffect, hs]

/-- Whether an instruction adds two numbers whose sum is no word. -/
def overflows (m : Machine) (i : Instruction) : Bool :=
  match i.opcode, m.stack with
  | .add, a :: b :: _ => 2 ^ 256 ≤ a.toNat + b.toNat
  | _, _ => false

end Machine

/-! ### Runs -/

/-- A moment of a run: the machine is about to execute the instruction at `index`, or to leave the
block if there is none. -/
structure Moment where
  /-- The block. -/
  block : BlockId
  /-- The position in the block. -/
  index : Nat
  /-- The machine. -/
  machine : Machine
  /-- Whether some addition so far has exceeded the words. -/
  wrapped : Bool

/-- The moments of the runs that start at the entry with an empty stack and any memory. A run may
enter a block only with a height of the stack that `admits` allows there. -/
inductive CodeGraph.Reaches (g : CodeGraph) (admits : BlockId → Nat → Prop) (entry : BlockId) :
    Moment → Prop where
  | start (memory : Bytes) : Reaches g admits entry ⟨entry, 0, ⟨[], memory⟩, false⟩
  | step {m : Moment} {b : BasicBlock} {i : Instruction} {after : Machine} :
      Reaches g admits entry m → g.block? m.block = some b → b.code[m.index]? = some i →
      m.machine.Step i after →
      Reaches g admits entry
        ⟨m.block, m.index + 1, after, m.wrapped || m.machine.overflows i⟩
  | leave {m : Moment} {b : BasicBlock} {s : BlockId} :
      Reaches g admits entry m → g.block? m.block = some b → m.index = b.code.length →
      s ∈ b.successors → admits s m.machine.stack.length →
      Reaches g admits entry ⟨s, 0, m.machine, m.wrapped⟩

end EvmAccess
