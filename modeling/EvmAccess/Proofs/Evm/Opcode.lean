import EvmAccess.Evm.Stack

/-!
# Kinds of opcodes

Most opcodes are alike to the analyses of constants: they consume some items and produce some of
which nothing is known. The few others are pushes, copies, exchanges, additions, and the loads and
stores of memory words.

## Main results

- `Opcode.isPlain_or`: the opcodes that are followed, and the rest.
- `Opcode.heightAfter_le`: an opcode adds at most one item to the stack.
- `Opcode.heightAfter_eq`: the height after an opcode that finds its operands.
-/

namespace EvmAccess

theorem stackItem?_of_lt {height depth : Nat} (h : depth < height) :
    stackItem? height depth = some (height - (depth + 1)) := if_pos h

theorem stackItem?_of_le {height depth : Nat} (h : height ≤ depth) :
    stackItem? height depth = none := if_neg (Nat.not_lt.2 h)

/-- An item stands as far above the bottom as its depth leaves. -/
theorem stackItem?_eq_some_iff {height depth position : Nat} :
    stackItem? height depth = some position ↔ position + (depth + 1) = height := by
  rw [stackItem?]
  split
  · rw [Option.some.injEq]
    omega
  · simp only [reduceCtorEq, false_iff]
    omega

namespace Opcode

/-- Whether the opcode may change memory in ways that are not followed. -/
def scribbles : Opcode → Bool
  | .mstore8 | .mcopy | .calldatacopy | .codecopy | .returndatacopy | .extcodecopy
  | .call | .callcode | .delegatecall | .staticcall => true
  | _ => false

/-- Whether the opcode is one of those whose results are not followed. -/
def isPlain : Opcode → Bool
  | .push _ | .dup _ | .swap _ | .add | .mload | .mstore => false
  | _ => true

/-- Push a single byte. -/
def push1 : Opcode := .push ⟨1, Nat.one_lt_succ_succ _⟩

/-- Copy the item on top. -/
def dup1 : Opcode := .dup ⟨0, Nat.zero_lt_succ _⟩

/-- Exchange the two items on top. -/
def swap1 : Opcode := .swap ⟨0, Nat.zero_lt_succ _⟩

/-- The opcodes that are followed, and the rest. -/
theorem isPlain_or (o : Opcode) :
    o.isPlain = true ∨ (∃ width, o = .push width) ∨ (∃ below, o = .dup below) ∨
      (∃ below, o = .swap below) ∨ o = .add ∨ o = .mload ∨ o = .mstore := by
  cases o with
  | push width => exact Or.inr (Or.inl ⟨width, rfl⟩)
  | dup below => exact Or.inr (Or.inr (Or.inl ⟨below, rfl⟩))
  | swap below => exact Or.inr (Or.inr (Or.inr (Or.inl ⟨below, rfl⟩)))
  | add => simp
  | mload => simp
  | mstore => simp
  | _ => exact Or.inl rfl

theorem pushes_le (o : Opcode) : o.pushes ≤ o.pops + 1 := by
  cases o with
  | push width => exact Nat.le_refl 1
  | dup below | swap below | log topics =>
    simp only [pushes, pops, stackEffect]
    omega
  | _ => decide

/-- An opcode adds at most one item to the stack. -/
theorem heightAfter_le (o : Opcode) (height : Nat) : o.heightAfter height ≤ height + 1 := by
  have h := o.pushes_le
  rw [heightAfter]
  omega

/-- An opcode that finds its operands puts its results in their place. -/
theorem heightAfter_eq {o : Opcode} {height : Nat} (h : o.pops ≤ height) :
    o.heightAfter height = o.base height + o.pushes := by
  rw [heightAfter, base]
  omega

/-- An opcode that does not find its operands leaves the stack empty, unless it copies or exchanges
items. -/
theorem heightAfter_eq_zero_or {o : Opcode} {height : Nat} (h : height < o.pops) :
    o.heightAfter height = 0 ∨ (∃ below, o = .dup below) ∨ ∃ below, o = .swap below := by
  cases o with
  | dup below => exact Or.inr (Or.inl ⟨below, rfl⟩)
  | swap below => exact Or.inr (Or.inr ⟨below, rfl⟩)
  | _ =>
    simp only [heightAfter, pushes, pops, stackEffect] at h ⊢
    omega

end Opcode

end EvmAccess
