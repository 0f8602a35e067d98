import EvmAccess.Access.Token
import EvmAccess.Evm.CodeGraph
import EvmAccess.Ordered.Map

/-!
# The access ledger

What was observed at each program point: the locations read and written, the allocations opened and
closed, and whether an address was ever computed in a way that may leave its allocation. Entries are
only ever added.

## Main definitions

- `Access`, `Ledger`.
- `Ledger.note`, `Ledger.noteAll`: enter accesses at a point.
-/

namespace EvmAccess

/-- Something observed at a program point. -/
inductive Access where
  /-- A location is read. -/
  | read (token : Token)
  /-- A location is written. -/
  | write (token : Token)
  /-- An allocation is opened. -/
  | opens (slot : Slot)
  /-- An allocation is closed. -/
  | closes (slot : Slot)
  /-- An address may leave its allocation. -/
  | stray
  deriving DecidableEq, Repr

/-- Sets of things by program point. -/
abbrev PointTable (α : Type) [Ord α] := OrdMap CodePoint (OrdSet α)

namespace PointTable

variable {α : Type} [Ord α]

/-- The things at a point. -/
def atPoint (m : PointTable α) (p : CodePoint) : OrdSet α := (m.get? p).getD ∅

/-- The entries of one block, in order. -/
def inBlock (m : PointTable α) (block : BlockId) : List (CodePoint × OrdSet α) :=
  m.toList.filter (·.1.block = block)

variable [Std.TransOrd α] [Std.LawfulEqOrd α]

/-- The table with `a` added at a point. -/
def add (m : PointTable α) (p : CodePoint) (a : α) : PointTable α :=
  m.alter p fun s? => some ((s?.getD ∅).insert a)

theorem mem_atPoint_add {m : PointTable α} {p q : CodePoint} {a b : α} :
    b ∈ (m.add p a).atPoint q ↔ (q = p ∧ b = a) ∨ b ∈ m.atPoint q := by
  unfold PointTable.atPoint PointTable.add
  by_cases h : q = p
  · subst h
    rw [OrdMap.get?_alter_self]
    cases m.get? q <;> simp
  · rw [OrdMap.get?_alter_of_ne h]
    simp [h]

end PointTable

/-- Everything observed at each program point. -/
structure Ledger where
  /-- The locations read. -/
  reads : PointTable Token
  /-- The locations written. -/
  writes : PointTable Token
  /-- The allocations opened. -/
  opened : PointTable Slot
  /-- The allocations closed. -/
  closed : PointTable Slot
  /-- Whether an address may have left its allocation. -/
  strayed : Bool
  deriving DecidableEq

namespace Ledger

/-- The ledger without entries. -/
def empty : Ledger := ⟨∅, ∅, ∅, ∅, false⟩

instance : EmptyCollection Ledger := ⟨empty⟩

instance : Inhabited Ledger := ⟨∅⟩

/-- Enter one access at a point. -/
def note (p : CodePoint) (l : Ledger) : Access → Ledger
  | .read token => { l with reads := l.reads.add p token }
  | .write token => { l with writes := l.writes.add p token }
  | .opens slot => { l with opened := l.opened.add p slot }
  | .closes slot => { l with closed := l.closed.add p slot }
  | .stray => { l with strayed := true }

/-- Enter several accesses at a point. -/
def noteAll (p : CodePoint) (l : Ledger) (accesses : List Access) : Ledger :=
  accesses.foldl (note p) l

/-! ### Text -/

/-- A line for each point of a block, with its position. -/
def blockLines {α : Type} [Ord α] [ToString α] (m : PointTable α) (block : BlockId)
    (kind : String) : List (Nat × String) :=
  (m.inBlock block).map fun e =>
    (e.1.index, s!"{e.1.index} [{kind}] -> [" ++ ", ".intercalate (e.2.toList.map toString) ++ "]")

/-- The entries of a block, a line for each point and kind, by position. At one position, openings
come before closings, reads and writes. -/
def describeBlock (l : Ledger) (block : BlockId) : List String :=
  let lines := blockLines l.opened block "I" ++ blockLines l.closed block "C" ++
    blockLines l.reads block "R" ++ blockLines l.writes block "W"
  (lines.mergeSort fun a b => a.1 ≤ b.1).map (·.2)

/-- The points of a table, a line for each. -/
def chapter {α : Type} [Ord α] [ToString α] (title : String) (m : PointTable α) : String :=
  title ++ ":\n" ++ String.join (m.toList.map fun e =>
    s!"  {e.1} -> " ++ braced (e.2.toList.map toString) ++ "\n")

/-- The whole ledger as text. -/
def render (l : Ledger) : String :=
  chapter "INIT ALLOC" l.opened ++ chapter "CLOSE ALLOC" l.closed ++
    chapter "READ" l.reads ++ chapter "WRITE" l.writes

end Ledger

end EvmAccess
