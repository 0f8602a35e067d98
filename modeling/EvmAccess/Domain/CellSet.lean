import EvmAccess.Access.Token
import EvmAccess.Domain.OffsetSet
import EvmAccess.Ordered.Map

/-!
# Sets of cells, and abstract memory

The cells that an address may mean, and what is known of the addresses stored in memory. Abstract
memory maps a cell to the cells that the word stored there may mean. A store is weak: it adds to
what may be there already. A store to a whole allocation gathers all that is known of the allocation
in one entry.

## Main definitions

- `CellSet.clean`: drop cells that a whole allocation covers.
- `CellSet.shift`: add offsets to addresses.
- `AbstractMemory.store`, `AbstractMemory.load`.
-/

namespace EvmAccess

/-- The cells that an address may mean. -/
abbrev CellSet := OrdSet Cell

namespace CellSet

/-- Drop the cells of allocations of which the whole is a member too. -/
def clean (s : CellSet) : CellSet :=
  s.filter fun c => c.offset = .any ∨ ¬ Cell.whole c.slot ∈ s

/-- Whether every cell of the first set is covered by one of the second. -/
def leq (s t : CellSet) : Bool := s.all fun c => t.any fun d => c.leq d

/-- What either set allows. -/
def join (s t : CellSet) : CellSet := clean (s ∪ t)

/-- The bound up to which offsets inside an allocation are followed. -/
def shiftBound : Nat := 128

/-- The cells reached by adding an offset to an address. -/
def shift (s : CellSet) (offsets : OffsetSet) : CellSet :=
  clean (OrdSet.ofList
    (s.toList.flatMap fun c => offsets.toList.map fun o => c.shift o shiftBound))

end CellSet

/-- What is known of the addresses stored in memory. -/
abbrev AbstractMemory := OrdMap Cell CellSet

namespace AbstractMemory

/-- Whether a store to `address` may change what an entry for `c` describes. -/
def affects (address c : Cell) : Bool :=
  c.slot = address.slot ∧
    (c.offset = address.offset ∨ c.offset = .any ∨ address.offset = .any)

/-- Whether an entry for `c` is gathered into the entry for the whole allocation `address`. -/
def absorbs (address c : Cell) : Bool :=
  c.slot = address.slot ∧ address.offset = .any ∧ c.offset ≠ .any

/-- Store values at one address. Without an entry for the address or for its whole allocation a new
one is made; every entry that may be affected gets the values added; and an address that is a whole
allocation absorbs the other entries of that allocation. -/
def storeAt (m : AbstractMemory) (address : Cell) (values : CellSet) : AbstractMemory :=
  let entered :=
    if m.contains address || m.contains (.whole address.slot) then m
    else m.insert address values
  let updated := entered.map fun c content =>
    if affects address c then content ∪ values else content
  if address.offset = .any then
    let absorbed := (updated.filter fun c _ => absorbs address c).toList
    let kept := updated.filter fun c _ => !absorbs address c
    kept.alter address fun content? =>
      some (absorbed.foldl (fun s e => s ∪ e.2) (content?.getD ∅))
  else updated

/-- Store values at all addresses that may be meant, one after the other. -/
def store (m : AbstractMemory) (addresses values : CellSet) : AbstractMemory :=
  addresses.toList.foldl (fun m address => m.storeAt address values) m

/-- The values that may be loaded from one address. -/
def loadAt (m : AbstractMemory) (address : Cell) : CellSet :=
  let precise := (m.get? address).getD ∅ ∪ (m.get? (.whole address.slot)).getD ∅
  if address.offset = .any then
    (m.filter fun c _ => c.slot = address.slot).toList.foldl (fun s e => s ∪ e.2) precise
  else precise

/-- The values that may be loaded from any of the addresses. -/
def load (m : AbstractMemory) (addresses : CellSet) : CellSet :=
  addresses.toList.foldl (fun s address => s ∪ m.loadAt address) ∅

/-- Whether the entry of `m` for `c` covers the values. -/
def coversAt (m : AbstractMemory) (c : Cell) (values : CellSet) : Bool :=
  match m.get? c with
  | none => false
  | some content => values.leq content

/-- Whether the second memory covers the first: each entry is covered by the entry for the same cell
or by that for its whole allocation. -/
def leq (m n : AbstractMemory) : Bool :=
  m.all fun c values =>
    coversAt n c values || (c.offset ≠ .any && coversAt n (.whole c.slot) values)

/-- The first memory with all that the second knows stored on top of it. -/
def join (m n : AbstractMemory) : AbstractMemory :=
  n.toList.foldl (fun m e => m.storeAt e.1 e.2) m

end AbstractMemory

end EvmAccess
