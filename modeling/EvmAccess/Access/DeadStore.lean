import EvmAccess.Access.Ledger
import EvmAccess.Journal

/-!
# Dead stores

A store is live if a later read may see what it wrote. The search for such a read follows the edges
of the program from the block of the store. It stops at the first read that may alias, and does not
go beyond a block that certainly overwrites the location. The search works on whole blocks: in the
block of the store itself, a read at any other point counts, and only later writes overwrite.

## Main definitions

- `Ledger.searchRead`: the search.
- `Ledger.classify`: the verdict on every recorded write.
-/

namespace EvmAccess

/-- What a search for a read has met. -/
structure Search where
  /-- The first read that may see the value. -/
  found : Option CodePoint
  /-- The blocks at which a path ended because they overwrite the location. -/
  overwrites : List BlockId
  deriving DecidableEq, Repr

namespace Ledger

/-- The first read in a block, other than at `w`, that may see what is written to `token` at `w`. -/
def readIn? (l : Ledger) (w : CodePoint) (token : Token) (block : BlockId) : Option CodePoint :=
  ((l.reads.inBlock block).find? fun e => e.1 ≠ w ∧ e.2.any (·.mayAlias token)).map (·.1)

/-- Whether a block certainly overwrites what is written to `token` at `w`. -/
def overwritesIn (l : Ledger) (w : CodePoint) (token : Token) (block : BlockId) : Bool :=
  (l.writes.inBlock block).any fun e =>
    (block ≠ w.block ∨ w.index < e.1.index) ∧
      Token.relationOfSets (OrdSet.singleton token) e.2 = .equal

/-- The depth-first search. `unseen` holds the blocks that were not met so far, and `stack` the
names of the blocks to look at. -/
def searchFrom (l : Ledger) (w : CodePoint) (token : Token)
    (unseen : List (Node BlockId Instruction)) (stack : List BlockId) : Search :=
  match stack with
  | [] => ⟨none, []⟩
  | id :: rest =>
    match _h : unseen.find? (·.id = id) with
    | none => l.searchFrom w token unseen rest
    | some n =>
      match l.readIn? w token id with
      | some p => ⟨some p, []⟩
      | none =>
        if l.overwritesIn w token id then
          let result := l.searchFrom w token (Graph.others id unseen) rest
          { result with overwrites := id :: result.overwrites }
        else
          l.searchFrom w token (Graph.others id unseen) (n.succs ++ rest)
termination_by (unseen.length, stack.length)
decreasing_by
  · exact Prod.Lex.right _ (Nat.lt_succ_self _)
  · exact Prod.Lex.left _ _ (Graph.length_others_lt _h)
  · exact Prod.Lex.left _ _ (Graph.length_others_lt _h)

/-- Search for a read that may see what is written to `token` at `w`. -/
def search (l : Ledger) (g : CodeGraph) (w : CodePoint) (token : Token) : Search :=
  l.searchFrom w token g.flow.nodes [w.block]

/-- A read that may see what is written to `token` at `w`. -/
def searchRead (l : Ledger) (g : CodeGraph) (w : CodePoint) (token : Token) : Option CodePoint :=
  (l.search g w token).found

end Ledger

/-- The verdict on a store. -/
inductive Verdict where
  /-- The value may be seen by this read. -/
  | live (read : CodePoint)
  /-- The block ends by reverting, so the value is never seen. -/
  | beforeRevert
  /-- No read may see the value. -/
  | dead
  /-- No read was found, but an address may have left its allocation, so nothing is concluded. -/
  | suppressed
  deriving DecidableEq, Repr

/-- The verdict on one location written at one point. -/
structure StoreReport where
  /-- Where the store stands. -/
  point : CodePoint
  /-- What it writes. -/
  token : Token
  /-- What became of the value. -/
  verdict : Verdict
  deriving DecidableEq, Repr

namespace StoreReport

/-- Whether the value is never seen. -/
def isDead (r : StoreReport) : Bool := r.verdict = .dead ∨ r.verdict = .beforeRevert

/-- The report as text. -/
def render (r : StoreReport) : String :=
  match r.verdict with
  | .live read => s!"Found read -> {r.point} : {read}"
  | .beforeRevert => s!"Found write for revert -> {r.point}"
  | .dead => s!"NOT found read (potential optimization) -> {r.token} {r.point}"
  | .suppressed => s!"NOT found read (out of slot arithmetic) -> {r.token} {r.point}"

end StoreReport

namespace Ledger

/-- Whether the block of a point ends by reverting. -/
def endsInRevert (g : CodeGraph) (p : CodePoint) : Bool :=
  (g.block? p.block).bind (·.lastOpcode?) = some .revert

/-- The verdict on what is written to `token` at `p`. -/
def verdict (l : Ledger) (g : CodeGraph) (p : CodePoint) (token : Token) : Verdict :=
  if endsInRevert g p then .beforeRevert
  else
    match l.searchRead g p token with
    | some read => .live read
    | none => if l.strayed then .suppressed else .dead

/-- Every recorded write, by point and then by location. -/
def stores (l : Ledger) : List (CodePoint × Token) :=
  l.writes.toList.flatMap fun e => e.2.toList.map fun token => (e.1, token)

/-- The verdict on every recorded write. -/
def classify (l : Ledger) (g : CodeGraph) : List StoreReport :=
  l.stores.map fun s => ⟨s.1, s.2, l.verdict g s.1 s.2⟩

/-! ### Messages -/

/-- The messages of a search. -/
def searchMessages (l : Ledger) (g : CodeGraph) (w : CodePoint) (token : Token) : List Message :=
  (l.search g w token).overwrites.map fun block =>
    ⟨.debug, s!"{token} written at {w} is overwritten in block {block}"⟩

/-- The messages of judging every recorded write. -/
def classifyMessages (l : Ledger) (g : CodeGraph) : List Message :=
  (l.classify g).flatMap fun r =>
    (if endsInRevert g r.point then [] else l.searchMessages g r.point r.token) ++
      [⟨.info, s!"MEMRES: {r.render}"⟩]

end Ledger

end EvmAccess
