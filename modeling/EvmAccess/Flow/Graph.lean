/-!
# Control flow graphs

A graph is a list of nodes; a node has a name, a sequence of operations and the names of its
successors. An edge may name a node that the graph does not have. Of several nodes with one name
only the first counts.

## Main results

- `Graph.id_of_node?`: a node that is found has the name that was looked for.
-/

namespace EvmAccess

variable {ι ω : Type}

/-- A basic block as the fixpoint engine sees it. -/
structure Node (ι ω : Type) where
  /-- The name of the node. -/
  id : ι
  /-- The operations, in execution order. -/
  ops : List ω
  /-- The names of the nodes that may be executed next. -/
  succs : List ι
  deriving DecidableEq, Repr

/-- A control flow graph. -/
structure Graph (ι ω : Type) where
  /-- The nodes; the position of a node in this list is its dense index. -/
  nodes : List (Node ι ω)
  deriving DecidableEq, Repr

namespace Graph

section Look

variable [DecidableEq ι]

/-- The dense index of the node named `id`. -/
def indexOf? (g : Graph ι ω) (id : ι) : Option Nat := g.nodes.findIdx? (·.id = id)

/-- The node named `id`. -/
def node? (g : Graph ι ω) (id : ι) : Option (Node ι ω) := g.nodes.find? (·.id = id)

/-- Whether there is a node named `id`. -/
def contains (g : Graph ι ω) (id : ι) : Bool := (g.node? id).isSome

theorem id_of_node? {g : Graph ι ω} {id : ι} {n : Node ι ω} (h : g.node? id = some n) :
    n.id = id := by
  simpa using List.find?_some h

theorem mem_of_node? {g : Graph ι ω} {id : ι} {n : Node ι ω} (h : g.node? id = some n) :
    n ∈ g.nodes := List.mem_of_find?_eq_some h

/-! ### Reachability -/

/-- The nodes with a name other than `id`. -/
def others (id : ι) (nodes : List (Node ι ω)) : List (Node ι ω) := nodes.filter (·.id ≠ id)

theorem length_others_lt {id : ι} {nodes : List (Node ι ω)} {n : Node ι ω}
    (h : nodes.find? (·.id = id) = some n) : (others id nodes).length < nodes.length :=
  List.length_filter_lt_length_iff_exists.2
    ⟨n, List.mem_of_find?_eq_some h, by simpa using List.find?_some h⟩

/-- Taking the nodes of one name out hides that name only. -/
theorem find?_others (id x : ι) (nodes : List (Node ι ω)) :
    (others id nodes).find? (·.id = x) = if x = id then none else nodes.find? (·.id = x) := by
  rw [others, List.find?_filter]
  split
  · rename_i h
    simp [h]
  · rename_i h
    congr 1
    funext n
    by_cases hn : n.id = x
    · simp [hn, h]
    · simp [hn]

theorem find?_of_others {id x : ι} {nodes : List (Node ι ω)} {n : Node ι ω}
    (h : (others id nodes).find? (·.id = x) = some n) : nodes.find? (·.id = x) = some n := by
  rw [find?_others] at h
  split at h
  · cases h
  · exact h

/-- The names met by a depth-first search. `unseen` holds the nodes that were not met so far, and
`stack` the names to look at; a name without an unseen node is skipped. Each turn shortens the
stack or finds an unseen node. -/
def explore (unseen : List (Node ι ω)) (stack : List ι) : List ι :=
  match stack with
  | [] => []
  | id :: rest =>
    match _h : unseen.find? (·.id = id) with
    | none => explore unseen rest
    | some n => id :: explore (others id unseen) (n.succs ++ rest)
termination_by (unseen.length, stack.length)
decreasing_by
  · exact Prod.Lex.right _ (Nat.lt_succ_self _)
  · exact Prod.Lex.left _ _ (length_others_lt _h)

/-- The names of the nodes that can be reached from `entry`, in graph order. -/
def reachable (g : Graph ι ω) (entry : ι) : List ι :=
  let met := explore g.nodes [entry]
  (g.nodes.map (·.id)).filter (· ∈ met)

end Look

/-! ### Drawing -/

/-- The graph in the language of the `dot` drawing tool; a node is labelled with its operations. -/
def toDot [ToString ι] (showOp : ω → String) (g : Graph ι ω) : String :=
  let box (n : Node ι ω) : String :=
    s!"  Node_{n.id}[label=\"" ++ "\\n".intercalate (n.ops.map showOp) ++ "\"]\n"
  let arrows (n : Node ι ω) : String :=
    String.join (n.succs.map fun s => s!"  Node_{n.id} -> Node_{s}\n")
  "digraph CFG \x7b\n" ++ String.join (g.nodes.map box) ++ "\n" ++
    String.join (g.nodes.map arrows) ++ "\x7d\n"

end Graph

end EvmAccess
