import EvmAccess.Evm.CodeGraph

/-!
# Finding one's way in a code graph

A code graph answers questions about blocks in two ways: as a list of blocks with kinds and edges,
and as the plain graph that the engine sees. Both agree, and no edge leads out of the graph.

## Main results

- `CodeGraph.node?_flow`: the node of a name is that of its block.
- `CodeGraph.indexOf?_eq_some_iff`: the position of a name.
- `CodeGraph.contains_of_mem_succs`: the graph is closed under edges.
- `CodeGraph.Move`: the paths of single instructions.
-/

namespace EvmAccess

namespace CodeGraph

variable {g : CodeGraph}

/-- The node of a name is that of its block. -/
theorem node?_flow (g : CodeGraph) (id : BlockId) :
    g.flow.node? id = (g.block? id).map BasicBlock.node := by
  rw [Graph.node?, flow, List.find?_map, block?]
  rfl

theorem node?_flow_eq_some_iff {id : BlockId} {n : Node BlockId Instruction} :
    g.flow.node? id = some n ↔ ∃ b, g.block? id = some b ∧ b.node = n := by
  rw [node?_flow, Option.map_eq_some_iff]

theorem contains_flow (g : CodeGraph) (id : BlockId) :
    g.flow.contains id = (g.block? id).isSome := by
  rw [Graph.contains, node?_flow, Option.isSome_map]

theorem mem_of_block? {id : BlockId} {b : BasicBlock} (h : g.block? id = some b) :
    b ∈ g.blocks := List.mem_of_find?_eq_some h

theorem id_of_block? {id : BlockId} {b : BasicBlock} (h : g.block? id = some b) : b.id = id := by
  simpa using List.find?_some h

/-- Some block has each name that occurs. -/
theorem isSome_block? {id : BlockId} (h : id ∈ g.blocks.map (·.id)) :
    (g.block? id).isSome = true := by
  obtain ⟨b, hb, rfl⟩ := List.mem_map.1 h
  exact List.find?_isSome.2 ⟨b, hb, by simp⟩

/-- No two blocks have one name. -/
theorem nodup_ids (g : CodeGraph) : (g.blocks.map (·.id)).Nodup :=
  List.pairwise_map.2 (g.increasing.imp fun hlt heq => by simp [heq] at hlt)

/-- The position of a name is where its block stands. -/
theorem indexOf?_eq_some_iff {id : BlockId} {i : Nat} :
    g.indexOf? id = some i ↔ ∃ b, g.blocks[i]? = some b ∧ b.id = id := by
  rw [indexOf?, List.findIdx?_eq_some_iff_getElem]
  constructor
  · rintro ⟨hi, hid, -⟩
    exact ⟨g.blocks[i], List.getElem?_eq_getElem hi, by simpa using hid⟩
  · rintro ⟨b, hb, rfl⟩
    obtain ⟨hi, hget⟩ := List.getElem?_eq_some_iff.1 hb
    refine ⟨hi, by simp [hget], fun j hj => ?_⟩
    have hne : g.blocks[j].id ≠ b.id := fun h => Nat.ne_of_lt hj <|
      (List.getElem?_inj (by rw [List.length_map]; omega) g.nodup_ids).1
        (by simp [List.getElem?_eq_getElem (Nat.lt_trans hj hi), hb, h])
    simpa using hne

/-- Edges lead to blocks. -/
theorem isSome_block?_of_mem_successors {id s : BlockId} {b : BasicBlock}
    (hb : g.block? id = some b) (hs : s ∈ b.successors) : (g.block? s).isSome = true :=
  isSome_block? (g.closed b (mem_of_block? hb) s hs)

/-- No edge leads out of the graph. -/
theorem contains_of_mem_succs {id s : BlockId} {n : Node BlockId Instruction}
    (hn : g.flow.node? id = some n) (hs : s ∈ n.succs) : g.flow.contains s = true := by
  obtain ⟨b, hb, rfl⟩ := node?_flow_eq_some_iff.1 hn
  rw [contains_flow]
  exact isSome_block?_of_mem_successors hb hs

/-- An instruction stands inside its block. -/
theorem instruction?_eq_some_iff {p : CodePoint} {i : Instruction} :
    g.instruction? p = some i ↔ ∃ b, g.block? p.block = some b ∧ b.code[p.index]? = some i := by
  rw [instruction?, Option.bind_eq_some_iff]

/-- A path moves on: from an instruction to the position behind it, and from the position behind the
last instruction of a block to the start of a successor. -/
inductive Move (g : CodeGraph) : CodePoint → CodePoint → Prop
  | next {p i} : g.instruction? p = some i → Move g p ⟨p.block, p.index + 1⟩
  | leave {p b t} : g.block? p.block = some b → p.index = b.code.length → t ∈ b.successors →
      Move g p ⟨t, 0⟩

/-- No instruction stands behind the last one. -/
theorem instruction?_of_end {p : CodePoint} {b : BasicBlock} (hb : g.block? p.block = some b)
    (hend : p.index = b.code.length) : g.instruction? p = none := by
  rw [instruction?, hb, Option.bind_some, hend]
  exact List.getElem?_eq_none (Nat.le_refl _)

end CodeGraph

end EvmAccess
