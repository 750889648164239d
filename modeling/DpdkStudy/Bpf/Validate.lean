import Mathlib.Data.Int.Notation
import Mathlib.Logic.Function.Basic
import DpdkStudy.Bpf.Insn

/-!
# The control flow that is validated

The function `validate` of `lib/bpf/bpf_validate.c`. A first pass over the
instructions checks each of them and makes a graph of them, whose edges lead to the
instructions that can come next. The second half of an immediate of 64 bits is
passed over. A search of the graph, depth first, then colours what it comes to, and
counts colours and edges. The counts decide.

A program has fewer than `2 ^ 32` instructions, and their numbers are words of 32
bits (`word32`). A search that goes to a node outside the array has no result
(`some none`), and neither has one that runs out of fuel (`none`). What is only
logged is left out.
-/

namespace Bpf

open Function

/-- The values of a `uint32_t`. -/
def word32 : ℕ := 2 ^ 32

/-- A number as a `uint32_t`. -/
def toWord32 (n : ℤ) : ℕ := (n % word32).toNat

/-- The colours of a node. -/
inductive Colour
  | white
  | grey
  | black
deriving DecidableEq, Repr

/-- The types of an edge. -/
inductive EdgeType
  | unknownEdge
  | treeEdge
  | backEdge
  | crossEdge
deriving DecidableEq, Repr

/-- **A node of the graph** (`struct inst_node`), with as many destinations as it
has edges. -/
structure InstNode where
  colour : Colour
  cur_edge : ℕ
  edge_dest : List ℕ
  prev_node : ℕ

/-- **The verifier** (`struct bpf_verifier`): the nodes, and its counts. -/
structure BpfVerifier where
  ins_node : ℕ → InstNode
  nb_nodes : BitVec 32
  node_colour : Colour → BitVec 32
  edge_type : EdgeType → BitVec 32

/-- The verifier before the first pass, all of it zero. -/
def BpfVerifier.zero : BpfVerifier :=
  { ins_node := fun _ => ⟨.white, 0, [], 0⟩
    nb_nodes := 0
    node_colour := fun _ => 0
    edge_type := fun _ => 0 }

/-- `MAX_EDGES`. -/
def maxEdges : ℕ := 2

/-! ## The graph -/

/-- **The instructions that can come next** after the instruction with a number,
with numbers that do not wrap. There are two after a jump with a condition, and
none after `EBPF_EXIT`. -/
def EbpfInsn.nexts (ins : EbpfInsn) (i : ℕ) : List ℤ :=
  match ins.opcode with
  | some .exit => []
  | some (.jcc _ _) => [i + ins.off.toInt + 1, i + 1]
  | some .ja => [i + ins.off.toInt + 1]
  | some .ldImmDw => [i + 2]
  | _ => [(i : ℤ) + 1]

/-- How many instructions an instruction takes up. -/
def EbpfInsn.width (ins : EbpfInsn) : ℕ := if ins.opcode = some .ldImmDw then 2 else 1

/-- **`add_edge`**, none where it fails. -/
def addEdge (nb_ins : ℕ) (node : InstNode) (nidx : ℕ) : Option InstNode :=
  if nb_ins < nidx then none
  else if maxEdges ≤ node.edge_dest.length then none
  else some { node with edge_dest := node.edge_dest ++ [nidx] }

/-- The edges of an instruction, one after the other, and whether none of them
failed. -/
def addEdges (nb_ins : ℕ) : InstNode → List ℕ → InstNode × Bool
  | node, [] => (node, true)
  | node, nidx :: rest =>
    match addEdge nb_ins node nidx with
    | some node => addEdges nb_ins node rest
    | none => ((addEdges nb_ins node rest).1, false)

/-- **The first pass of `validate`**, from an instruction on, with `rc` zero or not so
far. It goes on behind an error. -/
def firstPass (prm : List EbpfInsn) : ℕ → ℕ → Bool → BpfVerifier → Option (Bool × BpfVerifier)
  | 0, _, _, _ => none
  | fuel + 1, i, ok, bvf =>
    match prm[i]? with
    | none => some (ok, bvf)
    | some ins =>
      let added := addEdges prm.length (bvf.ins_node i) ((ins.nexts i).map toWord32)
      firstPass prm fuel ((i + ins.width) % word32)
        (ok && (checkSyntax ins).isNone && added.2)
        { bvf with
          ins_node := update bvf.ins_node i added.1
          nb_nodes := bvf.nb_nodes + 1
          node_colour := update bvf.node_colour .white (bvf.node_colour .white + 1) }

/-! ## The search -/

namespace BpfVerifier

variable (bvf : BpfVerifier)

/-- `set_node_colour`. -/
def setNodeColour (node : ℕ) (new : Colour) : BpfVerifier :=
  let prev := (bvf.ins_node node).colour
  let node_colour := update bvf.node_colour prev (bvf.node_colour prev - 1)
  { bvf with
    ins_node := update bvf.ins_node node { bvf.ins_node node with colour := new }
    node_colour := update node_colour new (node_colour new + 1) }

/-- The node that `dfs` is at is grey from now on, if it was white. -/
def found (node : ℕ) : BpfVerifier :=
  if (bvf.ins_node node).colour = .white then bvf.setNodeColour node .grey else bvf

/-- `get_next_node`. -/
def getNextNode (node : ℕ) : Option (ℕ × BpfVerifier) :=
  let n := bvf.ins_node node
  n.edge_dest[n.cur_edge]?.map fun dst =>
    (dst, { bvf with
      ins_node := update bvf.ins_node node { n with cur_edge := n.cur_edge + 1 } })

/-- The type of an edge to a node of a colour. -/
def edgeTypeOf : Colour → EdgeType
  | .white => .treeEdge
  | .grey => .backEdge
  | .black => .crossEdge

/-- `set_edge_type`. -/
def setEdgeType (next : ℕ) : BpfVerifier :=
  let type := edgeTypeOf (bvf.ins_node next).colour
  { bvf with edge_type := update bvf.edge_type type (bvf.edge_type type + 1) }

end BpfVerifier

/-- **`dfs`**, from a node on. The inner loop of the source, over the edges of a
node, goes around this one: it stays with its node, which is grey. -/
def dfs (nb_ins : ℕ) : ℕ → BpfVerifier → ℕ → Option (Option BpfVerifier)
  | 0, _, _ => none
  | fuel + 1, bvf, node =>
    let bvf := bvf.found node
    if (bvf.ins_node node).colour = .grey then
      match bvf.getNextNode node with
      | none =>
        let bvf := bvf.setNodeColour node .black
        let bvf := { bvf with
          ins_node := update bvf.ins_node node { bvf.ins_node node with cur_edge := 0 } }
        dfs nb_ins fuel bvf (bvf.ins_node node).prev_node
      | some (next, bvf) =>
        if next < nb_ins then
          let bvf := bvf.setEdgeType next
          if (bvf.ins_node next).colour = .white then
            dfs nb_ins fuel { bvf with
              ins_node := update bvf.ins_node next
                { bvf.ins_node next with prev_node := node } } next
          else dfs nb_ins fuel bvf node
        else some none
    else some (some bvf)

/-- What the counts have to be. -/
def BpfVerifier.accepts (bvf : BpfVerifier) : Bool :=
  if bvf.node_colour .black ≠ bvf.nb_nodes then false
  else if bvf.node_colour .grey ≠ 0 ∨ bvf.node_colour .white ≠ 0 ∨
      bvf.edge_type .unknownEdge ≠ 0 then false
  else if bvf.edge_type .backEdge ≠ 0 then false
  else true

/-- **`validate`**, true for zero and false for an error. -/
def validate (prm : List EbpfInsn) (fuel : ℕ) : Option (Option Bool) :=
  (firstPass prm fuel 0 true .zero).bind fun (ok, bvf) =>
    if ok then (dfs prm.length fuel bvf 0).map fun result => result.map BpfVerifier.accepts
    else some (some false)

/-! ## Fuel -/

variable {prm : List EbpfInsn} {fuel : ℕ}

theorem firstPass_succ {i : ℕ} {ok : Bool} {bvf : BpfVerifier} {r : Bool × BpfVerifier}
    (h : firstPass prm fuel i ok bvf = some r) : firstPass prm (fuel + 1) i ok bvf = some r := by
  induction fuel generalizing i ok bvf with
  | zero => simp [firstPass] at h
  | succ fuel ih =>
    rw [firstPass] at h ⊢
    cases hins : prm[i]? with
    | none => simpa only [hins] using h
    | some ins =>
      simp only [hins] at h ⊢
      exact ih h

theorem dfs_succ {nb_ins node : ℕ} {bvf : BpfVerifier} {r : Option BpfVerifier}
    (h : dfs nb_ins fuel bvf node = some r) : dfs nb_ins (fuel + 1) bvf node = some r := by
  induction fuel generalizing node bvf with
  | zero => simp [dfs] at h
  | succ fuel ih =>
    rw [dfs] at h ⊢
    generalize bvf.found node = g at h ⊢
    simp only at h ⊢
    by_cases hgrey : (g.ins_node node).colour = .grey
    · rw [if_pos hgrey] at h ⊢
      cases hnext : g.getNextNode node with
      | none =>
        simp only [hnext] at h ⊢
        exact ih h
      | some p =>
        simp only [hnext] at h ⊢
        split_ifs at h ⊢
        · exact ih h
        · exact ih h
        · exact h
    · rwa [if_neg hgrey] at h ⊢

theorem validate_of_le {fuel' : ℕ} {r : Option Bool} (h : validate prm fuel = some r)
    (hle : fuel ≤ fuel') : validate prm fuel' = some r := by
  induction hle with
  | refl => exact h
  | step _ ih =>
    obtain ⟨⟨ok, bvf⟩, hpass, hrest⟩ := Option.bind_eq_some_iff.mp ih
    rw [validate, firstPass_succ hpass, Option.bind_some]
    cases ok with
    | false => exact hrest
    | true =>
      simp only [if_true] at hrest ⊢
      obtain ⟨result, hdfs, hmap⟩ := Option.map_eq_some_iff.mp hrest
      rw [dfs_succ hdfs, Option.map_some, hmap]

end Bpf
