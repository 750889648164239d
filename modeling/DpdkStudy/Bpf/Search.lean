import DpdkStudy.Bpf.Graph

/-!
# The search that `dfs` makes

The nodes of the verifier, with their colours and the links back to their parents,
are a search depth first (`Follows`): the grey nodes are its path, and the black ones
those that it has finished. Every pass of `dfs` is a step of it, unless the edge
that it goes to leads to a node outside the array. So `dfs` ends (`dfs_spec`), either
there or with the counts of a whole search.
-/

open List

namespace Bpf

open Function DepthFirst

/-- The colour that a search gives to a node. -/
def colourOf (s : Search ℕ) (v : ℕ) : Colour :=
  if v ∈ s.order then .black else if v ∈ s.stack then .grey else .white

/-- **The verifier follows a search**: its nodes are those of the search, and its
counts those of their colours. -/
structure Follows (prm : List EbpfInsn) (bvf : BpfVerifier) (s : Search ℕ) : Prop where
  dest : ∀ v, (bvf.ins_node v).edge_dest = succ prm v
  colour : ∀ v, (bvf.ins_node v).colour = colourOf s v
  cursor : ∀ v ∉ s.order, (bvf.ins_node v).cur_edge = s.cursor v
  prev : ∀ a v b, s.stack = a ++ v :: b → (bvf.ins_node v).prev_node = b.headD v
  nodes : bvf.nb_nodes = BitVec.ofNat 32 (starts prm).length
  black : bvf.node_colour .black = BitVec.ofNat 32 s.order.length
  grey : bvf.node_colour .grey = BitVec.ofNat 32 s.stack.length
  white : bvf.node_colour .white + BitVec.ofNat 32 (s.order.length + s.stack.length) =
    bvf.nb_nodes
  unknown : bvf.edge_type .unknownEdge = 0
  back : bvf.edge_type .backEdge = BitVec.ofNat 32 s.back
  bound : ∀ v ∈ s.stack ++ s.order, v < prm.length

variable {prm : List EbpfInsn} {bvf : BpfVerifier} {s : Search ℕ} {v w : ℕ} {rest : List ℕ}

theorem ofNat_succ (n : ℕ) : BitVec.ofNat 32 (n + 1) = BitVec.ofNat 32 n + 1 :=
  BitVec.ofNat_add n 1

theorem Follows.finish (hf : Follows prm bvf s) (hstack : s.stack = v :: rest)
    (hnodup : (s.stack ++ s.order).Nodup) :
    let bvf' := bvf.setNodeColour v .black
    Follows prm { bvf' with
        ins_node := update bvf'.ins_node v { bvf'.ins_node v with cur_edge := 0 } }
      { s with order := v :: s.order, stack := rest } := by
  rw [hstack, cons_append, nodup_cons, mem_append, not_or] at hnodup
  obtain ⟨⟨hrest, horder⟩, -⟩ := hnodup
  have hgrey : (bvf.ins_node v).colour = .grey := by
    rw [hf.colour, colourOf, if_neg horder, if_pos (hstack ▸ mem_cons_self)]
  have hlen : s.stack.length = rest.length + 1 := by rw [hstack, length_cons]
  refine ⟨fun u => ?_, fun u => ?_, fun u hu => ?_, fun a u b hrest' => ?_, hf.nodes, ?_, ?_, ?_,
    hf.unknown, hf.back, fun u hu => hf.bound u ?_⟩
  · by_cases huv : u = v
    · subst huv
      simpa [BpfVerifier.setNodeColour] using hf.dest u
    · simpa [BpfVerifier.setNodeColour, huv] using hf.dest u
  · by_cases huv : u = v
    · subst huv
      simp [BpfVerifier.setNodeColour, colourOf]
    · simpa [BpfVerifier.setNodeColour, huv, colourOf, hstack] using hf.colour u
  · rw [mem_cons, not_or] at hu
    simpa [BpfVerifier.setNodeColour, hu.1] using hf.cursor u hu.2
  · change rest = a ++ u :: b at hrest'
    have huv : u ≠ v := by
      rintro rfl
      exact hrest (hrest' ▸ mem_append_right a mem_cons_self)
    simpa [BpfVerifier.setNodeColour, huv] using
      hf.prev (v :: a) u b (by rw [hstack, hrest', cons_append])
  · simp only [BpfVerifier.setNodeColour, hgrey, update_self, length_cons, ofNat_succ]
    rw [update_of_ne (by decide), hf.black]
  · simp only [BpfVerifier.setNodeColour, hgrey]
    rw [update_of_ne (by decide), update_self, hf.grey, hlen, ofNat_succ, BitVec.add_sub_cancel]
  · have hwhite := hf.white
    rw [hlen] at hwhite
    simp only [BpfVerifier.setNodeColour, hgrey, length_cons]
    rw [update_of_ne (by decide), update_of_ne (by decide), Nat.add_right_comm]
    exact hwhite
  · rw [hstack]
    exact perm_middle.mem_iff.mp hu

/-- The verifier after it has gone to an edge of a node. -/
def BpfVerifier.goEdge (bvf : BpfVerifier) (node next : ℕ) : BpfVerifier :=
  let n := bvf.ins_node node
  BpfVerifier.setEdgeType { bvf with
    ins_node := update bvf.ins_node node { n with cur_edge := n.cur_edge + 1 } } next

@[simp] theorem goEdge_colour (node next u : ℕ) :
    ((bvf.goEdge node next).ins_node u).colour = (bvf.ins_node u).colour := by
  by_cases h : u = node
  · subst h
    simp [BpfVerifier.goEdge, BpfVerifier.setEdgeType]
  · simp [BpfVerifier.goEdge, BpfVerifier.setEdgeType, h]

/-- An edge to a node that has been found is counted. -/
theorem Follows.edge (hf : Follows prm bvf s) {back : ℕ}
    (hback : (if colourOf s w = .grey then s.back + 1 else s.back) = back) :
    Follows prm (bvf.goEdge v w)
      { s with cursor := update s.cursor v (s.cursor v + 1), back := back } := by
  have hw : ((update bvf.ins_node v { bvf.ins_node v with
      cur_edge := (bvf.ins_node v).cur_edge + 1 } w)).colour = colourOf s w := by
    rw [← hf.colour w, ← goEdge_colour v w w]
    rfl
  refine ⟨fun u => ?_, fun u => ?_, fun u hu => ?_, fun a u b hstack => ?_, hf.nodes, hf.black,
    hf.grey, hf.white, ?_, ?_, hf.bound⟩
  · rw [← hf.dest u]
    by_cases h : u = v
    · subst h
      simp [BpfVerifier.goEdge, BpfVerifier.setEdgeType]
    · simp [BpfVerifier.goEdge, BpfVerifier.setEdgeType, h]
  · rw [goEdge_colour, hf.colour]
    rfl
  · by_cases h : u = v
    · subst h
      simpa [BpfVerifier.goEdge, BpfVerifier.setEdgeType] using hf.cursor u hu
    · simpa [BpfVerifier.goEdge, BpfVerifier.setEdgeType, h] using hf.cursor u hu
  · rw [← hf.prev a u b hstack]
    by_cases h : u = v
    · subst h
      simp [BpfVerifier.goEdge, BpfVerifier.setEdgeType]
    · simp [BpfVerifier.goEdge, BpfVerifier.setEdgeType, h]
  · simp only [BpfVerifier.goEdge, BpfVerifier.setEdgeType, hw]
    rw [update_of_ne, hf.unknown]
    cases colourOf s w <;> simp [BpfVerifier.edgeTypeOf]
  · simp only [BpfVerifier.goEdge, BpfVerifier.setEdgeType, hw, ← hback]
    cases colourOf s w
    · simpa [BpfVerifier.edgeTypeOf] using hf.back
    · simp only [BpfVerifier.edgeTypeOf, update_self, hf.back, if_pos, ofNat_succ]
    · simpa [BpfVerifier.edgeTypeOf] using hf.back

theorem Follows.push (hf : Follows prm bvf s) (hstack : s.stack = v :: rest)
    (hnew : w ∉ s.stack ++ s.order) (hlt : w < prm.length) :
    Follows prm (BpfVerifier.found { bvf with
        ins_node := update bvf.ins_node w { bvf.ins_node w with prev_node := v } } w)
      { s with stack := w :: s.stack } := by
  have hsplit := hnew
  rw [mem_append, not_or] at hsplit
  have hwhite : (bvf.ins_node w).colour = .white := by
    rw [hf.colour, colourOf, if_neg hsplit.2, if_neg hsplit.1]
  have hfound : BpfVerifier.found { bvf with
      ins_node := update bvf.ins_node w { bvf.ins_node w with prev_node := v } } w =
      { bvf with
        ins_node := update bvf.ins_node w
          { bvf.ins_node w with prev_node := v, colour := .grey }
        node_colour := update (update bvf.node_colour .white (bvf.node_colour .white - 1)) .grey
          (bvf.node_colour .grey + 1) } := by
    simp [BpfVerifier.found, BpfVerifier.setNodeColour, hwhite]
  rw [hfound]
  refine ⟨fun u => ?_, fun u => ?_, fun u hu => ?_, fun a u b hcons => ?_, hf.nodes, ?_, ?_, ?_,
    hf.unknown, hf.back, fun u hu => ?_⟩
  · rw [← hf.dest u]
    by_cases h : u = w
    · subst h
      simp
    · simp [h]
  · by_cases h : u = w
    · subst h
      simp [colourOf, hsplit.2]
    · simpa [h, colourOf] using hf.colour u
  · rw [← hf.cursor u hu]
    by_cases h : u = w
    · subst h
      simp
    · simp [h]
  · rcases cons_eq_append_iff.mp hcons with ⟨rfl, hu⟩ | ⟨a, rfl, hrest⟩
    · obtain ⟨rfl, rfl⟩ := cons.inj hu
      simp [hstack]
    · have h : u ≠ w := by
        rintro rfl
        exact hsplit.1 (hrest ▸ mem_append_right a mem_cons_self)
      simpa [h] using hf.prev a u b hrest
  · simpa using hf.black
  · simp only [update_self, length_cons, ofNat_succ, hf.grey]
  · rw [← hf.white]
    simp only [length_cons]
    rw [update_of_ne (by decide), update_self, ← Nat.add_assoc, ofNat_succ, BitVec.add_comm _ 1,
      ← BitVec.add_assoc, BitVec.sub_add_cancel]
  · rcases mem_cons.mp hu with rfl | hu
    · exact hlt
    · exact hf.bound u hu

/-! ## A pass of `dfs` -/

theorem found_of_ne_white (h : (bvf.ins_node v).colour ≠ .white) : bvf.found v = bvf :=
  if_neg h

theorem dfs_finish {nb_ins node : ℕ} (fuel : ℕ)
    (hgrey : ((bvf.found node).ins_node node).colour = .grey)
    (hget : ((bvf.found node).ins_node node).edge_dest[
      ((bvf.found node).ins_node node).cur_edge]? = none) :
    dfs nb_ins (fuel + 1) bvf node =
      let bvf' := (bvf.found node).setNodeColour node .black
      dfs nb_ins fuel { bvf' with
        ins_node := update bvf'.ins_node node { bvf'.ins_node node with cur_edge := 0 } }
        ((bvf.found node).ins_node node).prev_node := by
  rw [dfs]
  generalize bvf.found node = g at *
  simp only [if_pos hgrey, BpfVerifier.getNextNode, hget, Option.map_none]
  simp [BpfVerifier.setNodeColour]

theorem dfs_edge {nb_ins node : ℕ} (fuel : ℕ)
    (hgrey : ((bvf.found node).ins_node node).colour = .grey)
    (hget : ((bvf.found node).ins_node node).edge_dest[
      ((bvf.found node).ins_node node).cur_edge]? = some w) :
    dfs nb_ins (fuel + 1) bvf node =
      if w < nb_ins then
        if (((bvf.found node).goEdge node w).ins_node w).colour = .white then
          dfs nb_ins fuel { (bvf.found node).goEdge node w with
            ins_node := update ((bvf.found node).goEdge node w).ins_node w
              { ((bvf.found node).goEdge node w).ins_node w with prev_node := node } } w
        else dfs nb_ins fuel ((bvf.found node).goEdge node w) node
      else some none := by
  rw [dfs]
  generalize bvf.found node = g at *
  simp only [if_pos hgrey, BpfVerifier.getNextNode, hget, Option.map_some]
  rfl

/-- A pass at a node that is finished is the last. -/
theorem dfs_black {nb_ins node : ℕ} (fuel : ℕ) (hblack : (bvf.ins_node node).colour = .black) :
    dfs nb_ins (fuel + 1) bvf node = some (some bvf) := by
  rw [dfs, found_of_ne_white (by rw [hblack]; decide)]
  simp [hblack]

/-- **What a pass of `dfs` does.** It goes to a node outside the array, or follows
the search one step. -/
theorem Follows.pass {node : ℕ} (hf : Follows prm (bvf.found node) s)
    (hi : Inv (succ prm) 0 s) (hstack : s.stack = node :: rest) (fuel : ℕ) :
    (dfs prm.length (fuel + 1) bvf node = some none ∧ ∃ w ∈ succ prm node, prm.length ≤ w) ∨
    ∃ bvf' node', dfs prm.length (fuel + 1) bvf node = dfs prm.length fuel bvf' node' ∧
      Follows prm (bvf'.found node') (step (succ prm) s) ∧
      ((step (succ prm) s).stack.head? = some node' ∨
        (step (succ prm) s).stack = [] ∧ (bvf'.ins_node node').colour = .black) := by
  have hnotin : node ∉ s.order := by
    have hnodup := hi.nodup
    rw [hstack, cons_append, nodup_cons, mem_append, not_or] at hnodup
    exact hnodup.1.2
  have hgrey : ((bvf.found node).ins_node node).colour = .grey := by
    rw [hf.colour, colourOf, if_neg hnotin, if_pos (hstack ▸ mem_cons_self)]
  have hget : ((bvf.found node).ins_node node).edge_dest[
      ((bvf.found node).ins_node node).cur_edge]? = (succ prm node)[s.cursor node]? := by
    rw [hf.dest, hf.cursor node hnotin]
  rcases step_cases hstack with ⟨hlen, hstep⟩ | ⟨w, hw, hcases⟩
  · -- the node has no further edge
    have hfinish := hf.finish hstack hi.nodup
    have hprev := hf.prev [] node rest hstack
    refine Or.inr ⟨_, _, dfs_finish fuel hgrey
      (hget.trans (getElem?_eq_none_iff.mpr hlen)), ?_⟩
    rw [hstep, hprev]
    cases rest with
    | nil =>
      have hblack := hfinish.colour node
      rw [colourOf, if_pos mem_cons_self] at hblack
      rw [headD_nil, found_of_ne_white (by rw [hblack]; decide)]
      exact ⟨hfinish, Or.inr ⟨rfl, hblack⟩⟩
    | cons u rest =>
      have hcolour := hfinish.colour u
      have hne : colourOf { s with order := node :: s.order, stack := u :: rest } u ≠ .white := by
        rw [colourOf]
        split_ifs with h1 h2
        · decide
        · decide
        · exact absurd mem_cons_self h2
      rw [headD_cons, found_of_ne_white (by rw [hcolour]; exact hne)]
      exact ⟨hfinish, Or.inl rfl⟩
  · have hdfs : dfs prm.length (fuel + 1) bvf node = _ := dfs_edge fuel hgrey (hget.trans hw)
    by_cases hlt : w < prm.length
    · rw [if_pos hlt] at hdfs
      have hcolour : (((bvf.found node).goEdge node w).ins_node w).colour = colourOf s w := by
        rw [goEdge_colour, hf.colour]
      have hhead : s.stack.head? = some node := by rw [hstack, head?_cons]
      have hstays : ((bvf.found node).goEdge node w).found node =
          (bvf.found node).goEdge node w :=
        found_of_ne_white (by rw [goEdge_colour, hgrey]; decide)
      refine Or.inr ?_
      rcases hcases with ⟨horder, hstep⟩ | ⟨horder, hin, hstep⟩ | ⟨horder, hin, hstep⟩
      · have hblack : colourOf s w = .black := if_pos horder
        rw [if_neg (by rw [hcolour, hblack]; decide)] at hdfs
        rw [hstep]
        refine ⟨_, _, hdfs, ?_, Or.inl hhead⟩
        rw [hstays]
        exact hf.edge (by rw [hblack]; rfl)
      · have hgrey' : colourOf s w = .grey := by rw [colourOf, if_neg horder, if_pos hin]
        rw [if_neg (by rw [hcolour, hgrey']; decide)] at hdfs
        rw [hstep]
        refine ⟨_, _, hdfs, ?_, Or.inl hhead⟩
        rw [hstays]
        exact hf.edge (by rw [hgrey']; rfl)
      · have hwhite : colourOf s w = .white := by rw [colourOf, if_neg horder, if_neg hin]
        rw [if_pos (hcolour.trans hwhite)] at hdfs
        have hedge : Follows prm ((bvf.found node).goEdge node w)
            { s with cursor := update s.cursor node (s.cursor node + 1) } :=
          hf.edge (by rw [hwhite]; rfl)
        rw [hstep]
        refine ⟨_, _, hdfs, ?_, Or.inl rfl⟩
        exact hedge.push hstack (by simpa using ⟨hin, horder⟩) hlt
    · rw [if_neg hlt] at hdfs
      exact Or.inl ⟨hdfs, w, mem_of_getElem? hw, not_lt.mp hlt⟩

theorem exists_rest {node : ℕ} (hstack : s.stack.head? = some node) :
    ∃ rest, s.stack = node :: rest := by
  cases hs : s.stack with
  | nil => simp [hs] at hstack
  | cons u rest =>
    rw [hs, head?_cons] at hstack
    exact ⟨rest, by rw [Option.some.inj hstack]⟩

/-- **`dfs` comes to an end.** It has gone to a node outside the array, to which an
edge from a node leads that can be reached, or has made a whole search. -/
theorem dfs_spec {node n fuel : ℕ} (hf : Follows prm (bvf.found node) s)
    (hi : Inv (succ prm) 0 s) (hpaid : Paid (succ prm) (Finset.range prm.length) s)
    (hstack : s.stack.head? = some node)
    (hwork : work (succ prm) (Finset.range prm.length) s ≤ n) (hfuel : n < fuel) :
    (dfs prm.length fuel bvf node = some none ∧
      ∃ v, Reaches (succ prm) 0 v ∧ ∃ w ∈ succ prm v, prm.length ≤ w) ∨
    ∃ bvf' s', dfs prm.length fuel bvf node = some (some bvf') ∧ Follows prm bvf' s' ∧
      Inv (succ prm) 0 s' ∧ Paid (succ prm) (Finset.range prm.length) s' ∧ s'.stack = [] := by
  induction n generalizing bvf node s fuel with
  | zero =>
    obtain ⟨rest, hrest⟩ := exists_rest hstack
    have hnode := Finset.mem_range.mpr
      (hf.bound node (mem_append_left _ (hrest ▸ mem_cons_self)))
    have hless := hi.work_step hrest hnode
    omega
  | succ n ih =>
    obtain ⟨rest, hrest⟩ := exists_rest hstack
    have hmem : node ∈ s.stack ++ s.order :=
      mem_append_left _ (hrest ▸ mem_cons_self)
    have hnode := Finset.mem_range.mpr (hf.bound node hmem)
    have hless := hi.work_step hrest hnode
    have hpaid' := hpaid.step hi hrest hnode
    obtain ⟨fuel, rfl⟩ := Nat.exists_eq_succ_of_ne_zero (Nat.ne_of_gt (Nat.zero_lt_of_lt hfuel))
    rcases hf.pass hi hrest fuel with ⟨hdfs, hout⟩ | ⟨bvf', node', hdfs, hf', hnext⟩
    · exact Or.inl ⟨hdfs, node, hi.reach node hmem, hout⟩
    · rw [Nat.succ_eq_add_one, hdfs]
      rcases hnext with hhead | ⟨hdone, hblack⟩
      · exact ih hf' hi.step hpaid' hhead (by omega) (by omega)
      · obtain ⟨fuel, rfl⟩ := Nat.exists_eq_succ_of_ne_zero (show fuel ≠ 0 by omega)
        rw [found_of_ne_white (by rw [hblack]; decide)] at hf'
        exact Or.inr ⟨bvf', _, dfs_black fuel hblack, hf', hi.step, hpaid', hdone⟩

end Bpf
