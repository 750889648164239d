import Mathlib.Data.List.Nodup
import DpdkStudy.Bpf.Validate
import DpdkStudy.Lib.DepthFirst

/-!
# The graph that the first pass makes

The instructions of a program begin at some of its places (`starts`); the others are
second halves of an immediate of 64 bits. From a start, edges lead to what can come
next (`succ`). The first pass makes just that graph of a program
(`firstPass_spec`), where no number of an instruction that comes next wraps into the
program (`Wraps`). None does where the program is not of a length near `2 ^ 32`.
-/

open List

namespace Bpf

open Function DepthFirst

/-- The places from a place on at which an instruction begins. -/
def startsFrom (prm : List EbpfInsn) : ℕ → ℕ → List ℕ
  | 0, _ => []
  | fuel + 1, i =>
    match prm[i]? with
    | none => []
    | some ins => i :: startsFrom prm fuel (i + ins.width)

/-- **The places at which an instruction begins.** -/
def starts (prm : List EbpfInsn) : List ℕ := startsFrom prm prm.length 0

/-- **The edges of the graph**, with numbers that do not wrap. Second halves have
none. -/
def succ (prm : List EbpfInsn) (i : ℕ) : List ℕ :=
  match prm[i]? with
  | none => []
  | some ins => if i ∈ starts prm then (ins.nexts i).map Int.toNat else []

/-- **A number wraps into the program**: that of an instruction that comes next. -/
def Wraps (prm : List EbpfInsn) : Prop :=
  word32 ≤ prm.length + 1 ∨ ∃ i ∈ starts prm, ∃ ins, prm[i]? = some ins ∧ ∃ t ∈ ins.nexts i,
    toWord32 t ≤ prm.length ∧ t ≠ toWord32 t

/-- **The first pass finds nothing wrong**: the syntax of every instruction is right,
and what comes next is not beyond the end. -/
def FirstOk (prm : List EbpfInsn) : Prop :=
  ∀ i ∈ starts prm, ∀ ins, prm[i]? = some ins →
    checkSyntax ins = none ∧ ∀ t ∈ ins.nexts i, 0 ≤ t ∧ t ≤ prm.length

variable {prm : List EbpfInsn} {i n : ℕ}

theorem EbpfInsn.width_pos (ins : EbpfInsn) : 0 < ins.width := by
  unfold width
  split <;> decide

theorem EbpfInsn.width_le (ins : EbpfInsn) : ins.width ≤ 2 := by
  unfold width
  split <;> decide

theorem EbpfInsn.length_nexts (ins : EbpfInsn) (i : ℕ) : (ins.nexts i).length ≤ maxEdges := by
  unfold nexts
  split <;> simp [maxEdges]

/-- What follows lies not far from the instruction. -/
theorem EbpfInsn.nexts_bounds {ins : EbpfInsn} {t : ℤ} (ht : t ∈ ins.nexts i) :
    (i : ℤ) - 2 ^ 15 < t ∧ t ≤ i + 2 ^ 15 := by
  have hlo := ins.off.le_toInt
  have hhi := ins.off.toInt_lt
  unfold nexts at ht
  split at ht
  · simp at ht
  all_goals
    simp only [mem_cons, not_mem_nil, or_false] at ht
    omega

/-- No number wraps where a program is not of a length near `2 ^ 32`. -/
theorem not_wraps (hlen : prm.length ≤ word32 - 2 ^ 15) : ¬ Wraps prm := by
  simp only [word32] at hlen
  rintro (h | ⟨i, -, ins, hins, t, ht, hle, hne⟩)
  · simp only [word32] at h
    omega
  · have hi : i < prm.length := (List.getElem?_eq_some_iff.mp hins).1
    have hbounds := EbpfInsn.nexts_bounds ht
    simp only [toWord32, word32] at hle hne
    omega

/-! ## Places -/

/-- Starts lie behind the place from which they are counted, in the program. -/
theorem mem_startsFrom {j : ℕ} (hj : j ∈ startsFrom prm n i) : i ≤ j ∧ j < prm.length := by
  induction n generalizing i with
  | zero => simp [startsFrom] at hj
  | succ n ih =>
    rw [startsFrom] at hj
    cases hins : prm[i]? with
    | none => simp [hins] at hj
    | some ins =>
      simp only [hins, mem_cons] at hj
      rcases hj with rfl | hj
      · exact ⟨le_rfl, (List.getElem?_eq_some_iff.mp hins).1⟩
      · have hle := (ih hj).1
        exact ⟨by omega, (ih hj).2⟩

theorem nodup_startsFrom : (startsFrom prm n i).Nodup := by
  induction n generalizing i with
  | zero => exact nodup_nil
  | succ n ih =>
    rw [startsFrom]
    cases hins : prm[i]? with
    | none => exact nodup_nil
    | some ins =>
      refine nodup_cons.mpr ⟨fun h => ?_, ih⟩
      have hle := (mem_startsFrom h).1
      have hpos := ins.width_pos
      omega

theorem lt_of_mem_starts (hi : i ∈ starts prm) : i < prm.length := (mem_startsFrom hi).2

theorem succ_of_mem {ins : EbpfInsn} (hi : i ∈ starts prm) (hins : prm[i]? = some ins) :
    succ prm i = (ins.nexts i).map Int.toNat := by
  simp only [succ, hins, if_pos hi]

theorem succ_of_notMem (hi : i ∉ starts prm) : succ prm i = [] := by
  unfold succ
  split
  · rfl
  · exact if_neg hi

theorem length_succ (prm : List EbpfInsn) (i : ℕ) : (succ prm i).length ≤ 2 := by
  unfold succ
  split
  · decide
  · split
    · rw [length_map]
      exact EbpfInsn.length_nexts _ i
    · decide

/-! ## The first pass -/

/-- Edges are added to a node that has room for them. -/
theorem addEdges_spec (nb_ins : ℕ) (node : InstNode) (l : List ℕ)
    (hroom : node.edge_dest.length + l.length ≤ maxEdges) :
    ((addEdges nb_ins node l).2 = true ↔ ∀ t ∈ l, t ≤ nb_ins) ∧
      ((addEdges nb_ins node l).2 = true →
        (addEdges nb_ins node l).1 = { node with edge_dest := node.edge_dest ++ l }) := by
  induction l generalizing node with
  | nil => simp [addEdges]
  | cons t rest ih =>
    rw [length_cons] at hroom
    by_cases ht : t ≤ nb_ins
    · have hadd : addEdge nb_ins node t =
          some { node with edge_dest := node.edge_dest ++ [t] } := by
        rw [addEdge, if_neg (not_lt.mpr ht), if_neg (by omega)]
      obtain ⟨hiff, heq⟩ := ih { node with edge_dest := node.edge_dest ++ [t] } (by
        simp only [length_append, length_singleton]
        omega)
      simp only [addEdges, hadd, hiff, forall_mem_cons, ht, true_and]
      intro hrest
      rw [heq (hiff.mpr hrest)]
      simp
    · have hadd : addEdge nb_ins node t = none := by
        rw [addEdge, if_pos (not_le.mp ht)]
      simp [addEdges, hadd, ht]

/-- **The first pass** over the instructions from one on: it counts them, finds
what is wrong, and gives each of them its edges. -/
theorem firstPass_spec {fuel : ℕ} {bvf : BpfVerifier} {ok : Bool} (hword : prm.length + 1 < word32)
    (hi : i ≤ prm.length + 1) (hn : prm.length ≤ i + n) (hfuel : n < fuel)
    (hnew : ∀ j ∈ startsFrom prm n i, (bvf.ins_node j).edge_dest = []) :
    ∃ ok' bvf', firstPass prm fuel i ok bvf = some (ok', bvf') ∧
      (ok' = true ↔ ok = true ∧ ∀ j ∈ startsFrom prm n i, ∀ ins, prm[j]? = some ins →
        checkSyntax ins = none ∧ ∀ t ∈ ins.nexts j, toWord32 t ≤ prm.length) ∧
      bvf'.nb_nodes = bvf.nb_nodes + BitVec.ofNat 32 (startsFrom prm n i).length ∧
      bvf'.node_colour = update bvf.node_colour .white
        (bvf.node_colour .white + BitVec.ofNat 32 (startsFrom prm n i).length) ∧
      bvf'.edge_type = bvf.edge_type ∧
      (∀ j ∉ startsFrom prm n i, bvf'.ins_node j = bvf.ins_node j) ∧
      (ok' = true → ∀ j ∈ startsFrom prm n i, ∀ ins, prm[j]? = some ins →
        bvf'.ins_node j =
          { bvf.ins_node j with edge_dest := (ins.nexts j).map toWord32 }) := by
  induction n generalizing i fuel bvf ok with
  | zero =>
    obtain ⟨fuel, rfl⟩ := Nat.exists_eq_succ_of_ne_zero (Nat.pos_iff_ne_zero.mp hfuel)
    have hend : prm[i]? = none := getElem?_eq_none_iff.mpr (by omega)
    refine ⟨ok, bvf, by simp only [firstPass, hend], ?_⟩
    simp [startsFrom]
  | succ n ih =>
    obtain ⟨fuel, rfl⟩ := Nat.exists_eq_succ_of_ne_zero (Nat.ne_of_gt (Nat.zero_lt_of_lt hfuel))
    cases hins : prm[i]? with
    | none =>
      refine ⟨ok, bvf, by simp only [firstPass, hins], ?_⟩
      simp [startsFrom, hins]
    | some ins =>
      have hlt : i < prm.length := (List.getElem?_eq_some_iff.mp hins).1
      have hwidth := ins.width_pos
      have hwidth' := ins.width_le
      have hstarts : startsFrom prm (n + 1) i = i :: startsFrom prm n (i + ins.width) := by
        simp only [startsFrom, hins]
      have hmod : (i + ins.width) % word32 = i + ins.width := Nat.mod_eq_of_lt (by omega)
      have hlater : ∀ j ∈ startsFrom prm n (i + ins.width), j ≠ i := by
        intro j hj
        have hle := (mem_startsFrom hj).1
        omega
      have hempty : (bvf.ins_node i).edge_dest = [] := hnew i (by simp [hstarts])
      obtain ⟨hadded, hnode⟩ := addEdges_spec prm.length (bvf.ins_node i)
        ((ins.nexts i).map toWord32) (by
          rw [hempty, length_map]
          simpa using ins.length_nexts i)
      obtain ⟨ok', bvf', hpass, hok', hnb, hcolour, htype, hothers, hnodes⟩ := @ih (i + ins.width)
        fuel { bvf with
          ins_node := update bvf.ins_node i
            (addEdges prm.length (bvf.ins_node i) ((ins.nexts i).map toWord32)).1
          nb_nodes := bvf.nb_nodes + 1
          node_colour := update bvf.node_colour .white (bvf.node_colour .white + 1) }
        (ok && (checkSyntax ins).isNone &&
          (addEdges prm.length (bvf.ins_node i) ((ins.nexts i).map toWord32)).2)
        (by omega) (by omega) (by omega) (fun j hj => by
          simp only [update_of_ne (hlater j hj)]
          exact hnew j (by simp [hstarts, hj]))
      have hsucc : ∀ k : ℕ, (1 : BitVec 32) + BitVec.ofNat 32 k = BitVec.ofNat 32 (k + 1) := by
        intro k
        rw [Nat.add_comm, BitVec.ofNat_add]
        rfl
      refine ⟨ok', bvf', by simp only [firstPass, hins, hmod]; exact hpass, ?_, ?_, ?_, htype,
        ?_, ?_⟩
      · rw [hok', hstarts]
        simp only [Bool.and_eq_true, Option.isNone_iff_eq_none, hadded, forall_mem_cons, hins,
          Option.some.injEq, forall_eq', forall_mem_map]
        tauto
      · rw [hnb, hstarts, length_cons]
        simp only [BitVec.add_assoc, hsucc]
      · rw [hcolour, hstarts, length_cons]
        simp only [update_idem, update_self, BitVec.add_assoc, hsucc]
      · intro j hj
        rw [hstarts, mem_cons, not_or] at hj
        rw [hothers j hj.2]
        exact update_of_ne hj.1 _ _
      · intro h j hj jns hjns
        rw [hstarts, mem_cons] at hj
        have hok := (hok'.mp h).1
        rw [Bool.and_eq_true] at hok
        by_cases hij : j = i
        · subst hij
          obtain rfl : ins = jns := Option.some.inj (hins.symm.trans hjns)
          rw [hothers j (fun hj => hlater j hj rfl)]
          simp only [update_self]
          rw [hnode hok.2, hempty, nil_append]
        · rw [hnodes h j (hj.resolve_left hij) jns hjns]
          simp only [update_of_ne hij]

end Bpf
