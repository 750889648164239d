import Mathlib.Algebra.BigOperators.Group.Finset.Basic
import Mathlib.Algebra.Order.BigOperators.Group.Finset
import Mathlib.Algebra.Module.NatInt
import Mathlib.Data.List.Nodup
import Mathlib.Logic.Function.Basic
import Mathlib.Logic.Relation

/-!
# Searching a graph depth first

A search of a graph from a root, with a stack. It goes from a node to its
successors one after the other, leaves out those it has seen, and finishes a node
that has no more of them. An edge to a node of the stack is a *back* edge.

A search that has come to its end has finished exactly the nodes that can be
reached (`Inv.mem_order`). It has seen a back edge where there is a cycle among
them (`Inv.back_eq_zero`). Otherwise the finished nodes, the last first, are in an
order in which every edge leads onwards (`Sorted`), so that paths are no longer
than that list.
-/

open List

namespace DepthFirst

open Function Relation

variable {α : Type*} (succ : α → List α)

/-- An edge of the graph. -/
def Edge (v w : α) : Prop := w ∈ succ v

/-- A node can be reached from another. -/
def Reaches : α → α → Prop := ReflTransGen (Edge succ)

/-- **There is a cycle** that can be reached. -/
def Cyclic (root : α) : Prop := ∃ w, Reaches succ root w ∧ TransGen (Edge succ) w w

/-- **Every edge of a list leads onwards** in it. -/
inductive Sorted : List α → Prop
  | nil : Sorted []
  | cons {v : α} {l : List α} (hv : ∀ w ∈ succ v, w ∈ l) (hl : Sorted l) : Sorted (v :: l)

/-- **A search** under way: the nodes it has finished, the last first, the path it
is on, how many successors of a node it has gone to, and the back edges it has
seen. -/
structure Search (α : Type*) where
  order : List α
  stack : List α
  cursor : α → ℕ
  back : ℕ

/-- The search at its root. -/
def start (root : α) : Search α := ⟨[], [root], fun _ => 0, 0⟩

variable [DecidableEq α]

/-- **One step of a search.** -/
def step (s : Search α) : Search α :=
  match s.stack with
  | [] => s
  | v :: rest =>
    match (succ v)[s.cursor v]? with
    | none => { s with order := v :: s.order, stack := rest }
    | some w =>
      let cursor := update s.cursor v (s.cursor v + 1)
      if w ∈ s.order then { s with cursor := cursor }
      else if w ∈ s.stack then { s with cursor := cursor, back := s.back + 1 }
      else { s with cursor := cursor, stack := w :: s.stack }

variable {succ} {root v w : α} {l : List α} {s : Search α} {U : Finset α}

/-! ## Sorted lists -/

/-- An edge from a node of a sorted list leads to a later one. -/
theorem Sorted.idxOf_lt (hl : Sorted succ l) (hnodup : l.Nodup) (hv : v ∈ l) (hw : w ∈ succ v) :
    w ∈ l ∧ l.idxOf v < l.idxOf w := by
  induction hl with
  | nil => simp at hv
  | @cons u l hu hl ih =>
    obtain ⟨hul, hnodup⟩ := nodup_cons.mp hnodup
    rcases mem_cons.mp hv with rfl | hv
    · have hwl := hu w hw
      have hne : v ≠ w := fun h => hul (h ▸ hwl)
      refine ⟨mem_cons_of_mem _ hwl, ?_⟩
      rw [idxOf_cons_self, idxOf_cons_ne _ hne]
      exact Nat.succ_pos _
    · obtain ⟨hwl, hlt⟩ := ih hnodup hv
      have hne : u ≠ v := fun h => hul (h ▸ hv)
      have hne' : u ≠ w := fun h => hul (h ▸ hwl)
      refine ⟨mem_cons_of_mem _ hwl, ?_⟩
      rw [idxOf_cons_ne _ hne, idxOf_cons_ne _ hne']
      exact Nat.succ_lt_succ hlt

/-- A path from a node of a sorted list leads to later ones. -/
theorem Sorted.idxOf_lt_of_path (hl : Sorted succ l) (hnodup : l.Nodup) (hv : v ∈ l)
    (hw : TransGen (Edge succ) v w) : w ∈ l ∧ l.idxOf v < l.idxOf w := by
  induction hw with
  | single h => exact hl.idxOf_lt hnodup hv h
  | tail _ h ih =>
    obtain ⟨hmem, hlt⟩ := hl.idxOf_lt hnodup ih.1 h
    exact ⟨hmem, ih.2.trans hlt⟩

/-! ## What a step does -/

/-- What a step does, by the successor it comes to. -/
theorem step_cases {rest : List α} (hstack : s.stack = v :: rest) :
    ((succ v).length ≤ s.cursor v ∧
      step succ s = { s with order := v :: s.order, stack := rest }) ∨
    ∃ w, (succ v)[s.cursor v]? = some w ∧
      ((w ∈ s.order ∧ step succ s = { s with cursor := update s.cursor v (s.cursor v + 1) }) ∨
       (w ∉ s.order ∧ w ∈ s.stack ∧ step succ s =
          { s with cursor := update s.cursor v (s.cursor v + 1), back := s.back + 1 }) ∨
       (w ∉ s.order ∧ w ∉ s.stack ∧ step succ s =
          { s with cursor := update s.cursor v (s.cursor v + 1), stack := w :: s.stack })) := by
  rw [step, hstack]
  cases hw : (succ v)[s.cursor v]? with
  | none => exact Or.inl ⟨getElem?_eq_none_iff.mp hw, by simp only [hw]⟩
  | some w =>
    refine Or.inr ⟨w, rfl, ?_⟩
    by_cases horder : w ∈ s.order
    · exact Or.inl ⟨horder, by simp only [hw, if_pos horder]⟩
    · by_cases hin : w ∈ v :: rest
      · exact Or.inr (Or.inl ⟨horder, hin, by simp only [hw, if_neg horder, if_pos hin]⟩)
      · exact Or.inr (Or.inr ⟨horder, hin, by simp only [hw, if_neg horder, if_neg hin]⟩)

/-! ## The invariant -/

/-- **What a search keeps.** Its path leads from the root to the node it is at.
The successors that it has gone to are finished or further on, or it has seen a
back edge. -/
structure Inv (succ : α → List α) (root : α) (s : Search α) : Prop where
  nodup : (s.stack ++ s.order).Nodup
  reach : ∀ v ∈ s.stack ++ s.order, Reaches succ root v
  root_mem : root ∈ s.stack ++ s.order
  path : s.stack.IsChain (fun w v => Edge succ v w)
  fresh : ∀ v ∉ s.stack ++ s.order, s.cursor v = 0
  seen : ∀ a v b, s.stack = a ++ v :: b → ∀ w ∈ (succ v).take (s.cursor v),
    w ∈ s.order ∨ w ∈ a ∨ s.back ≠ 0 ∧ w ∈ s.stack
  closed : ∀ v ∈ s.order, ∀ w ∈ succ v, w ∈ s.stack ++ s.order
  sorted : s.back = 0 → Sorted succ s.order
  cyclic : s.back ≠ 0 → Cyclic succ root

omit [DecidableEq α] in
theorem inv_start (root : α) : Inv succ root (start root) where
  nodup := by simp [start]
  reach v hv := by
    obtain rfl : v = root := by simpa [start] using hv
    exact ReflTransGen.refl
  root_mem := by simp [start]
  path := by simp [start]
  fresh _ _ := rfl
  seen _ v _ _ w hw := by simp [start] at hw
  closed v hv := by simp [start] at hv
  sorted _ := .nil
  cyclic h := absurd rfl h

omit [DecidableEq α] in
/-- The path leads to the node that the search is at. -/
theorem reaches_of_path {stack : List α} (hpath : stack.IsChain (fun w v => Edge succ v w))
    (hv : stack.head? = some v) (hw : w ∈ stack) : Reaches succ w v := by
  induction stack generalizing v with
  | nil => simp at hw
  | cons u rest ih =>
    obtain rfl : u = v := by simpa using hv
    rcases mem_cons.mp hw with rfl | hw
    · exact ReflTransGen.refl
    · cases rest with
      | nil => simp at hw
      | cons x rest =>
        obtain ⟨hedge, hrest⟩ := isChain_cons_cons.mp hpath
        exact (ih hrest rfl hw).tail hedge

theorem mem_take_update {u x : α} (hw : (succ v)[s.cursor v]? = some w)
    (hx : x ∈ (succ u).take (update s.cursor v (s.cursor v + 1) u)) :
    x ∈ (succ u).take (s.cursor u) ∨ u = v ∧ x = w := by
  by_cases huv : u = v
  · subst huv
    rw [update_self, take_add_one, hw, Option.toList_some, mem_append,
      mem_singleton] at hx
    exact hx.imp_right (fun h => ⟨rfl, h⟩)
  · rw [update_of_ne huv] at hx
    exact Or.inl hx

/-- Every step keeps the invariant. -/
theorem Inv.step (hi : Inv succ root s) : Inv succ root (step succ s) := by
  obtain ⟨order, stack, cursor, back⟩ := s
  cases stack with
  | nil => exact hi
  | cons v rest =>
  have hfresh : ∀ u ∉ (v :: rest) ++ order, ∀ n, update cursor v n u = 0 := by
    intro u hu n
    have hne : u ≠ v := fun h => hu (h ▸ mem_cons_self)
    rw [update_of_ne hne]
    exact hi.fresh u hu
  rcases step_cases (s := ⟨order, v :: rest, cursor, back⟩) rfl with
    ⟨hlen, hstep⟩ | ⟨w, hw, ⟨horder, hstep⟩ | ⟨horder, hin, hstep⟩ | ⟨horder, hin, hstep⟩⟩
  all_goals rw [hstep]
  · -- the node is finished
    have hmem : ∀ u, u ∈ rest ++ v :: order ↔ u ∈ (v :: rest) ++ order := by
      intro u
      simp only [mem_append, mem_cons]
      tauto
    have hsucc : ∀ w ∈ succ v, w ∈ order ∨ back ≠ 0 ∧ w ∈ v :: rest := by
      intro w hw
      rw [← take_of_length_le hlen] at hw
      simpa using hi.seen [] v rest rfl w hw
    refine ⟨perm_middle.nodup_iff.mpr hi.nodup, fun u hu => hi.reach u ((hmem u).mp hu),
      (hmem root).mpr hi.root_mem, hi.path.tail, fun u hu => hi.fresh u (mt (hmem u).mpr hu),
      ?_, ?_, ?_, hi.cyclic⟩
    · intro a u b hrest w hw
      have hstack : v :: rest = (v :: a) ++ u :: b := congrArg (v :: ·) hrest
      rcases hi.seen _ u b hstack w hw with h | h | ⟨hback, h⟩
      · exact Or.inl (mem_cons_of_mem _ h)
      · rcases mem_cons.mp h with rfl | h
        · exact Or.inl mem_cons_self
        · exact Or.inr (Or.inl h)
      · rcases mem_cons.mp h with rfl | h
        · exact Or.inl mem_cons_self
        · exact Or.inr (Or.inr ⟨hback, h⟩)
    · intro u hu w hw
      rw [hmem]
      rcases mem_cons.mp hu with rfl | hu
      · rcases hsucc w hw with h | ⟨-, h⟩
        · exact mem_append_right _ h
        · exact mem_append_left _ h
      · exact hi.closed u hu w hw
    · intro hback
      refine .cons (fun w hw => ?_) (hi.sorted hback)
      exact (hsucc w hw).resolve_right (fun h => h.1 hback)
  · -- the successor is finished
    refine ⟨hi.nodup, hi.reach, hi.root_mem, hi.path, fun u hu => hfresh u hu _, ?_, hi.closed,
      hi.sorted, hi.cyclic⟩
    intro a u b hstack x hx
    rcases mem_take_update (s := ⟨order, v :: rest, cursor, back⟩) hw hx with h | ⟨-, rfl⟩
    · exact hi.seen a u b hstack x h
    · exact Or.inl horder
  · -- the successor is on the path
    have hcycle : Cyclic succ root :=
      ⟨w, hi.reach w (mem_append_left _ hin),
        TransGen.tail' (reaches_of_path hi.path rfl hin) (mem_of_getElem? hw)⟩
    refine ⟨hi.nodup, hi.reach, hi.root_mem, hi.path, fun u hu => hfresh u hu _, ?_, hi.closed,
      fun h => absurd h (Nat.succ_ne_zero back), fun _ => hcycle⟩
    intro a u b hstack x hx
    rcases mem_take_update (s := ⟨order, v :: rest, cursor, back⟩) hw hx with h | ⟨-, rfl⟩
    · rcases hi.seen a u b hstack x h with h | h | ⟨-, h⟩
      · exact Or.inl h
      · exact Or.inr (Or.inl h)
      · exact Or.inr (Or.inr ⟨Nat.succ_ne_zero back, h⟩)
    · exact Or.inr (Or.inr ⟨Nat.succ_ne_zero back, hin⟩)
  · -- the successor is new
    have hnew : w ∉ (v :: rest) ++ order := by
      rw [mem_append]
      exact fun h => h.elim hin horder
    have hedge : Edge succ v w := mem_of_getElem? hw
    have hv : v ∈ (v :: rest) ++ order := mem_append_left _ mem_cons_self
    refine ⟨nodup_cons.mpr ⟨hnew, hi.nodup⟩, ?_, mem_cons_of_mem _ hi.root_mem,
      isChain_cons_cons.mpr ⟨hedge, hi.path⟩,
      fun u hu => hfresh u (fun h => hu (mem_cons_of_mem _ h)) _, ?_,
      fun u hu x hx => mem_cons_of_mem _ (hi.closed u hu x hx), hi.sorted, hi.cyclic⟩
    · intro u hu
      rcases mem_cons.mp hu with rfl | hu
      · exact (hi.reach v hv).tail hedge
      · exact hi.reach u hu
    · intro a u b hstack x hx
      rcases cons_eq_append_iff.mp hstack with ⟨rfl, hu⟩ | ⟨a, rfl, hrest⟩
      · obtain ⟨rfl, -⟩ := cons.inj hu
        change x ∈ (succ u).take (update cursor v (cursor v + 1) u) at hx
        rw [hfresh u hnew, take_zero] at hx
        simp at hx
      · rcases mem_take_update (s := ⟨order, v :: rest, cursor, back⟩) hw hx with h | ⟨-, rfl⟩
        · rcases hi.seen a u b hrest x h with h | h | ⟨hback, h⟩
          · exact Or.inl h
          · exact Or.inr (Or.inl (mem_cons_of_mem _ h))
          · exact Or.inr (Or.inr ⟨hback, mem_cons_of_mem _ h⟩)
        · exact Or.inr (Or.inl mem_cons_self)

/-! ## The end of a search -/

omit [DecidableEq α] in
/-- What can be reached is finished, and nothing else. -/
theorem Inv.mem_order (hi : Inv succ root s) (hdone : s.stack = []) (v : α) :
    v ∈ s.order ↔ Reaches succ root v := by
  have hclosed := hi.closed
  have hroot := hi.root_mem
  rw [hdone, nil_append] at hclosed hroot
  constructor
  · intro hv
    exact hi.reach v (mem_append_right _ hv)
  · intro hv
    induction hv with
    | refl => exact hroot
    | tail _ hedge ih => exact hclosed _ ih _ hedge

/-- A back edge has been seen where there is a cycle. -/
theorem Inv.back_eq_zero (hi : Inv succ root s) (hdone : s.stack = []) :
    s.back = 0 ↔ ¬ Cyclic succ root := by
  constructor
  · rintro hback ⟨w, hw, hcycle⟩
    have hnodup := hi.nodup
    rw [hdone, nil_append] at hnodup
    have hmem := (hi.mem_order hdone w).mpr hw
    exact lt_irrefl _ ((hi.sorted hback).idxOf_lt_of_path hnodup hmem hcycle).2
  · intro hnot
    by_contra hback
    exact hnot (hi.cyclic hback)

/-! ## The steps of a search -/

/-- **The steps that are left** for the nodes of a set. -/
def work (succ : α → List α) (U : Finset α) (s : Search α) : ℕ :=
  ∑ v ∈ U, if v ∈ s.order then 0 else (succ v).length - s.cursor v + 1

/-- Every step is one of those left. -/
theorem Inv.work_step (hi : Inv succ root s) {rest : List α} (hstack : s.stack = v :: rest)
    (hv : v ∈ U) : work succ U (DepthFirst.step succ s) + 1 = work succ U s := by
  have hnew : v ∉ s.order := by
    have hnodup := hi.nodup
    rw [hstack, cons_append, nodup_cons, mem_append, not_or] at hnodup
    exact hnodup.1.2
  have hone : ∀ t : Search α,
      (∀ u ∈ U.erase v, (if u ∈ t.order then 0 else (succ u).length - t.cursor u + 1) =
        if u ∈ s.order then 0 else (succ u).length - s.cursor u + 1) →
      (if v ∈ t.order then 0 else (succ v).length - t.cursor v + 1) + 1 =
        (succ v).length - s.cursor v + 1 → work succ U t + 1 = work succ U s := by
    intro t hrest ht
    rw [work, work, ← Finset.add_sum_erase _ _ hv, ← Finset.add_sum_erase _ _ hv,
      Finset.sum_congr rfl hrest, if_neg hnew, ← ht]
    omega
  have hedge : ∀ t : Search α, t.order = s.order →
      t.cursor = update s.cursor v (s.cursor v + 1) → s.cursor v < (succ v).length →
      work succ U t + 1 = work succ U s := by
    intro t horder hcursor hlt
    refine hone t (fun u hu => ?_) ?_
    · rw [horder, hcursor, update_of_ne (Finset.ne_of_mem_erase hu)]
    · rw [horder, hcursor, if_neg hnew, update_self]
      omega
  rcases step_cases hstack with ⟨hlen, hstep⟩ | ⟨w, hw, ⟨-, hstep⟩ | ⟨-, -, hstep⟩ | ⟨-, -, hstep⟩⟩
  · rw [hstep]
    refine hone _ (fun u hu => ?_) ?_
    · simp only [mem_cons, Finset.ne_of_mem_erase hu, false_or]
    · rw [if_pos mem_cons_self, Nat.sub_eq_zero_of_le hlen]
  all_goals
    rw [hstep]
    exact hedge _ rfl rfl (List.getElem?_eq_some_iff.mp hw).1

/-- **Back edges and finished nodes** are paid for by the steps. -/
def Paid (succ : α → List α) (U : Finset α) (s : Search α) : Prop :=
  s.back + 2 * s.order.length + s.stack.length + work succ U s ≤
    1 + ∑ v ∈ U, ((succ v).length + 1)

theorem paid_start (U : Finset α) (root : α) : Paid succ U (start root) := by
  simp [Paid, work, start]

theorem Paid.step (hpaid : Paid succ U s) (hi : Inv succ root s) {rest : List α}
    (hstack : s.stack = v :: rest) (hv : v ∈ U) : Paid succ U (DepthFirst.step succ s) := by
  have hwork := hi.work_step hstack hv
  have hlen : s.stack.length = rest.length + 1 := by rw [hstack, length_cons]
  unfold Paid at hpaid ⊢
  rcases step_cases hstack with ⟨-, hstep⟩ | ⟨w, -, ⟨-, hstep⟩ | ⟨-, -, hstep⟩ | ⟨-, -, hstep⟩⟩
  all_goals
    rw [hstep] at hwork ⊢
    simp only [length_cons] at hpaid ⊢
    omega

/-- Back edges are few where no node has more than two successors. -/
theorem Paid.back_le (hpaid : Paid succ U s) (hi : Inv succ root s) (hdone : s.stack = [])
    (htwo : ∀ v ∈ U, (succ v).length ≤ 2) : s.back ≤ 1 + s.order.length := by
  have hfresh : ∀ v ∉ s.order, s.cursor v = 0 := by
    have hfresh := hi.fresh
    rwa [hdone, nil_append] at hfresh
  have hsplit : ∑ v ∈ U, ((succ v).length + 1) ≤
      work succ U s + ∑ v ∈ U, if v ∈ s.order then 3 else 0 := by
    rw [work, ← Finset.sum_add_distrib]
    refine Finset.sum_le_sum (fun v hv => ?_)
    have hle := htwo v hv
    by_cases horder : v ∈ s.order
    · simp only [if_pos horder]
      omega
    · simp [if_neg horder, hfresh v horder]
  have hcard : ∑ v ∈ U, (if v ∈ s.order then 3 else 0) ≤ 3 * s.order.length := by
    rw [← Finset.sum_filter, Finset.sum_const, smul_eq_mul, mul_comm]
    refine Nat.mul_le_mul_left 3 ((Finset.card_le_card ?_).trans (toFinset_card_le s.order))
    exact fun v hv => mem_toFinset.mpr (Finset.mem_filter.mp hv).2
  rw [Paid, hdone, length_nil] at hpaid
  omega

end DepthFirst
