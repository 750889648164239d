import DpdkStudy.Member.HeapTable

/-!
# The heap and its index

The hash table of a heap says of the key of each node where the node is, and it says nothing else
(`Indexed`). Each function of the heap keeps it so: wherever a node is moved, its mark is found
and replaced. So the updates never fail, the nodes in the heap are the ones they should be
(`nodes`), and a key is found exactly where it is, if there are no two nodes with the same key
(`rteMemberMinheapFind_iff`).

The order of the heap is kept too, or made good by the sift (`MinHeap`).
-/

open Option Multiset Nat

namespace Member

open MinHeap Places

variable {K : Type} {hash_func : BitVec 32 → K → BitVec 32}

variable {i idx j : ℕ} {hp hp' : Minheap K} {key : K}

namespace Minheap

variable (hash_func) in
/-- What the hash table should say of the node in a place. -/
def nodeMark (hp : Minheap K) (i : ℕ) : Multiset Mark :=
  {hp.hashtable.mark hash_func (hp.elem i).key (i + 1)}

variable (hash_func) in
/-- **The hash table says where each node is**, and nothing else. -/
def Indexed (hp : Minheap K) : Prop :=
  hp.hashtable.marks = ∑ i ∈ Finset.range hp.size, hp.nodeMark hash_func i

/-- The node in a place. -/
def node (hp : Minheap K) (i : ℕ) : Multiset (Node K) := {hp.elem i}

/-- **The nodes of a heap.** -/
def nodes (hp : Minheap K) : Multiset (Node K) := ∑ i ∈ Finset.range hp.size, hp.node i

end Minheap

open Minheap

/-! ## Nodes that change places -/

theorem sum_swap {M : Type} [AddCommMonoid M] {f g : ℕ → M} {n : ℕ} (hi : i < n) (hj : j < n)
    (hne : i ≠ j) (hgi : g i = f j) (hgj : g j = f i) (hrest : ∀ k, k ≠ i → k ≠ j → g k = f k) :
    ∑ k ∈ Finset.range n, g k = ∑ k ∈ Finset.range n, f k := by
  have hi' := Finset.mem_range.mpr hi
  have hj' := Finset.mem_range.mpr hj
  rw [sum_eq_add_add hi' hj' hne g, sum_eq_add_add hi' hj' hne f, hgi, hgj, add_left_comm,
    without_congr (f := f) fun k hk hkj => hrest k (Finset.ne_of_mem_erase hk) hkj]

theorem nodes_swap (hi : i < hp.size) (hj : j < hp.size) (hne : i ≠ j) (hsize : hp'.size = hp.size)
    (helem : hp'.elem = swap hp.elem i j) :
    hp'.nodes = hp.nodes := by
  unfold nodes
  rw [hsize]
  refine sum_swap hi hj hne ?_ ?_ fun k hki hkj => ?_
  · rw [node, node, helem, swap_left]
  · rw [node, node, helem, swap_right]
  · rw [node, node, helem, swap_of_ne hp.elem hki hkj]

/-- **Two nodes change places, and the table is updated**, which does not fail. -/
theorem Minheap.Indexed.swap (h : hp.Indexed hash_func) (hsize : hp.size < word16)
    (hi : i < hp.size) (hj : j < hp.size) (hne : i ≠ j) :
    ∃ t₁ t₂, hashTableUpdate hash_func (hp.elem i).key (i + 1) (j + 1) hp.hashtable = some t₁ ∧
      hashTableUpdate hash_func (hp.elem j).key (j + 1) (i + 1) t₁ = some t₂ ∧
      ({ hp with elem := MinHeap.swap hp.elem i j, hashtable := t₂ } : Minheap K).Indexed
        hash_func := by
  have hi' := Finset.mem_range.mpr hi
  have hj' := Finset.mem_range.mpr hj
  have hmarks : hp.hashtable.marks = hp.nodeMark hash_func i + (hp.nodeMark hash_func j +
      without ((Finset.range hp.size).erase i) (hp.nodeMark hash_func) j) :=
    h.trans (sum_eq_add_add hi' hj' hne _)
  obtain ⟨t₁, hupdate₁, hmark₁, hmarks₁⟩ := hashTableUpdate_spec (v := j + 1) (succ_pos j)
    (lt_of_le_of_lt hj hsize) (show hp.hashtable.mark hash_func (hp.elem i).key (i + 1) ∈
      hp.hashtable.marks by
        rw [hmarks]
        exact mem_add.mpr (Or.inl (mem_singleton_self _)))
  rw [hmarks, add_left_comm, nodeMark, add_right_inj] at hmarks₁
  obtain ⟨t₂, hupdate₂, hmark₂, hmarks₂⟩ := hashTableUpdate_spec (v := i + 1) (succ_pos i)
    (lt_of_le_of_lt hi hsize) (show t₁.mark hash_func (hp.elem j).key (j + 1) ∈ t₁.marks by
      rw [hmarks₁, hmark₁]
      exact mem_add.mpr (Or.inr (mem_add.mpr
        (Or.inl (mem_singleton_self _)))))
  refine ⟨t₁, t₂, hupdate₁, hupdate₂, ?_⟩
  have hmark : t₂.mark hash_func = hp.hashtable.mark hash_func := hmark₂.trans hmark₁
  have hmarks₂' : t₂.marks = {hp.hashtable.mark hash_func (hp.elem j).key (i + 1)} +
      ({hp.hashtable.mark hash_func (hp.elem i).key (j + 1)} +
        without ((Finset.range hp.size).erase i) (hp.nodeMark hash_func) j) := by
    rw [hmarks₁, hmark₁, nodeMark] at hmarks₂
    refine add_left_cancel (hmarks₂.trans ?_)
    abel
  show t₂.marks = _
  rw [hmarks₂', sum_eq_add_add hi' hj' hne]
  congr 1
  · simp only [nodeMark, hmark, swap_left]
  · congr 1
    · simp only [nodeMark, hmark, swap_right]
    · refine (without_congr fun k hk hkj => ?_).symm
      simp only [nodeMark, hmark, swap_of_ne hp.elem (Finset.ne_of_mem_erase hk) hkj]

/-! ## Heapify -/

theorem heapifyFrom_of_eq (u : Bool) (n : ℕ) (hs : smallest Node.count hp.elem hp.size idx = idx) :
    heapifyFrom hash_func u (n + 1) hp idx = hp := by
  unfold heapifyFrom
  exact if_neg (not_not.mpr hs)

theorem heapifyFrom_of_ne (n : ℕ) (hs : smallest Node.count hp.elem hp.size idx ≠ idx) :
    heapifyFrom hash_func false (n + 1) hp idx =
      heapifyFrom hash_func false n
        { hp with elem := swap hp.elem idx (smallest Node.count hp.elem hp.size idx) }
        (smallest Node.count hp.elem hp.size idx) := by
  conv_lhs => unfold heapifyFrom
  exact if_pos hs

theorem heapifyFrom_update (n : ℕ) {t₁ t₂ : Hash}
    (hs : smallest Node.count hp.elem hp.size idx ≠ idx)
    (h₁ : hashTableUpdate hash_func (hp.elem idx).key (idx + 1)
      (smallest Node.count hp.elem hp.size idx + 1) hp.hashtable = some t₁)
    (h₂ : hashTableUpdate hash_func (hp.elem (smallest Node.count hp.elem hp.size idx)).key
      (smallest Node.count hp.elem hp.size idx + 1) (idx + 1) t₁ = some t₂) :
    heapifyFrom hash_func true (n + 1) hp idx =
      heapifyFrom hash_func true n
        { hp with
          elem := swap hp.elem idx (smallest Node.count hp.elem hp.size idx)
          hashtable := t₂ }
        (smallest Node.count hp.elem hp.size idx) := by
  conv_lhs => unfold heapifyFrom
  rw [if_pos hs]
  simp only [if_true, swap_right, swap_left, h₁, h₂]

variable (hash_func) in
/-- Heapify keeps the nodes of a heap, and what is behind them. -/
theorem heapifyFrom_false (n : ℕ) (hp : Minheap K) (idx : ℕ) (hidx : idx < hp.size) :
    (heapifyFrom hash_func false n hp idx).size = hp.size ∧
    (heapifyFrom hash_func false n hp idx).nodes = hp.nodes ∧
    ∀ i, hp.size ≤ i → (heapifyFrom hash_func false n hp idx).elem i = hp.elem i := by
  induction n generalizing hp idx with
  | zero => exact ⟨rfl, rfl, fun _ _ => rfl⟩
  | succ n ih =>
    by_cases hs : smallest Node.count hp.elem hp.size idx = idx
    · rw [heapifyFrom_of_eq false n hs]
      exact ⟨rfl, rfl, fun _ _ => rfl⟩
    · obtain ⟨-, hlt, -⟩ := (smallest_spec Node.count hp.elem hp.size idx).2 hs
      rw [heapifyFrom_of_ne n hs]
      generalize smallest Node.count hp.elem hp.size idx = s at hs hlt ⊢
      obtain ⟨hsize, hnodes, hrest⟩ := ih { hp with elem := swap hp.elem idx s } s hlt
      refine ⟨hsize, hnodes.trans (nodes_swap hidx hlt (Ne.symm hs) rfl rfl), fun i hi => ?_⟩
      refine (hrest i hi).trans (swap_of_ne hp.elem ?_ ?_)
      · exact (hidx.trans_le hi).ne'
      · exact (hlt.trans_le hi).ne'

theorem heapifyFrom_ordered (n : ℕ) (hp : Minheap K) (idx : ℕ) (hn : hp.size - idx ≤ n)
    (h : DownOrder Node.count hp.elem hp.size idx) :
    Ordered Node.count (heapifyFrom hash_func false n hp idx).elem hp.size := by
  induction n generalizing hp idx with
  | zero =>
    refine h.finish ?_
    by_contra hs
    obtain ⟨hchild, hlt, -⟩ := (smallest_spec Node.count hp.elem hp.size idx).2 hs
    exact absurd (hchild.lt.trans hlt) (not_lt.mpr (Nat.sub_eq_zero_iff_le.mp (Nat.le_zero.mp hn)))
  | succ n ih =>
    by_cases hs : smallest Node.count hp.elem hp.size idx = idx
    · rw [heapifyFrom_of_eq false n hs]
      exact h.finish hs
    · obtain ⟨hchild, hlt, -⟩ := (smallest_spec Node.count hp.elem hp.size idx).2 hs
      have hgt := hchild.lt
      rw [heapifyFrom_of_ne n hs]
      exact ih { hp with elem := swap hp.elem idx (smallest Node.count hp.elem hp.size idx) } _
        (show hp.size - _ ≤ n by omega) (h.swap hs)

/-- Where the table is not updated, heapify does not look at it. -/
theorem heapifyFrom_congr (n : ℕ) (idx : ℕ) (hsize : hp'.size = hp.size)
    (helem : hp'.elem = hp.elem) : (heapifyFrom hash_func false n hp' idx).elem =
      (heapifyFrom hash_func false n hp idx).elem := by
  induction n generalizing hp hp' idx with
  | zero => exact helem
  | succ n ih =>
    have hsame : smallest Node.count hp'.elem hp'.size idx =
        smallest Node.count hp.elem hp.size idx := by rw [hsize, helem]
    by_cases hs : smallest Node.count hp.elem hp.size idx = idx
    · rw [heapifyFrom_of_eq false n hs, heapifyFrom_of_eq false n (hsame.trans hs)]
      exact helem
    · rw [heapifyFrom_of_ne n hs, heapifyFrom_of_ne n (hsame ▸ hs), hsame]
      exact ih _ hsize (congrArg (swap · _ _) helem)

/-- Heapify keeps the table up to date, and the updates change no node. -/
theorem heapifyFrom_true (n : ℕ) (hp : Minheap K) (idx : ℕ) (hidx : idx < hp.size)
    (h : hp.Indexed hash_func) (hsize : hp.size < word16) :
    (heapifyFrom hash_func true n hp idx).Indexed hash_func ∧
    (heapifyFrom hash_func true n hp idx).size = hp.size ∧
    (heapifyFrom hash_func true n hp idx).elem = (heapifyFrom hash_func false n hp idx).elem := by
  induction n generalizing hp idx with
  | zero => exact ⟨h, rfl, rfl⟩
  | succ n ih =>
    by_cases hs : smallest Node.count hp.elem hp.size idx = idx
    · rw [heapifyFrom_of_eq true n hs, heapifyFrom_of_eq false n hs]
      exact ⟨h, rfl, rfl⟩
    · obtain ⟨-, hlt, -⟩ := (smallest_spec Node.count hp.elem hp.size idx).2 hs
      obtain ⟨t₁, t₂, hupdate₁, hupdate₂, hindexed⟩ := h.swap hsize hidx hlt (Ne.symm hs)
      rw [heapifyFrom_of_ne n hs, heapifyFrom_update n hs hupdate₁ hupdate₂]
      generalize smallest Node.count hp.elem hp.size idx = s at hlt hindexed ⊢
      obtain ⟨hres, hsz, helem⟩ := ih
        { hp with elem := swap hp.elem idx s, hashtable := t₂ } s hlt hindexed hsize
      exact ⟨hres, hsz, helem.trans (heapifyFrom_congr n s rfl rfl)⟩

/-- **`rte_member_heapify`** keeps the nodes and the table, and makes the order good. -/
theorem rteMemberHeapify_spec (hidx : idx < hp.size) (h : hp.Indexed hash_func)
    (hsize : hp.size < word16) :
    (rteMemberHeapify hash_func hp idx true).Indexed hash_func ∧
    (rteMemberHeapify hash_func hp idx true).size = hp.size ∧
    (rteMemberHeapify hash_func hp idx true).nodes = hp.nodes ∧
    (DownOrder Node.count hp.elem hp.size idx →
      Ordered Node.count (rteMemberHeapify hash_func hp idx true).elem hp.size) := by
  unfold rteMemberHeapify
  obtain ⟨hindexed, hsz, helem⟩ := heapifyFrom_true (hp.size - idx) hp idx hidx h hsize
  obtain ⟨hsz', hnodes, -⟩ := heapifyFrom_false hash_func (hp.size - idx) hp idx hidx
  refine ⟨hindexed, hsz, ?_, fun hdown => ?_⟩
  · rw [← hnodes]
    unfold nodes node
    rw [hsz, hsz', helem]
  · rw [helem]
    exact heapifyFrom_ordered (hp.size - idx) hp idx le_rfl hdown

/-! ## A node that is put into the heap -/

namespace Minheap

variable (hash_func) in
/-- **The hash table of a heap with a hole**: it says where the other nodes are. -/
def IndexedBut (hp : Minheap K) (i : ℕ) : Prop :=
  hp.hashtable.marks = without (Finset.range hp.size) (hp.nodeMark hash_func) i

/-- The nodes of a heap with a hole. -/
def nodesBut (hp : Minheap K) (i : ℕ) : Multiset (Node K) :=
  without (Finset.range hp.size) hp.node i

/-- **A node is moved into the hole**, and the table is updated, which does not fail. -/
theorem IndexedBut.move {p : ℕ} (h : hp.IndexedBut hash_func i) (hsize : hp.size < word16)
    (hi : i < hp.size) (hp' : p < hp.size) (hne : i ≠ p) :
    ∃ t, hashTableUpdate hash_func (hp.elem p).key (p + 1) (i + 1) hp.hashtable = some t ∧
      ({ hp with elem := Function.update hp.elem i (hp.elem p), hashtable := t } :
        Minheap K).IndexedBut hash_func p ∧
      ({ hp with elem := Function.update hp.elem i (hp.elem p), hashtable := t } :
        Minheap K).nodesBut p = hp.nodesBut i := by
  have hi' := Finset.mem_range.mpr hi
  have hp'' := Finset.mem_range.mpr hp'
  have hmarks : hp.hashtable.marks = hp.nodeMark hash_func p +
      without ((Finset.range hp.size).erase i) (hp.nodeMark hash_func) p :=
    h.trans (without_eq_add hp'' hne _)
  obtain ⟨t, hupdate, hmark, hmarks'⟩ := hashTableUpdate_spec (v := i + 1) (succ_pos i)
    (lt_of_le_of_lt hi hsize) (show hp.hashtable.mark hash_func (hp.elem p).key (p + 1) ∈
      hp.hashtable.marks by
        rw [hmarks]
        exact mem_add.mpr (Or.inl (mem_singleton_self _)))
  rw [hmarks, add_left_comm, nodeMark, add_right_inj] at hmarks'
  refine ⟨t, hupdate, ?_, ?_⟩
  · show t.marks = _
    rw [hmarks', without_eq_add hi' hne.symm, without_erase_comm]
    congr 1
    · simp only [nodeMark, hmark, Function.update_self]
    · refine (without_congr fun k _ hki => ?_).symm
      simp only [nodeMark, hmark, Function.update_of_ne hki]
  · refine without_move hp'' hi' hne.symm ?_ fun k _ _ hki => ?_
    · simp only [node, Function.update_self]
    · simp only [node, Function.update_of_ne hki]

end Minheap

/-- **The place for a node is found**, and it is a hole. The induction is on the place that is
looked at, which becomes that of its parent. -/
theorem moveUp_spec (nd : Node K) (n : ℕ) (hp : Minheap K) (i : ℕ) (hn : i ≤ n)
    (hi : i < hp.size) (hsize : hp.size < word16) (h : hp.IndexedBut hash_func i) :
    ∃ hp' j, moveUp hash_func nd.count n hp i = .ok (hp', j) ∧ hp'.size = hp.size ∧
      j < hp.size ∧ hp'.IndexedBut hash_func j ∧ hp'.nodesBut j = hp.nodesBut i ∧
      (UpOrder Node.count hp.elem hp.size i nd →
        Ordered Node.count (Function.update hp'.elem j nd) hp.size) := by
  induction n generalizing hp i with
  | zero =>
    obtain rfl := le_zero.mp hn
    exact ⟨hp, 0, rfl, rfl, hi, h, rfl, fun hup => hup.finish fun h0 => absurd h0 (lt_irrefl 0)⟩
  | succ n ih =>
    unfold moveUp
    split
    case isTrue hless =>
      obtain ⟨h0, hcount⟩ := hless
      have hpos := Nat.pos_of_ne_zero h0
      have hlt := parent_lt hpos
      obtain ⟨t, hupdate, hbut, hnodes⟩ := h.move hsize hi (hlt.trans hi) hlt.ne'
      simp only [Function.update_self, hupdate]
      obtain ⟨hp', j, hok, hsz, hj, hbut', hnodes', hord⟩ :=
        ih { hp with elem := Function.update hp.elem i (hp.elem (parent i)), hashtable := t }
          (parent i) (le_of_lt_succ (hlt.trans_le hn)) (hlt.trans hi) hsize hbut
      exact ⟨hp', j, hok, hsz, hj, hbut', hnodes'.trans hnodes, fun hup =>
        hord (hup.move hpos hi hcount)⟩
    case isFalse hstop =>
      refine ⟨hp, i, rfl, rfl, hi, h, rfl, fun hup => hup.finish fun h0 => ?_⟩
      exact not_lt.mp fun hless => hstop ⟨h0.ne', hless⟩

/-- The nodes that are inserted into a table. -/
theorem insertNodes_spec {elem : ℕ → Node K} {l : List ℕ} {table table' : Hash}
    (hl : ∀ i ∈ l, i + 1 < word16) (h : insertNodes hash_func elem l table = some table') :
    table'.mark hash_func = table.mark hash_func ∧
      table'.marks = table.marks +
        (l.map fun i => ({table.mark hash_func (elem i).key (i + 1)} : Multiset Mark)).sum := by
  induction l generalizing table with
  | nil =>
    obtain rfl := some.inj h
    exact ⟨rfl, (add_zero _).symm⟩
  | cons i l ih =>
    obtain ⟨t, hinsert, hrest⟩ := bind_eq_some_iff.mp h
    obtain ⟨hmark, hmarks⟩ := hashTableInsert_spec (succ_pos i) (hl i List.mem_cons_self)
      hinsert
    obtain ⟨hmark', hmarks'⟩ := ih (fun j hj => hl j (List.mem_cons_of_mem i hj)) hrest
    refine ⟨hmark'.trans hmark, ?_⟩
    rw [hmarks', hmarks, hmark, List.map_cons, List.sum_cons, add_assoc]
    exact add_left_comm _ _ _

/-- The table is made again for the nodes that there are. -/
theorem resizeLoop_spec (hsize : hp.size < word16) {n bkt_cnt : ℕ} {table : Hash}
    (h : resizeLoop hash_func hp n bkt_cnt = some table) :
    ({ hp with hashtable := table } : Minheap K).Indexed hash_func := by
  induction n generalizing bkt_cnt with
  | zero => contradiction
  | succ n ih =>
    unfold resizeLoop at h
    dsimp only at h
    split at h
    case isTrue hpos =>
      split at h
      case h_1 t hinsert =>
        obtain rfl := some.inj h
        obtain ⟨hmark, hmarks⟩ := insertNodes_spec (fun i hi =>
          lt_of_le_of_lt (List.mem_range.mp hi) hsize) hinsert
        unfold Indexed
        simp only [nodeMark]
        rw [hmarks, Hash.marks_empty, zero_add, hmark]
        rfl
      case h_2 => exact ih h
    case isFalse => contradiction

/-- A node is put into the heap. -/
theorem putNode_spec {nd : Node K} {r : Int} (h : hp.Indexed hash_func)
    (hsize : hp.size + 1 < word16) (hput : putNode hash_func hp nd = some (r, hp')) :
    r = 0 ∧ hp'.size = hp.size + 1 ∧ hp'.Indexed hash_func ∧ hp'.nodes = {nd} + hp.nodes ∧
      (Ordered Node.count hp.elem hp.size → Ordered Node.count hp'.elem hp'.size) := by
  have hlast : ∀ {M : Type} [AddCommMonoid M] (f : ℕ → M),
      without (Finset.range (hp.size + 1)) f hp.size = ∑ i ∈ Finset.range hp.size, f i :=
    fun f => by
      rw [without, Finset.range_add_one, Finset.erase_insert Finset.notMem_range_self]
  have hhole : ({ hp with size := hp.size + 1 } : Minheap K).IndexedBut hash_func hp.size :=
    h.trans (hlast _).symm
  obtain ⟨hp₁, j, hok, hsz, hj, hbut, hnodes, hord⟩ :=
    moveUp_spec nd hp.size _ hp.size le_rfl (lt_succ_self _) hsize hhole
  have hjr : j ∈ Finset.range hp₁.size := Finset.mem_range.mpr (hsz ▸ hj)
  have hsize₁ : hp₁.size < word16 := hsz ▸ hsize
  -- whichever table is made, the heap is the same, and the table says where its nodes are
  obtain ⟨rfl, table, rfl, hindexed⟩ : r = 0 ∧ ∃ table,
      hp' = { hp₁ with elem := Function.update hp₁.elem j nd, hashtable := table } ∧
      ({ hp₁ with elem := Function.update hp₁.elem j nd, hashtable := table } :
        Minheap K).Indexed hash_func := by
    unfold putNode at hput
    simp only [hok] at hput
    split at hput
    case h_1 table hinsert =>
      obtain ⟨rfl, rfl⟩ := Prod.mk.inj (some.inj hput)
      refine ⟨rfl, table, rfl, ?_⟩
      obtain ⟨hmark, hmarks⟩ := hashTableInsert_spec (succ_pos j)
        (lt_of_le_of_lt (Finset.mem_range.mp hjr) hsize₁) hinsert
      show table.marks = _
      rw [hmarks, hbut, sum_eq_add_without (f := hp₁.nodeMark hash_func) hjr fun k _ hkj => ?_]
      · simp only [nodeMark, hmark, Function.update_self]
      · simp only [nodeMark, hmark, Function.update_of_ne hkj]
    case h_2 =>
      obtain ⟨hp₂, hresize, heq⟩ := map_eq_some_iff.mp hput
      obtain ⟨rfl, rfl⟩ := Prod.mk.inj heq
      obtain ⟨table, hloop, rfl⟩ := map_eq_some_iff.mp hresize
      have hindexed := resizeLoop_spec (by exact hsize₁) hloop
      exact ⟨rfl, table, rfl, hindexed⟩
  refine ⟨rfl, hsz, hindexed, ?_, fun hordered => ?_⟩
  · unfold nodes
    rw [sum_eq_add_without (f := hp₁.node) hjr fun k _ hkj => ?_]
    · show _ + hp₁.nodesBut j = _
      rw [hnodes]
      unfold nodesBut
      rw [hlast]
      simp only [node, Function.update_self]
    · simp only [node, Function.update_of_ne hkj]
  · show Ordered Node.count _ hp₁.size
    rw [hsz]
    exact hord (hordered.upOrder nd)

/-- **`rte_member_minheap_replace_node`** puts a node into the heap instead of the root. -/
theorem rteMemberMinheapReplaceNode_spec {counter : BitVec 32} {r : Int} (h : hp.Indexed hash_func)
    (h2 : 2 ≤ hp.size) (hsize : hp.size < word16)
    (hreplace : rteMemberMinheapReplaceNode hash_func hp key counter = some (r, hp')) :
    r = 0 ∧ hp'.size = hp.size ∧ hp'.Indexed hash_func ∧
      {hp.elem 0} + hp'.nodes =
        {{ key, count := (counter.signExtend 64).toNat }} + hp.nodes ∧
      (Ordered Node.count hp.elem hp.size → Ordered Node.count hp'.elem hp'.size) := by
  obtain ⟨n, hn⟩ : ∃ n, hp.size = n + 1 := ⟨hp.size - 1, (Nat.sub_add_cancel (by omega)).symm⟩
  have h0 : 0 ∈ Finset.range n := Finset.mem_range.mpr (by omega)
  have hsplit : ∀ {M : Type} [AddCommMonoid M] (f : ℕ → M), ∑ i ∈ Finset.range hp.size, f i =
      f 0 + (f n + without (Finset.range n) f 0) := fun f => by
    rw [hn, Finset.sum_range_succ, ← add_without h0 f, add_assoc, add_comm (f n)]
  -- the mark of the root is taken away
  have hmem₀ : hp.hashtable.mark hash_func (hp.elem 0).key 1 ∈ hp.hashtable.marks := by
    rw [h, hsplit]
    exact mem_add.mpr (Or.inl (mem_singleton_self _))
  obtain ⟨t₁, hdel, hmark₁, hmarks₁⟩ := hashTableDel_spec (by decide) hmem₀
  rw [h, hsplit, nodeMark, zero_add, add_right_inj] at hmarks₁
  -- the last node is moved to the root
  have hmem₁ : t₁.mark hash_func (hp.elem n).key (n + 1) ∈ t₁.marks := by
    rw [← hmarks₁, hmark₁]
    exact mem_add.mpr (Or.inl (mem_singleton_self _))
  obtain ⟨t₂, hupdate, hmark₂, hmarks₂⟩ :=
    hashTableUpdate_spec (v := 1) one_pos (by decide) hmem₁
  rw [← hmarks₁, hmark₁, nodeMark, add_left_comm, add_right_inj] at hmarks₂
  have hroot : ∀ k, k ≠ 0 → Function.update hp.elem 0 (hp.elem n) k = hp.elem k :=
    fun k hk => Function.update_of_ne hk _ _
  have hindexed : ({ size := n, hashtable := t₂, elem := Function.update hp.elem 0 (hp.elem n) } :
      Minheap K).Indexed hash_func := by
    show t₂.marks = _
    rw [hmarks₂, sum_eq_add_without (f := hp.nodeMark hash_func) h0 fun k _ hk => ?_]
    · simp only [nodeMark, hmark₂, hmark₁, Function.update_self]
    · simp only [nodeMark, hmark₂, hmark₁, hroot k hk]
  have hnodes : ({ size := n, hashtable := t₂, elem := Function.update hp.elem 0 (hp.elem n) } :
      Minheap K).nodes = hp.node n + without (Finset.range n) hp.node 0 := by
    unfold nodes
    rw [sum_eq_add_without (f := hp.node) h0 fun k _ hk => ?_]
    · simp only [node, Function.update_self]
    · simp only [node, hroot k hk]
  obtain ⟨hindexed₃, hsz₃, hnodes₃, hord₃⟩ := rteMemberHeapify_spec
    (Finset.mem_range.mp h0) hindexed (show n < word16 by omega)
  unfold rteMemberMinheapReplaceNode at hreplace
  rw [show hp.size - 1 = n by omega, hdel] at hreplace
  simp only [Function.update_self] at hreplace
  rw [show hp.size = n + 1 from hn, hupdate] at hreplace
  obtain ⟨hr, hsz, hindexed', hnodes', hord⟩ := putNode_spec hindexed₃
    (by rw [hsz₃]; exact hn ▸ hsize) hreplace
  refine ⟨hr, ?_, hindexed', ?_, fun hordered => hord ?_⟩
  · rw [hsz, hsz₃, hn]
  · rw [hnodes', hnodes₃, hnodes, nodes, hsplit, node]
    exact add_left_comm _ _ _
  · rw [hsz₃]
    refine hord₃ (hordered.downOrder ?_ fun k hk _ => hroot k hk.ne')
    rw [hn]
    exact le_succ n

/-! ## A key that is looked for -/

/-- No two nodes of the heap have the same key. -/
def Minheap.Distinct (hp : Minheap K) : Prop :=
  ∀ i j, i < hp.size → j < hp.size → (hp.elem i).key = (hp.elem j).key → i = j

theorem Minheap.Indexed.exists_node (h : hp.Indexed hash_func) {m : Mark}
    (hm : m ∈ hp.hashtable.marks) :
    ∃ i < hp.size, m = hp.hashtable.mark hash_func (hp.elem i).key (i + 1) := by
  rw [h, mem_sum] at hm
  obtain ⟨i, hi, hm⟩ := hm
  exact ⟨i, Finset.mem_range.mp hi, mem_singleton.mp hm⟩

section Find

variable [DecidableEq K]

/-- What is found is in the heap, where the key is. -/
theorem rteMemberMinheapFind_eq_some (h : hp.Indexed hash_func)
    (hfind : rteMemberMinheapFind hash_func hp key = some i) :
    i < hp.size ∧ (hp.elem i).key = key := by
  obtain ⟨j, -, hj⟩ := List.exists_of_findSome?_eq_some hfind
  obtain ⟨⟨hsig, h0, hkey⟩, heq⟩ := ite_none_right_eq_some.mp hj
  obtain ⟨p, hp', hmark⟩ := h.exists_node
    (Hash.mem_marks.mpr ⟨_, hp.hashtable.bucketOf_lt key, j, h0, rfl⟩)
  have hidx := (Prod.mk.inj (Prod.mk.inj hmark).2).2
  obtain rfl := some.inj heq
  rw [hidx, Nat.add_sub_cancel] at hkey ⊢
  exact ⟨hp', hkey⟩

theorem rteMemberMinheapFind_iff (h : hp.Indexed hash_func) (hd : hp.Distinct) :
    rteMemberMinheapFind hash_func hp key = some i ↔
      i < hp.size ∧ (hp.elem i).key = key := by
  refine ⟨rteMemberMinheapFind_eq_some h, fun ⟨hi, hkey⟩ => ?_⟩
  have hmem : hp.hashtable.mark hash_func key (i + 1) ∈ hp.hashtable.marks := by
    rw [h, mem_sum]
    exact ⟨i, Finset.mem_range.mpr hi, mem_singleton.mpr (by rw [hkey])⟩
  obtain ⟨b, -, j, h0, hm⟩ := Hash.mem_marks.mp hmem
  obtain ⟨rfl, hm⟩ := Prod.mk.inj hm
  obtain ⟨hsig, hidx⟩ := Prod.mk.inj hm
  cases hfind : rteMemberMinheapFind hash_func hp key with
  | none =>
    have hj := List.findSome?_eq_none_iff.mp hfind j (List.mem_finRange j)
    rw [← hidx, Nat.add_sub_cancel, if_pos ⟨hsig.symm, Nat.succ_ne_zero i, hkey⟩] at hj
    contradiction
  | some k =>
    obtain ⟨hk, hkey'⟩ := rteMemberMinheapFind_eq_some h hfind
    rw [hd i k hi hk (hkey.trans hkey'.symm)]

/-- A key is not found exactly where it is not in the heap. -/
theorem rteMemberMinheapFind_eq_none_iff (h : hp.Indexed hash_func) (hd : hp.Distinct) :
    rteMemberMinheapFind hash_func hp key = none ↔
      ∀ i < hp.size, (hp.elem i).key ≠ key := by
  rw [eq_none_iff_forall_not_mem]
  simp only [mem_def, rteMemberMinheapFind_iff h hd, not_and]

end Find

/-! ## The heap sorted -/

theorem Minheap.mem_nodes {nd : Node K} :
    nd ∈ hp.nodes ↔ ∃ i < hp.size, hp.elem i = nd := by
  simp only [nodes, node, mem_sum, Finset.mem_range, mem_singleton, eq_comm]

end Member
