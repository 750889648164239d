import Mathlib.Data.List.Perm.Subperm
import Mathlib.Tactic.Push
import DpdkStudy.Vhost.Iotlb

/-!
# The nodes of the IOTLB

The nodes of the pool are in one of three lists: free, in the cache, or pending. The cache is
sorted by I/O address, and counted (`Consistent`). Each call keeps this, and has a result:
there is an entry to be evicted whenever one is (`exists_evict`). A call puts no entry into
the cache but the one it inserts; a removal takes the entries out that its comparisons name.
-/

open List

namespace Vhost.Iotlb

open Function

/-- **The lists of a device, with some nodes in hand.** -/
structure ConsistentBut (held : List ℕ) (dev : VirtioNet) : Prop where
  partition : (held ++ (dev.iotlb_free_list ++ dev.iotlb_list ++ dev.iotlb_pending_list)).Perm
    (List.range iotlbCacheSize)
  nr : dev.iotlb_cache_nr = dev.iotlb_list.length
  sorted : dev.iotlb_list.Pairwise fun n m => (dev.iotlb_pool n).iova < (dev.iotlb_pool m).iova

/-- **The nodes are free, cached or pending**, the cache is counted and sorted. -/
abbrev Consistent (dev : VirtioNet) : Prop := ConsistentBut [] dev

/-- **Nothing has come into the cache**, and what is in it is as it was. -/
def Shrunk (dev dev' : VirtioNet) : Prop :=
  dev'.iotlb_list ⊆ dev.iotlb_list ∧ ∀ n ∈ dev'.iotlb_list, dev'.iotlb_pool n = dev.iotlb_pool n

variable {dev dev' dev'' : VirtioNet} {held : List ℕ} {node : ℕ}

theorem Shrunk.refl (dev : VirtioNet) : Shrunk dev dev := ⟨fun _ h => h, fun _ _ => rfl⟩

theorem Shrunk.trans (h : Shrunk dev dev') (h' : Shrunk dev' dev'') : Shrunk dev dev'' :=
  ⟨fun _ hn => h.1 (h'.1 hn), fun n hn => (h'.2 n hn).trans (h.2 n (h'.1 hn))⟩

theorem unlink_partition (held : List ℕ) (h : (held ++ (dev.iotlb_free_list ++ dev.iotlb_list ++
      dev.iotlb_pending_list)).Perm (range iotlbCacheSize))
    (hnode : node ∈ dev.iotlb_list) :
    (held ++ ((dev.unlink node).iotlb_free_list ++ (dev.unlink node).iotlb_list ++
      (dev.unlink node).iotlb_pending_list)).Perm (range iotlbCacheSize) := by
  refine List.Perm.trans (List.Perm.append_left held (List.Perm.append_right _ ?_)) h
  show ((node :: dev.iotlb_free_list) ++ dev.iotlb_list.erase node).Perm
    (dev.iotlb_free_list ++ dev.iotlb_list)
  exact perm_middle.symm.trans ((perm_cons_erase hnode).symm.append_left _)

namespace ConsistentBut

theorem nodup (h : ConsistentBut held dev) :
    (held ++ (dev.iotlb_free_list ++ dev.iotlb_list ++ dev.iotlb_pending_list)).Nodup :=
  h.partition.nodup_iff.mpr nodup_range

theorem list_nodup (h : ConsistentBut held dev) : dev.iotlb_list.Nodup :=
  (nodup_append.mp (nodup_append.mp (nodup_append.mp h.nodup).2.1).1).2.1

theorem pending_nodup (h : ConsistentBut held dev) : dev.iotlb_pending_list.Nodup :=
  (nodup_append.mp (nodup_append.mp h.nodup).2.1).2.1

theorem notMem_list (h : ConsistentBut [node] dev) : node ∉ dev.iotlb_list := fun hn =>
  (nodup_append.mp h.nodup).2.2 node (mem_singleton_self node) node
    (mem_append_left _ (mem_append_right _ hn)) rfl

/-! ## The pool -/

theorem poolGet (h : Consistent dev) (hget : dev.poolGet = some (node, dev')) :
    ConsistentBut [node] dev' ∧ Shrunk dev dev' := by
  unfold VirtioNet.poolGet at hget
  split at hget
  · exact absurd hget (by simp)
  · rename_i rest hfree
    obtain ⟨rfl, rfl⟩ := Prod.mk.inj (Option.some.inj hget)
    have hpartition := h.partition
    rw [hfree] at hpartition
    exact ⟨⟨hpartition, h.nr, h.sorted⟩, Shrunk.refl dev⟩

theorem poolPut (h : ConsistentBut [node] dev) : Consistent (dev.poolPut node) :=
  ⟨h.partition, h.nr, h.sorted⟩

theorem dropPending (h : Consistent dev) (hnode : node ∈ dev.iotlb_pending_list) :
    Consistent (dev.dropPending node) := by
  refine ⟨List.Perm.trans ?_ h.partition, h.nr, h.sorted⟩
  have herase := perm_cons_erase hnode
  show (node :: (dev.iotlb_free_list ++ dev.iotlb_list ++ dev.iotlb_pending_list.erase node)).Perm
    (dev.iotlb_free_list ++ dev.iotlb_list ++ dev.iotlb_pending_list)
  exact perm_middle.symm.trans (herase.symm.append_left _)

theorem dropCached (h : Consistent dev) (hnode : node ∈ dev.iotlb_list) :
    Consistent (dev.dropCached node) := by
  refine ⟨unlink_partition [] h.partition hnode, ?_, h.sorted.sublist erase_sublist⟩
  show dev.iotlb_cache_nr - 1 = ((dev.iotlb_list.erase node).length : ℤ)
  have hpos := length_pos_of_mem hnode
  rw [h.nr, length_erase_of_mem hnode]
  omega

end ConsistentBut

theorem dropCached_shrunk (dev : VirtioNet) (node : ℕ) : Shrunk dev (dev.dropCached node) :=
  ⟨erase_subset, fun _ _ => rfl⟩

/-! ## Loops that take nodes out -/

variable {stop hit : ℕ → Bool} {take : VirtioNet → ℕ → VirtioNet}

/-- **The invariant rule**: what is kept when a node is taken out of a list, a loop over
nodes of the list keeps. -/
theorem foreachSafe_keeps {list : VirtioNet → List ℕ} {Q : VirtioNet → Prop}
    (htake : ∀ d, ∀ n ∈ list d, Q d → Q (take d n) ∧ list (take d n) = (list d).erase n)
    {l : List ℕ} (hl : l.Nodup) (hsub : l ⊆ list dev) (hdev : Q dev) :
    Q (foreachSafe stop hit take l dev) := by
  induction l generalizing dev with
  | nil => exact hdev
  | cons n rest ih =>
    obtain ⟨hn, hrest⟩ := nodup_cons.mp hl
    rw [foreachSafe]
    split
    · exact hdev
    split
    · obtain ⟨hkept, hlist⟩ := htake dev n (hsub mem_cons_self) hdev
      refine ih hrest (fun m hm => ?_) hkept
      have hne : m ≠ n := fun e => hn (e ▸ hm)
      rw [hlist]
      exact (mem_erase_of_ne hne).mpr (hsub (mem_cons_of_mem n hm))
    · exact ih hrest (fun m hm => hsub (mem_cons_of_mem n hm)) hdev

theorem ConsistentBut.foreachPending (h : Consistent dev) (stop hit : ℕ → Bool) :
    Consistent (foreachSafe stop hit VirtioNet.dropPending dev.iotlb_pending_list dev) ∧
    (foreachSafe stop hit VirtioNet.dropPending dev.iotlb_pending_list dev).iotlb_list =
      dev.iotlb_list ∧
    (foreachSafe stop hit VirtioNet.dropPending dev.iotlb_pending_list dev).iotlb_pool =
      dev.iotlb_pool :=
  foreachSafe_keeps (Q := fun d => Consistent d ∧ d.iotlb_list = dev.iotlb_list ∧
      d.iotlb_pool = dev.iotlb_pool)
    (fun _ _ hn hd => ⟨⟨hd.1.dropPending hn, hd.2⟩, rfl⟩)
    h.pending_nodup (List.Subset.refl _) ⟨h, rfl, rfl⟩

theorem ConsistentBut.foreachPending_shrunk (h : Consistent dev) (stop hit : ℕ → Bool) :
    Shrunk dev (foreachSafe stop hit VirtioNet.dropPending dev.iotlb_pending_list dev) := by
  obtain ⟨-, hlist, hpool⟩ := h.foreachPending stop hit
  exact ⟨hlist ▸ List.Subset.refl _, fun n _ => by rw [hpool]⟩

theorem ConsistentBut.foreachCached (h : Consistent dev) (stop hit : ℕ → Bool) :
    Consistent (foreachSafe stop hit VirtioNet.dropCached dev.iotlb_list dev) ∧
    Shrunk dev (foreachSafe stop hit VirtioNet.dropCached dev.iotlb_list dev) :=
  foreachSafe_keeps (Q := fun d => Consistent d ∧ Shrunk dev d)
    (fun d n hn hd => ⟨⟨hd.1.dropCached hn, hd.2.trans (dropCached_shrunk d n)⟩, rfl⟩)
    h.list_nodup (List.Subset.refl _) ⟨h, Shrunk.refl dev⟩

/-- **Which entries leave the cache**: those that are hit before the loop stops. -/
theorem mem_foreachCached {l : List ℕ} (hl : l.Nodup)
    (hstop : l.Pairwise fun n m => stop n = true → stop m = true) {m : ℕ} :
    ∀ dev : VirtioNet, dev.iotlb_list.Nodup →
      (m ∈ (foreachSafe stop hit VirtioNet.dropCached l dev).iotlb_list ↔
        m ∈ dev.iotlb_list ∧ ¬ (m ∈ l ∧ stop m = false ∧ hit m = true)) := by
  induction l with
  | nil => simp [foreachSafe]
  | cons n rest ih =>
    intro dev hdev
    obtain ⟨hn, hrest⟩ := nodup_cons.mp hl
    obtain ⟨hfirst, htail⟩ := pairwise_cons.mp hstop
    rw [foreachSafe]
    by_cases hs : stop n = true
    · -- the loop stops here, as it would at each node behind
      rw [if_pos hs]
      refine ⟨fun hm => ⟨hm, ?_⟩, And.left⟩
      rintro ⟨hmem, hnot, -⟩
      rcases mem_cons.mp hmem with rfl | hmem
      · exact absurd hs (by simp [hnot])
      · exact absurd (hfirst m hmem hs) (by simp [hnot])
    · rw [if_neg hs]
      by_cases hh : hit n = true
      · rw [if_pos hh, ih hrest htail _ (hdev.erase n)]
        show m ∈ dev.iotlb_list.erase n ∧ _ ↔ _
        rw [hdev.mem_erase_iff, mem_cons]
        by_cases hm : m = n
        · subst hm
          simp [hh, hs]
        · simp [hm]
      · rw [if_neg hh, ih hrest htail _ hdev, mem_cons]
        by_cases hm : m = n
        · subst hm
          simp [hh, hn]
        · simp [hm]

/-! ## The calls -/

theorem foreachUnlink_list (l : List ℕ) : ∀ dev : VirtioNet, dev.iotlb_list = l →
    (foreachSafe (fun _ => false) (fun _ => true) VirtioNet.unlink l dev).iotlb_list = [] := by
  induction l with
  | nil => exact fun _ h => h
  | cons n rest ih =>
    intro dev h
    refine ih (dev.unlink n) ?_
    show dev.iotlb_list.erase n = rest
    rw [h, erase_cons_head]

theorem ConsistentBut.cacheRemoveAll (h : Consistent dev) :
    Consistent dev.cacheRemoveAll ∧ dev.cacheRemoveAll.iotlb_list = [] := by
  have hlist : dev.cacheRemoveAll.iotlb_list = [] := foreachUnlink_list _ dev rfl
  have hpartition : (dev.cacheRemoveAll.iotlb_free_list ++ dev.cacheRemoveAll.iotlb_list ++
      dev.cacheRemoveAll.iotlb_pending_list).Perm (range iotlbCacheSize) :=
    foreachSafe_keeps (Q := fun d => (d.iotlb_free_list ++ d.iotlb_list ++
        d.iotlb_pending_list).Perm (range iotlbCacheSize))
      (fun _ _ hn hd => ⟨unlink_partition [] hd hn, rfl⟩)
      h.list_nodup (List.Subset.refl _) h.partition
  refine ⟨⟨hpartition, ?_, ?_⟩, hlist⟩
  · rw [hlist]
    rfl
  · rw [hlist]
    exact List.Pairwise.nil

theorem ConsistentBut.flushAll (h : Consistent dev) :
    Consistent dev.flushAll ∧ dev.flushAll.iotlb_list = [] := by
  obtain ⟨hc, hlist⟩ := h.cacheRemoveAll
  obtain ⟨hc', hlist', -⟩ := hc.foreachPending (fun _ => false) fun _ => true
  exact ⟨hc', hlist'.trans hlist⟩

/-- The loop of an eviction takes the node at its index. -/
theorem evictLoop_eq (dev : VirtioNet) (l : List ℕ) :
    ∀ (entry_idx : ℕ) (hlt : entry_idx < l.length),
      dev.evictLoop l entry_idx = dev.dropCached (l.get ⟨entry_idx, hlt⟩) := by
  induction l with
  | nil => exact fun _ hlt => absurd hlt (Nat.not_lt_zero _)
  | cons n rest ih =>
    intro entry_idx hlt
    cases entry_idx with
    | zero => rfl
    | succ entry_idx => exact ih entry_idx (Nat.lt_of_succ_lt_succ hlt)

theorem ConsistentBut.exists_evict (h : Consistent dev) (hne : dev.iotlb_list ≠ [])
    (rand : BitVec 64) :
    ∃ dev', dev.cacheRandomEvict rand = some dev' ∧ Consistent dev' ∧ Shrunk dev dev' := by
  have hlen : dev.iotlb_list.length ≤ iotlbCacheSize := by
    have hsize := h.partition.length_eq
    simp only [length_append, length_range, length_nil] at hsize
    omega
  have hpos : 0 < dev.iotlb_list.length := length_pos_of_ne_nil hne
  have hcount : (dev.iotlb_cache_nr % 2 ^ 64).toNat = dev.iotlb_list.length := by
    rw [h.nr]
    unfold iotlbCacheSize at hlen
    omega
  have hlt := Nat.mod_lt rand.toNat hpos
  refine ⟨_, if_neg ?_, ?_⟩
  · rw [h.nr]
    omega
  · simp only [hcount, evictLoop_eq dev _ _ hlt]
    exact ⟨h.dropCached (get_mem _ _), dropCached_shrunk dev _⟩

theorem ConsistentBut.pendingRemoveAll (h : Consistent dev) :
    Consistent dev.pendingRemoveAll ∧ Shrunk dev dev.pendingRemoveAll :=
  ⟨(h.foreachPending _ _).1, h.foreachPending_shrunk _ _⟩

/-- **Room is made** for a miss: where no node is free or pending, all of them are in the
cache. -/
theorem ConsistentBut.clearForPending (h : Consistent dev) (hget : dev.poolGet = none)
    (rand : BitVec 64) :
    ∃ dev', dev.clearForPending rand = some dev' ∧ Consistent dev' ∧ Shrunk dev dev' := by
  rw [VirtioNet.clearForPending]
  split
  · exact ⟨_, rfl, h.pendingRemoveAll⟩
  · rename_i hpending
    refine h.exists_evict (fun hlist => ?_) rand
    have hfree : dev.iotlb_free_list = [] := by
      unfold VirtioNet.poolGet at hget
      split at hget
      · assumption
      · exact absurd hget (by simp)
    have hsize := h.partition.length_eq
    rw [hlist, hfree, not_not.mp hpending] at hsize
    simp [iotlbCacheSize] at hsize

theorem ConsistentBut.clearForCache (h : Consistent dev) (rand : BitVec 64) :
    ∃ dev', dev.clearForCache rand = some dev' ∧ Consistent dev' ∧ Shrunk dev dev' := by
  rw [VirtioNet.clearForCache]
  split
  · rename_i hlist
    exact h.exists_evict hlist rand
  · exact ⟨_, rfl, h.pendingRemoveAll⟩

/-- A node in hand is written, and no entry of the cache is. -/
theorem ConsistentBut.update_eq (h : ConsistentBut [node] dev) (entry : VhostIotlbEntry) {n : ℕ}
    (hn : n ∈ dev.iotlb_list) : update dev.iotlb_pool node entry n = dev.iotlb_pool n := by
  have hne : n ≠ node := fun e => h.notMem_list (e ▸ hn)
  exact update_of_ne hne _ _

/-- A node that is not in the cache is written, and the cache stays sorted. -/
theorem ConsistentBut.sorted_update (h : ConsistentBut [node] dev) (entry : VhostIotlbEntry) :
    dev.iotlb_list.Pairwise fun n m =>
      (update dev.iotlb_pool node entry n).iova < (update dev.iotlb_pool node entry m).iova := by
  refine List.Pairwise.imp_of_mem (fun hn hm hlt => ?_) h.sorted
  rwa [h.update_eq entry hn, h.update_eq entry hm]

theorem ConsistentBut.linkPending (h : ConsistentBut [node] dev) (iova : BitVec 64)
    (perm : BitVec 8) :
    Consistent (dev.linkPending node iova perm) ∧ Shrunk dev (dev.linkPending node iova perm) := by
  refine ⟨⟨List.Perm.trans ?_ h.partition, h.nr, h.sorted_update _⟩, List.Subset.refl _,
    fun n hn => h.update_eq _ hn⟩
  show (dev.iotlb_free_list ++ dev.iotlb_list ++ (dev.iotlb_pending_list ++ [node])).Perm
    ([node] ++ (dev.iotlb_free_list ++ dev.iotlb_list ++ dev.iotlb_pending_list))
  rw [← append_assoc]
  exact perm_append_comm

theorem ConsistentBut.pendingInsert (h : Consistent dev) (iova : BitVec 64) (perm : BitVec 8)
    (rand : BitVec 64) :
    ∃ dev', dev.pendingInsert iova perm rand = some dev' ∧ Consistent dev' ∧ Shrunk dev dev' := by
  unfold VirtioNet.pendingInsert
  cases hget : dev.poolGet with
  | some got =>
    obtain ⟨hc, hshrunk⟩ := h.poolGet hget
    obtain ⟨hc', hshrunk'⟩ := hc.linkPending iova perm
    exact ⟨_, rfl, hc', hshrunk.trans hshrunk'⟩
  | none =>
    obtain ⟨dev₁, hroom, hc, hshrunk⟩ := h.clearForPending hget rand
    simp only [hroom, Option.bind_eq_bind, Option.bind_some]
    cases hget' : dev₁.poolGet with
    | some got =>
      obtain ⟨hc', hshrunk'⟩ := hc.poolGet hget'
      obtain ⟨hc'', hshrunk''⟩ := hc'.linkPending iova perm
      exact ⟨_, rfl, hc'', hshrunk.trans (hshrunk'.trans hshrunk'')⟩
    | none => exact ⟨_, rfl, hc, hshrunk⟩

/-- A node is linked to the cache where it belongs. -/
theorem insertLoop_spec {pool : ℕ → VhostIotlbEntry} {l : List ℕ}
    (hsorted : l.Pairwise fun n m => (pool n).iova < (pool m).iova) :
    ∀ list, insertLoop pool node l = some list →
      list.Perm (node :: l) ∧ list.Pairwise fun n m => (pool n).iova < (pool m).iova := by
  induction l with
  | nil =>
    intro list h
    obtain rfl := Option.some.inj h
    exact ⟨List.Perm.refl _, pairwise_singleton _ _⟩
  | cons n rest ih =>
    intro list h
    obtain ⟨hfirst, htail⟩ := pairwise_cons.mp hsorted
    rw [insertLoop] at h
    split at h
    · exact absurd h (by simp)
    rename_i hne
    split at h
    · rename_i hlt
      obtain rfl := Option.some.inj h
      refine ⟨List.Perm.refl _, pairwise_cons.mpr ⟨fun m hm => ?_, hsorted⟩⟩
      rcases mem_cons.mp hm with rfl | hm
      · exact hlt
      · exact BitVec.lt_trans hlt (hfirst m hm)
    · rename_i hge
      obtain ⟨list', hlist', rfl⟩ := Option.map_eq_some_iff.mp h
      obtain ⟨hperm, hpair⟩ := ih htail list' hlist'
      refine ⟨(hperm.cons n).trans (List.Perm.swap node n rest),
        pairwise_cons.mpr ⟨fun m hm => ?_, hpair⟩⟩
      rcases mem_cons.mp (hperm.subset hm) with rfl | hm
      · have hle : (pool n).iova ≤ (pool m).iova := BitVec.not_lt.mp hge
        exact BitVec.lt_def.mpr (Nat.lt_of_le_of_ne (BitVec.le_def.mp hle)
          fun e => hne (BitVec.eq_of_toNat_eq e))
      · exact hfirst m hm

/-- **What is in the cache** was there, or has been inserted. -/
def Grown (dev dev' : VirtioNet) (entry : VhostIotlbEntry) : Prop :=
  ∀ n ∈ dev'.iotlb_list, (n ∈ dev.iotlb_list ∧ dev'.iotlb_pool n = dev.iotlb_pool n) ∨
    dev'.iotlb_pool n = entry

theorem Shrunk.grown {entry : VhostIotlbEntry} (h : Shrunk dev dev') (h' : Grown dev' dev'' entry) :
    Grown dev dev'' entry := by
  intro n hn
  rcases h' n hn with ⟨hmem, hpool⟩ | heq
  · exact Or.inl ⟨h.1 hmem, hpool.trans (h.2 n hmem)⟩
  · exact Or.inr heq

theorem ConsistentBut.linkSorted (h : ConsistentBut [node] dev) :
    Consistent (dev.linkSorted node) ∧ (dev.linkSorted node).iotlb_pool = dev.iotlb_pool ∧
      ∀ n ∈ (dev.linkSorted node).iotlb_list, n ∈ dev.iotlb_list ∨ n = node := by
  unfold VirtioNet.linkSorted
  split
  · exact ⟨h.poolPut, rfl, fun n hn => Or.inl hn⟩
  · rename_i list hlist
    obtain ⟨hperm, hpair⟩ := insertLoop_spec h.sorted list hlist
    refine ⟨⟨List.Perm.trans ?_ h.partition, ?_, hpair⟩, rfl, fun n hn => ?_⟩
    · show (dev.iotlb_free_list ++ list ++ dev.iotlb_pending_list).Perm
        (node :: (dev.iotlb_free_list ++ dev.iotlb_list ++ dev.iotlb_pending_list))
      exact ((hperm.append_left _).trans perm_middle).append_right _
    · show dev.iotlb_cache_nr + 1 = (list.length : ℤ)
      rw [hperm.length_eq, h.nr, length_cons]
      rfl
    · rcases mem_cons.mp (hperm.subset hn) with rfl | hn
      · exact Or.inr rfl
      · exact Or.inl hn

theorem ConsistentBut.pendingRemove (h : Consistent dev) (iova size : BitVec 64)
    (perm : BitVec 8) :
    Consistent (dev.pendingRemove iova size perm) ∧
      Shrunk dev (dev.pendingRemove iova size perm) :=
  ⟨(h.foreachPending _ _).1, h.foreachPending_shrunk _ _⟩

theorem ConsistentBut.linkCached (h : ConsistentBut [node] dev) (entry : VhostIotlbEntry) :
    Consistent (dev.linkCached node entry) ∧ Grown dev (dev.linkCached node entry) entry := by
  have hfilled : ConsistentBut [node]
      { dev with iotlb_pool := update dev.iotlb_pool node entry } :=
    ⟨h.partition, h.nr, h.sorted_update entry⟩
  obtain ⟨hc, hpool, hlist⟩ := hfilled.linkSorted
  obtain ⟨hc', hshrunk⟩ := hc.pendingRemove entry.iova entry.size entry.perm
  refine ⟨hc', fun n hn => ?_⟩
  have hsame : (dev.linkCached node entry).iotlb_pool n = update dev.iotlb_pool node entry n :=
    (hshrunk.2 n hn).trans (congrFun hpool n)
  rcases hlist n (hshrunk.1 hn) with hmem | rfl
  · exact Or.inl ⟨hmem, hsame.trans (h.update_eq entry hmem)⟩
  · exact Or.inr (hsame.trans (update_self _ _ _))

theorem ConsistentBut.cacheInsert (h : Consistent dev) (entry : VhostIotlbEntry)
    (rand : BitVec 64) :
    ∃ dev', dev.cacheInsert entry rand = some dev' ∧ Consistent dev' ∧ Grown dev dev' entry := by
  unfold VirtioNet.cacheInsert
  cases hget : dev.poolGet with
  | some got =>
    obtain ⟨hc, hshrunk⟩ := h.poolGet hget
    obtain ⟨hc', hgrown⟩ := hc.linkCached entry
    exact ⟨_, rfl, hc', hshrunk.grown hgrown⟩
  | none =>
    obtain ⟨dev₁, hroom, hc, hshrunk⟩ := h.clearForCache rand
    simp only [hroom, Option.bind_eq_bind, Option.bind_some]
    cases hget' : dev₁.poolGet with
    | some got =>
      obtain ⟨hc', hshrunk'⟩ := hc.poolGet hget'
      obtain ⟨hc'', hgrown⟩ := hc'.linkCached entry
      exact ⟨_, rfl, hc'', (hshrunk.trans hshrunk').grown hgrown⟩
    | none => exact ⟨_, rfl, hc, fun n hn => Or.inl ⟨hshrunk.1 hn, hshrunk.2 n hn⟩⟩

theorem ConsistentBut.cacheRemove (h : Consistent dev) (iova size : BitVec 64) :
    Consistent (dev.cacheRemove iova size) ∧ Shrunk dev (dev.cacheRemove iova size) := by
  unfold VirtioNet.cacheRemove
  split
  · exact ⟨h, Shrunk.refl dev⟩
  · exact h.foreachCached _ _

theorem ConsistentBut.call (h : Consistent dev) (c : Call) :
    ∃ dev', dev.call c = some dev' ∧ Consistent dev' := by
  cases c with
  | cacheInsert entry rand =>
    obtain ⟨dev', hcall, hc, -⟩ := h.cacheInsert entry rand
    exact ⟨dev', hcall, hc⟩
  | cacheRemove iova size => exact ⟨_, rfl, (h.cacheRemove iova size).1⟩
  | pendingInsert iova perm rand =>
    obtain ⟨dev', hcall, hc, -⟩ := h.pendingInsert iova perm rand
    exact ⟨dev', hcall, hc⟩
  | pendingRemove iova size perm => exact ⟨_, rfl, (h.pendingRemove iova size perm).1⟩
  | flushAll => exact ⟨_, rfl, h.flushAll.1⟩

theorem foldl_poolPut (l : List ℕ) (dev : VirtioNet) : l.foldl VirtioNet.poolPut dev =
    { dev with iotlb_free_list := l.reverse ++ dev.iotlb_free_list } := by
  induction l generalizing dev with
  | nil => rfl
  | cons n rest ih =>
    rw [foldl_cons, ih, reverse_cons, append_assoc]
    rfl

theorem vhostUserIotlbInit_consistent : Consistent vhostUserIotlbInit := by
  rw [vhostUserIotlbInit, foldl_poolPut]
  refine ⟨?_, rfl, List.Pairwise.nil⟩
  simp only [append_nil, nil_append]
  exact reverse_perm _

theorem vhostUserIotlbInit_list : vhostUserIotlbInit.iotlb_list = [] := by
  rw [vhostUserIotlbInit, foldl_poolPut]

end Vhost.Iotlb
