import DpdkStudy.Vhost.Descriptors

/-!
# The descriptor walk is safe

A monitor watches what a walk does to memory: descriptors are read in the
ring, entries in the part of a table that is mapped or in the copy while it is
allocated, and the vector of buffers is written below its end with ranges that
are mapped. The walks of direct chains pass it whatever the guest shows. An
indirect table passes exactly where the length that counts its entries covers
no more than the one it was mapped or copied with, and where a packed ring
never copies it.
-/

namespace Vhost

variable {s : Held} {err : Held → Prop} {k vec_idx : ℕ} {descs : Table}

/-- **What a walk holds**: the size of the copy it has allocated, and
`*vec_idx`. -/
structure Held where
  copy : Option ℕ
  vecIdx : ℕ

/-- **What a walk may do** to the memory of a queue. -/
def memory (vq : Vring) (g : Guest) (perm : Perm) : Monitor Access Held where
  ok s
    | .avail i => i < vq.size
    | .ring i => i < vq.size
    | .table size i => sizeofDesc * (i + 1) ≤ size
    | .alloc _ => s.copy = none
    | .fill dst src len => (∃ total ∈ s.copy, dst + len ≤ total) ∧ g.mapped .ro src len
    | .copied i => ∃ total ∈ s.copy, sizeofDesc * (i + 1) ≤ total
    | .free => s.copy ≠ none
    | .store vec_id buf => vec_id < bufVectorMax ∧ g.mapped perm buf.buf_addr buf.buf_len
    | .vecIdx _ => True
    | .hang => False
  next s
    | .alloc size => { s with copy := some size }
    | .free => { s with copy := none }
    | .vecIdx vec_id => { s with vecIdx := vec_id }
    | _ => s

/-- **A walk is safe**: it ends, all it does to memory is allowed, no copy is
left allocated, and `*vec_idx` is unchanged where it fails. -/
def Safe {α : Type} (vq : Vring) (g : Guest) (perm : Perm) (vec_idx : ℕ) (x : Act Access α) :
    Prop :=
  (memory vq g perm).Holds ⟨none, vec_idx⟩ x (fun s _ => s.copy = none)
    (fun s => s = ⟨none, vec_idx⟩)

variable {vq : Vring} {g : Guest} {perm : Perm}

@[simp] theorem holds_ofOption {α : Type} {post : Held → α → Prop} (o : Option α) :
    (memory vq g perm).Holds s (Act.ofOption o) post err ↔
      (∀ a, o = some a → post s a) ∧ (o = none → err s) := by
  cases o with
  | none => simp [Act.ofOption, Monitor.Holds, Act.fail, Monitor.Passes]
  | some a => simp [Act.ofOption, Monitor.Holds, Act.ret, Monitor.Passes]

/-! ## Mapping a buffer -/

/-- **A buffer is mapped** in pieces that are, below the end of the vector. -/
theorem mapPieces_holds {i : ℕ} (fuel j vec_id : ℕ) (iova : UInt64) (len : ℕ) (hlen : len < 2 ^ 32)
    (hfuel : bufVectorMax < fuel + vec_id) (hfuel₀ : 0 < fuel) :
    (memory vq g perm).Holds s (mapPieces g k i perm fuel j vec_id iova len) (fun t _ => t = s)
      (fun t => t = s) := by
  induction fuel generalizing j vec_id iova len with
  | zero => exact absurd hfuel₀ (by simp)
  | succ fuel ih =>
    rw [mapPieces]
    simp only [Monitor.holds_ite, Monitor.holds_pure, Monitor.holds_fail, Monitor.holds_bind,
      holds_ofOption, Monitor.holds_emit, implies_true, true_and, and_true]
    intro hpos hvec v hv
    obtain ⟨hle, hmapped⟩ := Guest.vhostIovaToVva_sound g hv
    have hmod : v.size % 2 ^ 32 = v.size := Nat.mod_eq_of_lt (by omega)
    refine ⟨⟨Nat.lt_of_not_le hvec, ?_⟩, ?_⟩
    · simpa only [hmod] using hmapped
    · exact ih (j + 1) (vec_id + 1) _ _ (by omega) (by omega) (by simp [bufVectorMax] at *; omega)

theorem mapOneDesc_holds {i : ℕ} (vec_id : ℕ) (iova : UInt64) (len : UInt32) :
    (memory vq g perm).Holds s (mapOneDesc g k i vec_id iova len.toNat perm) (fun t _ => t = s)
      (fun t => t = s) :=
  mapPieces_holds _ 0 vec_id iova _ len.toNat_lt (by omega) (by omega)

/-! ## Copying a table -/

theorem copyPieces_holds (total : ℕ) (hcopy : s.copy = some total) (fuel j : ℕ) (addr : UInt64)
    (dst remain : ℕ) (htotal : dst + remain = total) (hfuel : remain < fuel) :
    (memory vq g perm).Holds s (copyPieces g k fuel j addr dst remain) (fun t _ => t = s)
      (fun t => t = { s with copy := none }) := by
  induction fuel generalizing j addr dst remain with
  | zero => exact absurd hfuel (by simp)
  | succ fuel ih =>
    rw [copyPieces]
    simp only [Monitor.holds_ite, Monitor.holds_pure, true_and, implies_true]
    intro hpos
    cases hv : g.vhostIovaToVva (.copy k j) addr remain .ro with
    | none => simp [memory, hcopy]
    | some v =>
      obtain ⟨hle, hmapped⟩ := Guest.vhostIovaToVva_sound g hv
      simp only [Monitor.holds_ite, Monitor.holds_bind, Monitor.holds_emit, Monitor.holds_fail]
      refine ⟨fun _ => by simp [memory, hcopy], fun hsize => ⟨⟨?_, hmapped⟩, ?_⟩⟩
      · exact ⟨total, by simp [hcopy], by omega⟩
      · exact ih _ _ _ _ (by omega) (by omega)

/-- A table is copied whole, or nothing stays allocated. -/
theorem vhostAllocCopyIndTable_holds (hcopy : s.copy = none) (addr : UInt64) (len : ℕ) :
    (memory vq g perm).Holds s (vhostAllocCopyIndTable g k addr len)
      (fun t _ => 0 < len ∧ t = { s with copy := some len }) (fun t => t = s) := by
  rw [vhostAllocCopyIndTable]
  simp only [Monitor.holds_ite, Monitor.holds_fail, Monitor.holds_bind, Monitor.holds_emit,
    implies_true, true_and]
  intro hlen
  have hpos : 0 < len := Nat.pos_of_ne_zero (fun h => hlen (Or.inl h))
  refine ⟨hcopy, ?_⟩
  refine (copyPieces_holds len rfl _ 0 addr 0 len (Nat.zero_add _) (by omega)).mono
    (fun t _ ht => ⟨hpos, ht⟩) (fun t ht => ?_)
  subst ht
  cases s
  subst hcopy
  rfl

/-! ## Entries of a table -/

/-- **So many entries of a table** can be read. -/
def Table.Fits (vq : Vring) (s : Held) (n : ℕ) : Table → Prop
  | ring => s.copy = none ∧ n ≤ vq.size
  | mapped size => s.copy = none ∧ sizeofDesc * n ≤ size
  | copied => ∃ total, s.copy = some total ∧ sizeofDesc * n ≤ total

/-- Nothing is allocated when a table has been freed. -/
theorem freeIndTable_holds {n : ℕ} {t : Table} (h : t.Fits vq s n) {post : Held → Unit → Prop} :
    (memory vq g perm).Holds s (freeIndTable t) post err ↔ post { s with copy := none } () := by
  cases t with
  | ring => simp [freeIndTable, ← h.1]
  | mapped size => simp [freeIndTable, ← h.1]
  | copied =>
    obtain ⟨total, htotal, -⟩ := h
    simp [freeIndTable, memory, htotal]

/-- An entry below the count is read without harm. -/
theorem read_holds {n step idx : ℕ} {t : Table} (h : t.Fits vq s n) (hidx : idx < n)
    {post : Held → Desc → Prop} :
    (memory vq g perm).Holds s (t.read g k step idx) post err ↔
      post s (if t = .copied then g.copied k idx else g.entry k step) := by
  have hscale : sizeofDesc * (idx + 1) ≤ sizeofDesc * n := Nat.mul_le_mul_left _ hidx
  cases t with
  | ring => simp [Table.read, Table.access, memory, Nat.lt_of_lt_of_le hidx h.2]
  | mapped size => simp [Table.read, Table.access, memory, Nat.le_trans hscale h.2]
  | copied =>
    obtain ⟨total, htotal, hfits⟩ := h
    simp [Table.read, Table.access, memory, htotal, Nat.le_trans hscale hfits]

/-! ## The split ring -/

/-- **A walk stays in its table**, and ends: the count of steps is bounded by
the count of entries. -/
theorem walkSplit_holds {nr_descs : ℕ} (h : descs.Fits vq s nr_descs) (fuel cnt idx vec_id : ℕ)
    (len : UInt32) (hfuel : nr_descs < fuel + cnt) (hfuel₀ : 0 < fuel) :
    (memory vq g perm).Holds s (walkSplit g perm descs nr_descs fuel cnt idx vec_id len)
      (fun t _ => t = s) (fun t => t = { s with copy := none }) := by
  induction fuel generalizing cnt idx vec_id len with
  | zero => exact absurd hfuel₀ (by simp)
  | succ fuel ih =>
    rw [walkSplit]
    have hfree : (freeIndTable descs).out = some () := by cases descs <;> rfl
    simp only [Monitor.holds_ite, Monitor.holds_bind, freeIndTable_holds h, Monitor.holds_fail,
      implies_true, true_and]
    intro hin
    rw [read_holds h (by omega), Monitor.holds_onFail _ _ hfree]
    refine (mapOneDesc_holds vec_id _ _).mono (fun t v ht => ?_) (fun t ht => ?_)
    · subst ht
      simp only [Monitor.holds_pure, implies_true, true_and]
      intro _
      exact ih _ _ _ _ (by omega) (by omega)
    · subst ht
      exact (freeIndTable_holds h).mpr rfl

/-! ## What the guest shows of an indirect table -/

/-- **How an indirect table is shown**: the lengths that are read for it, and
what is mapped of the first. -/
structure TableView where
  len : UInt32
  lenTest : UInt32
  lenCopy : UInt32
  lenCount : UInt32
  vva : Option Vva
  vva_le : ∀ v ∈ vva, v.size ≤ len.toNat

/-- The guest shows its `k`-th indirect table in this way. -/
def Guest.Shows (g : Guest) (views : ℕ → TableView) : Prop :=
  ∀ k, (g.ring k).len = (views k).len ∧ (g.ring k).lenTest = (views k).lenTest ∧
    (g.ring k).lenCopy = (views k).lenCopy ∧ (g.ring k).lenCount = (views k).lenCount ∧
    ∀ addr, g.vhostIovaToVva (.table k) addr (views k).len.toNat .ro = (views k).vva

/-- **A table is covered** in a split ring: the entries the first length
counts are all mapped, or all copied. -/
def TableView.SplitCovered (size : ℕ) (v : TableView) : Prop :=
  v.len.toNat / sizeofDesc ≤ size → ∀ w ∈ v.vva,
    if w.size < v.lenTest.toNat then
      v.lenCopy = 0 ∨ sizeofDesc * (v.len.toNat / sizeofDesc) ≤ v.lenCopy.toNat
    else sizeofDesc * (v.len.toNat / sizeofDesc) ≤ w.size

/-- **A table is covered** in a packed ring: the entries the last length
counts are all mapped, and the table is not copied. -/
def TableView.PackedCovered (size : ℕ) (v : TableView) : Prop :=
  0 < v.lenCount.toNat / sizeofDesc → v.lenCount.toNat / sizeofDesc < size → ∀ w ∈ v.vva,
    if w.size < v.lenTest.toNat then v.lenCopy = 0
    else sizeofDesc * (v.lenCount.toNat / sizeofDesc) ≤ w.size

variable {views : ℕ → TableView}

theorem splitTable_holds (hg : g.Shows views) (hcov : (views 0).SplitCovered vq.size)
    (hcopy : s.copy = none) :
    (memory vq g perm).Holds s (splitTable vq g)
      (fun t r => { t with copy := none } = s ∧ r.1.Fits vq t r.2) (fun t => t = s) := by
  obtain ⟨hlen, htest, hlenCopy, -, hvva⟩ := hg 0
  rw [splitTable]
  simp only [Monitor.holds_ite, Monitor.holds_bind, Monitor.holds_fail, Monitor.holds_pure,
    holds_ofOption, hlen, htest, hlenCopy, hvva, implies_true, true_and, and_true]
  intro hsize v hv
  have hfits := hcov (Nat.le_of_not_lt hsize) v hv
  refine ⟨fun hlt => ?_, fun hge => ⟨?_, hcopy, ?_⟩⟩
  · refine (vhostAllocCopyIndTable_holds hcopy _ _).mono (fun t _ ht => ?_) (fun t ht => ht)
    obtain ⟨hpos, rfl⟩ := ht
    refine ⟨by cases s; subst hcopy; rfl, _, rfl, ?_⟩
    rw [if_pos hlt] at hfits
    exact hfits.resolve_left (fun h => by simp [h] at hpos)
  · cases s
    subst hcopy
    rfl
  · simpa only [if_neg hge] using hfits

theorem Vring.mask_lt (hpos : 0 < vq.size) (avail_idx : UInt32) :
    (avail_idx &&& (UInt32.ofNat vq.size - 1)).toNat < vq.size := by
  have hle := vq.size_le
  have hsize : (UInt32.ofNat vq.size - 1).toNat = vq.size - 1 := by
    rw [UInt32.toNat_sub, UInt32.toNat_ofNat', UInt32.toNat_one]
    omega
  rw [UInt32.toNat_and, hsize]
  exact Nat.lt_of_le_of_lt Nat.and_le_right (by omega)

/-- A walk from a state with its table leaves nothing allocated, and assigns
the index only where it succeeds. -/
theorem walkSplit_safe {nr_descs : ℕ} (hs : { s with copy := none } = (⟨none, vec_idx⟩ : Held))
    (h : descs.Fits vq s nr_descs) (idx : ℕ) :
    (memory vq g perm).Holds s
      (walkSplit g perm descs nr_descs (nr_descs + 1) 0 idx vec_idx 0)
      (fun t r => (memory vq g perm).ok t (.vecIdx r.1) ∧
        (memory vq g perm).Holds ((memory vq g perm).next t (.vecIdx r.1)) (freeIndTable descs)
          (fun u _ => u.copy = none) (fun u => u = ⟨none, vec_idx⟩))
      (fun t => t = ⟨none, vec_idx⟩) := by
  refine (walkSplit_holds h _ 0 idx vec_idx 0 (by omega) (by omega)).mono (fun t r ht => ?_)
    (fun t ht => ht.trans hs)
  subst ht
  have h' : descs.Fits vq ((memory vq g perm).next t (.vecIdx r.1)) nr_descs := h
  exact ⟨trivial, (freeIndTable_holds h').mpr rfl⟩

/-- **A walk of a split ring is safe** where its indirect table is covered. -/
theorem fillVecBufSplit_safe_of_covered (hg : g.Shows views) (hpos : 0 < vq.size)
    (hcov : (views 0).SplitCovered vq.size) (avail_idx : UInt32) (vec_idx : ℕ) :
    Safe vq g perm vec_idx (fillVecBufSplit vq g avail_idx vec_idx perm) := by
  rw [Safe, fillVecBufSplit]
  simp only [Monitor.holds_bind, Monitor.holds_emit, Monitor.holds_ite, Monitor.holds_fail,
    Monitor.holds_pure]
  refine ⟨Vring.mask_lt hpos avail_idx, fun _ => rfl, fun hidx => ?_⟩
  refine ⟨Nat.lt_of_not_le hidx, fun hflag => ?_, fun hflag => ?_⟩
  · have hfits : Table.ring.Fits vq ⟨none, vec_idx⟩ vq.size := ⟨rfl, Nat.le_refl _⟩
    simp only [hflag, if_true]
    exact walkSplit_safe rfl hfits _
  · refine (splitTable_holds hg hcov rfl).mono (fun t r ht => ?_) (fun t ht => ht)
    simp only [if_neg hflag]
    exact walkSplit_safe ht.1 ht.2 _

/-! ## The packed ring -/

/-- A walk over mapped entries stays in its table. -/
theorem walkIndirect_holds {size : ℕ} (hcopy : s.copy = none) (n i vec_id : ℕ) (len : UInt32)
    (h : sizeofDesc * (i + n) ≤ size) :
    (memory vq g perm).Holds s (walkIndirect g k perm (.mapped size) n i vec_id len)
      (fun t _ => t = s) (fun t => t = s) := by
  induction n generalizing i vec_id len with
  | zero => simp [walkIndirect]
  | succ n ih =>
    have hfits : (Table.mapped size).Fits vq s (i + (n + 1)) := ⟨hcopy, h⟩
    rw [walkIndirect]
    simp only [Monitor.holds_ite, Monitor.holds_bind, freeIndTable_holds hfits, Monitor.holds_fail,
      read_holds hfits (show i < i + (n + 1) by omega)]
    refine ⟨fun _ => by cases s; subst hcopy; rfl, fun _ => ?_⟩
    refine (mapOneDesc_holds vec_id _ _).mono (fun t v ht => ?_) (fun t ht => ht)
    subst ht
    exact ih (i + 1) v _ (by rw [Nat.add_right_comm]; exact h)

/-- Where the vector is full no entry is read, and a copy is freed. -/
theorem walkIndirect_full (h : descs.Fits vq s 0) (n i : ℕ) {vec_id : ℕ}
    (hfull : bufVectorMax ≤ vec_id) (len : UInt32) :
    (memory vq g perm).Holds s (walkIndirect g k perm descs n i vec_id len) (fun t _ => t = s)
      (fun t => t = { s with copy := none }) := by
  cases n with
  | zero => simp [walkIndirect]
  | succ n => simp [walkIndirect, hfull, freeIndTable_holds h]

/-- **An indirect table that is covered** leaves everything as it is, but for
a copy without entries. -/
theorem mapIndirect_holds (hg : g.Shows views) {desc : ℕ} (hdesc : desc < vq.size)
    (hcopy : s.copy = none) {vec_id : ℕ}
    (hcov : vec_id < bufVectorMax → (views k).PackedCovered vq.size) (len : UInt32) :
    (memory vq g perm).Holds s (mapIndirect vq g k desc vec_id len perm)
      (fun t r => { t with copy := none } = s ∧ r.1.Fits vq t 0) (fun t => t = s) := by
  obtain ⟨hlen, htest, hlenCopy, hcount, hvva⟩ := hg k
  have hs : { s with copy := none } = s := by cases s; subst hcopy; rfl
  rw [mapIndirect]
  simp only [Monitor.holds_bind, Monitor.holds_emit, holds_ofOption, Monitor.holds_ite,
    Monitor.holds_pure, Monitor.holds_fail, hlen, htest, hlenCopy, hcount, hvva]
  refine ⟨hdesc, fun v hv => ⟨fun hlt => ?_, fun hge => ?_⟩, fun _ => rfl⟩
  · refine (vhostAllocCopyIndTable_holds hcopy _ _).mono (fun t _ ht => ?_) (fun t ht => ht)
    obtain ⟨hpos, rfl⟩ := ht
    have hfits : Table.copied.Fits vq { s with copy := some (views k).lenCopy.toNat } 0 :=
      ⟨_, rfl, by simp⟩
    refine ⟨fun _ => (freeIndTable_holds hfits).mpr hs, fun hsize => ?_⟩
    rcases Nat.lt_or_ge vec_id bufVectorMax with hroom | hfull
    · have hzero : (views k).lenCount.toNat / sizeofDesc = 0 := by
        by_contra hne
        have hbad := hcov hroom (Nat.pos_of_ne_zero hne) (Nat.lt_of_not_le hsize) v hv
        rw [if_pos hlt] at hbad
        simp [hbad] at hpos
      rw [hzero]
      simp only [walkIndirect, Monitor.holds_pure]
      exact ⟨hs, hfits⟩
    · refine (walkIndirect_full hfits _ 0 hfull len).mono (fun t r ht => ?_)
        (fun t ht => ht.trans hs)
      subst ht
      exact ⟨hs, hfits⟩
  · have hfits : (Table.mapped v.size).Fits vq s 0 := ⟨hcopy, by simp⟩
    refine ⟨fun _ => (freeIndTable_holds hfits).mpr hs, fun hsize => ?_⟩
    rcases Nat.lt_or_ge vec_id bufVectorMax with hvec | hfull
    · have hroom : sizeofDesc * (0 + (views k).lenCount.toNat / sizeofDesc) ≤ v.size := by
        rw [Nat.zero_add]
        rcases Nat.eq_zero_or_pos ((views k).lenCount.toNat / sizeofDesc) with hzero | hpos
        · simp [hzero]
        · simpa only [if_neg hge] using hcov hvec hpos (Nat.lt_of_not_le hsize) v hv
      refine (walkIndirect_holds hcopy _ 0 vec_id len hroom).mono (fun t r ht => ?_)
        (fun t ht => ht)
      subst ht
      exact ⟨hs, hfits⟩
    · refine (walkIndirect_full hfits _ 0 hfull len).mono (fun t r ht => ?_)
        (fun t ht => ht.trans hs)
      subst ht
      exact ⟨hs, hfits⟩

/-- A descriptor of the packed ring leaves everything as it is. -/
theorem mapPacked_holds (hg : g.Shows views) {avail_idx : ℕ} (hidx : avail_idx < vq.size)
    (hcov : (views k).PackedCovered vq.size) (hcopy : s.copy = none) (vec_id : ℕ) (len : UInt32) :
    (memory vq g perm).Holds s (mapPacked vq g k avail_idx vec_id len perm) (fun t _ => t = s)
      (fun t => t = s) := by
  rw [mapPacked]
  simp only [Monitor.holds_ite, Monitor.holds_bind, Monitor.holds_pure]
  refine ⟨fun _ => mapOneDesc_holds vec_id _ _, fun _ => ?_⟩
  refine (mapIndirect_holds hg hidx hcopy (fun _ => hcov) len).mono (fun t r ht => ?_)
    (fun t ht => ht)
  exact (freeIndTable_holds ht.2).mpr ht.1

/-- **A walk of the packed ring** stays in the ring and ends: no more
descriptors are walked than the ring has. -/
theorem walkPacked_holds (hg : g.Shows views)
    (hcov : ∀ k < vq.size, (views k).PackedCovered vq.size) (hcopy : s.copy = none)
    (fuel desc_count avail_idx vec_id : ℕ) (len : UInt32) (hidx : avail_idx < vq.size)
    (hfuel : vq.size < fuel + desc_count) (hfuel₀ : 0 < fuel) :
    (memory vq g perm).Holds s (walkPacked vq g perm fuel desc_count avail_idx vec_id len)
      (fun t _ => t = s) (fun t => t = s) := by
  induction fuel generalizing desc_count avail_idx vec_id len with
  | zero => exact absurd hfuel₀ (by simp)
  | succ fuel ih =>
    rw [walkPacked]
    simp only [Monitor.holds_ite, Monitor.holds_bind, Monitor.holds_emit, Monitor.holds_fail,
      Monitor.holds_pure, implies_true, true_and]
    intro hin
    refine ⟨hidx, ?_⟩
    refine (mapPacked_holds hg hidx (hcov desc_count (by omega)) hcopy vec_id len).mono
      (fun t r ht => ⟨fun _ => ht, fun _ => ?_⟩) (fun t ht => ht)
    subst ht
    have hnext : (if vq.size ≤ avail_idx + 1 then avail_idx + 1 - vq.size else avail_idx + 1) <
        vq.size := by
      split <;> omega
    exact ih (desc_count + 1) _ _ _ hnext (by omega) (by omega)

/-- **A walk of a packed ring is safe** where the indirect tables it may come
to are covered. -/
theorem fillVecBufPacked_safe_of_covered (hg : g.Shows views) {avail_idx : ℕ}
    (hidx : avail_idx < vq.size)
    (hcov : vec_idx < bufVectorMax → ∀ k < vq.size, (views k).PackedCovered vq.size) :
    Safe vq g perm vec_idx (fillVecBufPacked vq g avail_idx vec_idx perm) := by
  have hwalk : (memory vq g perm).Holds ⟨none, vec_idx⟩
      (walkPacked vq g perm (vq.size + 1) 0 avail_idx vec_idx 0) (fun t _ => t = ⟨none, vec_idx⟩)
      (fun t => t = ⟨none, vec_idx⟩) := by
    by_cases hfull : bufVectorMax ≤ vec_idx
    · simp [walkPacked, hfull]
    · exact walkPacked_holds hg (hcov (Nat.lt_of_not_le hfull)) rfl _ 0 avail_idx vec_idx 0 hidx
        (by omega) (by omega)
  rw [Safe, fillVecBufPacked]
  simp only [Monitor.holds_bind, Monitor.holds_emit, Monitor.holds_ite, Monitor.holds_fail,
    Monitor.holds_pure]
  refine ⟨hidx, fun _ => hwalk.mono (fun t r ht => ⟨trivial, ?_⟩) (fun t ht => ht), fun _ => rfl⟩
  subst ht
  rfl

/-- **The call for an indirect table of a packed ring is safe** where the
table is covered. -/
theorem fillVecBufPackedIndirect_safe_of_covered (hg : g.Shows views) {desc : ℕ}
    (hdesc : desc < vq.size) (hcov : vec_idx < bufVectorMax → (views k).PackedCovered vq.size)
    (len : UInt32) :
    Safe vq g perm vec_idx (fillVecBufPackedIndirect vq g k desc vec_idx len perm) := by
  rw [Safe, fillVecBufPackedIndirect]
  simp only [Monitor.holds_bind, Monitor.holds_emit, Monitor.holds_pure]
  refine (mapIndirect_holds hg hdesc rfl hcov len).mono (fun t r ht => ⟨trivial, ?_⟩)
    (fun t ht => ht)
  have hfits : r.1.Fits vq ((memory vq g perm).next t (.vecIdx r.2.1)) 0 := ht.2
  exact (freeIndTable_holds hfits).mpr rfl

end Vhost
