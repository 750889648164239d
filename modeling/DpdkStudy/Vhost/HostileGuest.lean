import DpdkStudy.Vhost.DescriptorSafety

/-!
# A guest that shows a table that is not covered

For lengths that do not fit together there is a guest that makes the walk
leave its table, or lose its copy (`hostile`). So the walk is safe for every
guest that shows some tables exactly where the tables are covered.
-/

namespace Vhost

variable {s : Held} {k size vec_id : ℕ} {t : Table} {post : Held → ℕ × UInt32 → Prop}
  {err : Held → Prop}

/-- **A guest against the table of its `K`-th descriptor**. The descriptors
before it are direct and empty. The entries of the table are empty and lead to
the last one, unless the guest is after the copy (`leak`): then they describe a
buffer that is not mapped. -/
def hostile (views : ℕ → TableView) (K : ℕ) (leak wrap : Bool) : Guest where
  avail := 0
  availFlags := if wrap then vringDescFAvail else vringDescFUsed
  ring k :=
    { id := 0, flags := if k = K then vringDescFIndirect else 0, addr := 0, len := (views k).len,
      lenTest := (views k).lenTest, addrCopy := 0, lenCopy := (views k).lenCopy,
      lenCount := (views k).lenCount, direct := ⟨0, 0, vringDescFNext, 0⟩ }
  entry _ _ := ⟨0, if leak then 1 else 0, vringDescFNext,
    UInt16.ofNat ((views K).len.toNat / sizeofDesc - 1)⟩
  copied _ _ := ⟨0, if leak then 1 else 0, vringDescFNext,
    UInt16.ofNat ((views K).len.toNat / sizeofDesc - 1)⟩
  rteMalloc _ := true
  mapped _ _ _ := True
  vhostIovaToVva c _ len _ :=
    match c with
    | .table k => (views k).vva.filter (fun v => v.size ≤ len)
    | .copy _ _ => some ⟨0, len⟩
    | .buffer _ _ _ => if leak then none else some ⟨0, len⟩
  vhostIovaToVva_sound := by
    intro c iova len perm v h
    refine ⟨?_, trivial⟩
    cases c with
    | table k => simpa using (Option.filter_eq_some_iff.mp h).2
    | copy k j =>
      cases h
      exact Nat.le_refl _
    | buffer k i j =>
      cases leak
      · cases h
        exact Nat.le_refl _
      · cases h

variable {vq : Vring} {perm : Perm} {views : ℕ → TableView} {K : ℕ} {leak wrap : Bool}

theorem hostile_shows (views : ℕ → TableView) (K : ℕ) (leak wrap : Bool) :
    (hostile views K leak wrap).Shows views := by
  intro k
  refine ⟨rfl, rfl, rfl, rfl, fun addr => ?_⟩
  cases hvva : (views k).vva with
  | none => simp [hostile, hvva]
  | some v => simpa [hostile, hvva, Option.filter] using (views k).vva_le v hvva

/-! ## What the walk meets -/

theorem mapOneDesc_empty (g : Guest) (k i vec_id : ℕ) (iova : UInt64) :
    mapOneDesc g k i vec_id iova 0 perm = pure vec_id := rfl

/-- A table of so many bytes. -/
def Table.Bytes (s : Held) (size : ℕ) : Table → Prop
  | ring => False
  | mapped n => n = size
  | copied => s.copy = some size

theorem read_inside {g : Guest} {step idx : ℕ} (ht : t.Bytes s size) {post : Held → Desc → Prop}
    (h : (memory vq g perm).Holds s (t.read g k step idx) post err) :
    sizeofDesc * (idx + 1) ≤ size ∧
      post s (if t = .copied then g.copied k idx else g.entry k step) := by
  cases t with
  | ring => exact absurd ht id
  | mapped n =>
    cases ht
    simpa [Table.read, Table.access, memory] using h
  | copied =>
    have hcopy : s.copy = some size := ht
    simpa [Table.read, Table.access, memory, hcopy] using h

theorem copy_hostile (hcopy : s.copy = none) {addr : UInt64} {len : ℕ} (hpos : 0 < len)
    {post : Held → Unit → Prop} :
    (memory vq (hostile views K leak wrap) perm).Holds s
        (vhostAllocCopyIndTable (hostile views K leak wrap) k addr len) post err ↔
      post { s with copy := some len } () := by
  obtain ⟨n, rfl⟩ : ∃ n, len = n + 1 := ⟨len - 1, by omega⟩
  simp [vhostAllocCopyIndTable, copyPieces, hostile, memory, hcopy]

/-- **The walk of a split ring leaves a table** that its count does not fit. -/
theorem walkSplit_leaves (ht : t.Bytes s size) (hle : (views 0).len.toNat / sizeofDesc ≤ vq.size)
    (hover : size < sizeofDesc * ((views 0).len.toNat / sizeofDesc)) :
    ¬ (memory vq (hostile views 0 false wrap) perm).Holds s
      (walkSplit (hostile views 0 false wrap) perm t ((views 0).len.toNat / sizeofDesc)
        ((views 0).len.toNat / sizeofDesc + 1) 0 0 vec_id 0) post err := by
  intro h
  have hsize := vq.size_le
  have hfree : (freeIndTable t).out = some () := by cases t <;> rfl
  have hentry : ∀ step idx, (if t = .copied then (hostile views 0 false wrap).copied 0 idx
      else (hostile views 0 false wrap).entry 0 step) =
        ⟨0, 0, vringDescFNext, UInt16.ofNat ((views 0).len.toNat / sizeofDesc - 1)⟩ :=
    fun step idx => by split <;> rfl
  have hnext : vringDescFNext &&& vringDescFNext ≠ 0 := by decide
  obtain ⟨n, hn⟩ : ∃ n, (views 0).len.toNat / sizeofDesc = n := ⟨_, rfl⟩
  rw [hn] at h hle hover hentry
  -- the first entry is read, and leads to the last one
  rw [walkSplit, Monitor.holds_ite] at h
  have hpos : 0 < n := Nat.pos_of_ne_zero (fun hzero => by simp [hzero] at hover)
  have hfirst := h.2 (by omega)
  rw [Monitor.holds_bind] at hfirst
  obtain ⟨hin, hfirst⟩ := read_inside ht hfirst
  rw [hentry] at hfirst
  simp only [UInt32.toNat_zero, mapOneDesc_empty, Monitor.holds_bind,
    Monitor.holds_onFail _ _ hfree, Monitor.holds_pure, if_neg hnext] at hfirst
  -- which is outside
  obtain ⟨m, rfl⟩ : ∃ m, n = m + 2 := ⟨n - 2, by
    have hne : n ≠ 1 := by
      rintro rfl
      omega
    omega⟩
  have hidx : (UInt16.ofNat (m + 2 - 1)).toNat = m + 1 := by
    rw [UInt16.toNat_ofNat', Nat.mod_eq_of_lt (by omega)]
    rfl
  rw [hidx, walkSplit, Monitor.holds_ite] at hfirst
  have hlast := hfirst.2 (by omega)
  rw [Monitor.holds_bind] at hlast
  exact Nat.not_le_of_lt hover (read_inside ht hlast).1

/-- **Every entry the count of an indirect table covers is read** in a packed
ring, so all of them lie in the table. -/
theorem walkIndirect_inside (ht : t.Bytes s size) (hvec : vec_id < bufVectorMax) (n i : ℕ)
    (len : UInt32) (h : (memory vq (hostile views K false wrap) perm).Holds s
      (walkIndirect (hostile views K false wrap) k perm t (n + 1) i vec_id len) post err) :
    sizeofDesc * (i + (n + 1)) ≤ size := by
  have hentry : ∀ j, (if t = .copied then (hostile views K false wrap).copied k j
      else (hostile views K false wrap).entry k j).len = 0 := fun j => by split <;> rfl
  induction n generalizing i len with
  | zero =>
    rw [walkIndirect, Monitor.holds_ite] at h
    have hfirst := h.2 (by omega)
    rw [Monitor.holds_bind] at hfirst
    exact (read_inside ht hfirst).1
  | succ n ih =>
    rw [walkIndirect, Monitor.holds_ite] at h
    have hfirst := h.2 (by omega)
    rw [Monitor.holds_bind] at hfirst
    have hrest := (read_inside ht hfirst).2
    rw [hentry] at hrest
    simp only [UInt32.toNat_zero, mapOneDesc_empty, Monitor.holds_bind, Monitor.holds_pure] at hrest
    have hin := ih (i + 1) _ hrest
    rwa [show i + 1 + (n + 1) = i + (n + 1 + 1) by omega] at hin

/-- A copy is lost where the first entry describes what is not mapped. -/
theorem walkIndirect_loses (hs : s.copy = some size) (hvec : vec_id < bufVectorMax) (n : ℕ)
    (len : UInt32) (h : (memory vq (hostile views K true wrap) perm).Holds s
      (walkIndirect (hostile views K true wrap) k perm .copied (n + 1) 0 vec_id len) post err) :
    err s := by
  have hbytes : Table.copied.Bytes s size := hs
  rw [walkIndirect, Monitor.holds_ite] at h
  have hfirst := h.2 (by omega)
  rw [Monitor.holds_bind] at hfirst
  have hmap := (read_inside hbytes hfirst).2
  have hfail : mapOneDesc (hostile views K true wrap) k 0 vec_id 0 1 perm = Act.fail := by
    simp [mapOneDesc, mapPieces, hostile, Act.ofOption, Nat.not_le_of_lt hvec]
    rfl
  rw [if_pos rfl, Monitor.holds_bind] at hmap
  change (memory vq (hostile views K true wrap) perm).Holds s
    (mapOneDesc (hostile views K true wrap) k 0 vec_id 0 1 perm) _ _ at hmap
  rw [hfail] at hmap
  exact Monitor.holds_fail.mp hmap

/-- The entries of the table are walked where it is mapped, or copied. -/
theorem mapIndirect_walks (hcopy : s.copy = none) {desc n : ℕ} {len : UInt32} {w : Vva}
    (hw : (views K).vva = some w) (hn : (views K).lenCount.toNat / sizeofDesc = n)
    (hsize : n < vq.size) {post : Held → Table × ℕ × UInt32 → Prop}
    (h : (memory vq (hostile views K leak wrap) perm).Holds s
      (mapIndirect vq (hostile views K leak wrap) K desc vec_id len perm) post err) :
    ∃ post' : Table → Held → ℕ × UInt32 → Prop,
      if w.size < (views K).lenTest.toNat then
        (views K).lenCopy ≠ 0 →
          (memory vq (hostile views K leak wrap) perm).Holds
            { s with copy := some (views K).lenCopy.toNat }
            (walkIndirect (hostile views K leak wrap) K perm .copied n 0 vec_id len)
            (post' .copied) err
      else
        (memory vq (hostile views K leak wrap) perm).Holds s
          (walkIndirect (hostile views K leak wrap) K perm (.mapped w.size) n 0 vec_id len)
          (post' (.mapped w.size)) err := by
  obtain ⟨hlen, htest, hlenCopy, hcount, hvva⟩ :=
    hostile_shows views K leak wrap K
  simp only [mapIndirect, Monitor.holds_bind, Monitor.holds_emit, holds_ofOption,
    Monitor.holds_ite, Monitor.holds_pure, hlen, htest, hlenCopy, hcount, hvva, hn] at h
  obtain ⟨hcopied, hmapped⟩ := h.2.1 w hw
  refine ⟨fun t u r => post u (t, r), ?_⟩
  split
  · intro hne
    have hpos : 0 < (views K).lenCopy.toNat := Nat.pos_of_ne_zero
      (fun hzero => hne (UInt32.toNat_inj.mp hzero))
    have hwalk := (copy_hostile hcopy hpos).mp (hcopied ‹_›)
    exact hwalk.2 (by omega)
  · exact (hmapped ‹_›).2 (by omega)

/-- **An indirect table of a packed ring that is not covered** is left, or its
copy lost. -/
theorem mapIndirect_unsafe (perm : Perm) (hcov : ¬ (views K).PackedCovered vq.size) :
    ∃ leak, ∀ {s : Held} {desc vec_id : ℕ} {len : UInt32} {wrap : Bool}
      {post : Held → Table × ℕ × UInt32 → Prop} {err : Held → Prop}, s.copy = none →
      vec_id < bufVectorMax → (∀ t, err t → t.copy = none) →
      ¬ (memory vq (hostile views K leak wrap) perm).Holds s
        (mapIndirect vq (hostile views K leak wrap) K desc vec_id len perm) post err := by
  simp only [TableView.PackedCovered, not_forall] at hcov
  obtain ⟨hpos, hsize, w, hw, hbad⟩ := hcov
  obtain ⟨n, hn⟩ : ∃ n, (views K).lenCount.toNat / sizeofDesc = n + 1 :=
    ⟨(views K).lenCount.toNat / sizeofDesc - 1, by omega⟩
  rw [hn] at hbad hsize
  by_cases htable : w.size < (views K).lenTest.toNat
  · refine ⟨true, ?_⟩
    intro s desc vec_id len wrap post err hcopy hvec herr h
    obtain ⟨post', hwalk⟩ := mapIndirect_walks hcopy hw hn hsize h
    rw [if_pos htable] at hbad hwalk
    have hlost := walkIndirect_loses rfl hvec n _ (hwalk hbad)
    exact absurd (herr _ hlost) (by simp)
  · refine ⟨false, ?_⟩
    intro s desc vec_id len wrap post err hcopy hvec _ h
    apply hbad
    obtain ⟨post', hwalk⟩ := mapIndirect_walks hcopy hw hn hsize h
    rw [if_neg htable] at hwalk ⊢
    have hbytes : (Table.mapped w.size).Bytes s w.size := rfl
    have hin := walkIndirect_inside hbytes hvec n 0 _ hwalk
    rwa [Nat.zero_add] at hin

/-- The walk of a packed ring comes to the `K`-th descriptor. -/
theorem walkPacked_reaches (hvec : vec_id < bufVectorMax) (hK : K < vq.size)
    (n fuel desc_count avail_idx : ℕ) (len : UInt32) (hn : desc_count + n = K) (hfuel : n < fuel)
    {post : Held → ℕ × ℕ × UInt16 × UInt32 → Prop}
    (h : (memory vq (hostile views K leak wrap) perm).Holds s
      (walkPacked vq (hostile views K leak wrap) perm fuel desc_count avail_idx vec_id len)
      post err) :
    ∃ avail_idx len post', (memory vq (hostile views K leak wrap) perm).Holds s
      (mapIndirect vq (hostile views K leak wrap) K avail_idx vec_id len perm) post' err := by
  obtain ⟨fuel, rfl⟩ : ∃ m, fuel = m + 1 := ⟨fuel - 1, by omega⟩
  induction n generalizing fuel desc_count avail_idx len with
  | zero =>
    have hK' : desc_count = K := hn
    subst hK'
    rw [walkPacked, Monitor.holds_ite] at h
    have hin := h.2 (by omega)
    simp only [Monitor.holds_bind, Monitor.holds_emit] at hin
    have hmap := hin.2
    have hflag : ((hostile views desc_count leak wrap).ring desc_count).flags =
        vringDescFIndirect := by
      simp [hostile]
    rw [mapPacked, hflag, if_neg (by decide), Monitor.holds_bind] at hmap
    exact ⟨_, _, _, hmap⟩
  | succ n ih =>
    rw [walkPacked, Monitor.holds_ite] at h
    have hin := h.2 (by omega)
    simp only [Monitor.holds_bind, Monitor.holds_emit] at hin
    have hmap := hin.2
    have hflag : ((hostile views K leak wrap).ring desc_count).flags = 0 := by
      have hne : desc_count ≠ K := by omega
      simp [hostile, hne]
    have hdirect : ((hostile views K leak wrap).ring desc_count).direct =
      ⟨0, 0, vringDescFNext, 0⟩ := rfl
    rw [mapPacked, hflag, if_pos (by decide), hdirect] at hmap
    simp only [UInt32.toNat_zero, mapOneDesc_empty, Monitor.holds_bind, Monitor.holds_pure] at hmap
    rw [if_neg (by decide)] at hmap
    obtain ⟨m, rfl⟩ : ∃ m, fuel = m + 1 := ⟨fuel - 1, by omega⟩
    exact ih (desc_count + 1) _ _ (by omega) m (by omega) hmap

/-! ## Exactly when a walk is safe -/

/-- **A walk of the split ring** is safe for every guest that shows the tables
exactly where the ring has an entry and the first table is covered. -/
theorem fillVecBufSplit_safe_iff (vq : Vring) (views : ℕ → TableView) (perm : Perm)
    (avail_idx : UInt32) (vec_idx : ℕ) :
    (∀ g : Guest, g.Shows views →
        Safe vq g perm vec_idx (fillVecBufSplit vq g avail_idx vec_idx perm)) ↔
      0 < vq.size ∧ (views 0).SplitCovered vq.size := by
  refine ⟨fun h => ?_, fun ⟨hpos, hcov⟩ g hg =>
    fillVecBufSplit_safe_of_covered hg hpos hcov avail_idx vec_idx⟩
  have hsafe := h (hostile views 0 false true) (hostile_shows views 0 false true)
  rw [Safe, fillVecBufSplit] at hsafe
  simp only [Monitor.holds_bind, Monitor.holds_emit, Monitor.holds_ite] at hsafe
  have hpos : 0 < vq.size := Nat.lt_of_le_of_lt (Nat.zero_le _) hsafe.1
  refine ⟨hpos, fun hle w hw => ?_⟩
  obtain ⟨hlen, htest, hlenCopy, -, hvva⟩ :=
    hostile_shows views 0 false true 0
  have hidx : ¬ vq.size ≤ (hostile views 0 false true).avail.toNat := Nat.not_le_of_lt hpos
  have hflag : ((hostile views 0 false true).ring 0).flags &&& vringDescFIndirect ≠ 0 := by
    simp [hostile, vringDescFIndirect]
  have htable := ((hsafe.2.2 hidx).2).2 hflag
  rw [if_neg hflag] at htable
  simp only [splitTable, Monitor.holds_ite, Monitor.holds_bind, Monitor.holds_pure, holds_ofOption,
    hlen, htest, hlenCopy, hvva] at htable
  obtain ⟨hcopied, hmapped⟩ := (htable.2 (Nat.not_lt_of_le hle)).1 w hw
  split
  · by_contra hbad
    rw [not_or] at hbad
    have hpos : 0 < (views 0).lenCopy.toNat := Nat.pos_of_ne_zero
      (fun hzero => hbad.1 (UInt32.toNat_inj.mp hzero))
    have hwalk := (copy_hostile rfl hpos).mp (hcopied ‹_›)
    have hbytes : Table.copied.Bytes ⟨some (views 0).lenCopy.toNat, vec_idx⟩
      (views 0).lenCopy.toNat := rfl
    exact walkSplit_leaves hbytes hle (Nat.lt_of_not_le hbad.2) hwalk
  · by_contra hbad
    have hbytes : (Table.mapped w.size).Bytes ⟨none, vec_idx⟩ w.size := rfl
    exact walkSplit_leaves hbytes hle (Nat.lt_of_not_le hbad) (hmapped ‹_›)

/-- **The call for an indirect table** is safe for every guest that shows the
tables exactly where its descriptor is in the ring and, if the vector has room,
its table is covered. -/
theorem fillVecBufPackedIndirect_safe_iff (vq : Vring) (views : ℕ → TableView) (perm : Perm)
    (k desc vec_idx : ℕ) (len : UInt32) :
    (∀ g : Guest, g.Shows views →
        Safe vq g perm vec_idx (fillVecBufPackedIndirect vq g k desc vec_idx len perm)) ↔
      desc < vq.size ∧ (vec_idx < bufVectorMax → (views k).PackedCovered vq.size) := by
  refine ⟨fun h => ⟨?_, fun hvec => ?_⟩, fun ⟨hdesc, hcov⟩ g hg =>
    fillVecBufPackedIndirect_safe_of_covered hg hdesc hcov len⟩
  · have hsafe := h (hostile views k false true) (hostile_shows views k false true)
    rw [Safe, fillVecBufPackedIndirect, Monitor.holds_bind, mapIndirect] at hsafe
    simp only [Monitor.holds_bind, Monitor.holds_emit] at hsafe
    exact hsafe.1
  · by_contra hcov
    obtain ⟨leak, hunsafe⟩ := mapIndirect_unsafe perm hcov
    have hsafe := h (hostile views k leak true) (hostile_shows views k leak true)
    rw [Safe, fillVecBufPackedIndirect, Monitor.holds_bind] at hsafe
    exact hunsafe rfl hvec (fun t ht => by rw [ht]) hsafe

/-- **A walk of the packed ring** is safe for every guest that shows the tables
exactly where it starts in the ring and, if the vector has room, all tables it
may come to are covered. -/
theorem fillVecBufPacked_safe_iff (vq : Vring) (views : ℕ → TableView) (perm : Perm)
    (avail_idx vec_idx : ℕ) :
    (∀ g : Guest, g.Shows views →
        Safe vq g perm vec_idx (fillVecBufPacked vq g avail_idx vec_idx perm)) ↔
      avail_idx < vq.size ∧
        (vec_idx < bufVectorMax → ∀ k < vq.size, (views k).PackedCovered vq.size) := by
  refine ⟨fun h => ⟨?_, fun hvec k hk => ?_⟩, fun ⟨hidx, hcov⟩ g hg =>
    fillVecBufPacked_safe_of_covered hg hidx hcov⟩
  · have hsafe := h (hostile views 0 false true) (hostile_shows views 0 false true)
    rw [Safe, fillVecBufPacked] at hsafe
    simp only [Monitor.holds_bind, Monitor.holds_emit] at hsafe
    exact hsafe.1
  · by_contra hcov
    obtain ⟨leak, hunsafe⟩ := mapIndirect_unsafe perm hcov
    obtain ⟨wrap, hwrap⟩ : ∃ wrap, wrap = (if avail_idx < vq.last_avail_idx then
      !vq.avail_wrap_counter else vq.avail_wrap_counter) := ⟨_, rfl⟩
    have hsafe := h (hostile views k leak wrap) (hostile_shows views k leak wrap)
    have havail : descIsAvail (hostile views k leak wrap).availFlags wrap = true := by
      change descIsAvail (if wrap then vringDescFAvail else vringDescFUsed) wrap = true
      cases wrap <;> decide
    rw [Safe, fillVecBufPacked, ← hwrap] at hsafe
    simp only [Monitor.holds_bind, Monitor.holds_emit, havail, if_true] at hsafe
    obtain ⟨avail_idx', len, post', hreached⟩ :=
      walkPacked_reaches hvec hk k (vq.size + 1) 0 avail_idx 0 (Nat.zero_add k) (by omega) hsafe.2
    exact hunsafe rfl hvec (fun t ht => by rw [ht]) hreached

/-- **The walks of descriptors are safe against the guest** exactly where the
indirect tables it shows are covered. -/
theorem fillVecBuf_safe (vq : Vring) (views : ℕ → TableView) (perm : Perm) (vec_idx : ℕ) :
    (∀ avail_idx : UInt32,
      (∀ g : Guest, g.Shows views →
          Safe vq g perm vec_idx (fillVecBufSplit vq g avail_idx vec_idx perm)) ↔
        0 < vq.size ∧ (views 0).SplitCovered vq.size) ∧
    (∀ k desc len,
      (∀ g : Guest, g.Shows views →
          Safe vq g perm vec_idx (fillVecBufPackedIndirect vq g k desc vec_idx len perm)) ↔
        desc < vq.size ∧ (vec_idx < bufVectorMax → (views k).PackedCovered vq.size)) ∧
    (∀ avail_idx,
      (∀ g : Guest, g.Shows views →
          Safe vq g perm vec_idx (fillVecBufPacked vq g avail_idx vec_idx perm)) ↔
        avail_idx < vq.size ∧
          (vec_idx < bufVectorMax → ∀ k < vq.size, (views k).PackedCovered vq.size)) :=
  ⟨fun avail_idx => fillVecBufSplit_safe_iff vq views perm avail_idx vec_idx,
    fun k desc len => fillVecBufPackedIndirect_safe_iff vq views perm k desc vec_idx len,
    fun avail_idx => fillVecBufPacked_safe_iff vq views perm avail_idx vec_idx⟩

/-- The length of a table of two entries is shorter when it is read again. -/
def shrinkingTable : TableView where
  len := 32
  lenTest := 16
  lenCopy := 0
  lenCount := 0
  vva := some ⟨4096, 16⟩
  vva_le := by
    intro v hv
    cases hv
    decide

/-- **A walk leaves the part of a table that is mapped**: the table is taken to
have two entries, one of them is mapped, and the length that is compared is the
one of a single entry. -/
theorem fillVecBuf_unsafe : ∃ (vq : Vring) (g : Guest), vq.size = 256 ∧
    g.Shows (fun _ => shrinkingTable) ∧
    Access.table 16 1 ∈ (fillVecBufSplit vq g 0 0 .ro).log ∧
    ¬ Safe vq g .ro 0 (fillVecBufSplit vq g 0 0 .ro) := by
  have hread : Access.table 16 1 ∈ (fillVecBufSplit ⟨256, 0, false, by decide⟩
      (hostile (fun _ => shrinkingTable) 0 false true) 0 0 .ro).log := by
    decide +kernel
  refine ⟨_, _, rfl, hostile_shows _ 0 false true, hread, fun h => ?_⟩
  obtain ⟨t, ht⟩ := h.1.ok_of_mem hread
  exact absurd (show sizeofDesc * (1 + 1) ≤ 16 from ht) (by decide)

end Vhost
