import DpdkStudy.Pktmbuf.Cloning

/-!
# Bytes of a packet

The bytes at an offset are found by going along the segments, as far as there are
any. `__rte_pktmbuf_read` adds an offset and a length of 32 bits each; a sum that
does not fit passes the only test there is (`readOk_iff`). Where all segments are
put into the first one, the bytes are the same (`linearizeOk`).
-/

open List

namespace Pktmbuf

variable {env : Env} {h : Heap}

/-! ## The segment of an offset -/

/-- The bytes of some segments. -/
def bytesOf (segs : List Seg) : List UInt8 := segs.flatMap Seg.data

@[simp]
theorem bytesOf_nil : bytesOf [] = [] := rfl

@[simp]
theorem bytesOf_cons (s : Seg) (segs : List Seg) :
    bytesOf (s :: segs) = s.data ++ bytesOf segs := flatMap_cons

@[simp]
theorem bytesOf_append (segs segs' : List Seg) :
    bytesOf (segs ++ segs') = bytesOf segs ++ bytesOf segs' := flatMap_append

theorem Pkt.bytes_eq (m : Pkt) : m.bytes = bytesOf m.segs := rfl

/-- **An offset in a packet is found**: the bytes from there on are the same. -/
theorem skipSegs_spec {off : ℕ} {segs : List Seg} (hlt : off < (bytesOf segs).length) :
    ∃ off' s rest, skipSegs off segs = some (off', s, rest) ∧ off' < s.dataLen ∧ off' ≤ off ∧
      (bytesOf (s :: rest)).drop off' = (bytesOf segs).drop off := by
  induction segs generalizing off with
  | nil => exact absurd hlt (Nat.not_lt_zero off)
  | cons s rest ih =>
    rw [skipSegs]
    split
    · rename_i hle
      rw [bytesOf_cons, length_append] at hlt
      have hlt' : off - s.dataLen < (bytesOf rest).length := by
        rw [Seg.dataLen] at hle ⊢
        omega
      obtain ⟨off', t, rest', heq, hoff, hsub, hdrop⟩ := ih hlt'
      refine ⟨off', t, rest', heq, hoff, Nat.le_trans hsub (Nat.sub_le _ _), ?_⟩
      rw [hdrop, bytesOf_cons, drop_append, drop_eq_nil_of_le hle]
      rfl
    · rename_i hlt'
      exact ⟨off, s, rest, rfl, Nat.lt_of_not_le hlt', Nat.le_refl off, rfl⟩

/-- An offset past the bytes is past the last segment. -/
theorem skipSegs_eq_none {off : ℕ} {segs : List Seg} (hle : (bytesOf segs).length ≤ off) :
    skipSegs off segs = none := by
  induction segs generalizing off with
  | nil => rfl
  | cons s rest ih =>
    rw [bytesOf_cons, length_append] at hle
    have hle' : s.dataLen ≤ off := Nat.le_of_add_right_le hle
    rw [skipSegs, if_pos hle', ih]
    rw [Seg.dataLen]
    omega

/-! ## Reading -/

/-- Bytes are gathered from the segments that they are in. -/
theorem readLoop_spec {off len : ℕ} {segs : List Seg} (hlen : off + len ≤ (bytesOf segs).length)
    (hoff : ∀ s rest, segs = s :: rest → off ≤ s.dataLen) :
    readLoop off len segs = some (((bytesOf segs).drop off).take len) := by
  induction segs generalizing off len with
  | nil =>
    have hzero : len = 0 := by
      rw [bytesOf_nil, length_nil] at hlen
      omega
    rw [readLoop, if_pos hzero, hzero, take_zero]
  | cons s rest ih =>
    rw [readLoop]
    by_cases hzero : len = 0
    · rw [if_pos hzero, hzero, take_zero]
    · rw [if_neg hzero]
      have hle := hoff s rest rfl
      rw [Seg.dataLen] at hle
      rw [bytesOf_cons, length_append] at hlen
      have hmin : (if s.dataLen - off > len then len else s.dataLen - off) =
          min len (s.data.drop off).length := by
        rw [length_drop, Seg.dataLen]
        split <;> omega
      simp only [hmin]
      have hrest : 0 + (len - min len (s.data.drop off).length) ≤ (bytesOf rest).length := by
        rw [length_drop]
        omega
      rw [ih hrest (fun _ _ _ => Nat.zero_le _), Option.map_some, drop_zero, bytesOf_cons,
        drop_append_of_le_length hle, take_append]
      have htake : (s.data.drop off).take (min len (s.data.drop off).length) =
          (s.data.drop off).take len := by
        rw [← take_take, take_length]
      have hsub : len - min len (s.data.drop off).length = len - (s.data.drop off).length := by
        omega
      rw [htake, hsub]

/-- **What reading is to be**: the bytes at an offset where there are so many, and `NULL`
otherwise. -/
def ReadOk (m : Pkt) (off len : ℕ) : Prop :=
  rtePktmbufRead m off len =
    some (if off + len ≤ m.pkt_len then some ((m.bytes.drop off).take len) else none)

/-- What passes the test is not answered with `NULL`. -/
theorem rtePktmbufRead_ne_null {m : Pkt} {off len : ℕ}
    (hle : (off + len) % 2 ^ 32 ≤ m.pkt_len) : rtePktmbufRead m off len ≠ some none := by
  rw [rtePktmbufRead, if_neg (Nat.not_lt.mpr hle)]
  intro heq
  obtain ⟨⟨off', seg, rest⟩, -, heq⟩ := Option.bind_eq_some_iff.mp heq
  simp only at heq
  split at heq
  · cases heq
  · obtain ⟨_, -, heq⟩ := Option.map_eq_some_iff.mp heq
    cases heq

/-- **Reading is what it is to be** unless the sum of offset and length does not fit
into 32 bits and then looks like one in the packet, or nothing is read at the end. -/
theorem readOk_iff {m : Pkt} (hchain : Chain m) {off len : ℕ} :
    ReadOk m off len ↔ ¬ (m.pkt_len < off + len ∧ (off + len) % 2 ^ 32 ≤ m.pkt_len) ∧
      ¬ (off = m.pkt_len ∧ len = 0) := by
  have hpkt := hchain.pkt_len
  rw [Pkt.bytes_eq] at hpkt
  have h32 := hchain.pkt_len_lt
  unfold ReadOk
  by_cases hin : off + len ≤ m.pkt_len
  · rw [if_pos hin, and_iff_right (fun hboth => absurd hin (Nat.not_le.mpr hboth.1))]
    have hmod : (off + len) % 2 ^ 32 = off + len := Nat.mod_eq_of_lt (Nat.lt_of_le_of_lt hin h32)
    rw [rtePktmbufRead, hmod, if_neg (Nat.not_lt.mpr hin)]
    by_cases hend : off = m.pkt_len ∧ len = 0
    · rw [skipSegs_eq_none (Nat.le_of_eq (by rw [hend.1, hpkt]))]
      exact iff_of_false (fun heq => nomatch heq) (not_not.mpr hend)
    · refine iff_of_true ?_ hend
      have hlt : off < (bytesOf m.segs).length := by omega
      obtain ⟨off', s, rest, heq, hoff, hsub, hdrop⟩ := skipSegs_spec hlt
      rw [heq]
      show (if (off' + len) % 2 ^ 32 ≤ s.dataLen then some (some ((s.data.drop off').take len))
        else (readLoop off' len (s :: rest)).map some) = _
      have hmod' : (off' + len) % 2 ^ 32 = off' + len := Nat.mod_eq_of_lt (by omega)
      have hlength := congrArg length hdrop
      rw [length_drop, length_drop] at hlength
      have hlen : off' + len ≤ (bytesOf (s :: rest)).length := by omega
      rw [Pkt.bytes_eq, ← hdrop, hmod']
      split
      · rename_i hle
        rw [Seg.dataLen] at hle hoff
        rw [bytesOf_cons, drop_append_of_le_length (Nat.le_of_lt hoff),
          take_append_of_le_length (by rw [length_drop]; omega)]
      · rw [readLoop_spec hlen (fun t rest' heq' => ?_), Option.map_some]
        rw [← (cons.inj heq').1]
        exact Nat.le_of_lt hoff
  · rw [if_neg hin]
    have hgt := Nat.lt_of_not_le hin
    rw [iff_comm, and_iff_left (fun hend => by omega)]
    constructor
    · intro hnot
      rw [rtePktmbufRead, if_pos (Nat.lt_of_not_le (fun hle => hnot ⟨hgt, hle⟩))]
    · intro heq hboth
      exact rtePktmbufRead_ne_null hboth.2 heq

/-! ## One segment of many -/

/-- **What linearizing is to be**: the bytes are kept, in a packet of one segment, or
there is too little room and nothing is done. -/
def LinearizeOk (env : Env) (h : Heap) (m : Pkt) : Prop :=
  ∃ r m' h', rtePktmbufLinearize env h m = some (r, m', h') ∧
    (r = 0 ∧ m'.next = [] ∧ m'.bytes = m.bytes ∨
      r = -1 ∧ m.seg.tailroom < (bytesOf m.next).length ∧ m' = m ∧ h' = h) ∧
    Usable env h' m'

theorem linearizeOk {m : Pkt} (hchain : Chain m) (htold : ∀ s ∈ m.segs, s.Told) :
    LinearizeOk env h m := by
  have hpkt : m.pkt_len = m.seg.data.length + (bytesOf m.next).length := by
    rw [hchain.pkt_len, Pkt.bytes_eq, Pkt.segs, bytesOf_cons, length_append]
  have hsub : m.pkt_len - m.seg.dataLen = (bytesOf m.next).length := by
    rw [hpkt, Seg.dataLen, Nat.add_sub_cancel_left]
  have hseg : m.seg ∈ m.segs := mem_cons_self
  have hbuf := hchain.buf_len m.seg hseg
  unfold LinearizeOk
  rw [rtePktmbufLinearize, hsub]
  simp only
  by_cases hroom : (bytesOf m.next).length > m.seg.tailroom
  · rw [if_pos hroom]
    exact ⟨-1, m, h, rfl, .inr ⟨rfl, hroom, rfl, rfl⟩, Usable.of_told hchain htold⟩
  · rw [if_neg hroom]
    obtain ⟨h', hfree⟩ := Option.isSome_iff_exists.mp
      (@rtePktmbufFree_isSome env h m.next (fun s hs => htold s (mem_cons_of_mem _ hs)))
    rw [hfree, Option.map_some]
    rw [Seg.dataLen] at hbuf
    have hall : (m.seg.data ++ m.next.flatMap Seg.data).take (m.pkt_len % 2 ^ 16) = m.bytes := by
      rw [Nat.mod_eq_of_lt (by omega), hchain.pkt_len, Pkt.bytes, Pkt.segs, flatMap_cons,
        take_length]
    rw [hall]
    refine ⟨0, _, h', rfl, .inl ⟨rfl, rfl, by simp [Pkt.bytes, Pkt.segs]⟩, Usable.of_told ?_ ?_⟩
    · refine ⟨rfl, Nat.one_lt_two_pow (by decide), ?_, hchain.pkt_len_lt, fun s hs => ?_⟩
      · rw [hchain.pkt_len]
        simp [Pkt.bytes, Pkt.segs]
      · rw [mem_singleton.mp hs]
        show m.bytes.length + (m.seg.tailroom - (bytesOf m.next).length) < 2 ^ 16
        rw [← hchain.pkt_len]
        omega
    · intro s hs
      rw [mem_singleton.mp hs]
      exact htold m.seg hseg

end Pktmbuf
