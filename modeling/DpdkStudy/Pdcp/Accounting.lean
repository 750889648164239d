import DpdkStudy.Pdcp.Uplink

/-!
# Every packet of a burst at an uplink entity is accounted for

Of each burst an uplink entity prepares an operation for some of the packets, with the COUNTs
from `TX_NEXT` on, and returns the others with an error; the operations that are left over go
back to the pool.

A packet that is returned with an error need not be as it was. There are two steps, one at
either end of the packet, and the first of them stays where there is no room for the second;
the application is only to free such a packet.
-/

open List

namespace Pdcp

open Function

namespace UlPriv

variable {en : UlPriv} {tx_next : BitVec 32} {mb mb' : Buf}

/-! ## One packet -/

/-- **What is returned of a packet with an error**: the packet as it was, on the user plane
also with the room for a MAC-I behind it, and on the control plane with that for the header in
front. -/
def Left (en : UlPriv) (mb mb' : Buf) : Prop :=
  mb'.data = mb.data ∨
  (en.plane ≠ .cplaneSn12 ∧ en.isAuthenticated = true ∧ mb.headroom.length < en.hdrSz ∧
    ∃ mac_i, mac_i.length = macILen ∧ mb'.data = mb.data ++ mac_i) ∨
  (en.plane = .cplaneSn12 ∧ mb.tailroom.length < macILen ∧
    ∃ hdr, hdr.length = en.hdrSz ∧ mb'.data = hdr ++ mb.data)

/-- **A packet with its header**, for a COUNT, and what is left of the room in front. -/
def Framed (en : UlPriv) (count : BitVec 32) (mb mb' : Buf) : Prop :=
  (∃ data, mb'.data = en.plane.hdr count ++ data) ∧
    mb'.headroom.length + en.hdrSz = mb.headroom.length ∧
    (en.isAuthenticated = true → macILen ≤ mb.tailroom.length)

/-- **There is room for the message of AES-CMAC** where there is room for the header and the
MAC-I. -/
def Roomy (en : UlPriv) (mb : Buf) : Prop :=
  en.auth_algo = some .aes → en.hdrSz ≤ mb.headroom.length → macILen ≤ mb.tailroom.length →
    en.hdrSz + 8 ≤ mb.headroom.length

theorem length_hdr (en : UlPriv) (count : BitVec 32) :
    (en.plane.hdr count).length = en.hdrSz := by
  rw [hdrSz]
  cases en.plane <;> simp [Plane.hdr, CpDataPduSn12Hdr.bytes, UpDataPduSn12Hdr.bytes,
    UpDataPduSn18Hdr.bytes, pdcpHdrSizeGet, Plane.snSize, SnSize.bits]

theorem prepend_eq_some {len : ℕ} (h : mb.prepend len = some mb') :
    len ≤ mb.headroom.length ∧ mb'.headroom.length + len = mb.headroom.length ∧
      mb'.tailroom = mb.tailroom ∧ ∃ bytes, bytes.length = len ∧ mb'.data = bytes ++ mb.data := by
  rw [Buf.prepend] at h
  split_ifs at h with hlt
  cases h
  simp only [length_take, true_and]
  exact ⟨by omega, by omega, _, by rw [length_drop]; omega, rfl⟩

theorem append_eq_some {len : ℕ} (h : mb.append len = some mb') :
    len ≤ mb.tailroom.length ∧ mb'.headroom = mb.headroom ∧
      ∃ bytes, bytes.length = len ∧ mb'.data = mb.data ++ bytes := by
  rw [Buf.append] at h
  split_ifs at h with hlt
  cases h
  simp only [true_and]
  exact ⟨by omega, _, by rw [length_take]; omega, rfl⟩

theorem prepend_eq_none {len : ℕ} (h : mb.prepend len = none) : mb.headroom.length < len := by
  rw [Buf.prepend] at h
  split_ifs at h with hlt
  exact hlt

theorem append_eq_none {len : ℕ} (h : mb.append len = none) : mb.tailroom.length < len := by
  rw [Buf.append] at h
  split_ifs at h with hlt
  exact hlt

/-- Clearing the MAC-I takes nothing of what is in front of it. -/
theorem clearMacI_data {data mac_i : List (BitVec 8)} (h : mb.data = data ++ mac_i)
    (hlen : mac_i.length = macILen) :
    mb.clearMacI.data = data ++ replicate macILen 0 := by
  simp [Buf.clearMacI, h, hlen]

/-- The header is put in front, or there is no room for it. -/
theorem uplaneSetSn_spec (en : UlPriv) (tx_next : BitVec 32) (mb : Buf) :
    (en.uplaneSetSn tx_next mb = (mb, false) ∧ mb.headroom.length < en.hdrSz) ∨
    ∃ mb', en.uplaneSetSn tx_next mb = (mb', true) ∧
      mb'.data = en.plane.hdr tx_next ++ mb.data ∧
      mb'.headroom.length + en.hdrSz = mb.headroom.length := by
  rw [uplaneSetSn]
  cases hprepend : mb.prepend en.hdrSz with
  | none => exact .inl ⟨rfl, prepend_eq_none hprepend⟩
  | some mb₁ =>
    obtain ⟨-, hhead, -, bytes, hlen, hdata⟩ := prepend_eq_some hprepend
    refine .inr ⟨_, rfl, ?_, hhead⟩
    simp [Buf.write, hdata, length_hdr, ← hlen]

/-- One packet of the user plane. -/
theorem uplanePacket_spec (hplane : en.plane ≠ .cplaneSn12) (tx_next : BitVec 32) (mb : Buf) :
    (∃ mb', en.uplanePacket tx_next mb = (mb', false) ∧ en.Left mb mb') ∨
    ∃ mb', en.uplanePacket tx_next mb = (mb', true) ∧ en.Framed tx_next mb mb' := by
  rw [uplanePacket]
  by_cases hauth : en.isAuthenticated = true
  · rw [if_pos hauth]
    cases happend : mb.append macILen with
    | none => exact .inl ⟨mb, rfl, .inl rfl⟩
    | some mb₁ =>
      obtain ⟨htail, hhead, mac_i, hlen, hdata⟩ := append_eq_some happend
      -- whether the MAC-I is cleared, there are as many bytes behind the packet
      obtain ⟨mb₂, hmb₂⟩ : ∃ mb₂, (if en.isNullAuth then mb₁.clearMacI else mb₁) = mb₂ := ⟨_, rfl⟩
      have hcleared : mb₂.headroom = mb.headroom ∧
          ∃ mac_i, mac_i.length = macILen ∧ mb₂.data = mb.data ++ mac_i := by
        rw [← hmb₂]
        split_ifs
        · exact ⟨hhead, _, length_replicate, clearMacI_data hdata hlen⟩
        · exact ⟨hhead, mac_i, hlen, hdata⟩
      obtain ⟨hhead₂, mac_i₂, hlen₂, hdata₂⟩ := hcleared
      simp only [hmb₂]
      rcases en.uplaneSetSn_spec tx_next mb₂ with ⟨heq, hroom⟩ | ⟨mb', heq, hdata', hhead'⟩
      · rw [hhead₂] at hroom
        exact .inl ⟨mb₂, heq, .inr (.inl ⟨hplane, hauth, hroom, mac_i₂, hlen₂, hdata₂⟩)⟩
      · rw [hhead₂] at hhead'
        exact .inr ⟨mb', heq, ⟨_, hdata'⟩, hhead', fun _ => htail⟩
  · rw [if_neg hauth]
    rcases en.uplaneSetSn_spec tx_next mb with ⟨heq, -⟩ | ⟨mb', heq, hdata', hhead'⟩
    · exact .inl ⟨mb, heq, .inl rfl⟩
    · exact .inr ⟨mb', heq, ⟨_, hdata'⟩, hhead', fun h => absurd h hauth⟩

/-- One packet of the control plane. -/
theorem cplanePacket_spec (hplane : en.plane = .cplaneSn12) (tx_next : BitVec 32) (mb : Buf) :
    (∃ mb', en.cplanePacket tx_next mb = (mb', false) ∧ en.Left mb mb') ∨
    ∃ mb', en.cplanePacket tx_next mb = (mb', true) ∧ en.Framed tx_next mb mb' := by
  rw [cplanePacket]
  cases hprepend : mb.prepend en.hdrSz with
  | none => exact .inl ⟨mb, rfl, .inl rfl⟩
  | some mb₁ =>
    obtain ⟨-, hhead, htail, hdr, hlen, hdata⟩ := prepend_eq_some hprepend
    cases happend : mb₁.append macILen with
    | none =>
      have hroom := append_eq_none happend
      rw [htail] at hroom
      exact .inl ⟨mb₁, by simp [happend], .inr (.inr ⟨hplane, hroom, hdr, hlen, hdata⟩)⟩
    | some mb₂ =>
      obtain ⟨htail₂, hhead₂, mac_i, hlen₂, hdata₂⟩ := append_eq_some happend
      rw [htail] at htail₂
      refine .inr ⟨(if en.isNullAuth then mb₂.clearMacI else mb₂).write (en.plane.hdr tx_next),
        by simp only [happend], ?_, ?_, fun _ => htail₂⟩
      · rw [hdata, append_assoc] at hdata₂
        split_ifs
        · rw [← append_assoc] at hdata₂
          refine ⟨mb.data ++ replicate macILen 0, ?_⟩
          simp [Buf.write, clearMacI_data hdata₂ hlen₂, length_hdr, ← hlen]
        · refine ⟨mb.data ++ mac_i, ?_⟩
          simp [Buf.write, hdata₂, length_hdr, ← hlen]
      · rw [← hhead, ← hhead₂]
        split_ifs <;> rfl

/-- **One packet of an entity**, as its pre-process has it. -/
def packet (en : UlPriv) : BitVec 32 → Buf → Buf × Bool :=
  if en.plane = .cplaneSn12 then en.cplanePacket else en.uplanePacket

theorem preProcess_eq (en : UlPriv) :
    en.preProcess = en.preProcessBurst en.packet en.isAuthenticated := by
  have hauth := en.authenticated
  rw [preProcess, packet]
  cases hplane : en.plane with
  | cplaneSn12 =>
    rw [if_pos rfl, isAuthenticated, Option.isSome_iff_ne_none.mpr (hauth hplane)]
    rfl
  | uplaneSn12 => rfl
  | uplaneSn18 => rfl

/-- A packet has its header, or is left with an error. -/
theorem packet_spec (en : UlPriv) (tx_next : BitVec 32) (mb : Buf) :
    (∃ mb', en.packet tx_next mb = (mb', false) ∧ en.Left mb mb') ∨
    ∃ mb', en.packet tx_next mb = (mb', true) ∧ en.Framed tx_next mb mb' := by
  rw [packet]
  split_ifs with hplane
  · exact cplanePacket_spec hplane tx_next mb
  · exact uplanePacket_spec hplane tx_next mb

/-- What a packet is when an operation has been prepared for it: the header follows what was
put in front for the operation. -/
def Prepared (en : UlPriv) (count : BitVec 32) (mb : Buf) : Prop :=
  ∃ data, (mb.trim en.aadSz).data = en.plane.hdr count ++ data

/-- **An operation is prepared** for a packet with its header, if there is room. -/
theorem copPrepare_spec {buf : Buf} (hframed : en.Framed tx_next mb buf) (hroom : en.Roomy mb)
    (op m_src : ℕ) (is_auth : Bool) :
    ∃ mb' c, en.copPrepare op m_src buf tx_next is_auth = some (mb', c) ∧
      en.Prepared tx_next mb' ∧ c.op = op ∧ c.m_src = m_src ∧ c.count = tx_next := by
  obtain ⟨⟨data, hdata⟩, hhead, htail⟩ := hframed
  rw [copPrepare, ivGen]
  by_cases haes : en.auth_algo = some .aes
  · have hauth : en.isAuthenticated = true := by simp [isAuthenticated, haes]
    have hfits := hroom haes (by omega) (htail hauth)
    cases hprepend : buf.prepend 8 with
    | none => exact absurd (prepend_eq_none hprepend) (by omega)
    | some mb₁ =>
      obtain ⟨-, -, -, bytes, hlen, hdata₁⟩ := prepend_eq_some hprepend
      refine ⟨mb₁.write (en.message tx_next), _, by rw [if_pos haes]; rfl, ⟨data, ?_⟩, rfl, rfl,
        rfl⟩
      have hmessage : (en.message tx_next).length = 8 := by simp [message]
      simp [Buf.trim, Buf.write, aadSz, haes, hdata₁, hmessage, ← hlen, hdata]
  · refine ⟨buf, _, by rw [if_neg haes]; rfl, ⟨data, ?_⟩, rfl, rfl, rfl⟩
    simp [Buf.trim, aadSz, haes, hdata]

/-! ## The loop -/

variable {mbufs : ℕ → Buf} {done todo cop : List ℕ} {b : UlBatch}

/-- **What the loop keeps**, when it has gone through the packets `done` of a burst and not
through `todo`: those that have been gone through are in an operation or with the errors, and
the rest of the array and of the mbufs are as they were at the start. -/
structure Accounted (en : UlPriv) (mbufs : ℕ → Buf) (tx_next : BitVec 32)
    (done todo cop : List ℕ) (b : UlBatch) : Prop where
  sum : b.prep.length + b.nb_err = done.length
  length : b.in_mb.length = done.length + todo.length
  rest : b.in_mb.drop done.length = todo
  perm : (b.prep.map Cop.m_src ++ b.in_mb.take b.nb_err).Perm done
  ops : b.prep.map Cop.op = cop.take b.prep.length
  counts : b.prep.map Cop.count =
    (List.range b.prep.length).map fun k => tx_next + BitVec.ofNat 32 k
  next : b.tx_next = tx_next + BitVec.ofNat 32 b.prep.length
  frame : ∀ mb ∉ done, b.mbufs mb = mbufs mb
  prepared : ∀ c ∈ b.prep, en.Prepared c.count (b.mbufs c.m_src)
  left : ∀ mb ∈ b.in_mb.take b.nb_err, en.Left (mbufs mb) (b.mbufs mb)

/-- Writing one place of an array and taking up to it. -/
theorem take_set {l : List ℕ} {n : ℕ} (hn : n < l.length) (a : ℕ) :
    (l.set n a).take (n + 1) = l.take n ++ [a] := by
  rw [take_add_one, take_set_of_le le_rfl, getElem?_set_self hn]
  rfl

theorem Accounted.getD {mb : ℕ} (h : Accounted en mbufs tx_next done (mb :: todo) cop b) :
    b.in_mb.getD done.length 0 = mb := by
  have hhead := congrArg head? h.rest
  rw [head?_drop] at hhead
  rw [getD_eq_getElem?_getD, hhead]
  rfl

/-- **A packet with an error** takes the place of one that has been gone through. -/
theorem Accounted.error {mb : ℕ} {buf : Buf}
    (h : Accounted en mbufs tx_next done (mb :: todo) cop b) (hmb : mb ∉ done)
    (hleft : en.Left (mbufs mb) buf) :
    Accounted en mbufs tx_next (done ++ [mb]) todo cop
      { b with
        in_mb := b.in_mb.set b.nb_err mb
        mbufs := update b.mbufs mb buf
        nb_err := b.nb_err + 1 } := by
  have hsum := h.sum
  have hlength : b.in_mb.length = done.length + (todo.length + 1) := h.length
  have htake : (b.in_mb.set b.nb_err mb).take (b.nb_err + 1) = b.in_mb.take b.nb_err ++ [mb] :=
    take_set (by omega) mb
  have hne : ∀ m ∈ b.prep.map Cop.m_src ++ b.in_mb.take b.nb_err, m ≠ mb := by
    intro m hm heq
    exact hmb (heq ▸ h.perm.mem_iff.mp hm)
  refine ⟨?_, ?_, ?_, ?_, h.ops, h.counts, h.next, ?_, ?_, ?_⟩
  · simp only [length_append, length_singleton]
    omega
  · simp only [length_set, length_append, length_singleton]
    omega
  · have hrest := congrArg tail h.rest
    rw [tail_drop] at hrest
    rw [length_append, length_singleton, drop_set_of_lt (by omega), hrest]
    rfl
  · show (b.prep.map Cop.m_src ++ (b.in_mb.set b.nb_err mb).take (b.nb_err + 1)).Perm _
    rw [htake, ← append_assoc]
    exact h.perm.append_right [mb]
  · intro m hm
    rw [mem_append, mem_singleton, not_or] at hm
    show update b.mbufs mb buf m = _
    rw [update_of_ne hm.2, h.frame m hm.1]
  · intro c hc
    show en.Prepared c.count (update b.mbufs mb buf c.m_src)
    rw [update_of_ne (hne _ (mem_append_left _ (mem_map_of_mem hc)))]
    exact h.prepared c hc
  · show ∀ m ∈ (b.in_mb.set b.nb_err mb).take (b.nb_err + 1),
      en.Left (mbufs m) (update b.mbufs mb buf m)
    intro m hm
    rw [htake, mem_append, mem_singleton] at hm
    rcases hm with hm | rfl
    · rw [update_of_ne (hne m (mem_append_right _ hm))]
      exact h.left m hm
    · rw [update_self]
      exact hleft

theorem Accounted.prepare {mb : ℕ} {buf : Buf} {c : Cop}
    (h : Accounted en mbufs tx_next done (mb :: todo) cop b) (hmb : mb ∉ done)
    (hlt : b.prep.length < cop.length) (hprep : en.Prepared b.tx_next buf)
    (hop : c.op = cop.getD b.prep.length 0) (hsrc : c.m_src = mb) (hcount : c.count = b.tx_next) :
    Accounted en mbufs tx_next (done ++ [mb]) todo cop
      { b with
        mbufs := update b.mbufs mb buf
        tx_next := b.tx_next + 1#32
        prep := b.prep ++ [c] } := by
  have hsum := h.sum
  have hlength : b.in_mb.length = done.length + (todo.length + 1) := h.length
  have hne : ∀ m ∈ b.prep.map Cop.m_src ++ b.in_mb.take b.nb_err, m ≠ mb := by
    intro m hm heq
    exact hmb (heq ▸ h.perm.mem_iff.mp hm)
  refine ⟨?_, ?_, ?_, ?_, ?_, ?_, ?_, ?_, ?_, ?_⟩
  · simp only [length_append, length_singleton]
    omega
  · simp only [length_append, length_singleton]
    omega
  · have hrest := congrArg tail h.rest
    rw [tail_drop] at hrest
    rw [length_append, length_singleton, hrest]
    rfl
  · rw [map_append, map_singleton, hsrc, append_assoc]
    refine (perm_append_comm.append_left _).trans ?_
    rw [← append_assoc]
    exact h.perm.append_right [mb]
  · rw [map_append, map_singleton, h.ops, hop, length_append,
      length_singleton, take_add_one, getD_eq_getElem?_getD,
      getElem?_eq_getElem hlt]
    rfl
  · rw [map_append, map_singleton, h.counts, hcount, h.next, length_append,
      length_singleton, range_succ, map_append]
    rfl
  · show b.tx_next + 1#32 = _
    rw [h.next, length_append, length_singleton, BitVec.ofNat_add, BitVec.add_assoc]
  · intro m hm
    rw [mem_append, mem_singleton, not_or] at hm
    show update b.mbufs mb buf m = _
    rw [update_of_ne hm.2, h.frame m hm.1]
  · intro c' hc
    show en.Prepared c'.count (update b.mbufs mb buf c'.m_src)
    rcases mem_append.mp hc with hc | hc
    · rw [update_of_ne (hne _ (mem_append_left _ (mem_map_of_mem hc)))]
      exact h.prepared c' hc
    · rw [mem_singleton.mp hc, hsrc, update_self, hcount]
      exact hprep
  · intro m hm
    show en.Left (mbufs m) (update b.mbufs mb buf m)
    rw [update_of_ne (hne m (mem_append_right _ hm))]
    exact h.left m hm

/-- The loop accounts for every packet it goes through. -/
theorem preProcessFrom_accounted (h : Accounted en mbufs tx_next done todo cop b)
    (hdistinct : (done ++ todo).Nodup) (hroom : ∀ mb ∈ todo, en.Roomy (mbufs mb))
    (hcop : cop.length = done.length + todo.length) (is_auth : Bool) :
    ∃ b', en.preProcessFrom en.packet is_auth cop todo.length done.length b = some b' ∧
      Accounted en mbufs tx_next (done ++ todo) [] cop b' := by
  induction todo generalizing done b with
  | nil =>
    rw [append_nil]
    exact ⟨b, rfl, h⟩
  | cons mb todo ih =>
    have hmb : mb ∉ done := fun hmem =>
      (nodup_append.mp hdistinct).2.2 mb hmem mb mem_cons_self rfl
    have hcop' : cop.length = (done ++ [mb]).length + todo.length := by
      rw [hcop, length_append, length_cons, length_singleton]
      omega
    have hlt : b.prep.length < cop.length := by
      have hsum := h.sum
      rw [hcop, length_cons]
      omega
    rw [append_cons] at hdistinct ⊢
    have hnext : done.length + 1 = (done ++ [mb]).length := by simp
    rw [length_cons, preProcessFrom, h.getD, h.frame mb hmb, hnext]
    rcases en.packet_spec b.tx_next (mbufs mb) with ⟨buf, hpacket, hleft⟩ | ⟨buf, hpacket, hframed⟩
    · simp only [hpacket]
      exact ih (h.error hmb hleft) hdistinct (fun m hm => hroom m (mem_cons_of_mem _ hm)) hcop'
    · obtain ⟨buf', c, hprepare, hprep, hop, hsrc, hcount⟩ := copPrepare_spec hframed
        (hroom mb mem_cons_self) (cop.getD b.prep.length 0) mb is_auth
      simp only [hpacket, hprepare]
      exact ih (h.prepare hmb hlt hprep hop hsrc hcount) hdistinct
        (fun m hm => hroom m (mem_cons_of_mem _ hm)) hcop'

/-! ## Bursts -/

/-- **Every packet of a burst is accounted for**, and what is to hold of those that are returned
with an error. -/
def Accounts (en : UlPriv) (tx_next : BitVec 32) (mbufs : ℕ → Buf) (in_mb : List ℕ)
    (alloc : Option (List ℕ)) (left : Buf → Buf → Prop) : Prop :=
  ∃ r, en.preProcess tx_next mbufs in_mb alloc = some r ∧
    r.prep.length + r.nb_err = in_mb.length ∧
    (r.prep.map Cop.m_src ++ r.in_mb.take r.nb_err).Perm in_mb ∧
    r.prep.map Cop.op ++ r.put = alloc.getD [] ∧
    r.prep.map Cop.count = (List.range r.prep.length).map (fun k => tx_next + BitVec.ofNat 32 k) ∧
    r.tx_next = tx_next + BitVec.ofNat 32 r.prep.length ∧
    (∀ c ∈ r.prep, ∃ sn, en.plane.rsn ((r.mbufs c.m_src).trim en.aadSz) = some sn ∧
      sn.toNat = c.count.toNat % 2 ^ en.plane.snSize.bits) ∧
    ∀ mb ∈ r.in_mb.take r.nb_err, left (mbufs mb) (r.mbufs mb)

/-- **The pre-process accounts for a burst** of distinct packets, of which those with an error
are as they were but for the room for a MAC-I or a header. If there are operations at all,
there are as many as packets. -/
theorem preProcess_accounts (en : UlPriv) (tx_next : BitVec 32) (mbufs : ℕ → Buf)
    (in_mb : List ℕ) (alloc : Option (List ℕ)) (hdistinct : in_mb.Nodup)
    (halloc : ∀ cop, alloc = some cop → cop.length = in_mb.length)
    (hroom : alloc ≠ none → ∀ mb ∈ in_mb, en.Roomy (mbufs mb)) :
    en.Accounts tx_next mbufs in_mb alloc en.Left := by
  rw [Accounts, preProcess_eq, preProcessBurst]
  cases alloc with
  | none =>
    refine ⟨_, rfl, by simp, by simp, rfl, rfl, by simp, by simp, fun mb _ => .inl rfl⟩
  | some cop =>
    have hlen := halloc cop rfl
    have hstart : Accounted en mbufs tx_next [] in_mb cop ⟨in_mb, mbufs, tx_next, [], 0⟩ :=
      ⟨rfl, by simp, rfl, by simp, rfl, rfl, by simp, fun _ _ => rfl, by simp, by simp⟩
    obtain ⟨b, hrun, hb⟩ := preProcessFrom_accounted hstart hdistinct (hroom (by simp))
      (by simpa using hlen) en.isAuthenticated
    rw [nil_append] at hb
    rw [length_nil] at hrun
    have hsum := hb.sum
    have herr : in_mb.length - b.prep.length = b.nb_err := by omega
    simp only [Option.getD_some, hlen, hrun]
    refine ⟨_, rfl, ?_⟩
    simp only [herr]
    refine ⟨hsum, hb.perm, ?_, hb.counts, hb.next, fun c hc => ?_, hb.left⟩
    · rw [hb.ops]
      split_ifs with hnone
      · exact take_append_drop _ _
      · rw [append_nil, take_of_length_le (by omega)]
    · obtain ⟨data, hdata⟩ := hb.prepared c hc
      exact ⟨_, en.plane.rsn_hdr c.count _ hdata, pdcpSnFromCountGet_toNat _ _⟩

end UlPriv

/-- An entity of the user plane with ZUC. -/
def uplaneZuc : UlPriv where
  plane := .uplaneSn12
  cipher_algo := .zuc
  auth_algo := some .zuc
  auth_iv_part := 0
  sdap_enabled := false
  authenticated := by decide

/-- Two packets of one byte; in front of the first there is no room for a header. -/
def twoBufs (mb : ℕ) : Buf :=
  ⟨List.replicate (if mb = 0 then 1 else 10) 0, [0x45], List.replicate 8 0⟩

/-- Of two packets one is prepared. -/
theorem UlPriv.preProcess_accounts_two :
    uplaneZuc.Accounts 5 twoBufs [0, 1] (some [7, 8]) uplaneZuc.Left :=
  UlPriv.preProcess_accounts uplaneZuc 5 twoBufs [0, 1] (some [7, 8]) (by decide)
    (fun _ h => by cases h; rfl) (fun _ _ _ h => absurd h (by decide))

/-- An entity of the user plane with AES-CMAC. -/
def uplaneAes : UlPriv := { uplaneZuc with auth_algo := some .aes, authenticated := by decide }

/-- A packet that has room for its header, and not for a message in front of it. -/
def headerRoom : Buf := ⟨List.replicate 4 0, [0x45], List.replicate 8 0⟩

/-- **A packet is returned with an error that is longer than it was**: there is room for the
MAC-I, but none for the header. With AES-CMAC nothing is returned if there is room for the
header alone: the message in front of it is copied to the null pointer. -/
theorem UlPriv.preProcess_changes_error :
    ¬ uplaneZuc.Accounts 5 twoBufs [0, 1] (some [7, 8]) (fun mb mb' => mb'.data = mb.data) ∧
    ∀ left, ¬ uplaneAes.Accounts 5 (fun _ => headerRoom) [0] (some [7]) left := by
  constructor
  · rintro ⟨r, hrun, -, -, -, -, -, -, hleft⟩
    have hout : (uplaneZuc.preProcess 5 twoBufs [0, 1] (some [7, 8])).map
        (fun r => (r.in_mb.take r.nb_err, (r.mbufs 0).data)) = some ([0], [0x45, 0, 0, 0, 0]) := by
      decide +kernel
    rw [hrun] at hout
    obtain ⟨herrors, hdata⟩ := Prod.mk.inj (Option.some.inj hout)
    have hunchanged : (r.mbufs 0).data = [0x45] :=
      hleft 0 (by rw [herrors]; exact mem_cons_self)
    rw [hdata] at hunchanged
    exact absurd hunchanged (by decide)
  · rintro left ⟨r, hrun, -⟩
    have hnone : (uplaneAes.preProcess 5 (fun _ => headerRoom) [0] (some [7])).isNone := by
      decide +kernel
    rw [hrun] at hnone
    cases hnone

end Pdcp
