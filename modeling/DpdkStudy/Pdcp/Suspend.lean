import DpdkStudy.Pdcp.Delivery

/-!
# A downlink entity is suspended

An entity that is suspended hands out what it has buffered, and starts again with
COUNT 0 (`rtePdcpEntitySuspend`). Its bitmap is not cleared: the bits of what was
buffered stay, and the packets that they stand for then are taken for duplicates
(`Keeps.differs_of_buffered`). Without these bits the entity does the same with
packets as one that has just been established (`Twins`), whatever its timer says.
-/

open List Option Nat

namespace Pdcp

open List (replicate)

variable {plane : Plane} {en' : DlEntity} {out : List (Option Reorder.Mbuf)} {r : ℕ}

/-- **`rte_pdcp_entity_suspend`** for a downlink entity: the packets it hands out. -/
def rtePdcpEntitySuspend (en : DlEntity) : Option (DlEntity × List (Option Reorder.Mbuf)) :=
  (Reorder.rteReorderDrainUpToSeqn en.reorder en.max_pkt_cache (UInt32.ofNat en.rx_next)).map
    fun r =>
      ({ en with
          reorder := r.2
          is_active := false
          rx_next := 0
          rx_deliv := 0 }, r.1)

variable {k g : ℕ} {en en₁ en₂ : DlEntity} {w : List (Option Reorder.Mbuf)} {mb : Reorder.Mbuf}
  {sys : DlSystem} {D F : List Reorder.Mbuf}

/-! ## What is handed out -/

theorem Keeps.orderEntries_eq (h : Keeps k en w) : en.reorder.orderEntries = w := by
  obtain ⟨rest, hshows⟩ := h.shows
  exact hshows.orderEntries_eq

theorem Keeps.eq_replicate (h : Keeps k en w) (hnone : w.reduceOption = []) :
    w = replicate (2 ^ k) none := by
  refine eq_replicate_iff.mpr ⟨h.length, fun x hx => ?_⟩
  cases x with
  | none => rfl
  | some m =>
    have hmem := reduceOption_mem_iff.mpr hx
    rw [hnone] at hmem
    exact absurd hmem not_mem_nil

/-- A drain of nothing leaves the slots as they are. -/
theorem drainUpToSeqn_none {b : Reorder.ReorderBuffer} {rest : List (Option Reorder.Mbuf)}
    (h : Reorder.Shows k b [] rest (replicate (2 ^ k) none)) (maxMbufs : ℕ) (seqn : UInt32) :
    ∃ b' rest', Reorder.rteReorderDrainUpToSeqn b maxMbufs seqn = some ([], b') ∧
      Reorder.Shows k b' [] rest' (replicate (2 ^ k) none) := by
  by_cases hbefore : seqn < b.minSeqn
  · refine ⟨b, rest, ?_, h⟩
    rw [Reorder.rteReorderDrainUpToSeqn, if_pos hbefore, if_pos]
    have hhead := h.ready.head_eq
    rw [length_nil, add_zero, mod_eq_of_lt h.ready.tail_lt] at hhead
    exact hhead.symm
  · obtain ⟨passed, w', b', hsplit, -, hdrain, hshows, -, -⟩ :=
      Reorder.rteReorderDrainUpToSeqn_window h maxMbufs hbefore
    have hnone : ∀ x ∈ passed ++ w', x = none := fun x hx => by
      rw [← hsplit] at hx
      exact eq_of_mem_replicate hx
    have hpassed : passed = replicate passed.length none := eq_replicate_iff.mpr
      ⟨rfl, fun x hx => hnone x (mem_append_left _ hx)⟩
    have hw' : w' = replicate w'.length none := eq_replicate_iff.mpr
      ⟨rfl, fun x hx => hnone x (mem_append_right _ hx)⟩
    have hlen := congrArg length hsplit
    rw [length_replicate, length_append] at hlen
    rw [take_nil, nil_append, hpassed, reduceOption_replicate_none] at hdrain
    rw [drop_nil, hw', replicate_append_replicate, add_comm, ← hlen] at hshows
    exact ⟨b', _, hdrain, hshows⟩

/-- What is buffered is handed out in the order of the COUNTs. -/
theorem Keeps.suspend (h : Keeps k en w) :
    ∃ en' rest, rtePdcpEntitySuspend en = some (en', w.reduceOption.map some) ∧
      Reorder.Shows k en'.reorder [] rest (replicate (2 ^ k) none) ∧
      en' = { en with
        reorder := en'.reorder
        is_active := false
        rx_next := 0
        rx_deliv := 0 } := by
  obtain ⟨rest, hshows⟩ := h.shows
  by_cases hnone : w.reduceOption = []
  · rw [h.eq_replicate hnone] at hshows
    obtain ⟨b', rest', hdrain, hshows'⟩ :=
      drainUpToSeqn_none hshows en.max_pkt_cache (UInt32.ofNat en.rx_next)
    refine ⟨_, rest', by rw [rtePdcpEntitySuspend, hdrain, hnone]; rfl, hshows', rfl⟩
  · obtain ⟨bits, -, hslots⟩ := h.slots
    obtain ⟨m, hm⟩ := exists_mem_of_ne_nil _ hnone
    have hin := hslots.of_mem hm
    have hactive : en.is_active = true := by
      by_contra hact
      have hall := h.inactive (Bool.eq_false_iff.mpr hact) _ (reduceOption_mem_iff.mp hm)
      cases hall
    obtain ⟨hinit, hmin⟩ := h.active hactive
    have hnext : (UInt32.ofNat en.rx_next).toNat = en.rx_next := by
      rw [UInt32.toNat_ofNat']
      exact mod_eq_of_lt h.next_lt
    have hle := h.next_le
    have hge : ¬ UInt32.ofNat en.rx_next < en.reorder.minSeqn := by
      rw [UInt32.lt_iff_toNat_lt, hnext, hmin]
      omega
    have hsub : (UInt32.ofNat en.rx_next - en.reorder.minSeqn).toNat =
        en.rx_next - en.rx_deliv := by
      rw [UInt32.toNat_sub_of_le _ _ (UInt32.not_lt.mp hge), hnext, hmin]
    -- all packets are in front of `RX_NEXT`
    have hbehind : (w.drop (en.rx_next - en.rx_deliv)).reduceOption = [] := by
      refine eq_nil_iff_forall_not_mem.mpr (fun x hx => ?_)
      obtain ⟨i, hi, hget⟩ := mem_iff_getElem.mp (reduceOption_mem_iff.mp hx)
      rw [getElem_drop] at hget
      have hin : en.rx_next - en.rx_deliv + i < w.length := by
        rw [length_drop] at hi
        omega
      have hnum := (hslots.number _ x (by rw [getElem?_eq_getElem hin, hget])).2
      omega
    have hall : (w.take (en.rx_next - en.rx_deliv)).reduceOption = w.reduceOption := by
      conv_rhs => rw [← take_append_drop (en.rx_next - en.rx_deliv) w,
        reduceOption_append, hbehind, append_nil]
    obtain ⟨b', rest', hdrain, hshows', -, -⟩ := Reorder.rteReorderDrainUpToSeqn_all hshows
      en.max_pkt_cache (UInt32.ofNat en.rx_next) hge (by rw [hsub]; omega)
      (by rw [hsub, hall, h.cache]; exact h.length_lt)
    rw [hsub, hall] at hdrain
    rw [hsub] at hshows'
    have hempty : w.drop (en.rx_next - en.rx_deliv) ++
        replicate (en.rx_next - en.rx_deliv) none = replicate (2 ^ k) none := by
      refine eq_replicate_iff.mpr ⟨?_, fun x hx => ?_⟩
      · rw [length_append, length_drop, length_replicate, h.length]
        omega
      · rcases mem_append.mp hx with hx | hx
        · cases x with
          | none => rfl
          | some m' =>
            have hmem := reduceOption_mem_iff.mpr hx
            rw [hbehind] at hmem
            exact absurd hmem not_mem_nil
        · exact eq_of_mem_replicate hx
    rw [hempty] at hshows'
    exact ⟨_, rest', by rw [rtePdcpEntitySuspend, hdrain]; rfl, hshows', rfl⟩

/-! ## The same from then on -/

/-- **Two entities with the same slots.** Their timers and the positions in their reorder
buffers may differ. -/
structure Twins (k : ℕ) (w : List (Option Reorder.Mbuf)) (en₁ en₂ : DlEntity) : Prop where
  left : Keeps k en₁ w
  right : Keeps k en₂ w
  rx_deliv : en₁.rx_deliv = en₂.rx_deliv
  plane : en₁.plane = en₂.plane

/-- **A packet that is accepted** moves the window in front of a COUNT that does not come. -/
theorem Keeps.gap_le (h : Keeps k en w) (hle : en.rx_deliv ≤ mb.seqn.toNat)
    (hlt : mb.seqn.toNat < en.rx_deliv + 2 ^ k) (hg : en.rx_deliv ≤ g)
    (hslot : w[mb.seqn.toNat - en.rx_deliv]? = some none)
    (hgap : ∀ m ∈ w.reduceOption, m.seqn.toNat ≠ g) (hne : mb.seqn.toNat ≠ g)
    {v : List (Option Reorder.Mbuf)} (hv : v = w.set (mb.seqn.toNat - en.rx_deliv) (some mb)) :
    en.rx_deliv + (v.takeWhile isSome).length ≤ g ∧
      ∀ m ∈ (behind v).reduceOption, m.seqn.toNat ≠ g := by
  obtain ⟨bits, -, hslots⟩ := h.slots
  have hset := hslots.note hle hlt
  rw [← hv] at hset
  have hperm : v.reduceOption.Perm (mb :: w.reduceOption) := by
    rw [hv]
    exact reduceOption_set hslot mb
  have hvgap : ∀ m ∈ v.reduceOption, m.seqn.toNat ≠ g := by
    intro m hm
    rcases mem_cons.mp (hperm.mem_iff.mp hm) with rfl | hm
    · exact hne
    · exact hgap m hm
  refine ⟨hset.front_le hg hvgap, fun m hm => hvgap m ?_⟩
  rw [reduceOption_split v (v.takeWhile isSome).length]
  exact mem_append_right _ hm

/-- One packet of a batch is treated the same by twins. -/
theorem Twins.packet {p : Post} (ht : Twins k w en₁ p.en) {mb : Reorder.Mbuf × Bool}
    (hlt : mb.1.seqn.toNat < p.en.rx_deliv + 2 ^ k) (hmax : mb.1.seqn.toNat + 1 < word32)
    (hle : p.en.rx_deliv ≤ g) (hg : g < p.en.rx_deliv + word16)
    (hgap : ∀ m ∈ w.reduceOption, m.seqn.toNat ≠ g) (hne : mb.2 = false → mb.1.seqn.toNat ≠ g) :
    ∃ p' en₁' w', p.packet mb = some p' ∧
      { p with en := en₁ }.packet mb = some { p' with en := en₁' } ∧ Twins k w' en₁' p'.en ∧
      p.en.rx_deliv ≤ p'.en.rx_deliv ∧ p'.en.rx_deliv ≤ g ∧
      ∀ m ∈ w'.reduceOption, m.seqn.toNat ≠ g := by
  obtain ⟨mb, failed⟩ := mb
  simp only [Post.packet]
  cases failed with
  | true => exact ⟨_, en₁, w, if_pos rfl, if_pos rfl, ht, le_rfl, hle, hgap⟩
  | false =>
    simp only [Bool.false_eq_true, if_false] at hlt hmax ⊢
    have hdeliv := ht.rx_deliv
    by_cases hcame : mb.seqn.toNat < p.en.rx_deliv ∨
        w[mb.seqn.toNat - p.en.rx_deliv]? ≠ some none
    · obtain ⟨err₂, hrefuse₂⟩ := ht.right.refuse hmax hlt hcame
      obtain ⟨err₁, hrefuse₁⟩ := ht.left.refuse hmax (hdeliv ▸ hlt) (hdeliv ▸ hcame)
      rw [hrefuse₁, hrefuse₂]
      exact ⟨_, en₁, w, rfl, rfl, ht, le_rfl, hle, hgap⟩
    · rw [not_or, not_not, not_lt] at hcame
      obtain ⟨hge, hslot⟩ := hcame
      obtain ⟨v, hv⟩ : ∃ v, v = w.set (mb.seqn.toNat - p.en.rx_deliv) (some mb) := ⟨_, rfl⟩
      obtain ⟨hfront, hgap'⟩ := ht.right.gap_le hge hlt hle hslot hgap (hne rfl) hv
      have hcount : (v.takeWhile isSome).length < word16 := by omega
      obtain ⟨en₂', hpost₂, he₂⟩ := ht.right.enter hge hlt hmax hslot hv hcount
      obtain ⟨en₁', hpost₁, he₁⟩ := ht.left.enter (hdeliv ▸ hge) (hdeliv ▸ hlt) hmax
        (hdeliv ▸ hslot) (hdeliv ▸ hv) hcount
      obtain ⟨hkeeps₂, hd₂, hp₂⟩ := he₂.keeps.timerUpdate_keeps he₂.deliv_le
      obtain ⟨hkeeps₁, hd₁, hp₁⟩ := he₁.keeps.timerUpdate_keeps he₁.deliv_le
      have hmoved : en₂'.timerUpdate.rx_deliv =
          p.en.rx_deliv + (v.takeWhile isSome).length := hd₂.trans he₂.rx_deliv
      rw [hpost₁, hpost₂]
      refine ⟨_, en₁'.timerUpdate, behind v, rfl, rfl, ⟨hkeeps₁, hkeeps₂, ?_, ?_⟩, ?_, ?_, hgap'⟩
      · change en₁'.timerUpdate.rx_deliv = en₂'.timerUpdate.rx_deliv
        rw [hmoved, hd₁, he₁.rx_deliv, hdeliv]
      · change en₁'.timerUpdate.plane = en₂'.timerUpdate.plane
        rw [hp₁, hp₂, he₁.plane, he₂.plane, ht.plane]
      · exact (le_add_right _ _).trans_eq hmoved.symm
      · exact hmoved.trans_le hfront

/-- The packets of a batch are treated the same by twins. -/
theorem Twins.packets {p : Post} (ht : Twins k w en₁ p.en) {in_mb : List (Reorder.Mbuf × Bool)}
    (hlt : ∀ mb ∈ in_mb, mb.1.seqn.toNat < p.en.rx_deliv + 2 ^ k ∧ mb.1.seqn.toNat + 1 < word32)
    (hle : p.en.rx_deliv ≤ g) (hg : g < p.en.rx_deliv + word16)
    (hgap : ∀ m ∈ w.reduceOption, m.seqn.toNat ≠ g)
    (hne : ∀ mb ∈ in_mb, mb.2 = false → mb.1.seqn.toNat ≠ g) :
    ∃ p' en₁' w', p.packets in_mb = some p' ∧
      { p with en := en₁ }.packets in_mb = some { p' with en := en₁' } ∧
      Twins k w' en₁' p'.en := by
  induction in_mb generalizing p en₁ w with
  | nil => exact ⟨p, en₁, w, rfl, rfl, ht⟩
  | cons mb in_mb ih =>
    obtain ⟨hmb, hmax⟩ := hlt mb mem_cons_self
    obtain ⟨p', en₁', w', hpacket, hpacket₁, ht', hmoved, hle', hgap'⟩ :=
      ht.packet hmb hmax hle hg hgap (hne mb mem_cons_self)
    simp only [Post.packets, hpacket, hpacket₁, bind_some]
    refine ih ht' (fun m hm => ?_) hle' (hg.trans_le (Nat.add_le_add_right hmoved _)) hgap'
      (fun m hm => hne m (mem_cons_of_mem _ hm))
    obtain ⟨hin, hmax'⟩ := hlt m (mem_cons_of_mem _ hm)
    exact ⟨hin.trans_le (Nat.add_le_add_right hmoved _), hmax'⟩

/-- **A packet has come**, and not a timer that expires. -/
def Received : DlEvent → Prop
  | .expiry => False
  | _ => True

/-- An event does the same to twins. -/
theorem Twins.step (ht : Twins k w en₁ sys.en) (hi : Inv k sys w D F) {e : DlEvent}
    (hlegal : Legal sys e) (hfits : Fits sys e) (he : Received e) :
    ∃ sys' en₁' w' D' F', dlStep sys e = some sys' ∧
      dlStep { sys with en := en₁ } e = some { sys' with en := en₁' } ∧
      Twins k w' en₁' sys'.en ∧ Inv k sys' w' D' F' := by
  obtain ⟨sys', w', D', F', hstep, hi', -⟩ := hi.step hlegal hfits
  cases e with
  | expiry => exact he.elim
  | pre in_mb =>
    obtain rfl := some.inj hstep
    rw [← hi'.keeps.orderEntries_eq, hi.keeps.orderEntries_eq] at hi'
    refine ⟨_, en₁, w, D', F', rfl, ?_, ht, hi'⟩
    simp only [dlStep, ht.plane, ht.rx_deliv]
  | post in_mb =>
    obtain ⟨g, hle, hlt, hgap, hne⟩ := hi.gap hlegal hfits
    obtain ⟨p', en₁', w'', hpackets, hpackets₁, ht'⟩ :=
      Twins.packets (p := ⟨sys.en, [], [], []⟩) ht
        (fun mb hmb => hi.pending _ (hlegal.2.subset (mem_map_of_mem hmb))) hle hlt hgap hne
    have hpost : pdcpPostProcessDl sys.en in_mb = some
        ⟨p'.en, (p'.out ++ p'.err.map some).take (p'.out.length % word16),
          ((p'.out ++ p'.err.map some).drop (p'.out.length % word16)).take
            (p'.err.length % word16), p'.accepted⟩ := by
      rw [pdcpPostProcessDl, hpackets, map_some]
    have hpost₁ : pdcpPostProcessDl en₁ in_mb = some
        ⟨en₁', (p'.out ++ p'.err.map some).take (p'.out.length % word16),
          ((p'.out ++ p'.err.map some).drop (p'.out.length % word16)).take
            (p'.err.length % word16), p'.accepted⟩ := by
      rw [pdcpPostProcessDl]
      exact congrArg (Option.map _) hpackets₁
    rw [dlStep, hpost, map_some] at hstep
    obtain rfl := some.inj hstep
    rw [← hi'.keeps.orderEntries_eq, show _ = w'' from ht'.right.orderEntries_eq] at hi'
    exact ⟨_, en₁', w'', D', F', by rw [dlStep, hpost]; rfl, by rw [dlStep, hpost₁]; rfl, ht', hi'⟩

/-- A run does the same to twins. -/
theorem Twins.run {es : List DlEvent} (ht : Twins k w en₁ sys.en) (hi : Inv k sys w D F)
    (hes : Runs.AlongOption dlStep (fun sys e => Legal sys e ∧ Fits sys e ∧ Received e) sys es) :
    ∃ sys' en₁', Runs.runOption dlStep sys es = some sys' ∧
      Runs.runOption dlStep { sys with en := en₁ } es = some { sys' with en := en₁' } := by
  induction es generalizing sys en₁ w D F with
  | nil => exact ⟨sys, en₁, rfl, rfl⟩
  | cons e es ih =>
    obtain ⟨⟨hlegal, hfits, he⟩, hrest⟩ := hes
    obtain ⟨sys', en₁', w', D', F', hstep, hstep₁, ht', hi'⟩ := ht.step hi hlegal hfits he
    simp only [Runs.runOption, hstep, hstep₁, bind_some]
    exact ih ht' hi' (hrest sys' hstep)

/-! ## A new start -/

/-- **What a run is trusted to count.** Out of order no packet is held up. -/
def Counts (sys : DlSystem) (e : DlEvent) : Prop :=
  sys.en.is_out_of_order_delivery = true ∨ Fits sys e

/-- **An entity acts as one that has just been established** with COUNT 0: whatever packets
come, the same are delivered, and the same are errors. -/
def ActsFresh (en : DlEntity) : Prop :=
  ∀ mem fresh,
    rtePdcpEntityEstablish en.plane en.is_out_of_order_delivery 0 0 mem = some fresh →
    ∀ es, Runs.AlongOption dlStep (fun sys e => Legal sys e ∧ Counts sys e ∧ Received e)
        (DlSystem.start fresh) es →
      ∃ sys₁ sys₂, Runs.runOption dlStep (DlSystem.start en) es = some sys₁ ∧
        Runs.runOption dlStep (DlSystem.start fresh) es = some sys₂ ∧
        sys₁.delivered = sys₂.delivered ∧ sys₁.failed = sys₂.failed ∧
        sys₁.rejected = sys₂.rejected

/-- **What a suspension is for.** What is buffered is handed out in the order of the COUNTs,
and the entity starts anew. -/
def SuspendOk (en : DlEntity) : Prop :=
  ∃ en', rtePdcpEntitySuspend en = some (en', en.buffered.map some) ∧
    en.buffered.Pairwise (fun a b => a.seqn.toNat < b.seqn.toNat) ∧ ActsFresh en'

theorem establish_zero {ooo : Bool} {mem : ℕ} {en : DlEntity}
    (hen : rtePdcpEntityEstablish plane ooo 0 0 mem = some en) :
    en.plane = plane ∧ en.rx_deliv = 0 := by
  obtain ⟨bmp, -, rfl⟩ := map_eq_some_iff.mp hen
  cases plane <;> exact ⟨rfl, rfl⟩

theorem exists_fresh (plane : Plane) (ooo : Bool) :
    ∃ mem fresh, rtePdcpEntityEstablish plane ooo 0 0 mem = some fresh := by
  have hsome : (rtePdcpEntityEstablish plane ooo 0 0 64).isSome = true := by
    rw [rtePdcpEntityEstablish, isSome_map]
    cases plane <;> decide
  exact ⟨64, isSome_iff_exists.mp hsome⟩

/-- **Slots that are empty** have no bits, so that they are empty from COUNT 0 on. -/
theorem Slots.restart {W d next : ℕ} {bits : Set ℕ} (h : Slots W d bits next w)
    (hnone : ∀ x ∈ w, x = none) : Slots W 0 bits 0 w := by
  refine ⟨h.length, fun i hi => ?_, fun i mb hget => ?_⟩
  · have hslot : ¬ ∃ mb, w[i]? = some (some mb) := fun ⟨mb, hget⟩ =>
      absurd (hnone _ (mem_of_getElem? hget)) nofun
    refine iff_of_false (fun hbit => ?_) hslot
    -- the COUNT of the window with the same bit
    obtain ⟨j, hj⟩ : ∃ j, j = (i + W - d % W) % W := ⟨_, rfl⟩
    have hlt : j < W := hj ▸ mod_lt _ (by omega)
    have hd := mod_lt d (show 0 < W by omega)
    have hsame : (d + j) % W = (0 + i) % W := by
      rw [hj, add_mod_mod, ← mod_add_mod,
        show d % W + (i + W - d % W) = i + W by omega, add_mod_right, zero_add]
    rw [← hsame] at hbit
    obtain ⟨mb, hget⟩ := (h.bit j hlt).mp hbit
    exact absurd (hnone _ (mem_of_getElem? hget)) nofun
  · exact absurd (hnone _ (mem_of_getElem? hget)) nofun

/-- **An entity that has nothing buffered** has its slots empty when it is suspended. -/
theorem Keeps.restart (h : Keeps k en w) (hnone : w.reduceOption = [])
    (hen' : rtePdcpEntitySuspend en = some (en', out)) :
    Keeps k en' w := by
  obtain ⟨en₁, rest, hsuspend, hshows, hen₁⟩ := h.suspend
  obtain ⟨rfl, -⟩ := Prod.mk.inj (some.inj (hen'.symm.trans hsuspend))
  have hw := h.eq_replicate hnone
  have hall : ∀ x ∈ w, x = none := fun x hx => by
    rw [hw] at hx
    exact eq_of_mem_replicate hx
  obtain ⟨bits, hbits, hslots⟩ := h.slots
  rw [← hw] at hshows
  rw [hen₁]
  exact ⟨h.small, h.cache, h.size, h.inOrder, ⟨rest, hshows⟩, ⟨bits, hbits, hslots.restart hall⟩,
    h.first, nofun, fun _ => hall, Nat.two_pow_pos 32, Nat.zero_le _⟩

theorem Inv.eq_bits (hi : Inv k sys w D F) : k = sys.en.plane.snSize.bits - 1 :=
  Nat.pow_right_injective (le_refl 2)
    (hi.window.symm.trans (pdcpWindowSizeGet_toNat sys.en.plane.snSize))

/-- Packets in order are counted right if they fit. -/
theorem Inv.along {Ok Ok' : DlSystem → DlEvent → Prop} (hi : Inv k sys w D F)
    (hOk : ∀ sys e, Ok sys e → Legal sys e ∧ Counts sys e)
    (hOk' : ∀ sys e, Ok sys e → Fits sys e → Ok' sys e) {es : List DlEvent}
    (hes : Runs.AlongOption dlStep Ok sys es) : Runs.AlongOption dlStep Ok' sys es := by
  refine hes.imp_of_invariant (P := fun sys => ∃ w D F, Inv k sys w D F)
    (fun s e ⟨w, D, F, hs⟩ hok => ?_) ⟨w, D, F, hi⟩
  obtain ⟨hlegal, hcounts⟩ := hOk s e hok
  have hfits := hcounts.resolve_left (by simp [hs.keeps.inOrder])
  refine ⟨hOk' s e hok hfits, fun s' hs' => ?_⟩
  obtain ⟨s₁, w₁, D₁, F₁, hstep, hs₁, -⟩ := hs.step hlegal hfits
  obtain rfl := some.inj (hstep.symm.trans hs')
  exact ⟨w₁, D₁, F₁, hs₁⟩

/-- **An entity that has nothing buffered starts anew** when it is suspended. -/
theorem Inv.actsFresh (hi : Inv k sys w D F) (hnone : w.reduceOption = [])
    (hen' : rtePdcpEntitySuspend sys.en = some (en', out)) :
    ActsFresh en' := by
  intro mem fresh hfresh es hes
  obtain ⟨en₁, rest, hsuspend, -, hen₁⟩ := hi.keeps.suspend
  obtain ⟨rfl, -⟩ := Prod.mk.inj (some.inj (hen'.symm.trans hsuspend))
  have hplane : en'.plane = sys.en.plane := by rw [hen₁]
  have hooo : en'.is_out_of_order_delivery = false := by
    rw [hen₁]
    exact hi.keeps.inOrder
  rw [hooo, hplane] at hfresh
  have hstart := Inv.start hfresh
  rw [← hi.eq_bits] at hstart
  have hleft := hi.keeps.restart hnone hen'
  rw [hi.keeps.eq_replicate hnone] at hleft
  obtain ⟨hfplane, hdeliv⟩ := establish_zero hfresh
  have htwins : Twins k (replicate (2 ^ k) none) en' (DlSystem.start fresh).en := by
    refine ⟨hleft, hstart.keeps, ?_, hplane.trans hfplane.symm⟩
    rw [hen₁]
    exact hdeliv.symm
  have hes' : Runs.AlongOption dlStep (fun sys e => Legal sys e ∧ Fits sys e ∧ Received e)
      (DlSystem.start fresh) es := hstart.along (fun _ _ hok => ⟨hok.1, hok.2.1⟩)
    (fun _ _ hok hfits => ⟨hok.1, hfits, hok.2.2⟩) hes
  obtain ⟨sys', en₁', hrun, hrun₁⟩ := htwins.run hstart hes'
  exact ⟨_, sys', hrun₁, hrun, rfl, rfl, rfl⟩

/-! ## The bits that stay -/

/-- **A packet with a COUNT of the first window**, as it is sent to an entity that starts
at 0. -/
def onePdu (plane : Plane) (r : ℕ) : List DlEvent :=
  [.pre [(0, ⟨0, plane.hdr (BitVec.ofNat 32 r), 0⟩)], .post [(⟨0, UInt32.ofNat r⟩, false)]]

/-- The COUNT of the packet is found by an entity that starts at 0. -/
theorem countGet_onePdu (hr : r < (pdcpWindowSizeGet plane.snSize).toNat) :
    countGet plane 0 [(0, ⟨0, plane.hdr (BitVec.ofNat 32 r), 0⟩)] =
      ([⟨0, UInt32.ofNat r⟩], []) := by
  have hlt : r < 2 ^ 32 := hr.trans (BitVec.isLt _)
  have hwin : InWindow plane.snSize (BitVec.ofNat 32 0) ((BitVec.ofNat 32 r).toNat : ℤ) := by
    rw [InWindow, BitVec.toNat_ofNat, BitVec.toNat_ofNat, mod_eq_of_lt hlt]
    constructor
    · simp
    · simpa using hr
  rw [countGet, Plane.dlPacket_hdr (append_nil _).symm hwin]
  rfl

/-- The run of one packet, as its post-process goes. -/
theorem run_onePdu {en : DlEntity} (hdeliv : en.rx_deliv = 0)
    (hr : r < (pdcpWindowSizeGet en.plane.snSize).toNat) :
    (Runs.runOption dlStep (DlSystem.start en) (onePdu en.plane r)).map DlSystem.failed =
      (pdcpPostProcessUpdateEntityState en ⟨0, UInt32.ofNat r⟩).map fun res =>
        match res.2 with
        | .error _ => [some ⟨0, UInt32.ofNat r⟩]
        | .ok (_, _) => [] := by
  have hpre : dlStep (DlSystem.start en) (.pre [(0, ⟨0, en.plane.hdr (BitVec.ofNat 32 r), 0⟩)]) =
      some { DlSystem.start en with
        pending := [⟨0, UInt32.ofNat r⟩]
        offered := [0] } := by
    simp only [dlStep, DlSystem.start, hdeliv, countGet_onePdu hr]
    rfl
  rw [onePdu, Runs.runOption, hpre, bind_some]
  simp only [Runs.runOption, dlStep, pdcpPostProcessDl, Post.packets, Post.packet,
    Bool.false_eq_true, if_false]
  cases hpost : pdcpPostProcessUpdateEntityState en ⟨0, UInt32.ofNat r⟩ with
  | none => simp [DlSystem.start, hpost]
  | some res =>
    obtain ⟨en', res⟩ := res
    cases res with
    | error e => simp [DlSystem.start, hpost, word16]
    | ok out =>
      obtain ⟨out, processed⟩ := out
      simp [DlSystem.start, hpost, word16]

/-- **An entity that has been established accepts** each packet of the first window. -/
theorem fresh_onePdu {mem : ℕ} {fresh : DlEntity}
    (hfresh : rtePdcpEntityEstablish plane false 0 0 mem = some fresh)
    (hr : r < (pdcpWindowSizeGet plane.snSize).toNat) :
    Runs.AlongOption dlStep (fun sys e => Legal sys e ∧ Counts sys e ∧ Received e)
        (DlSystem.start fresh) (onePdu plane r) ∧
      (Runs.runOption dlStep (DlSystem.start fresh) (onePdu plane r)).map DlSystem.failed =
        some [] := by
  have hinv := Inv.start hfresh
  obtain ⟨hplane, hdeliv⟩ := establish_zero hfresh
  have hlt := hr
  rw [pdcpWindowSizeGet_toNat] at hlt
  have hsmall := Nat.pow_le_pow_right Nat.two_pos hinv.keeps.small
  have hto : (UInt32.ofNat r).toNat = r := by
    rw [UInt32.toNat_ofNat']
    exact mod_eq_of_lt (by omega)
  obtain ⟨mb, hmb⟩ : ∃ mb : Reorder.Mbuf, mb = ⟨0, UInt32.ofNat r⟩ := ⟨_, rfl⟩
  have hseqn : mb.seqn.toNat = r := by rw [hmb, hto]
  -- a COUNT that does not come
  obtain ⟨g, hg⟩ : ∃ g, g = if r = 0 then 1 else 0 := ⟨_, rfl⟩
  have hne : r ≠ g := by
    rw [hg]
    split_ifs <;> omega
  have hgap : g < word16 := by
    rw [hg]
    split_ifs <;> decide
  constructor
  · have hcount : countGet fresh.plane fresh.rx_deliv
        [(0, ⟨0, plane.hdr (BitVec.ofNat 32 r), 0⟩)] = ([mb], []) := by
      rw [hdeliv, hplane, hmb]
      exact countGet_onePdu hr
    refine ⟨⟨fun m hm => ?_, .inr trivial, trivial⟩, fun s' hs' => ⟨⟨⟨?_, ?_⟩, .inr ?_, trivial⟩,
      fun _ _ => trivial⟩⟩
    · simp only [DlSystem.start, hcount] at hm
      rw [mem_singleton.mp hm, hseqn]
      exact lt_of_le_of_lt (succ_le_of_lt hlt) (hsmall.trans_lt (by decide))
    · exact (by decide : 1 < word16)
    · obtain rfl := some.inj hs'
      simp only [DlSystem.start, hcount, ← hmb]
      exact List.Subperm.refl _
    · obtain rfl := some.inj hs'
      refine .inr ⟨g, hdeliv.trans_le (zero_le g), ?_, fun m hm => ?_, fun m hm _ => ?_⟩
      · exact hgap.trans_le (le_add_left _ _)
      · rw [show DlEntity.buffered _ = _ from hinv.keeps.buffered_eq,
          reduceOption_replicate_none] at hm
        exact absurd hm not_mem_nil
      · rw [mem_singleton.mp hm, hto]
        exact hne
  · have hle : (DlSystem.start fresh).en.rx_deliv ≤ mb.seqn.toNat :=
      hdeliv.trans_le (zero_le _)
    have hin : mb.seqn.toNat <
        (DlSystem.start fresh).en.rx_deliv + 2 ^ (plane.snSize.bits - 1) :=
      hseqn.trans_lt (hlt.trans_le (le_add_left _ _))
    have hslot : (replicate (2 ^ (plane.snSize.bits - 1)) (none : Option Reorder.Mbuf))[
        mb.seqn.toNat - (DlSystem.start fresh).en.rx_deliv]? = some none := by
      refine getElem?_replicate_of_lt ?_
      omega
    obtain ⟨hfront, -⟩ := hinv.keeps.gap_le hle hin (hdeliv.trans_le (zero_le g)) hslot
      (by rw [reduceOption_replicate_none]; nofun) (hseqn ▸ hne) rfl
    obtain ⟨en', hpost, -⟩ := hinv.keeps.enter hle hin (by
      rw [hseqn]
      exact lt_of_le_of_lt (succ_le_of_lt hlt) (hsmall.trans_lt (by decide))) hslot rfl
      (lt_of_le_of_lt (le_add_left _ _) (hfront.trans_lt hgap))
    have hrun := run_onePdu hdeliv (hplane.symm ▸ hr)
    rw [hplane, ← hmb, show pdcpPostProcessUpdateEntityState fresh mb = _ from hpost] at hrun
    exact hrun

/-- **A packet that was buffered leaves its bit**, and the packet that has the bit next is
taken for a duplicate. -/
theorem Inv.differs (hi : Inv k sys w D F) (hmb : mb ∈ w.reduceOption)
    (hen' : rtePdcpEntitySuspend sys.en = some (en', out)) :
    ¬ ActsFresh en' := by
  intro hacts
  obtain ⟨en₁, rest, hsuspend, -, hen₁⟩ := hi.keeps.suspend
  obtain ⟨rfl, -⟩ := Prod.mk.inj (some.inj (hen'.symm.trans hsuspend))
  have hplane : en'.plane = sys.en.plane := by rw [hen₁]
  have hooo : en'.is_out_of_order_delivery = false := by
    rw [hen₁]
    exact hi.keeps.inOrder
  obtain ⟨r, hr⟩ : ∃ r, r = mb.seqn.toNat % 2 ^ k := ⟨_, rfl⟩
  have hlt : r < 2 ^ k := hr ▸ Nat.mod_lt _ (Nat.two_pow_pos k)
  have hwindow : r < (pdcpWindowSizeGet sys.en.plane.snSize).toNat := hi.window ▸ hlt
  have hsmall := Nat.pow_le_pow_right Nat.two_pos hi.keeps.small
  have hto : (UInt32.ofNat r).toNat = r := by
    rw [UInt32.toNat_ofNat']
    exact mod_eq_of_lt (by omega)
  -- the bit is set
  obtain ⟨err, hpost⟩ : ∃ err, pdcpPostProcessUpdateEntityState en' ⟨0, UInt32.ofNat r⟩ =
      some (err, .error (-eexist)) := by
    obtain ⟨bits, hbits, hslots⟩ := hi.keeps.slots
    obtain ⟨slab, hget, hslab⟩ := hbits.get hlt
    have hin := hslots.of_mem hmb
    have hsum : sys.en.rx_deliv + (mb.seqn.toNat - sys.en.rx_deliv) = mb.seqn.toNat := by omega
    have hbit := (hslots.bit (mb.seqn.toNat - sys.en.rx_deliv) (by omega)).mpr
      ((hslots.mem_iff _).mpr ⟨mb, hmb, hsum.symm⟩)
    rw [hsum, ← hr] at hbit
    rw [pdcpPostProcessUpdateEntityState, hen₁]
    simp only [not_lt_zero, if_false, zero_le, if_true, hto, hi.keeps.size,
      mod_eq_of_lt hlt, hget, bind_some, if_pos (hslab.mpr hbit)]
    exact ⟨_, rfl⟩
  have hrun := run_onePdu (by rw [hen₁]) (hplane ▸ hwindow)
  rw [hpost, hplane] at hrun
  -- an entity that has been established accepts the packet
  obtain ⟨mem, fresh, hfresh⟩ := exists_fresh en'.plane en'.is_out_of_order_delivery
  have hstart := hfresh
  rw [hooo, hplane] at hstart
  obtain ⟨hes, hfailed⟩ := fresh_onePdu hstart hwindow
  obtain ⟨sys₁, sys₂, hs₁, hs₂, -, hsame, -⟩ := hacts mem fresh hfresh _ hes
  rw [hs₁] at hrun
  rw [hs₂] at hfailed
  have h₁ := some.inj hrun
  rw [hsame, some.inj hfailed] at h₁
  cases h₁

/-- **The suspension of an entity that delivers in order** is what it should be exactly when
nothing is buffered. -/
theorem Inv.suspendOk_iff (hi : Inv k sys w D F) : SuspendOk sys.en ↔ sys.en.buffered = [] := by
  have hbuffered := hi.keeps.buffered_eq
  obtain ⟨en', rest, hsuspend, -, -⟩ := hi.keeps.suspend
  constructor
  · rintro ⟨en₁, hen₁, -, hacts⟩
    by_contra hne
    rw [hbuffered] at hne
    obtain ⟨mb, hmb⟩ := exists_mem_of_ne_nil _ hne
    exact hi.differs hmb hen₁ hacts
  · intro hnone
    obtain ⟨bits, -, hslots⟩ := hi.keeps.slots
    rw [← hbuffered] at hsuspend
    refine ⟨en', hsuspend, ?_, hi.actsFresh (hbuffered ▸ hnone) hsuspend⟩
    rw [hbuffered]
    exact hslots.pairwise

end Pdcp
