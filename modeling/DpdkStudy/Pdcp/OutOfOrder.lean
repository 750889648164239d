import DpdkStudy.Pdcp.Suspend

/-!
# Out-of-order delivery

With `out_of_order_delivery` a packet is delivered when it comes, and `RX_DELIV` is set
behind it. So the bit of its COUNT is cleared as soon as it has been set, and a packet with
a lower COUNT is no longer waited for (`openPass`). A packet is to be delivered on its first
arrival, whatever has come before (`firstPass`). The two agree exactly when no packet
overtakes another (`Rising`).
-/

open List Option

namespace Pdcp

open List (replicate)

variable {k d : ℕ} {en : DlEntity} {mb : Reorder.Mbuf} {sys : DlSystem}
  {seen : List ℕ} {l l' : List (Reorder.Mbuf × Bool)}

/-! ## What is delivered -/

/-- **First arrivals**: what is to be delivered, and what is an error. -/
def firstPass : List ℕ → List (Reorder.Mbuf × Bool) → List Reorder.Mbuf × List Reorder.Mbuf
  | _, [] => ([], [])
  | seen, (mb, failed) :: l =>
    if failed ∨ mb.seqn.toNat ∈ seen then
      ((firstPass seen l).1, mb :: (firstPass seen l).2)
    else (mb :: (firstPass (mb.seqn.toNat :: seen) l).1, (firstPass (mb.seqn.toNat :: seen) l).2)

/-- **What an entity delivers** from a COUNT on, and what it returns as an error. -/
def openPass : ℕ → List (Reorder.Mbuf × Bool) → List Reorder.Mbuf × List Reorder.Mbuf
  | _, [] => ([], [])
  | d, (mb, failed) :: l =>
    if failed ∨ mb.seqn.toNat < d then ((openPass d l).1, mb :: (openPass d l).2)
    else (mb :: (openPass (mb.seqn.toNat + 1) l).1, (openPass (mb.seqn.toNat + 1) l).2)

/-- `RX_DELIV` behind some packets. -/
def openEnd : ℕ → List (Reorder.Mbuf × Bool) → ℕ
  | d, [] => d
  | d, (mb, failed) :: l =>
    if failed ∨ mb.seqn.toNat < d then openEnd d l else openEnd (mb.seqn.toNat + 1) l

/-- **No packet overtakes another**: one that the crypto device has not failed is a
repetition, or has a COUNT behind all that have come. -/
def Rising : List ℕ → ℕ → List (Reorder.Mbuf × Bool) → Prop
  | _, _, [] => True
  | seen, d, (mb, failed) :: l =>
    if failed ∨ mb.seqn.toNat ∈ seen then Rising seen d l
    else d ≤ mb.seqn.toNat ∧ Rising (mb.seqn.toNat :: seen) (mb.seqn.toNat + 1) l

theorem openPass_ge : ∀ mb ∈ (openPass d l).1, d ≤ mb.seqn.toNat := by
  induction l generalizing d with
  | nil => nofun
  | cons p l ih =>
    obtain ⟨m, failed⟩ := p
    intro mb hmb
    rw [openPass] at hmb
    by_cases hold : failed ∨ m.seqn.toNat < d
    · rw [if_pos hold] at hmb
      exact ih mb hmb
    · rw [if_neg hold] at hmb
      have hle := Nat.not_lt.mp (not_or.mp hold).2
      rcases mem_cons.mp hmb with rfl | hmb
      · exact hle
      · exact hle.trans ((Nat.le_succ _).trans (ih mb hmb))

/-- **First arrivals are delivered** exactly when no packet overtakes another. -/
theorem openPass_eq_iff (hseen : ∀ c ∈ seen, c < d) :
    openPass d l = firstPass seen l ↔ Rising seen d l := by
  induction l generalizing d seen with
  | nil => exact iff_of_true rfl trivial
  | cons p l ih =>
    obtain ⟨mb, failed⟩ := p
    rw [openPass, firstPass, Rising]
    by_cases hseen' : failed ∨ mb.seqn.toNat ∈ seen
    · have hold : failed ∨ mb.seqn.toNat < d := hseen'.imp_right (hseen _)
      rw [if_pos hseen', if_pos hold, if_pos hseen', ← ih hseen, Prod.mk.injEq,
        cons_inj_right, ← Prod.ext_iff]
    · rw [if_neg hseen', if_neg hseen']
      have hok := (not_or.mp hseen').1
      by_cases hold : mb.seqn.toNat < d
      · rw [if_pos (.inr hold)]
        refine iff_of_false (fun heq => ?_) (fun hrising => Nat.not_lt.mpr hrising.1 hold)
        -- the packet is delivered by the one, and is old for the other
        have hmem : mb ∈ (openPass d l).1 := by
          rw [(Prod.mk.inj heq).1]
          exact mem_cons_self
        exact Nat.not_lt.mpr (openPass_ge mb hmem) hold
      · rw [if_neg (not_or.mpr ⟨hok, hold⟩), Prod.mk.injEq, cons_inj_right, ← Prod.ext_iff,
          and_iff_right (Nat.not_lt.mp hold)]
        refine ih (fun c hc => ?_)
        rcases mem_cons.mp hc with rfl | hc
        · exact Nat.lt_succ_self _
        · exact (hseen c hc).trans_le ((Nat.not_lt.mp hold).trans (Nat.le_succ _))

theorem openPass_append : openPass d (l ++ l') =
    ((openPass d l).1 ++ (openPass (openEnd d l) l').1,
      (openPass d l).2 ++ (openPass (openEnd d l) l').2) := by
  induction l generalizing d with
  | nil => rfl
  | cons p l ih =>
    obtain ⟨mb, failed⟩ := p
    simp only [cons_append, openPass, openEnd]
    split_ifs with hold
    · simp only [ih, cons_append]
    · simp only [ih, cons_append]

theorem openEnd_append : openEnd d (l ++ l') = openEnd (openEnd d l) l' := by
  induction l generalizing d with
  | nil => rfl
  | cons p l ih =>
    obtain ⟨mb, failed⟩ := p
    simp only [cons_append, openEnd]
    split_ifs with hold
    · exact ih
    · exact ih

theorem openPass_length : (openPass d l).1.length + (openPass d l).2.length = l.length := by
  induction l generalizing d with
  | nil => rfl
  | cons p l ih =>
    obtain ⟨mb, failed⟩ := p
    rw [openPass, length_cons]
    split_ifs with hold
    · rw [length_cons, ← Nat.add_assoc, ih]
    · rw [length_cons, Nat.succ_add, ih]

/-! ## An entity -/

/-- **An entity that delivers out of order** has no bits set, and nothing buffered. -/
structure Opens (k : ℕ) (en : DlEntity) : Prop where
  size : en.bitmap_size = 2 ^ k
  outOfOrder : en.is_out_of_order_delivery = true
  bits : Bitmap.Inv (2 ^ k) en.bitmap ∅
  shows : ∃ rest, Reorder.Shows k en.reorder [] rest (replicate (2 ^ k) none)
  timer : en.t_reorder = .stop

theorem Opens.buffered_eq (h : Opens k en) : en.buffered = [] := by
  obtain ⟨rest, hshows⟩ := h.shows
  rw [DlEntity.buffered, hshows.readyEntries_eq, hshows.orderEntries_eq]
  exact reduceOption_replicate_none

theorem Opens.packet (h : Opens k en) (hmax : mb.seqn.toNat + 1 < word32) :
    if mb.seqn.toNat < en.rx_deliv then
      pdcpPostProcessUpdateEntityState en mb = some (en, .error (-einval))
    else ∃ en', pdcpPostProcessUpdateEntityState en mb = some (en', .ok ([some mb], 1)) ∧
      Opens k en' ∧ en'.rx_deliv = mb.seqn.toNat + 1 ∧ en'.plane = en.plane := by
  split_ifs with hold
  · rw [pdcpPostProcessUpdateEntityState]
    exact if_pos hold
  · have hmod : mb.seqn.toNat % 2 ^ k < 2 ^ k := Nat.mod_lt _ (Nat.two_pow_pos k)
    obtain ⟨slab, hget, hslab⟩ := h.bits.get hmod
    have hclear : ¬ slab ≠ 0 := fun hne => Set.notMem_empty _ (hslab.mp hne)
    have hwithin : Bitmap.Within (2 ^ k) (.set (mb.seqn.toNat % 2 ^ k)) := hmod
    obtain ⟨bmp, hset, hbits⟩ := h.bits.apply hwithin trivial
    have hset' : en.bitmap.set (mb.seqn.toNat % 2 ^ k) = some bmp := hset
    obtain ⟨n, hn⟩ : ∃ n, mb.seqn.toNat + 1 = en.rx_deliv + n :=
      ⟨mb.seqn.toNat + 1 - en.rx_deliv, by omega⟩
    obtain ⟨bmp', hdeliv, hbits'⟩ := rxDelivSet_spec
      { en with
        rx_next := max en.rx_next (mb.seqn.toNat + 1)
        bitmap := bmp } hbits h.size n
    -- the bit is one of those that are cleared
    have hnone : Bitmap.content ∅ (.set (mb.seqn.toNat % 2 ^ k)) \
        {x | ∃ i < n, x = (en.rx_deliv + i) % 2 ^ k} = ∅ := by
      refine Set.eq_empty_iff_forall_notMem.mpr (fun x hx => hx.2 ?_)
      obtain rfl : x = mb.seqn.toNat % 2 ^ k := hx.1.resolve_right (Set.notMem_empty x)
      refine ⟨mb.seqn.toNat - en.rx_deliv, by omega, ?_⟩
      rw [show en.rx_deliv + (mb.seqn.toNat - en.rx_deliv) = mb.seqn.toNat by omega]
    have hdeliv' := (congrArg (DlEntity.rxDelivSet _) hn).trans hdeliv
    rw [pdcpPostProcessUpdateEntityState]
    rw [← h.size] at hget hset'
    simp only [noteNext en hmax, if_neg hold]
    simp only [hget, bind_some, if_neg hclear, hset', if_pos h.outOfOrder,
      Nat.mod_eq_of_lt hmax, hdeliv', map_some]
    rw [show Bitmap.content ∅ (.set (mb.seqn.toNat % 2 ^ k)) \
      {x | ∃ i < n, x = (en.rx_deliv + i) % 2 ^ k} = ∅ from hnone] at hbits'
    exact ⟨_, rfl, ⟨h.size, h.outOfOrder, hbits', h.shows, h.timer⟩, hn.symm, rfl⟩

theorem Opens.packets {p : Post} (h : Opens k p.en)
    (hmax : ∀ mb ∈ l, mb.1.seqn.toNat + 1 < word32) :
    ∃ en', p.packets l = some ⟨en', p.out ++ (openPass p.en.rx_deliv l).1.map some,
        p.err ++ (openPass p.en.rx_deliv l).2, p.accepted ++ (openPass p.en.rx_deliv l).1⟩ ∧
      Opens k en' ∧ en'.rx_deliv = openEnd p.en.rx_deliv l ∧ en'.plane = p.en.plane := by
  induction l generalizing p with
  | nil => exact ⟨p.en, by simp [Post.packets, openPass], h, rfl, rfl⟩
  | cons mb l ih =>
    obtain ⟨mb, failed⟩ := mb
    have hmax' := fun m hm => hmax m (mem_cons_of_mem _ hm)
    have hpacket := h.packet (hmax _ mem_cons_self)
    simp only [Post.packets, Post.packet, openPass, openEnd]
    cases failed with
    | true =>
      obtain ⟨en', hpackets, hopens, hdeliv, hplane⟩ := ih (p := { p with err := p.err ++ [mb] })
        h hmax'
      simp only [if_true, true_or, bind_some, hpackets]
      exact ⟨en', by simp, hopens, hdeliv, hplane⟩
    | false =>
      simp only [Bool.false_eq_true, if_false, false_or]
      by_cases hold : mb.seqn.toNat < p.en.rx_deliv
      · rw [if_pos hold] at hpacket
        obtain ⟨en', hpackets, hopens, hdeliv, hplane⟩ :=
          ih (p := { p with err := p.err ++ [mb] }) h hmax'
        simp only [hpacket, if_pos hold, map_some, bind_some]
        exact ⟨en', by simp [hpackets], hopens, hdeliv, hplane⟩
      · rw [if_neg hold] at hpacket
        obtain ⟨en₁, hpost, hopens₁, hdeliv₁, hplane₁⟩ := hpacket
        obtain ⟨en', hpackets, hopens, hdeliv, hplane⟩ :=
          ih (p := ⟨en₁, p.out ++ [some mb], p.err, p.accepted ++ [mb]⟩) hopens₁ hmax'
        rw [hdeliv₁] at hpackets hdeliv
        simp only [hpost, if_neg hold, map_some, bind_some]
        refine ⟨en', ?_, hopens, hdeliv, hplane.trans hplane₁⟩
        rw [take_of_length_le (by simp), hpackets]
        simp

theorem Opens.post (h : Opens k en) (hlen : l.length < word16)
    (hmax : ∀ mb ∈ l, mb.1.seqn.toNat + 1 < word32) :
    ∃ en', pdcpPostProcessDl en l = some ⟨en', (openPass en.rx_deliv l).1.map some,
        (openPass en.rx_deliv l).2.map some, (openPass en.rx_deliv l).1⟩ ∧
      Opens k en' ∧ en'.rx_deliv = openEnd en.rx_deliv l ∧ en'.plane = en.plane := by
  obtain ⟨en', hpackets, hopens, hdeliv, hplane⟩ := Opens.packets (p := ⟨en, [], [], []⟩) h hmax
  have hall := openPass_length (d := en.rx_deliv) (l := l)
  refine ⟨en', ?_, hopens, hdeliv, hplane⟩
  rw [pdcpPostProcessDl, hpackets, map_some]
  simp only [nil_append, length_map,
    Nat.mod_eq_of_lt (show (openPass en.rx_deliv l).1.length < word16 by omega),
    Nat.mod_eq_of_lt (show (openPass en.rx_deliv l).2.length < word16 by omega)]
  rw [take_left' (length_map _), drop_left' (length_map _),
    take_of_length_le (length_map _).le]

/-! ## Runs -/

/-- The packets that have been post-processed. -/
def posted : List DlEvent → List (Reorder.Mbuf × Bool)
  | [] => []
  | .post in_mb :: es => in_mb ++ posted es
  | _ :: es => posted es

/-- **The COUNTs of packets** lie in the window of an entity. -/
def InReceiveWindow (sys : DlSystem) : DlEvent → Prop
  | .pre in_mb => ∀ mb ∈ in_mb, ∃ (count : BitVec 32) (data : List (BitVec 8)),
    mb.2.data = sys.en.plane.hdr count ++ data ∧
      InWindow sys.en.plane.snSize (BitVec.ofNat 32 sys.en.rx_deliv) count.toNat
  | _ => True

/-- **Packets are delivered on their first arrival**, and only repetitions are errors. -/
def OnFirstArrival (sys : DlSystem) (es : List DlEvent) : Prop :=
  sys.delivered = (firstPass [] (posted es)).1.map some ∧
    sys.failed = (firstPass [] (posted es)).2.map some

/-- **What an entity that delivers out of order keeps**, when packets have been
post-processed from a COUNT on. -/
structure Opened (k d : ℕ) (sys : DlSystem) (l : List (Reorder.Mbuf × Bool)) : Prop where
  opens : Opens k sys.en
  window : (pdcpWindowSizeGet sys.en.plane.snSize).toNat = 2 ^ k
  rx_deliv : sys.en.rx_deliv = openEnd d l
  delivered : sys.delivered = (openPass d l).1.map some
  failed : sys.failed = (openPass d l).2.map some
  pending : ∀ mb ∈ sys.pending, mb.seqn.toNat + 1 < word32

theorem Opened.step (h : Opened k d sys l) {e : DlEvent} (hlegal : Legal sys e) :
    ∃ sys', dlStep sys e = some sys' ∧ Opened k d sys' (l ++ posted [e]) ∧
      (InReceiveWindow sys e → sys.rejected = [] → sys'.rejected = []) := by
  cases e with
  | expiry =>
    have hstate := h.opens.timer
    rw [show sys.en.t_reorder = .running from hlegal] at hstate
    cases hstate
  | pre in_mb =>
    rw [show posted [.pre in_mb] = [] from rfl, append_nil]
    refine ⟨_, rfl, ⟨h.opens, h.window, h.rx_deliv, h.delivered, h.failed, fun mb hmb => ?_⟩,
      fun hwin hnone => ?_⟩
    · rcases mem_append.mp hmb with hmb | hmb
      · exact h.pending mb hmb
      · exact hlegal mb hmb
    · have hall : (countGet sys.en.plane sys.en.rx_deliv in_mb).2 = [] := by
        clear hlegal
        induction in_mb with
        | nil => rfl
        | cons p in_mb ih =>
          obtain ⟨id, mb⟩ := p
          obtain ⟨count, data, hdata, hin⟩ := hwin _ mem_cons_self
          rw [countGet, Plane.dlPacket_hdr hdata hin]
          exact ih (fun m hm => hwin m (mem_cons_of_mem _ hm))
      change sys.rejected ++ (countGet _ _ _).2 = []
      rw [hnone, hall, nil_append]
  | post in_mb =>
    rw [show posted [.post in_mb] = in_mb from append_nil in_mb]
    obtain ⟨hlen, hsub⟩ := hlegal
    obtain ⟨en', hpost, hopens, hdeliv, hplane⟩ := h.opens.post hlen
      (fun mb hmb => h.pending _ (hsub.subset (mem_map_of_mem hmb)))
    refine ⟨{ sys with
        en := en'
        pending := sys.pending.diff (in_mb.map Prod.fst)
        failed := sys.failed ++ (openPass sys.en.rx_deliv in_mb).2.map some
        accepted := sys.accepted ++ (openPass sys.en.rx_deliv in_mb).1
        delivered := sys.delivered ++ (openPass sys.en.rx_deliv in_mb).1.map some },
      by rw [dlStep, hpost]; rfl, ⟨hopens, ?_, ?_, ?_, ?_, fun mb hmb => ?_⟩, fun _ hnone => hnone⟩
    · exact hplane.symm ▸ h.window
    · rw [openEnd_append, ← h.rx_deliv]
      exact hdeliv
    · rw [openPass_append, ← h.rx_deliv, map_append, ← h.delivered]
    · rw [openPass_append, ← h.rx_deliv, map_append, ← h.failed]
    · exact h.pending mb (diff_subset _ _ hmb)

theorem posted_cons (e : DlEvent) (es : List DlEvent) :
    posted (e :: es) = posted [e] ++ posted es := by
  cases e <;> simp [posted]

theorem Opened.run {Ok : DlSystem → DlEvent → Prop} (hOk : ∀ sys e, Ok sys e → Legal sys e)
    (h : Opened k d sys l) {es : List DlEvent} (hes : Runs.AlongOption dlStep Ok sys es) :
    ∃ sys', Runs.runOption dlStep sys es = some sys' ∧ Opened k d sys' (l ++ posted es) ∧
      ((∀ sys e, Ok sys e → InReceiveWindow sys e) → sys.rejected = [] → sys'.rejected = []) := by
  induction es generalizing sys l with
  | nil => exact ⟨sys, rfl, by rwa [posted, append_nil], fun _ hnone => hnone⟩
  | cons e es ih =>
    obtain ⟨hok, hrest⟩ := hes
    obtain ⟨sys₁, hstep, h₁, hrejected₁⟩ := h.step (hOk _ _ hok)
    obtain ⟨sys', hrun, h', hrejected⟩ := ih h₁ (hrest sys₁ hstep)
    refine ⟨sys', by rw [Runs.runOption, hstep, bind_some, hrun], ?_, fun hwin hnone =>
      hrejected hwin (hrejected₁ (hwin _ _ hok) hnone)⟩
    rwa [posted_cons, ← append_assoc]

theorem Opened.start {plane : Plane} {hfn sn : BitVec 32} {mem : ℕ}
    (hen : rtePdcpEntityEstablish plane true hfn sn mem = some en) :
    Opened (plane.snSize.bits - 1) en.rx_deliv (DlSystem.start en) [] := by
  obtain ⟨bmp, hbmp, rfl⟩ := map_eq_some_iff.mp hen
  rw [pdcpWindowSizeGet_toNat] at hbmp
  have hmax : 2 ^ (plane.snSize.bits - 1) ≤ Bitmap.maxBits := by
    cases plane <;> decide
  refine ⟨⟨pdcpWindowSizeGet_toNat _, rfl, rteBitmapInit_inv (Nat.two_pow_pos _) hmax hbmp, ?_,
      rfl⟩, pdcpWindowSizeGet_toNat _, rfl, rfl, rfl, nofun⟩
  change ∃ rest, Reorder.Shows _ (Reorder.rteReorderInit _) [] rest _
  rw [pdcpWindowSizeGet_toNat]
  exact ⟨_, Reorder.shows_fresh _⟩

/-! ## Suspension -/

/-- **Nothing is buffered** by an entity that delivers out of order, so that it starts anew
when it is suspended. -/
theorem Opens.suspend (h : Opens k en) : ∃ en', rtePdcpEntitySuspend en = some (en', []) ∧
    Opens k en' ∧ en'.rx_deliv = 0 ∧ en'.plane = en.plane := by
  obtain ⟨rest, hshows⟩ := h.shows
  obtain ⟨b', rest', hdrain, hshows'⟩ :=
    drainUpToSeqn_none hshows en.max_pkt_cache (UInt32.ofNat en.rx_next)
  exact ⟨{ en with
      reorder := b'
      is_active := false
      rx_next := 0
      rx_deliv := 0 }, by rw [rtePdcpEntitySuspend, hdrain]; rfl,
    ⟨h.size, h.outOfOrder, h.bits, ⟨rest', hshows'⟩, h.timer⟩, rfl, rfl⟩

/-- **Two entities that deliver out of order** do the same from the same COUNT on. -/
theorem Opens.twins {en₁ : DlEntity} (h₁ : Opens k en₁) (h : Opens k sys.en)
    (hdeliv : en₁.rx_deliv = sys.en.rx_deliv) (hplane : en₁.plane = sys.en.plane)
    (hpending : ∀ mb ∈ sys.pending, mb.seqn.toNat + 1 < word32) {es : List DlEvent}
    (hes : Runs.AlongOption dlStep (fun sys e => Legal sys e ∧ Counts sys e ∧ Received e) sys es) :
    ∃ sys' en₁', Runs.runOption dlStep sys es = some sys' ∧
      Runs.runOption dlStep { sys with en := en₁ } es = some { sys' with en := en₁' } := by
  induction es generalizing sys en₁ with
  | nil => exact ⟨sys, en₁, rfl, rfl⟩
  | cons e es ih =>
    obtain ⟨⟨hlegal, -, he⟩, hrest⟩ := hes
    cases e with
    | expiry => exact he.elim
    | pre in_mb =>
      have hstep₁ : dlStep { sys with en := en₁ } (.pre in_mb) =
          (dlStep sys (.pre in_mb)).map fun s => { s with en := en₁ } := by
        simp only [dlStep, hplane, hdeliv, map_some]
      simp only [Runs.runOption, hstep₁]
      refine ih h₁ h hdeliv hplane (fun mb hmb => ?_) (hrest _ rfl)
      rcases mem_append.mp hmb with hmb | hmb
      · exact hpending mb hmb
      · exact hlegal mb hmb
    | post in_mb =>
      obtain ⟨hlen, hsub⟩ := hlegal
      have hmax : ∀ mb ∈ in_mb, mb.1.seqn.toNat + 1 < word32 := fun mb hmb =>
        hpending _ (hsub.subset (mem_map_of_mem hmb))
      obtain ⟨en', hpost, hopens, hd, hp⟩ := h.post hlen hmax
      obtain ⟨en₁', hpost₁, hopens₁, hd₁, hp₁⟩ := h₁.post hlen hmax
      have hstep : dlStep sys (.post in_mb) = some { sys with
          en := en'
          pending := sys.pending.diff (in_mb.map Prod.fst)
          failed := sys.failed ++ (openPass sys.en.rx_deliv in_mb).2.map some
          accepted := sys.accepted ++ (openPass sys.en.rx_deliv in_mb).1
          delivered := sys.delivered ++ (openPass sys.en.rx_deliv in_mb).1.map some } := by
        rw [dlStep, hpost]
        rfl
      have hstep₁ : dlStep { sys with en := en₁ } (.post in_mb) = some { sys with
          en := en₁'
          pending := sys.pending.diff (in_mb.map Prod.fst)
          failed := sys.failed ++ (openPass sys.en.rx_deliv in_mb).2.map some
          accepted := sys.accepted ++ (openPass sys.en.rx_deliv in_mb).1
          delivered := sys.delivered ++ (openPass sys.en.rx_deliv in_mb).1.map some } := by
        rw [hdeliv] at hpost₁
        simp only [dlStep, hpost₁, map_some]
      simp only [Runs.runOption, hstep, hstep₁, bind_some]
      refine ih hopens₁ hopens ?_ ?_ (fun mb hmb => ?_) (hrest _ hstep)
      · rw [hd₁, hdeliv, hd]
      · rw [hp₁, hplane, hp]
      · exact hpending mb (diff_subset _ _ hmb)

/-- **The suspension of an entity that delivers out of order** is what it should be. -/
theorem Opens.suspendOk (h : Opens k en)
    (hwindow : (pdcpWindowSizeGet en.plane.snSize).toNat = 2 ^ k) : SuspendOk en := by
  obtain ⟨en', hsuspend, hopens, hdeliv, hplane⟩ := h.suspend
  rw [← hplane, pdcpWindowSizeGet_toNat] at hwindow
  obtain rfl := Nat.pow_right_injective (le_refl 2) hwindow
  refine ⟨en', by rw [h.buffered_eq]; exact hsuspend, by rw [h.buffered_eq]; exact .nil, ?_⟩
  intro mem fresh hfresh es hes
  rw [hopens.outOfOrder] at hfresh
  have hstart := Opened.start hfresh
  obtain ⟨hfplane, hzero⟩ := establish_zero hfresh
  obtain ⟨sys', en₁', hrun, hrun₁⟩ := hopens.twins hstart.opens
    (hdeliv.trans hzero.symm) hfplane.symm hstart.pending hes
  exact ⟨_, sys', hrun₁, hrun, rfl, rfl, rfl⟩

/-! ## Suspension and out-of-order delivery -/

/-- **Suspension and out-of-order delivery.** After every run of events that may happen (and
that fit, if packets are delivered in order), an entity is suspended as it should be exactly
when nothing is buffered. Out of order, packets in the window are delivered on their first
arrival exactly when no packet overtakes another. -/
theorem suspend_and_out_of_order {plane : Plane} {ooo : Bool} {hfn sn : BitVec 32} {mem : ℕ}
    (hen : rtePdcpEntityEstablish plane ooo hfn sn mem = some en) :
    (∀ es, Runs.AlongOption dlStep (fun sys e => Legal sys e ∧ Counts sys e)
        (DlSystem.start en) es →
      ∃ sys, Runs.runOption dlStep (DlSystem.start en) es = some sys ∧
        (SuspendOk sys.en ↔ sys.en.buffered = [])) ∧
    (ooo = true →
      ∀ es, Runs.AlongOption dlStep (fun sys e => Legal sys e ∧ InReceiveWindow sys e)
          (DlSystem.start en) es →
        ∃ sys, Runs.runOption dlStep (DlSystem.start en) es = some sys ∧ sys.rejected = [] ∧
          (OnFirstArrival sys es ↔ Rising [] en.rx_deliv (posted es))) := by
  refine ⟨fun es hes => ?_, fun hooo es hes => ?_⟩
  · cases ooo with
    | false =>
      have hinv := Inv.start hen
      obtain ⟨sys, w, D, F, hrun, hi⟩ := hinv.run (hinv.along (fun _ _ hok => hok)
        (fun _ _ hok hfits => ⟨hok.1, hfits⟩) hes)
      exact ⟨sys, hrun, hi.suspendOk_iff⟩
    | true =>
      obtain ⟨sys, hrun, h, -⟩ := (Opened.start hen).run (fun _ _ hok => hok.1) hes
      exact ⟨sys, hrun, iff_of_true (h.opens.suspendOk h.window) h.opens.buffered_eq⟩
  · subst hooo
    obtain ⟨sys, hrun, h, hrejected⟩ := (Opened.start hen).run (fun _ _ hok => hok.1) hes
    refine ⟨sys, hrun, hrejected (fun _ _ hok => hok.2) rfl, ?_⟩
    rw [← openPass_eq_iff (fun c hc => absurd hc not_mem_nil), OnFirstArrival, h.delivered,
      h.failed, nil_append, Prod.ext_iff]
    have hinj := map_injective_iff.mpr (some_injective Reorder.Mbuf)
    exact and_congr hinj.eq_iff hinj.eq_iff

/-! ## Runs that can be computed -/

instance Counts.decidable (sys : DlSystem) (e : DlEvent) : Decidable (Counts sys e) :=
  inferInstanceAs (Decidable (sys.en.is_out_of_order_delivery = true ∨ Fits sys e))

/-- A packet comes, one that is not the next. -/
def onePacketAhead : List DlEvent :=
  [.pre [(1, ⟨0, [0x80#8, 1#8], 0⟩)], .post [(⟨1, 1⟩, false)]]

/-- An entity waits for a packet until the timer expires, and is suspended. Another one
delivers a packet at once. -/
theorem suspend_and_out_of_order_one :
    (∃ en sys, rtePdcpEntityEstablish .uplaneSn12 false 0 0 64 = some en ∧
      Runs.runOption dlStep (DlSystem.start en) (onePacketAhead ++ [.expiry]) = some sys ∧
      (SuspendOk sys.en ↔ sys.en.buffered = [])) ∧
    ∃ en sys, rtePdcpEntityEstablish .uplaneSn12 true 0 0 64 = some en ∧
      Runs.runOption dlStep (DlSystem.start en) onePacketAhead = some sys ∧
      (OnFirstArrival sys onePacketAhead ↔ Rising [] en.rx_deliv (posted onePacketAhead)) := by
  constructor
  · have hrun : ((rtePdcpEntityEstablish .uplaneSn12 false 0 0 64).bind fun en =>
        Runs.runOption (fun sys e => if Legal sys e ∧ Counts sys e then dlStep sys e else none)
          (DlSystem.start en) (onePacketAhead ++ [.expiry])).isSome = true := by
      decide +kernel
    obtain ⟨sys, hsys⟩ := isSome_iff_exists.mp hrun
    obtain ⟨en, hen, hguard⟩ := bind_eq_some_iff.mp hsys
    obtain ⟨sys', hrun', hok⟩ :=
      (suspend_and_out_of_order hen).1 _ (Runs.runOption_guard hguard).1
    exact ⟨en, sys', hen, hrun', hok⟩
  · have hrun : ((rtePdcpEntityEstablish .uplaneSn12 true 0 0 64).bind fun en =>
        Runs.runOption (fun sys e => if Legal sys e then dlStep sys e else none)
          (DlSystem.start en) onePacketAhead).isSome = true := by
      decide +kernel
    obtain ⟨sys, hsys⟩ := isSome_iff_exists.mp hrun
    obtain ⟨en, hen, hguard⟩ := bind_eq_some_iff.mp hsys
    have hstart := establish_zero hen
    have hwindow : Runs.AlongOption dlStep InReceiveWindow (DlSystem.start en) onePacketAhead := by
      refine ⟨fun mb hmb => ?_, fun _ _ => ⟨trivial, fun _ _ => trivial⟩⟩
      obtain rfl := mem_singleton.mp hmb
      refine ⟨1#32, [], ?_, ?_⟩
      · simp only [DlSystem.start, hstart.1]
        decide
      · simp only [DlSystem.start, hstart.1, hstart.2]
        exact ⟨by decide, by decide⟩
    obtain ⟨sys', hrun', -, hok⟩ := (suspend_and_out_of_order hen).2 rfl _
      ((Runs.runOption_guard hguard).1.and hwindow)
    exact ⟨en, sys', hen, hrun', hok⟩

/-- The packets of two batches, the last one first. -/
def twoReversed : List DlEvent :=
  [.pre [(0, ⟨0, [0x80#8, 0#8], 0⟩), (1, ⟨0, [0x80#8, 1#8], 0⟩)], .post [(⟨1, 1⟩, false)],
    .post [(⟨0, 0⟩, false)]]

/-- **A suspension leaves bits behind**, and a packet that has been overtaken is an error. -/
theorem overtaken_is_rejected :
    (¬ ∀ {plane : Plane} {hfn sn : BitVec 32} {mem : ℕ} {en : DlEntity},
      rtePdcpEntityEstablish plane false hfn sn mem = some en → ∀ {es : List DlEvent},
        Runs.AlongOption dlStep Legal (DlSystem.start en) es →
          ∃ sys, Runs.runOption dlStep (DlSystem.start en) es = some sys ∧ SuspendOk sys.en) ∧
    ¬ ∀ {plane : Plane} {hfn sn : BitVec 32} {mem : ℕ} {en : DlEntity},
      rtePdcpEntityEstablish plane true hfn sn mem = some en → ∀ {es : List DlEvent},
        Runs.AlongOption dlStep (fun sys e => Legal sys e ∧ InReceiveWindow sys e)
          (DlSystem.start en) es →
        ∃ sys, Runs.runOption dlStep (DlSystem.start en) es = some sys ∧ OnFirstArrival sys es := by
  constructor
  · intro h
    have hrun : ((rtePdcpEntityEstablish .uplaneSn12 false 0 0 64).bind fun en =>
        Runs.runOption (fun sys e => if Legal sys e ∧ Fits sys e then dlStep sys e else none)
          (DlSystem.start en) onePacketAhead).map (fun sys => sys.en.buffered) =
        some [⟨1, 1⟩] := by
      decide +kernel
    obtain ⟨sys, hsys, hbuffered⟩ := map_eq_some_iff.mp hrun
    obtain ⟨en, hen, hguard⟩ := bind_eq_some_iff.mp hsys
    obtain ⟨hes, hdl⟩ := Runs.runOption_guard hguard
    obtain ⟨sys', w, D, F, hsys', hi⟩ := (Inv.start hen).run hes
    obtain rfl := some.inj (hsys'.symm.trans hdl)
    obtain ⟨sys₁, hsys₁, hok⟩ := h hen
      (hes.imp_of_invariant (P := fun _ => True) (fun _ _ _ hok => ⟨hok.1, fun _ _ => trivial⟩)
        trivial)
    obtain rfl := some.inj (hsys'.symm.trans hsys₁)
    rw [hi.suspendOk_iff.mp hok] at hbuffered
    cases hbuffered
  · intro h
    have hrun : ((rtePdcpEntityEstablish .uplaneSn12 true 0 0 64).bind fun en =>
        Runs.runOption (fun sys e => if Legal sys e then dlStep sys e else none)
          (DlSystem.start en) twoReversed).map (fun sys => sys.delivered) =
        some [some ⟨1, 1⟩] := by
      decide +kernel
    obtain ⟨sys, hsys, hdelivered⟩ := map_eq_some_iff.mp hrun
    obtain ⟨en, hen, hguard⟩ := bind_eq_some_iff.mp hsys
    obtain ⟨hes, hdl⟩ := Runs.runOption_guard hguard
    have hstart := establish_zero hen
    have hwindow : Runs.AlongOption dlStep InReceiveWindow (DlSystem.start en) twoReversed := by
      refine ⟨fun mb hmb => ?_, fun _ _ => ⟨trivial, fun _ _ => ⟨trivial, fun _ _ => trivial⟩⟩⟩
      simp only [DlSystem.start, hstart.1, hstart.2]
      rcases mem_cons.mp hmb with rfl | hmb
      · exact ⟨0#32, [], by decide, by decide, by decide⟩
      · obtain rfl := mem_singleton.mp hmb
        exact ⟨1#32, [], by decide, by decide, by decide⟩
    obtain ⟨sys', hsys', hfirst, -⟩ := h hen (hes.and hwindow)
    obtain rfl := some.inj (hsys'.symm.trans hdl)
    rw [hdelivered] at hfirst
    exact absurd hfirst (by decide)

end Pdcp
