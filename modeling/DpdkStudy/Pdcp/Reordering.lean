import DpdkStudy.Pdcp.Delivery

/-!
# The law of the reordering timer

t-Reordering is to run while packets are missing, and only then (`TimerLaw`). A timer
that has expired with nothing missing is `TIMER_EXPIRED`, and from this state the next
gap does not start it: only from `TIMER_STOP` does it start. So the law holds as long as
packets come in their turn from such an expiry on (`InTurn`).
-/

open List

namespace Pdcp

variable {k g d : ℕ} {sys sys' : DlSystem} {w : List (Option Reorder.Mbuf)}
  {D F O acc : List Reorder.Mbuf} {p p' : Post}

/-- **The law of the timer**: it runs exactly while packets are missing that buffered ones
wait for, and up to `RX_REORD` it waits for them. -/
structure TimerLaw (en : DlEntity) : Prop where
  running_iff : en.t_reorder = .running ↔ en.rx_deliv < en.rx_next ∧ en.buffered ≠ []
  reord : en.t_reorder = .running → en.rx_deliv < en.rx_reord ∧ en.rx_reord ≤ en.rx_next
  buffered : en.buffered ≠ [] → en.t_reorder = .running

/-- **Packets come in their turn** from a COUNT on: those that the crypto device has not
failed, and that are not old. -/
def InTurn : ℕ → List (Reorder.Mbuf × Bool) → Prop
  | _, [] => True
  | d, (mb, failed) :: in_mb =>
    if failed ∨ mb.seqn.toNat < d then InTurn d in_mb
    else mb.seqn.toNat = d ∧ InTurn (d + 1) in_mb

/-- **While the timer has expired** packets come in their turn. -/
def Turns (sys : DlSystem) : DlEvent → Prop
  | .post in_mb => sys.en.t_reorder = .expired → InTurn sys.en.rx_deliv in_mb
  | _ => True

/-- **What the timer depends on**: the last packet has been accepted, and a timer has
expired only if nothing is missing. -/
structure Waits (en : DlEntity) (accepted : List Reorder.Mbuf) : Prop where
  last : en.rx_next = 0 ∨ ∃ mb ∈ accepted, mb.seqn.toNat + 1 = en.rx_next
  expired : en.t_reorder = .expired → en.rx_next ≤ en.rx_deliv

theorem Keeps.no_packets {en : DlEntity} (h : Keeps k en w) (hle : en.rx_next ≤ en.rx_deliv) :
    w.reduceOption = [] := by
  obtain ⟨bits, -, hslots⟩ := h.slots
  refine eq_nil_iff_forall_not_mem.mpr (fun mb hmb => ?_)
  have hmem := hslots.of_mem hmb
  omega

/-- The law follows from what is delivered and buffered. -/
theorem Inv.timerLaw (hi : Inv k sys w D F) (hw : Waits sys.en sys.accepted) :
    TimerLaw sys.en := by
  have hbuffered := hi.keeps.buffered_eq
  have htimer := hi.timer
  -- the last packet is buffered while packets are missing
  have hmissing : sys.en.rx_deliv < sys.en.rx_next → sys.en.buffered ≠ [] := by
    intro hlt hnil
    rcases hw.last with hzero | ⟨mb, hmb, hlast⟩
    · omega
    · rcases mem_append.mp (hi.accepted.mem_iff.mp hmb) with hD | hmem
      · have hbelow := hi.below mb hD
        omega
      · rw [hbuffered] at hnil
        rw [hnil] at hmem
        exact absurd hmem not_mem_nil
  have hruns : sys.en.rx_deliv < sys.en.rx_next → sys.en.t_reorder = .running := by
    intro hlt
    rw [TimerOk] at htimer
    cases hstate : sys.en.t_reorder with
    | stop =>
      simp only [hstate] at htimer
      exact absurd hlt (Nat.not_lt.mpr htimer.2)
    | running => rfl
    | expired => exact absurd hlt (Nat.not_lt.mpr (hw.expired hstate))
  have hreord : sys.en.t_reorder = .running →
      sys.en.rx_deliv < sys.en.rx_reord ∧ sys.en.rx_reord ≤ sys.en.rx_next := by
    intro hrun
    rw [TimerOk, hrun] at htimer
    exact htimer.2
  refine ⟨⟨fun hrun => ?_, fun hboth => hruns hboth.1⟩, hreord, fun hne => ?_⟩
  · obtain ⟨hlt, hle⟩ := hreord hrun
    exact ⟨hlt.trans_le hle, hmissing (hlt.trans_le hle)⟩
  · by_contra hnot
    rw [hbuffered] at hne
    exact hne (hi.keeps.no_packets (Nat.not_lt.mp (fun hlt => hnot (hruns hlt))))

/-! ## A batch -/

/-- One packet of a batch, in its turn if the timer has expired. -/
theorem Batch.waits {w' : List (Option Reorder.Mbuf)} {O' : List Reorder.Mbuf}
    (hb' : Batch k acc D d g p' w' O') {mb : Reorder.Mbuf} (haccepts : Accepts p.en mb p'.en)
    (haccepted : p'.accepted = p.accepted ++ [mb])
    (hturn : p.en.t_reorder = .expired → mb.seqn.toNat = p.en.rx_deliv)
    (hw : Waits p.en (acc ++ p.accepted)) :
    Waits p'.en (acc ++ p'.accepted) ∧
      (p.en.t_reorder = .expired → p'.en.rx_deliv = p.en.rx_deliv + 1) := by
  have hmem : mb ∈ acc ++ p'.accepted := by
    rw [haccepted]
    exact mem_append_right _ (mem_append_right _ (mem_singleton_self mb))
  have hnext := haccepts.next
  have hpassed : p.en.t_reorder = .expired → p'.en.rx_next = p.en.rx_deliv + 1 ∧
      p'.en.rx_deliv = p.en.rx_deliv + 1 := by
    intro hexp
    have heq := hturn hexp
    have hle := hw.expired hexp
    have hmax : p'.en.rx_next = p.en.rx_deliv + 1 := by omega
    refine ⟨hmax, Nat.le_antisymm ?_ ?_⟩
    · rcases hb'.next with hdeliv | hnil
      · exact hdeliv.trans_eq hmax
      · rw [hnil] at hmem
        exact absurd hmem not_mem_nil
    · -- the packet is delivered, as the first slot is empty
      rcases mem_append.mp (hb'.accepted.mem_iff.mp hmem) with hmem | hmem
      · have hbelow := hb'.below mb hmem
        omega
      · obtain ⟨bits, -, hslots⟩ := hb'.keeps.slots
        have hin := hslots.of_mem hmem
        have hne : mb.seqn.toNat ≠ p'.en.rx_deliv := by
          intro hzero
          obtain ⟨m, hm⟩ := (hslots.mem_iff 0).mpr ⟨mb, hmem, hzero⟩
          have hfirst := hb'.keeps.first
          rw [head?_eq_getElem?, hm] at hfirst
          exact absurd (Option.some.inj hfirst) nofun
        have hmoved := haccepts.deliv_le
        omega
  refine ⟨⟨?_, fun hexp => ?_⟩, fun hexp => (hpassed hexp).2⟩
  · rcases Nat.le_total p.en.rx_next (mb.seqn.toNat + 1) with hle | hle
    · exact .inr ⟨mb, hmem, by rw [hnext, max_eq_right hle]⟩
    · rw [max_eq_left hle] at hnext
      rw [hnext, haccepted, ← append_assoc]
      refine hw.last.imp_right (fun ⟨m, hm, hlast⟩ => ⟨m, mem_append_left _ hm, hlast⟩)
  · obtain ⟨hmax, hdeliv⟩ := hpassed (haccepts.expired.mp hexp)
    rw [hmax, hdeliv]

/-- The packets of a batch, in their turn if the timer has expired. -/
theorem Batch.packets_waits (hb : Batch k acc D d g p w O) (hg : g < d + word16)
    {in_mb : List (Reorder.Mbuf × Bool)}
    (hlt : ∀ mb ∈ in_mb, mb.1.seqn.toNat < d + 2 ^ k ∧ mb.1.seqn.toNat + 1 < word32)
    (hgap : ∀ mb ∈ in_mb, mb.2 = false → mb.1.seqn.toNat ≠ g)
    (hw : Waits p.en (acc ++ p.accepted))
    (hturn : p.en.t_reorder = .expired → InTurn p.en.rx_deliv in_mb)
    (hpackets : p.packets in_mb = some p') : Waits p'.en (acc ++ p'.accepted) := by
  induction in_mb generalizing p w O with
  | nil =>
    obtain rfl := Option.some.inj hpackets
    exact hw
  | cons mb in_mb ih =>
    obtain ⟨hmb, hmax⟩ := hlt mb mem_cons_self
    obtain ⟨p₁, w₁, O₁, hpacket, hb₁, -, -, hcases⟩ :=
      hb.packet hg hmb hmax (hgap mb mem_cons_self)
    rw [Post.packets, hpacket, Option.bind_some] at hpackets
    have hrest := ih hb₁ (fun m hm => hlt m (mem_cons_of_mem _ hm))
      (fun m hm => hgap m (mem_cons_of_mem _ hm))
    rcases hcases with ⟨hen, hacc, hrefused⟩ | ⟨hok, haccepts, hacc⟩
    · refine hrest (by rw [hen, hacc]; exact hw) (fun hexp => ?_) hpackets
      rw [hen] at hexp ⊢
      have hin := hturn hexp
      by_cases hold : mb.2 = true ∨ mb.1.seqn.toNat < p.en.rx_deliv
      · rwa [InTurn, if_pos hold] at hin
      · -- the first slot is empty, so that a packet in its turn is not refused
        rw [InTurn, if_neg hold] at hin
        rw [← or_assoc, or_iff_right hold, hin.1, Nat.sub_self, ← head?_eq_getElem?,
          hb.keeps.first] at hrefused
        exact absurd rfl hrefused
    · have hturn' : p.en.t_reorder = .expired → mb.1.seqn.toNat = p.en.rx_deliv ∧
          InTurn (p.en.rx_deliv + 1) in_mb := by
        intro hexp
        have hin := hturn hexp
        have hnot : ¬ (mb.2 = true ∨ mb.1.seqn.toNat < p.en.rx_deliv) := by
          rw [hok, not_or, not_lt]
          exact ⟨Bool.false_ne_true, haccepts.le⟩
        rwa [InTurn, if_neg hnot] at hin
      obtain ⟨hw', hdeliv⟩ := hb₁.waits haccepts hacc (fun hexp => (hturn' hexp).1) hw
      refine hrest hw' (fun hexp => ?_) hpackets
      have hexp' := haccepts.expired.mp hexp
      rw [hdeliv hexp']
      exact (hturn' hexp').2

/-! ## Runs -/

theorem Inv.post_waits (hi : Inv k sys w D F) {in_mb : List (Reorder.Mbuf × Bool)}
    (hlegal : Legal sys (.post in_mb)) (hfits : Fits sys (.post in_mb))
    (hturns : Turns sys (.post in_mb)) (hw : Waits sys.en sys.accepted)
    (hstep : dlStep sys (.post in_mb) = some sys') : Waits sys'.en sys'.accepted := by
  obtain ⟨g, hle, hlt, hgap, hgap'⟩ := hi.gap hlegal hfits
  obtain ⟨r, hr, rfl⟩ := Option.map_eq_some_iff.mp hstep
  obtain ⟨p, hpackets, rfl⟩ := Option.map_eq_some_iff.mp hr
  refine (hi.batch hle hgap).packets_waits hlt
    (fun mb hmb => hi.pending _ (hlegal.2.subset (mem_map_of_mem hmb))) hgap' ?_ hturns
    hpackets
  rw [append_nil]
  exact hw

theorem expiry_waits (hw : Waits sys.en sys.accepted) (hstep : dlStep sys .expiry = some sys') :
    Waits sys'.en sys'.accepted := by
  obtain ⟨r, hr, rfl⟩ := Option.map_eq_some_iff.mp hstep
  obtain ⟨⟨out_mb, buf⟩, -, hr⟩ := Option.bind_eq_some_iff.mp hr
  obtain ⟨en, hen, hr⟩ := Option.bind_eq_some_iff.mp hr
  obtain ⟨bmp, -, rfl⟩ := Option.map_eq_some_iff.mp hen
  obtain rfl := Option.some.inj hr
  simp only
  split
  · exact ⟨hw.last, nofun⟩
  · rename_i hle
    exact ⟨hw.last, fun _ => Nat.not_lt.mp hle⟩

theorem Inv.step_waits (hi : Inv k sys w D F) {e : DlEvent} (hlegal : Legal sys e)
    (hfits : Fits sys e) (hturns : Turns sys e) (hw : Waits sys.en sys.accepted)
    (hstep : dlStep sys e = some sys') : Waits sys'.en sys'.accepted := by
  cases e with
  | pre in_mb =>
    obtain rfl := Option.some.inj hstep
    exact hw
  | post in_mb => exact hi.post_waits hlegal hfits hturns hw hstep
  | expiry => exact expiry_waits hw hstep

/-- **A run** of events, with packets in their turn while the timer has expired. -/
theorem Inv.run_waits {es : List DlEvent} (hi : Inv k sys w D F) (hw : Waits sys.en sys.accepted)
    (hes : Runs.AlongOption dlStep (fun sys e => Legal sys e ∧ Fits sys e ∧ Turns sys e) sys es) :
    ∃ sys' w' D' F', Runs.runOption dlStep sys es = some sys' ∧ Inv k sys' w' D' F' ∧
      Waits sys'.en sys'.accepted := by
  induction es generalizing sys w D F with
  | nil => exact ⟨sys, w, D, F, rfl, hi, hw⟩
  | cons e es ih =>
    obtain ⟨⟨hlegal, hfits, hturns⟩, hrest⟩ := hes
    obtain ⟨sys₁, w₁, D₁, F₁, hstep, hi₁, -⟩ := hi.step hlegal hfits
    obtain ⟨sys', w', D', F', hrun, hi', hw'⟩ :=
      ih hi₁ (hi.step_waits hlegal hfits hturns hw hstep) (hrest sys₁ hstep)
    exact ⟨sys', w', D', F', by rw [Runs.runOption, hstep, Option.bind_some, hrun], hi', hw'⟩

/-- **The law of the reordering timer** holds after every run of events that may happen and
that fit, in which packets come in their turn while the timer has expired. -/
theorem t_reordering_law {plane : Plane} {hfn sn : BitVec 32} {mem : ℕ} {en : DlEntity}
    (hen : rtePdcpEntityEstablish plane false hfn sn mem = some en) {es : List DlEvent}
    (hes : Runs.AlongOption dlStep (fun sys e => Legal sys e ∧ Fits sys e ∧ Turns sys e)
      (DlSystem.start en) es) :
    ∃ sys, Runs.runOption dlStep (DlSystem.start en) es = some sys ∧ TimerLaw sys.en := by
  have hstart : Waits en [] := by
    obtain ⟨bmp, -, rfl⟩ := Option.map_eq_some_iff.mp hen
    exact ⟨.inl rfl, nofun⟩
  obtain ⟨sys, w, D, F, hrun, hi, hw⟩ := (Inv.start hen).run_waits hstart hes
  exact ⟨sys, hrun, hi.timerLaw hw⟩

/-! ## Runs that can be computed -/

instance InTurn.decidable : (d : ℕ) → (in_mb : List (Reorder.Mbuf × Bool)) →
    Decidable (InTurn d in_mb)
  | _, [] => inferInstanceAs (Decidable True)
  | d, (mb, failed) :: in_mb =>
    have := InTurn.decidable d in_mb
    have := InTurn.decidable (d + 1) in_mb
    inferInstanceAs (Decidable (if failed ∨ mb.seqn.toNat < d then InTurn d in_mb
      else mb.seqn.toNat = d ∧ InTurn (d + 1) in_mb))

instance Turns.decidable (sys : DlSystem) : (e : DlEvent) → Decidable (Turns sys e)
  | .pre _ => inferInstanceAs (Decidable True)
  | .post in_mb => inferInstanceAs
      (Decidable (sys.en.t_reorder = .expired → InTurn sys.en.rx_deliv in_mb))
  | .expiry => inferInstanceAs (Decidable True)

/-- A packet is missing until the timer expires, and then others come. -/
def gapThenExpiry (sn : BitVec 8) : List DlEvent :=
  [.pre [(1, ⟨0, [0x80#8, 1#8], 0⟩)], .post [(⟨1, 1⟩, false)], .expiry,
    .pre [(2, ⟨0, [0x80#8, sn], 0⟩)], .post [(⟨2, sn.toNat.toUInt32⟩, false)]]

/-- The packet that comes is the next one. -/
theorem t_reordering_law_next :
    ∃ en sys, rtePdcpEntityEstablish .uplaneSn12 false 0 0 64 = some en ∧
      Runs.runOption dlStep (DlSystem.start en) (gapThenExpiry 2) = some sys ∧
      TimerLaw sys.en := by
  have hrun : ((rtePdcpEntityEstablish .uplaneSn12 false 0 0 64).bind fun en =>
      Runs.runOption (fun sys e => if Legal sys e ∧ Fits sys e ∧ Turns sys e then dlStep sys e
        else none) (DlSystem.start en) (gapThenExpiry 2)).isSome = true := by
    decide +kernel
  obtain ⟨sys, hsys⟩ := Option.isSome_iff_exists.mp hrun
  obtain ⟨en, hen, hguard⟩ := Option.bind_eq_some_iff.mp hsys
  obtain ⟨sys', hrun', hlaw⟩ := t_reordering_law hen (Runs.runOption_guard hguard).1
  exact ⟨en, sys', hen, hrun', hlaw⟩

/-- **A gap after an expiry** does not start the timer: the packet behind it is buffered,
and nothing is waited for. -/
theorem expiry_leaves_no_timer :
    ¬ ∀ {plane : Plane} {hfn sn : BitVec 32} {mem : ℕ} {en : DlEntity},
      rtePdcpEntityEstablish plane false hfn sn mem = some en → ∀ {es : List DlEvent},
        Runs.AlongOption dlStep Legal (DlSystem.start en) es →
          ∃ sys, Runs.runOption dlStep (DlSystem.start en) es = some sys ∧ TimerLaw sys.en := by
  intro h
  have hrun : ((rtePdcpEntityEstablish .uplaneSn12 false 0 0 64).bind fun en =>
      Runs.runOption (fun sys e => if Legal sys e then dlStep sys e else none)
        (DlSystem.start en) (gapThenExpiry 3)).map
      (fun sys => (sys.en.buffered, sys.en.t_reorder)) = some ([⟨2, 3⟩], .expired) := by
    decide +kernel
  obtain ⟨sys, hsys, heq⟩ := Option.map_eq_some_iff.mp hrun
  obtain ⟨en, hen, hguard⟩ := Option.bind_eq_some_iff.mp hsys
  obtain ⟨hlegal, hdl⟩ := Runs.runOption_guard hguard
  obtain ⟨sys', hsys', hlaw⟩ := h hen hlegal
  obtain rfl := Option.some.inj (hsys'.symm.trans hdl)
  obtain ⟨hbuffered, hstate⟩ := Prod.mk.inj heq
  have hrunning := hlaw.buffered (by rw [hbuffered]; exact cons_ne_nil _ _)
  rw [hstate] at hrunning
  cases hrunning

end Pdcp
