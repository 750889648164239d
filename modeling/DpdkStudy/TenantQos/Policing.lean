import DpdkStudy.Lib.Accrual
import DpdkStudy.TenantQos.QosTrace
import Mathlib.Algebra.BigOperators.Ring.List
import Mathlib.Data.List.Pairwise

/-!
# Policing and refill

A token bucket promises two things. Over any window it admits no more than
one depth and what its rate yields in the window (`WindowsPoliced`); and
the refills of a window, taken together, credit what the rate yields over
it (`RefillExact`).

The bucket of the shaper has no upper bound: a refill that takes it past
its depth – the `R / 8` bytes it starts with – is kept. The first promise
therefore holds in the runs in which no refill goes past the depth
(`policing`), and fails after an idle gap (`policing_fails_after_idle_gap`).

Every refill rounds down to whole bytes and forgets the remainder, and its
product is a 64-bit product. The second promise holds exactly when no
product wraps and the forgotten remainders add up to less than two bytes
(`refillExact_iff`); a tenant whose packets come close together is credited
nothing at all (`refill_loses_rate`).
-/

open List

namespace TenantQos

variable {e : QosEvent} {es : List QosEvent} {b : DpQosBucket} {R tscHz : UInt64}

/-! ## Ticks -/

/-- The ticks between consecutive readings of a history, the first counted
from `prev`. -/
def ticks (prev : UInt64) : List QosEvent → List ℕ
  | [] => []
  | e :: es => (e.now.toNat - prev.toNat) :: ticks e.now es

/-- The time-stamp counter does not run backwards. -/
def TscMonotone (es : List QosEvent) : Prop := es.Pairwise (fun e e' => e.now ≤ e'.now)

/-- The ticks of a history add up to the time it spans. -/
theorem sum_ticks {prev : UInt64} {last : QosEvent} (hprev : prev ≤ e.now)
    (hmono : TscMonotone (e :: es)) (hlast : (e :: es).getLast? = some last) :
    (ticks prev (e :: es)).sum = last.now.toNat - prev.toNat := by
  induction es generalizing prev e with
  | nil =>
    obtain rfl : e = last := by simpa using hlast
    simp [ticks]
  | cons e' es ih =>
    have hee' : e.now ≤ e'.now := (pairwise_cons.mp hmono).1 e' (by simp)
    have htail := ih hee' (pairwise_cons.mp hmono).2 (by simpa using hlast)
    have hlast' : e'.now ≤ last.now := by
      have hmem : last ∈ e' :: es := mem_of_getLast? (by simpa using hlast)
      rcases mem_cons.mp hmem with rfl | hmem
      · exact UInt64.le_refl _
      · exact (pairwise_cons.mp (pairwise_cons.mp hmono).2).1 last hmem
    rw [ticks, sum_cons, htail]
    rw [UInt64.le_iff_toNat_le] at hprev hee' hlast'
    omega

/-! ## Credits -/

/-- What one refill credits, in exact arithmetic: the product wraps at 64
bits and the quotient is rounded down. -/
theorem toNat_dpQosRateToTokens (rate hz delta : UInt64) :
    (dpQosRateToTokens rate hz delta).toNat
      = rate.toNat / 8 * delta.toNat % 2 ^ 64 / hz.toNat := by
  simp [dpQosRateToTokens]

/-- What a bucket that has seen a packet is credited at a later reading. -/
theorem toNat_credit {hz now : UInt64} (hb : b.lastTsc ≠ 0) (hnow : b.lastTsc ≤ now) :
    (b.credit hz now).toNat
      = b.rateLimitBps.toNat / 8 * (now.toNat - b.lastTsc.toNat) % 2 ^ 64 / hz.toNat := by
  unfold DpQosBucket.credit
  rw [if_pos hb, toNat_dpQosRateToTokens, UInt64.toNat_sub_of_le _ _ hnow]

/-- A refill credits at most what the rate yields over the ticks. -/
theorem toNat_credit_le (hz : UInt64) {now : UInt64} (hnow : b.lastTsc ≤ now) :
    (b.credit hz now).toNat
      ≤ b.rateLimitBps.toNat / 8 * (now.toNat - b.lastTsc.toNat) / hz.toNat := by
  by_cases hb : b.lastTsc = 0
  · simp [DpQosBucket.credit, hb]
  · rw [toNat_credit hb hnow]
    exact Nat.div_le_div_right (Nat.mod_le _ _)

/-- **The balance of one call**: what it admits and what it leaves in the
bucket is at most what it found there and what it credited. -/
theorem admitted_add_post_le (h : (e.ret, e.post) = e.pre.apply tscHz e.own e.pktLen e.now) :
    e.admitted + e.post.tokensBytes.toNat
      ≤ e.pre.tokensBytes.toNat + e.credited tscHz := by
  have hret : e.ret = _ := congrArg Prod.fst h
  have hpost : e.post = _ := congrArg Prod.snd h
  have hadd : (e.pre.tokensBytes + e.pre.credit tscHz e.now).toNat
      ≤ e.pre.tokensBytes.toNat + (e.pre.credit tscHz e.now).toNat := by
    rw [UInt64.toNat_add]
    exact Nat.mod_le _ _
  unfold QosEvent.admitted QosEvent.credited
  rcases e.pre.apply_cases tscHz e.own e.pktLen e.now with ⟨h₁, h₂⟩ | ⟨h₁, hle, h₂⟩
  · rw [hret, hpost, h₁, h₂]
    simpa using hadd
  · rw [hret, hpost, h₁, h₂, if_pos rfl, UInt64.toNat_sub_of_le _ _ hle]
    rw [UInt64.le_iff_toNat_le, UInt32.toNat_toUInt64] at hle
    rw [UInt32.toNat_toUInt64]
    omega

/-- **The balance of a history**: it admits at most what the bucket held at
its start and what its refills credited. -/
theorem sum_admitted_le (h : BucketTrace tscHz b es) :
    (es.map QosEvent.admitted).sum
      ≤ b.tokensBytes.toNat + (es.map (QosEvent.credited · tscHz)).sum := by
  induction es generalizing b with
  | nil => simp
  | cons e es ih =>
    obtain ⟨rfl, happly, hrest⟩ := h
    have hstep := admitted_add_post_le happly
    have htail := ih hrest
    simp only [map_cons, sum_cons]
    omega

/-- The tokens one call leaves are bounded by what its refill made of the
bucket. -/
theorem post_le_of_trace (h : BucketTrace tscHz b es) (he : e ∈ es) :
    e.post.tokensBytes.toNat ≤ e.pre.tokensBytes.toNat + e.credited tscHz := by
  induction es generalizing b with
  | nil => cases he
  | cons e₀ es ih =>
    obtain ⟨rfl, happly, hrest⟩ := h
    rcases mem_cons.mp he with rfl | he'
    · exact le_trans (Nat.le_add_left _ _) (admitted_add_post_le happly)
    · exact ih hrest he'

theorem post_lastTsc (h : (e.ret, e.post) = e.pre.apply tscHz e.own e.pktLen e.now) :
    e.post.lastTsc = e.now := by
  have hpost : e.post = _ := congrArg Prod.snd h
  rw [hpost]
  exact DpQosBucket.apply_lastTsc _ _ _ _ _

/-- **The refills of a history, in exact arithmetic**: with a constant rate
and no reading of zero, call by call what the rate yields over the ticks,
wrapped at 64 bits and rounded down. -/
theorem map_credited_eq (h : BucketTrace tscHz b es) (hb : b.lastTsc ≠ 0) (hR : b.rateLimitBps = R)
    (hrate : ∀ e ∈ es, e.rate = R) (hfirst : ∀ e ∈ es, b.lastTsc ≤ e.now) (hmono : TscMonotone es) :
    es.map (QosEvent.credited · tscHz)
      = (ticks b.lastTsc es).map (fun d => R.toNat / 8 * d % 2 ^ 64 / tscHz.toNat) := by
  induction es generalizing b with
  | nil => rfl
  | cons e es ih =>
    obtain ⟨rfl, happly, hrest⟩ := h
    have hnow := post_lastTsc happly
    have hle := hfirst e (by simp)
    have hne : e.now ≠ 0 := by
      intro h0
      rw [h0] at hle
      exact hb (UInt64.le_zero_iff.mp hle)
    have htail := ih hrest (by rw [hnow]; exact hne) (hrate e (by simp))
      (fun e' he' => hrate e' (mem_cons_of_mem _ he'))
      (fun e' he' => by rw [hnow]; exact (pairwise_cons.mp hmono).1 e' he')
      (pairwise_cons.mp hmono).2
    rw [map_cons, htail, hnow, ticks, map_cons]
    refine congrArg (· :: _) ?_
    rw [← hR]
    exact toNat_credit hb hle

theorem toNat_pos_of_ne_zero {x : UInt64} (hx : x ≠ 0) : 0 < x.toNat :=
  UInt64.lt_iff_toNat_lt.mp (UInt64.pos_iff_ne_zero.mpr hx)

/-- The refills of a history credit at most what the rate yields over the
time it spans. -/
theorem sum_credited_le (hz : tscHz ≠ 0) (h : BucketTrace tscHz b es) (hR : b.rateLimitBps = R)
    (hrate : ∀ e ∈ es, e.rate = R) (hfirst : ∀ e ∈ es, b.lastTsc ≤ e.now) (hmono : TscMonotone es) :
    (es.map (QosEvent.credited · tscHz)).sum
      ≤ R.toNat / 8 * (ticks b.lastTsc es).sum / tscHz.toNat := by
  have hpos := toNat_pos_of_ne_zero hz
  have hparts : (es.map (QosEvent.credited · tscHz)).sum
      ≤ (((ticks b.lastTsc es).map (R.toNat / 8 * ·)).map (· / tscHz.toNat)).sum := by
    induction es generalizing b with
    | nil => simp
    | cons e es ih =>
      obtain ⟨rfl, happly, hrest⟩ := h
      have hnow := post_lastTsc happly
      have htail := ih hrest (hrate e (by simp))
        (fun e' he' => hrate e' (mem_cons_of_mem _ he'))
        (fun e' he' => by rw [hnow]; exact (pairwise_cons.mp hmono).1 e' he')
        (pairwise_cons.mp hmono).2
      rw [hnow] at htail
      have hhead := toNat_credit_le tscHz (hfirst e (by simp))
      rw [hR] at hhead
      simp only [ticks, map_cons, sum_cons]
      exact Nat.add_le_add hhead htail
  calc (es.map (QosEvent.credited · tscHz)).sum
      ≤ (((ticks b.lastTsc es).map (R.toNat / 8 * ·)).map (· / tscHz.toNat)).sum := hparts
    _ ≤ ((ticks b.lastTsc es).map (R.toNat / 8 * ·)).sum / tscHz.toNat :=
        Accrual.sum_div_le hpos _
    _ = R.toNat / 8 * (ticks b.lastTsc es).sum / tscHz.toNat := by
        rw [sum_map_mul_left, map_id']

/-! ## Policing -/

/-- **Every window is policed**: the calls of a window admit together at
most one depth of `R / 8` bytes and what `R` bits per second yield between
the first and the last of them. -/
def WindowsPoliced (R tscHz : UInt64) (es : List QosEvent) : Prop :=
  ∀ l₁ w l₂ first last, es = l₁ ++ w ++ l₂ → w.head? = some first → w.getLast? = some last →
    (w.map QosEvent.admitted).sum
      ≤ R.toNat / 8 + R.toNat / 8 * (last.now.toNat - first.now.toNat) / tscHz.toNat

/-- The bucket never ends a call with more than its depth. -/
def TokensBounded (R : UInt64) (es : List QosEvent) : Prop :=
  ∀ e ∈ es, e.post.tokensBytes.toNat ≤ R.toNat / 8

/-- **The condition of a policed history**: no refill takes the bucket past
its depth – what a call finds in the bucket and what it credits fit
together. -/
def RefillsFit (R tscHz : UInt64) (es : List QosEvent) : Prop :=
  ∀ e ∈ es, e.pre.tokensBytes.toNat + e.credited tscHz ≤ R.toNat / 8

/-- A history whose refills fit is policed in every window. The window is
charged to the bucket its first call refilled; what is credited later is
what the rate yields over the rest of the window. -/
theorem windowsPoliced_of_refillsFit (hz : tscHz ≠ 0) (h : BucketTrace tscHz b es)
    (hrate : ∀ e ∈ es, e.rate = R) (hmono : TscMonotone es) (hfit : RefillsFit R tscHz es) :
    WindowsPoliced R tscHz es := by
  rintro l₁ w l₂ first last rfl hfirst hlast
  cases w with
  | nil => cases hfirst
  | cons e w =>
    obtain rfl : e = first := by simpa using hfirst
    have hw : BucketTrace tscHz e.pre (e :: w) := by
      rw [append_assoc] at h
      obtain ⟨b', hb'⟩ := h.append
      obtain rfl : e.pre = b' := hb'.1
      exact hb'.take
    have hsub : ∀ e' ∈ e :: w, e' ∈ l₁ ++ (e :: w) ++ l₂ := fun e' he' =>
      mem_append_left _ (mem_append_right _ he')
    have hmono' : TscMonotone (e :: w) :=
      (pairwise_append.mp (pairwise_append.mp hmono).1).2.1
    have hnow := post_lastTsc hw.2.1
    have hspend := sum_admitted_le hw
    have hhead := hfit e (hsub e (by simp))
    have hrest := sum_credited_le hz hw.2.2 (hrate e (hsub e (by simp)))
      (fun e' he' => hrate e' (hsub e' (mem_cons_of_mem _ he')))
      (fun e' he' => by rw [hnow]; exact (pairwise_cons.mp hmono').1 e' he')
      (pairwise_cons.mp hmono').2
    have hspan : (ticks e.post.lastTsc w).sum = last.now.toNat - e.now.toNat := by
      cases w with
      | nil =>
        obtain rfl : e = last := by simpa using hlast
        simp [ticks]
      | cons e' w =>
        rw [hnow]
        exact sum_ticks ((pairwise_cons.mp hmono').1 e' (by simp))
          (pairwise_cons.mp hmono').2 (by simpa using hlast)
    rw [hspan] at hrest
    simp only [map_cons, sum_cons] at hspend ⊢
    omega

/-- **Policing, where no refill goes past the depth.** In a run of a shaper
fresh from `dp_qos_init`, with whatever other packets and policy changes in
between, the calls on a tenant whose rate in force is constantly `R` are
policed in every window and leave at most one depth in the bucket, as long
as each of them refills the bucket to its depth at most. -/
theorem policing (tenantCount : UInt32) {tscHz : UInt64} (hz : tscHz ≠ 0)
    {ops : List QosOp} {es : List QosEvent} {q : DpQos}
    (hrun : qosRun (dpQosInit tenantCount tscHz) ops = some (es, q))
    (t : Fin dpMaxTenants) (R : UInt64)
    (hrate : ∀ e ∈ es.filter (fun e => e.tenant = t), e.rate = R)
    (hmono : TscMonotone (es.filter (fun e => e.tenant = t)))
    (hfit : RefillsFit R tscHz (es.filter (fun e => e.tenant = t))) :
    WindowsPoliced R tscHz (es.filter (fun e => e.tenant = t))
      ∧ TokensBounded R (es.filter (fun e => e.tenant = t)) := by
  have htrace : BucketTrace tscHz ((dpQosInit tenantCount tscHz).tenants t) _ :=
    bucketTrace_of_qosRun hrun t
  refine ⟨windowsPoliced_of_refillsFit hz htrace hrate hmono hfit, fun e he => ?_⟩
  exact le_trans (post_le_of_trace htrace he) (hfit e he)

/-- Two packets a microsecond apart, at one tick per nanosecond. -/
def steadyOps : List QosOp :=
  [.apply ⟨0, 0, 0⟩ 1500 1, .apply ⟨0, 0, 0⟩ 1500 1001]

/-- What `steadyOps` shows on a shaper of one tenant. -/
def steadyEvents : List QosEvent :=
  [⟨⟨0, by decide⟩, 0, 1500, 1, ⟨125000000, 0, 1000000000⟩, 0, ⟨124998500, 1, 1000000000⟩⟩,
    ⟨⟨0, by decide⟩, 0, 1500, 1001, ⟨124998500, 1, 1000000000⟩, 0,
      ⟨124997125, 1001, 1000000000⟩⟩]

/-- The steady packets are policed. -/
theorem policing_steady :
    WindowsPoliced dpDefaultRateBps 1000000000 steadyEvents
      ∧ TokensBounded dpDefaultRateBps steadyEvents := by
  have hmap : (qosRun (dpQosInit 1 1000000000) steadyOps).map Prod.fst = some steadyEvents := by
    decide
  obtain ⟨⟨_, q⟩, hrun, rfl⟩ := Option.map_eq_some_iff.mp hmap
  have hfilter : steadyEvents.filter (fun e => e.tenant = ⟨0, by decide⟩) = steadyEvents := by
    decide
  have h := policing 1 (by decide : (1000000000 : UInt64) ≠ 0) hrun ⟨0, by decide⟩ dpDefaultRateBps
    (by decide) (by unfold TscMonotone; decide) (by unfold RefillsFit; decide)
  rwa [hfilter] at h

/-- The packets of `policing_fails_after_idle_gap`: one at the start, then
two back to back after ten idle seconds. -/
def idleGapOps : List QosOp :=
  [.apply ⟨0, 0, 0⟩ 1500 1,
    .apply ⟨0, 0, 0⟩ 100000000 10000000001,
    .apply ⟨0, 0, 0⟩ 100000000 10000000001]

/-- What `idleGapOps` shows on a shaper of one tenant at one tick per
nanosecond: all three packets are admitted. -/
def idleGapEvents : List QosEvent :=
  [⟨⟨0, by decide⟩, 0, 1500, 1, ⟨125000000, 0, 1000000000⟩, 0, ⟨124998500, 1, 1000000000⟩⟩,
    ⟨⟨0, by decide⟩, 0, 100000000, 10000000001, ⟨124998500, 1, 1000000000⟩, 0,
      ⟨1274998500, 10000000001, 1000000000⟩⟩,
    ⟨⟨0, by decide⟩, 0, 100000000, 10000000001, ⟨1274998500, 10000000001, 1000000000⟩, 0,
      ⟨1174998500, 10000000001, 1000000000⟩⟩]

/-- **The bucket has no depth.** After ten idle seconds a tenant of one
gigabit per second sends two hundred megabytes at once: both packets are
admitted at one reading of the counter, where one depth is a hundred and
twenty-five megabytes. -/
theorem policing_fails_after_idle_gap :
    (qosRun (dpQosInit 1 1000000000) idleGapOps).map Prod.fst = some idleGapEvents
      ∧ (∀ e ∈ idleGapEvents, e.tenant = ⟨0, by decide⟩ ∧ e.rate = dpDefaultRateBps)
      ∧ TscMonotone idleGapEvents
      ∧ ¬ WindowsPoliced dpDefaultRateBps 1000000000 idleGapEvents
      ∧ ¬ TokensBounded dpDefaultRateBps idleGapEvents := by
  refine ⟨by decide, by decide, by unfold TscMonotone; decide, fun h => ?_,
    by unfold TokensBounded; decide⟩
  have hwindow := h (idleGapEvents.take 1) (idleGapEvents.drop 1) [] _ _ (by decide) rfl rfl
  exact absurd hwindow (by decide)

/-! ## Refill exactness -/

/-- **The refills are exact to a byte**: no product of the refills wraps 64
bits, and the bytes they credit over the ticks `ds` are what the rate
yields over all of them, to within one byte. -/
def RefillExact (rateBps tscHz : UInt64) (ds : List ℕ) (credited : ℕ) : Prop :=
  (∀ d ∈ ds, rateBps.toNat / 8 * d < 2 ^ 64)
    ∧ credited ≤ rateBps.toNat / 8 * ds.sum / tscHz.toNat + 1
    ∧ rateBps.toNat / 8 * ds.sum / tscHz.toNat ≤ credited + 1

/-- **When the refills are exact.** Over the calls on a bucket that has seen
a packet, at a constant rate and whatever the rest of the run does, the
bytes credited are what the rate yields over the elapsed ticks, to within
one byte and with no product wrapping, exactly when every product fits 64
bits and the remainders the refills drop add up to less than two bytes. -/
theorem refillExact_iff {q q' : DpQos} {ops : List QosOp} {es : List QosEvent}
    (hz : q.tscHz ≠ 0) (hrun : qosRun q ops = some (es, q')) (t : Fin dpMaxTenants)
    (rateBps : UInt64) (hb : (q.tenants t).lastTsc ≠ 0)
    (hrate₀ : (q.tenants t).rateLimitBps = rateBps)
    (hrate : ∀ e ∈ es.filter (fun e => e.tenant = t), e.rate = rateBps)
    (hfirst : ∀ e ∈ es.filter (fun e => e.tenant = t), (q.tenants t).lastTsc ≤ e.now)
    (hmono : TscMonotone (es.filter (fun e => e.tenant = t))) :
    RefillExact rateBps q.tscHz
        (ticks (q.tenants t).lastTsc (es.filter (fun e => e.tenant = t)))
        (((es.filter (fun e => e.tenant = t)).map (QosEvent.credited · q.tscHz)).sum)
      ↔ (∀ d ∈ ticks (q.tenants t).lastTsc (es.filter (fun e => e.tenant = t)),
            rateBps.toNat / 8 * d < 2 ^ 64)
        ∧ ((ticks (q.tenants t).lastTsc (es.filter (fun e => e.tenant = t))).map
            (fun d => rateBps.toNat / 8 * d % q.tscHz.toNat)).sum < 2 * q.tscHz.toNat := by
  have hpos := toNat_pos_of_ne_zero hz
  rw [map_credited_eq (bucketTrace_of_qosRun hrun t) hb hrate₀ hrate hfirst hmono]
  generalize ticks (q.tenants t).lastTsc (es.filter (fun e => e.tenant = t)) = ds
  unfold RefillExact
  refine and_congr_right (fun hfit => ?_)
  -- without a wrapped product the refills are the parts of the whole, each rounded down
  have hparts : ds.map (fun d => rateBps.toNat / 8 * d % 2 ^ 64 / q.tscHz.toNat)
      = (ds.map (rateBps.toNat / 8 * ·)).map (· / q.tscHz.toNat) := by
    rw [map_map]
    refine map_congr_left (fun d hd => ?_)
    rw [Nat.mod_eq_of_lt (hfit d hd)]
    rfl
  have hwhole : rateBps.toNat / 8 * ds.sum = (ds.map (rateBps.toNat / 8 * ·)).sum := by
    rw [sum_map_mul_left, map_id']
  have hrem : ds.map (fun d => rateBps.toNat / 8 * d % q.tscHz.toNat)
      = (ds.map (rateBps.toNat / 8 * ·)).map (· % q.tscHz.toNat) := by
    rw [map_map]
    rfl
  rw [hparts, hwhole, hrem, ← Accrual.sum_div_within_one_iff hpos]
  have hle := Accrual.sum_div_le hpos (ds.map (rateBps.toNat / 8 * ·))
  exact ⟨fun h => h.2, fun h => ⟨le_trans hle (Nat.le_succ _), h⟩⟩

/-- A shaper of one tenant at three ticks per nanosecond, right after a
packet of its tenant. -/
def warmQos : DpQos :=
  { dpQosInit 1 3000000000 with tenants := fun _ => ⟨125000000, 1000, dpDefaultRateBps⟩ }

/-- Packets `gap` ticks apart, `n` of them. -/
def spacedOps (gap : UInt64) (n : ℕ) : List QosOp :=
  (List.range n).map (fun k => .apply ⟨0, 0, 0⟩ 64 (1000 + gap * (UInt64.ofNat k + 1)))

/-- What `spacedOps` shows on `warmQos`. -/
def spacedEvents (gap : UInt64) (n : ℕ) : List QosEvent :=
  ((qosRun warmQos (spacedOps gap n)).map Prod.fst).getD []

/-- Packets twenty-four ticks apart are credited one byte each, and none is
lost. -/
theorem refillExact_spaced :
    RefillExact dpDefaultRateBps 3000000000 (ticks 1000 (spacedEvents 24 4))
      (((spacedEvents 24 4).map (QosEvent.credited · 3000000000)).sum) := by
  have hmap : (qosRun warmQos (spacedOps 24 4)).map Prod.fst = some (spacedEvents 24 4) := by
    decide
  obtain ⟨⟨_, q⟩, hrun, rfl⟩ := Option.map_eq_some_iff.mp hmap
  have hfilter : (spacedEvents 24 4).filter (fun e => e.tenant = ⟨0, by decide⟩)
      = spacedEvents 24 4 := by
    decide
  have h := (refillExact_iff (by decide : warmQos.tscHz ≠ 0) hrun ⟨0, by decide⟩ dpDefaultRateBps
    (by decide) (by decide) (by decide) (by decide) (by unfold TscMonotone; decide)).mpr
    (by decide)
  rwa [hfilter] at h

/-- **Truncation loses the rate.** Packets twenty ticks apart at three ticks
per nanosecond: the tenant is owed eight bytes for ten of them, and every
single refill rounds down to nothing. -/
theorem refill_loses_rate :
    (qosRun warmQos (spacedOps 20 10)).map Prod.fst = some (spacedEvents 20 10)
      ∧ (∀ e ∈ spacedEvents 20 10, e.tenant = ⟨0, by decide⟩ ∧ e.rate = dpDefaultRateBps)
      ∧ ticks 1000 (spacedEvents 20 10) = List.replicate 10 20
      ∧ ((spacedEvents 20 10).map (QosEvent.credited · 3000000000)).sum = 0
      ∧ dpDefaultRateBps.toNat / 8 * (ticks 1000 (spacedEvents 20 10)).sum / 3000000000 = 8
      ∧ ¬ RefillExact dpDefaultRateBps 3000000000 (ticks 1000 (spacedEvents 20 10))
        ((spacedEvents 20 10).map (QosEvent.credited · 3000000000)).sum := by
  refine ⟨by decide, by decide, by decide, by decide, by decide, ?_⟩
  unfold RefillExact
  decide

end TenantQos
