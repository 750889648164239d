import Mathlib.Tactic.Linarith
import DpdkStudy.Lib.Allowance
import DpdkStudy.Meter.Meter

/-!
# What a meter lets through

A meter conforms to its profile: over any window of calls, the bytes of a
colour are bounded by the size of the buckets that pay for the colour, and by
what these are refilled with between the bucket updates at the two ends of
the window (`conformance`). The levels of the buckets pay for the bytes
(`Allowance.Refills`), so no sum of a run is needed.

The arithmetic of the buckets is that of 64-bit words. A refill that wraps
leaves less in a bucket than it should, so the bounds hold without any bound
on the products.
-/

namespace Meter

open Allowance Runs

/-- **The calls are in order**, and none is before the meter was configured. -/
def InOrder (now : UInt64) (calls : List Call) : Prop :=
  (∀ c ∈ calls, now ≤ c.time) ∧ calls.Pairwise (fun a b => a.time ≤ b.time)

/-- The bytes of a packet that gets one of some colours. -/
def coloured {σ : Type} (check : σ → Call → RteColor × σ) (colors : List RteColor) (m : σ)
    (c : Call) : ℕ :=
  if (check m c).1 ∈ colors then c.pktLen.toNat else 0

/-- The meter after a call. -/
def after {σ : Type} (check : σ → Call → RteColor × σ) (m : σ) (c : Call) : σ := (check m c).2

/-! ## Buckets -/

/-- **A bucket update** moves the time on by whole periods, to the time of
the call at most, and adds no more than the bytes of these periods. -/
theorem bucketUpdate_spec (tokens period bytes : UInt64) {time mTime : UInt64} (h : mTime ≤ time) :
    ∃ n, (bucketUpdate time mTime tokens period bytes).1.toNat = mTime.toNat + n * period.toNat
      ∧ (bucketUpdate time mTime tokens period bytes).1 ≤ time
      ∧ (bucketUpdate time mTime tokens period bytes).2.toNat
        ≤ tokens.toNat + n * bytes.toNat := by
  have hle : mTime.toNat ≤ time.toNat := h
  have hdiff : (time - mTime).toNat = time.toNat - mTime.toNat := UInt64.toNat_sub_of_le _ _ h
  have hperiods : ((time - mTime) / period).toNat
      = (time.toNat - mTime.toNat) / period.toNat := by
    rw [UInt64.toNat_div, hdiff]
  have hmul := Nat.div_mul_le_self (time.toNat - mTime.toNat) period.toNat
  have htime := time.toNat_lt
  have hclock : (bucketUpdate time mTime tokens period bytes).1.toNat
      = mTime.toNat + (time.toNat - mTime.toNat) / period.toNat * period.toNat := by
    show (mTime + (time - mTime) / period * period).toNat = _
    rw [UInt64.toNat_add, UInt64.toNat_mul, hperiods, Nat.mod_eq_of_lt (by omega),
      Nat.mod_eq_of_lt (by omega)]
  refine ⟨(time.toNat - mTime.toNat) / period.toNat, hclock, ?_, ?_⟩
  · rw [UInt64.le_iff_toNat_le, hclock]
    omega
  · show (tokens + (time - mTime) / period * bytes).toNat ≤ _
    rw [UInt64.toNat_add, UInt64.toNat_mul, hperiods]
    exact (Nat.mod_le _ _).trans (Nat.add_le_add_left (Nat.mod_le _ _) _)

theorem toNat_le {tokens : UInt64} {len : UInt32} (h : len.toUInt64 ≤ tokens) :
    len.toNat ≤ tokens.toNat := by
  rw [← UInt32.toNat_toUInt64 len]
  exact h

/-- What is left in a bucket after a packet it can pay for. -/
theorem toNat_debit {tokens : UInt64} {len : UInt32} (h : len.toUInt64 ≤ tokens) :
    len.toNat + (tokens - len.toUInt64).toNat = tokens.toNat := by
  rw [UInt64.toNat_sub_of_le _ _ h, UInt32.toNat_toUInt64, Nat.add_sub_cancel' (toNat_le h)]

theorem toNat_cut (tokens cap : UInt64) :
    (if tokens > cap then cap else tokens).toNat ≤ tokens.toNat
      ∧ (if tokens > cap then cap else tokens) ≤ cap := by
  by_cases h : tokens > cap
  · rw [if_pos h]
    exact ⟨le_of_lt h, UInt64.le_refl cap⟩
  · rw [if_neg h]
    exact ⟨le_refl _, UInt64.not_lt.mp h⟩

/-! ## Runs -/

/-- **The bound of every window** of a run, from a call to the last: the bytes
of some colours are at most `cap`, and `amount` for each period between the
bucket update of the first call and that of the last. -/
def WindowBound {σ : Type} (check : σ → Call → RteColor × σ) (colors : List RteColor)
    (clock : σ → UInt64) (cap amount period : ℕ) (m : σ) (calls : List Call) : Prop :=
  ∀ before c rest, calls = before ++ c :: rest →
    spent (after check) (coloured check colors) (run (after check) m before) (c :: rest)
      ≤ cap + amount * (((clock (run (after check) m calls)).toNat
        - (clock (run (after check) m (before ++ [c]))).toNat) / period)

/-- **The bound of a window**, from what a call may do to a level that pays
for the bytes of the colours. -/
theorem windowBound_of_level {σ : Type} {check : σ → Call → RteColor × σ}
    {colors : List RteColor} {Ok : σ → Call → Prop} {clock : σ → UInt64} (level : σ → ℕ)
    {cap amount period : ℕ}
    (hstep : ∀ m c, Ok m c → ∃ n, (clock (after check m c)).toNat = (clock m).toNat + n * period
      ∧ coloured check colors m c + level (after check m c) ≤ min cap (level m + n * amount))
    (hperiod : 0 < period) {m : σ} {calls : List Call} (h : Along (after check) Ok m calls) :
    WindowBound check colors clock cap amount period m calls := by
  rintro before c rest rfl
  obtain ⟨-, hc, hrest⟩ := h.append
  have hrefills : Refills (after check) (coloured check colors) Ok level
      (fun m => (clock m).toNat) period amount := by
    intro m c hok
    obtain ⟨n, hclock, hlevel⟩ := hstep m c hok
    exact ⟨n, hclock, (Nat.le_min.mp hlevel).2⟩
  obtain ⟨n, -, hlevel⟩ := hstep _ c hc
  rw [run_append, run_append]
  exact hrefills.spent_window_le hperiod (Nat.le_min.mp hlevel).1 hrest

/-- **A run in order** allows each of its calls: the time of the meter is the
time of an earlier call at most. -/
theorem along_of_inOrder {σ : Type} {check : σ → Call → RteColor × σ} {clock : σ → UInt64}
    (hclock : ∀ m c, clock m ≤ c.time → clock (after check m c) ≤ c.time)
    {m : σ} {now : UInt64} (hm : clock m ≤ now) {calls : List Call} (h : InOrder now calls) :
    Along (after check) (fun m c => clock m ≤ c.time) m calls := by
  induction calls generalizing m now with
  | nil => exact trivial
  | cons c calls ih =>
    obtain ⟨hnow, hpair⟩ := h
    obtain ⟨hle, hpair'⟩ := List.pairwise_cons.mp hpair
    have hc : clock m ≤ c.time := UInt64.le_trans hm (hnow c List.mem_cons_self)
    exact ⟨hc, ih (hclock m c hc) ⟨hle, hpair'⟩⟩

/-! ## A bucket with a rate of its own -/

/-- An update of a bucket that is then cut to its size. -/
theorem bucketUpdate_cut_spec (tokens period bytes cap : UInt64) {time mTime : UInt64}
    (h : mTime ≤ time) :
    ∃ n, (bucketUpdate time mTime tokens period bytes).1.toNat = mTime.toNat + n * period.toNat
      ∧ (bucketUpdate time mTime tokens period bytes).1 ≤ time
      ∧ (if (bucketUpdate time mTime tokens period bytes).2 > cap then cap
          else (bucketUpdate time mTime tokens period bytes).2).toNat
        ≤ min cap.toNat (tokens.toNat + n * bytes.toNat) := by
  obtain ⟨n, hclock, hle, htokens⟩ := bucketUpdate_spec tokens period bytes h
  obtain ⟨hcut, hfits⟩ := toNat_cut (bucketUpdate time mTime tokens period bytes).2 cap
  exact ⟨n, hclock, hle, Nat.le_min.mpr ⟨hfits, hcut.trans htokens⟩⟩

/-- **A bucket pays for some colours**: a check refills it, cuts it to its
size, and takes out of it the bytes of the packets of these colours. -/
def Pays {σ : Type} (check : σ → Call → RteColor × σ) (colors : List RteColor)
    (clock tokens : σ → UInt64) (cap period bytes : UInt64) : Prop :=
  ∀ m c, clock (after check m c) = (bucketUpdate c.time (clock m) (tokens m) period bytes).1
    ∧ coloured check colors m c + (tokens (after check m c)).toNat
      = (if (bucketUpdate c.time (clock m) (tokens m) period bytes).2 > cap then cap
        else (bucketUpdate c.time (clock m) (tokens m) period bytes).2).toNat

section Pays

variable {σ : Type} {check : σ → Call → RteColor × σ} {colors : List RteColor}
  {clock tokens : σ → UInt64} {cap period bytes : UInt64}

variable (h : Pays check colors clock tokens cap period bytes)

include h

/-- **A call** moves the clock on by whole periods, and what the bucket pays
comes from what it held and the bytes of these periods. -/
theorem Pays.step {m : σ} {c : Call} (hle : clock m ≤ c.time) :
    ∃ n, (clock (after check m c)).toNat = (clock m).toNat + n * period.toNat
      ∧ clock (after check m c) ≤ c.time
      ∧ coloured check colors m c + (tokens (after check m c)).toNat
        ≤ min cap.toNat ((tokens m).toNat + n * bytes.toNat) := by
  obtain ⟨hclock, hpaid⟩ := h m c
  rw [hclock, hpaid]
  exact bucketUpdate_cut_spec (tokens m) period bytes cap hle

/-- A run in order leaves no call behind the clock of the bucket. -/
theorem Pays.along {m : σ} {now : UInt64} (hm : clock m ≤ now) {calls : List Call}
    (hin : InOrder now calls) :
    Along (after check) (fun m c => clock m ≤ c.time) m calls := by
  refine along_of_inOrder (fun m c hle => ?_) hm hin
  obtain ⟨n, -, hle', -⟩ := h.step hle
  exact hle'

/-- **A bucket conforms**: it never holds more than it can, and bounds the
bytes of the colours it pays for. -/
theorem Pays.conforms (hperiod : 0 < period) {m : σ} {now : UInt64} (hm : clock m ≤ now)
    (hcap : tokens m ≤ cap) {calls : List Call} (hin : InOrder now calls) :
    tokens (run (after check) m calls) ≤ cap
      ∧ WindowBound check colors clock cap.toNat bytes.toNat period.toNat m calls := by
  refine ⟨(h.along hm hin).invariant (P := fun m => tokens m ≤ cap) (fun m c _ hle => ?_) hcap,
    windowBound_of_level (fun m => (tokens m).toNat) (fun m c hle => ?_) hperiod (h.along hm hin)⟩
  · obtain ⟨n, -, -, hpaid⟩ := h.step hle
    exact (Nat.le_add_left _ _).trans (Nat.le_min.mp hpaid).1
  · obtain ⟨n, hclock, -, hpaid⟩ := h.step hle
    exact ⟨n, hclock, hpaid⟩

end Pays

/-! ## srTCM -/

section Srtcm

variable {p : SrtcmProfile}

/-- The buckets of the meter hold no more than they can. -/
def SrtcmFits (p : SrtcmProfile) (m : Srtcm) : Prop := m.tc ≤ p.cbs ∧ m.te ≤ p.ebs

/-- **The bucket update of srTCM** adds no more to the two buckets together
than the bytes of the periods. -/
theorem srtcmUpdate_spec {m : Srtcm} {time : UInt64} (h : m.time ≤ time) :
    ∃ n, (srtcmUpdate m p time).time.toNat = m.time.toNat + n * p.cirPeriod.toNat
      ∧ (srtcmUpdate m p time).time ≤ time
      ∧ (srtcmUpdate m p time).tc.toNat ≤ m.tc.toNat + n * p.cirBytesPerPeriod.toNat
      ∧ (srtcmUpdate m p time).tc.toNat + (srtcmUpdate m p time).te.toNat
        ≤ m.tc.toNat + m.te.toNat + n * p.cirBytesPerPeriod.toNat
      ∧ (srtcmUpdate m p time).tc ≤ p.cbs
      ∧ (m.te ≤ p.ebs → (srtcmUpdate m p time).te ≤ p.ebs) := by
  obtain ⟨n, hclock, hle, htokens⟩ := bucketUpdate_spec m.tc p.cirPeriod p.cirBytesPerPeriod h
  unfold srtcmUpdate
  dsimp only
  generalize bucketUpdate time m.time m.tc p.cirPeriod p.cirBytesPerPeriod = u at hclock hle htokens
  refine ⟨n, ?_⟩
  by_cases hover : u.2 > p.cbs
  · rw [if_pos hover]
    have hlt : p.cbs.toNat < u.2.toNat := hover
    obtain ⟨hcut, hfits⟩ := toNat_cut (m.te + (u.2 - p.cbs)) p.ebs
    have hadd : (m.te + (u.2 - p.cbs)).toNat ≤ m.te.toNat + (u.2.toNat - p.cbs.toNat) := by
      rw [UInt64.toNat_add, UInt64.toNat_sub_of_le _ _ (UInt64.le_of_lt hover)]
      exact Nat.mod_le _ _
    refine ⟨hclock, hle, ?_, ?_, UInt64.le_refl p.cbs, fun _ => hfits⟩
    · show p.cbs.toNat ≤ _
      omega
    · show p.cbs.toNat
        + (if m.te + (u.2 - p.cbs) > p.ebs then p.ebs else m.te + (u.2 - p.cbs)).toNat ≤ _
      omega
  · rw [if_neg hover]
    refine ⟨hclock, hle, htokens, ?_, UInt64.not_lt.mp hover, id⟩
    show u.2.toNat + m.te.toNat ≤ _
    omega

/-- The meter is not ahead of the call. -/
abbrev SrtcmOk (m : Srtcm) (c : Call) : Prop := ∀ t ∈ [m.time], t ≤ c.time

/-- **What a check of srTCM pays**: a green packet is paid for by the
committed bucket, a yellow one by the excess bucket, a red one by none. -/
theorem srtcmCheck_paid (p : SrtcmProfile) (m : Srtcm) (c : Call) :
    (after (srtcmCheck p) m c).time = (srtcmUpdate m p c.time).time
      ∧ coloured (srtcmCheck p) [.green] m c + (after (srtcmCheck p) m c).tc.toNat
        = (srtcmUpdate m p c.time).tc.toNat
      ∧ coloured (srtcmCheck p) [.yellow] m c + (after (srtcmCheck p) m c).te.toNat
        = (srtcmUpdate m p c.time).te.toNat := by
  obtain ⟨time, len, color⟩ := c
  unfold coloured after srtcmCheck
  cases color with
  | none =>
    by_cases hc : len.toUInt64 ≤ (srtcmUpdate m p time).tc
    · simp [rteMeterSrtcmColorBlindCheck, hc, Nat.add_sub_cancel' (toNat_le hc)]
    · by_cases he : len.toUInt64 ≤ (srtcmUpdate m p time).te
      · simp [rteMeterSrtcmColorBlindCheck, hc, he, Nat.add_sub_cancel' (toNat_le he)]
      · simp [rteMeterSrtcmColorBlindCheck, hc, he]
  | some color =>
    by_cases hc : color = .green ∧ len.toUInt64 ≤ (srtcmUpdate m p time).tc
    · simp [rteMeterSrtcmColorAwareCheck, hc, Nat.add_sub_cancel' (toNat_le hc.2)]
    · by_cases he : color ≠ .red ∧ len.toUInt64 ≤ (srtcmUpdate m p time).te
      · simp [rteMeterSrtcmColorAwareCheck, hc, he, Nat.add_sub_cancel' (toNat_le he.2)]
      · simp [rteMeterSrtcmColorAwareCheck, hc, he]

/-- The committed bucket of srTCM pays for the green packets. -/
theorem srtcmCheck_pays (p : SrtcmProfile) : Pays (srtcmCheck p) [.green] Srtcm.time Srtcm.tc
    p.cbs p.cirPeriod p.cirBytesPerPeriod := by
  intro m c
  obtain ⟨htime, hgreen, -⟩ := srtcmCheck_paid p m c
  rw [htime, hgreen]
  unfold srtcmUpdate
  constructor <;> dsimp only <;> split_ifs <;> rfl

/-- **The two buckets of srTCM together** pay for the green and the yellow
packets, with the committed rate. -/
theorem srtcmCheck_both {m : Srtcm} {c : Call} (hte : m.te ≤ p.ebs) (h : SrtcmOk m c) :
    ∃ n, (after (srtcmCheck p) m c).time.toNat = m.time.toNat + n * p.cirPeriod.toNat
      ∧ coloured (srtcmCheck p) [.green, .yellow] m c
          + ((after (srtcmCheck p) m c).tc.toNat + (after (srtcmCheck p) m c).te.toNat)
        ≤ min (p.cbs.toNat + p.ebs.toNat)
          (m.tc.toNat + m.te.toNat + n * p.cirBytesPerPeriod.toNat)
      ∧ (after (srtcmCheck p) m c).te ≤ p.ebs := by
  obtain ⟨n, hclock, -, -, hboth, hcbs, hebs⟩ :=
    srtcmUpdate_spec (p := p) (h m.time List.mem_cons_self)
  obtain ⟨htime, hgreen, hyellow⟩ := srtcmCheck_paid p m c
  have hcbs' : (srtcmUpdate m p c.time).tc.toNat ≤ p.cbs.toNat := hcbs
  have hebs' : (srtcmUpdate m p c.time).te.toNat ≤ p.ebs.toNat := hebs hte
  have hsum : coloured (srtcmCheck p) [.green, .yellow] m c
      = coloured (srtcmCheck p) [.green] m c + coloured (srtcmCheck p) [.yellow] m c := by
    unfold coloured
    cases (srtcmCheck p m c).1 <;> simp
  refine ⟨n, htime ▸ hclock, by omega, ?_⟩
  show (after (srtcmCheck p) m c).te.toNat ≤ p.ebs.toNat
  omega

end Srtcm

/-! ## The two trTCM -/

section Trtcm

variable {p : TrtcmProfile}

/-- The buckets of the meter hold no more than they can. -/
def TrtcmFits (p : TrtcmProfile) (m : Trtcm) : Prop := m.tc ≤ p.cbs ∧ m.tp ≤ p.pbs

/-- **What a check of trTCM does**: a yellow packet is paid for by the peak
bucket, a green one by both buckets, a red one by none. -/
theorem trtcmCheck_pays (p : TrtcmProfile) :
    Pays (trtcmCheck p) [.green] Trtcm.timeTc Trtcm.tc p.cbs p.cirPeriod p.cirBytesPerPeriod
      ∧ Pays (trtcmCheck p) [.green, .yellow] Trtcm.timeTp Trtcm.tp p.pbs p.pirPeriod
        p.pirBytesPerPeriod := by
  rw [Pays, Pays, ← forall_and]
  intro m
  rw [← forall_and]
  rintro ⟨time, len, color⟩
  show ((after (trtcmCheck p) m ⟨time, len, color⟩).timeTc = (trtcmUpdate m p time).timeTc ∧
      _ = (trtcmUpdate m p time).tc.toNat) ∧
    (after (trtcmCheck p) m ⟨time, len, color⟩).timeTp = (trtcmUpdate m p time).timeTp ∧
      _ = (trtcmUpdate m p time).tp.toNat
  unfold coloured after trtcmCheck
  cases color with
  | none =>
    by_cases hp : (trtcmUpdate m p time).tp < len.toUInt64
    · simp [rteMeterTrtcmColorBlindCheck, hp]
    · have hp' := toNat_debit (UInt64.not_lt.mp hp)
      by_cases hc : (trtcmUpdate m p time).tc < len.toUInt64
      · simp [rteMeterTrtcmColorBlindCheck, hp, hc, hp']
      · simp [rteMeterTrtcmColorBlindCheck, hp, hc, hp', toNat_debit (UInt64.not_lt.mp hc)]
  | some color =>
    by_cases hp : color = .red ∨ (trtcmUpdate m p time).tp < len.toUInt64
    · simp [rteMeterTrtcmColorAwareCheck, hp]
    · have hp' := toNat_debit (UInt64.not_lt.mp (not_or.mp hp).2)
      by_cases hc : color = .yellow ∨ (trtcmUpdate m p time).tc < len.toUInt64
      · simp [rteMeterTrtcmColorAwareCheck, hp, hc, hp']
      · simp [rteMeterTrtcmColorAwareCheck, hp, hc, hp',
          toNat_debit (UInt64.not_lt.mp (not_or.mp hc).2)]

end Trtcm

section Rfc4115

variable {p : TrtcmRfc4115Profile}

/-- The buckets of the meter hold no more than they can. -/
def Rfc4115Fits (p : TrtcmRfc4115Profile) (m : TrtcmRfc4115) : Prop := m.tc ≤ p.cbs ∧ m.te ≤ p.ebs

/-- **What a check of RFC 4115 does**: a green packet is paid for by the
committed bucket, a yellow one by the excess bucket, a red one by none. -/
theorem rfc4115Check_pays (p : TrtcmRfc4115Profile) :
    Pays (rfc4115Check p) [.green] TrtcmRfc4115.timeTc TrtcmRfc4115.tc p.cbs p.cirPeriod
        p.cirBytesPerPeriod
      ∧ Pays (rfc4115Check p) [.yellow] TrtcmRfc4115.timeTe TrtcmRfc4115.te p.ebs p.eirPeriod
        p.eirBytesPerPeriod := by
  rw [Pays, Pays, ← forall_and]
  intro m
  rw [← forall_and]
  rintro ⟨time, len, color⟩
  show ((after (rfc4115Check p) m ⟨time, len, color⟩).timeTc = (rfc4115Update m p time).timeTc ∧
      _ = (rfc4115Update m p time).tc.toNat) ∧
    (after (rfc4115Check p) m ⟨time, len, color⟩).timeTe = (rfc4115Update m p time).timeTe ∧
      _ = (rfc4115Update m p time).te.toNat
  unfold coloured after rfc4115Check
  cases color with
  | none =>
    by_cases hc : len.toUInt64 ≤ (rfc4115Update m p time).tc
    · simp [rteMeterTrtcmRfc4115ColorBlindCheck, hc, Nat.add_sub_cancel' (toNat_le hc)]
    · by_cases he : len.toUInt64 ≤ (rfc4115Update m p time).te
      · simp [rteMeterTrtcmRfc4115ColorBlindCheck, hc, he, Nat.add_sub_cancel' (toNat_le he)]
      · simp [rteMeterTrtcmRfc4115ColorBlindCheck, hc, he]
  | some color =>
    by_cases hc : color = .green ∧ len.toUInt64 ≤ (rfc4115Update m p time).tc
    · simp [rteMeterTrtcmRfc4115ColorAwareCheck, hc, Nat.add_sub_cancel' (toNat_le hc.2)]
    · by_cases he : color ≠ .red ∧ len.toUInt64 ≤ (rfc4115Update m p time).te
      · simp [rteMeterTrtcmRfc4115ColorAwareCheck, hc, he, Nat.add_sub_cancel' (toNat_le he.2)]
      · simp [rteMeterTrtcmRfc4115ColorAwareCheck, hc, he]

end Rfc4115

/-! ## Conformance -/

theorem srtcm_conforms {p : SrtcmProfile} (hperiod : 0 < p.cirPeriod) {now : UInt64}
    {calls : List Call} (h : InOrder now calls) :
    SrtcmFits p (run (after (srtcmCheck p)) (rteMeterSrtcmConfig p now) calls)
      ∧ WindowBound (srtcmCheck p) [.green] Srtcm.time p.cbs.toNat p.cirBytesPerPeriod.toNat
        p.cirPeriod.toNat (rteMeterSrtcmConfig p now) calls
      ∧ WindowBound (srtcmCheck p) [.green, .yellow] Srtcm.time (p.cbs.toNat + p.ebs.toNat)
        p.cirBytesPerPeriod.toNat p.cirPeriod.toNat (rteMeterSrtcmConfig p now) calls := by
  have hpays := srtcmCheck_pays p
  have hnow : (rteMeterSrtcmConfig p now).time ≤ now := UInt64.le_refl _
  have halong : Along (after (srtcmCheck p)) (fun m c => m.te ≤ p.ebs ∧ SrtcmOk m c)
      (rteMeterSrtcmConfig p now) calls := by
    refine (hpays.along hnow h).imp_of_invariant (P := fun m => m.te ≤ p.ebs)
      (fun m c hte hle => ?_) (UInt64.le_refl _)
    have hok : SrtcmOk m c := fun t ht => by rwa [List.mem_singleton.mp ht]
    obtain ⟨n, -, -, hte'⟩ := srtcmCheck_both hte hok
    exact ⟨⟨hte, hok⟩, hte'⟩
  obtain ⟨hcbs, hgreen⟩ := hpays.conforms hperiod hnow (UInt64.le_refl _) h
  refine ⟨⟨hcbs, halong.invariant (P := fun m => m.te ≤ p.ebs) (fun m c hte hok => ?_)
    (UInt64.le_refl _)⟩, hgreen, windowBound_of_level (fun m => m.tc.toNat + m.te.toNat)
      (fun m c hok => ?_) hperiod halong⟩
  · obtain ⟨n, -, -, hte'⟩ := srtcmCheck_both hte hok.2
    exact hte'
  · obtain ⟨n, hclock, hboth, -⟩ := srtcmCheck_both hok.1 hok.2
    exact ⟨n, hclock, hboth⟩

/-- **The meters conform to their profiles**: over every window of a run, the
bytes of a colour are bounded by the buckets that pay for it and their
refills. -/
theorem conformance {now : UInt64} {calls : List Call} (h : InOrder now calls) :
    (∀ p : SrtcmProfile, 1 ≤ p.cirPeriod →
      SrtcmFits p (run (after (srtcmCheck p)) (rteMeterSrtcmConfig p now) calls)
        ∧ WindowBound (srtcmCheck p) [.green] Srtcm.time p.cbs.toNat p.cirBytesPerPeriod.toNat
          p.cirPeriod.toNat (rteMeterSrtcmConfig p now) calls
        ∧ WindowBound (srtcmCheck p) [.green, .yellow] Srtcm.time (p.cbs.toNat + p.ebs.toNat)
          p.cirBytesPerPeriod.toNat p.cirPeriod.toNat (rteMeterSrtcmConfig p now) calls)
      ∧ (∀ p : TrtcmProfile, 1 ≤ p.cirPeriod → 1 ≤ p.pirPeriod →
        TrtcmFits p (run (after (trtcmCheck p)) (rteMeterTrtcmConfig p now) calls)
          ∧ WindowBound (trtcmCheck p) [.green] Trtcm.timeTc p.cbs.toNat
            p.cirBytesPerPeriod.toNat p.cirPeriod.toNat (rteMeterTrtcmConfig p now) calls
          ∧ WindowBound (trtcmCheck p) [.green, .yellow] Trtcm.timeTp p.pbs.toNat
            p.pirBytesPerPeriod.toNat p.pirPeriod.toNat (rteMeterTrtcmConfig p now) calls)
      ∧ (∀ p : TrtcmRfc4115Profile, 1 ≤ p.cirPeriod → 1 ≤ p.eirPeriod →
        Rfc4115Fits p (run (after (rfc4115Check p)) (rteMeterTrtcmRfc4115Config p now) calls)
          ∧ WindowBound (rfc4115Check p) [.green] TrtcmRfc4115.timeTc p.cbs.toNat
            p.cirBytesPerPeriod.toNat p.cirPeriod.toNat (rteMeterTrtcmRfc4115Config p now) calls
          ∧ WindowBound (rfc4115Check p) [.yellow] TrtcmRfc4115.timeTe p.ebs.toNat
            p.eirBytesPerPeriod.toNat p.eirPeriod.toNat
            (rteMeterTrtcmRfc4115Config p now) calls) := by
  have hpos : ∀ {x : UInt64}, 1 ≤ x → 0 < x := fun hx => Nat.lt_of_lt_of_le Nat.zero_lt_one hx
  refine ⟨fun p hp => srtcm_conforms (hpos hp) h, fun p hc hp => ?_, fun p hc he => ?_⟩
  · obtain ⟨hcbs, hgreen⟩ := (trtcmCheck_pays p).1.conforms (m := rteMeterTrtcmConfig p now)
      (hpos hc) (UInt64.le_refl now) (UInt64.le_refl p.cbs) h
    obtain ⟨hpbs, hyellow⟩ := (trtcmCheck_pays p).2.conforms (m := rteMeterTrtcmConfig p now)
      (hpos hp) (UInt64.le_refl now) (UInt64.le_refl p.pbs) h
    exact ⟨⟨hcbs, hpbs⟩, hgreen, hyellow⟩
  · obtain ⟨hcbs, hgreen⟩ := (rfc4115Check_pays p).1.conforms (m := rteMeterTrtcmRfc4115Config p now)
      (hpos hc) (UInt64.le_refl now) (UInt64.le_refl p.cbs) h
    obtain ⟨hebs, hyellow⟩ := (rfc4115Check_pays p).2.conforms (m := rteMeterTrtcmRfc4115Config p now)
      (hpos he) (UInt64.le_refl now) (UInt64.le_refl p.ebs) h
    exact ⟨⟨hcbs, hebs⟩, hgreen, hyellow⟩

/-- Two calls, a hundred cycles apart, of an srTCM meter. -/
theorem conformance_two_calls :
    SrtcmFits ⟨100, 50, 10, 1⟩ (run (after (srtcmCheck ⟨100, 50, 10, 1⟩))
      (rteMeterSrtcmConfig ⟨100, 50, 10, 1⟩ 5) [⟨5, 100, none⟩, ⟨105, 20, some .green⟩]) :=
  ((@conformance 5 [⟨5, 100, none⟩, ⟨105, 20, some .green⟩]
    ⟨by decide, by decide⟩).1 ⟨100, 50, 10, 1⟩ (by decide)).1

end Meter
