import Mathlib.Data.Nat.Notation

/-!
# Traffic metering

The three meters of `lib/meter/rte_meter.h`: srTCM, trTCM and the trTCM of
RFC 4115. A meter holds token buckets; a check refills them for the whole
periods that have passed since the last refill, colours the packet by what
the buckets hold, and takes its length out of them. Each meter has a check
that is blind to the colour a packet comes with, and one that is aware of it.
-/

namespace Meter

/-- `enum rte_color`. -/
inductive RteColor
  | green
  | yellow
  | red
deriving DecidableEq, Repr

/-- The bucket update that the meters share: the time of the latest update,
moved on by whole periods, and the tokens, not yet cut to the size of the
bucket. -/
def bucketUpdate (time mTime tokens period bytesPerPeriod : UInt64) : UInt64 × UInt64 :=
  let timeDiff := time - mTime
  let nPeriods := timeDiff / period
  (mTime + nPeriods * period, tokens + nPeriods * bytesPerPeriod)

/-! ## srTCM -/

/-- `struct rte_meter_srtcm_profile`. -/
structure SrtcmProfile where
  cbs : UInt64
  ebs : UInt64
  cirPeriod : UInt64
  cirBytesPerPeriod : UInt64

/-- `struct rte_meter_srtcm`. -/
structure Srtcm where
  time : UInt64
  tc : UInt64
  te : UInt64
deriving DecidableEq, Repr

/-- `rte_meter_srtcm_config`, at the time it reads. -/
def rteMeterSrtcmConfig (p : SrtcmProfile) (now : UInt64) : Srtcm := ⟨now, p.cbs, p.ebs⟩

/-- The bucket update of the two checks: the tokens that overflow from the
committed bucket go into the excess bucket. -/
def srtcmUpdate (m : Srtcm) (p : SrtcmProfile) (time : UInt64) : Srtcm :=
  let u := bucketUpdate time m.time m.tc p.cirPeriod p.cirBytesPerPeriod
  if u.2 > p.cbs then
    let te := m.te + (u.2 - p.cbs)
    ⟨u.1, p.cbs, if te > p.ebs then p.ebs else te⟩
  else ⟨u.1, u.2, m.te⟩

/-- `rte_meter_srtcm_color_blind_check`. -/
def rteMeterSrtcmColorBlindCheck (m : Srtcm) (p : SrtcmProfile) (time : UInt64)
    (pktLen : UInt32) : RteColor × Srtcm :=
  let m := srtcmUpdate m p time
  if m.tc ≥ pktLen.toUInt64 then (.green, { m with tc := m.tc - pktLen.toUInt64 })
  else if m.te ≥ pktLen.toUInt64 then (.yellow, { m with te := m.te - pktLen.toUInt64 })
  else (.red, m)

/-- `rte_meter_srtcm_color_aware_check`. -/
def rteMeterSrtcmColorAwareCheck (m : Srtcm) (p : SrtcmProfile) (time : UInt64)
    (pktLen : UInt32) (pktColor : RteColor) : RteColor × Srtcm :=
  let m := srtcmUpdate m p time
  if pktColor = .green ∧ m.tc ≥ pktLen.toUInt64 then
    (.green, { m with tc := m.tc - pktLen.toUInt64 })
  else if pktColor ≠ .red ∧ m.te ≥ pktLen.toUInt64 then
    (.yellow, { m with te := m.te - pktLen.toUInt64 })
  else (.red, m)

/-! ## trTCM -/

/-- `struct rte_meter_trtcm_profile`. -/
structure TrtcmProfile where
  cbs : UInt64
  pbs : UInt64
  cirPeriod : UInt64
  cirBytesPerPeriod : UInt64
  pirPeriod : UInt64
  pirBytesPerPeriod : UInt64

/-- `struct rte_meter_trtcm`. -/
structure Trtcm where
  timeTc : UInt64
  timeTp : UInt64
  tc : UInt64
  tp : UInt64
deriving DecidableEq, Repr

/-- `rte_meter_trtcm_config`, at the time it reads. -/
def rteMeterTrtcmConfig (p : TrtcmProfile) (now : UInt64) : Trtcm := ⟨now, now, p.cbs, p.pbs⟩

/-- The bucket update of the two checks. -/
def trtcmUpdate (m : Trtcm) (p : TrtcmProfile) (time : UInt64) : Trtcm :=
  let c := bucketUpdate time m.timeTc m.tc p.cirPeriod p.cirBytesPerPeriod
  let q := bucketUpdate time m.timeTp m.tp p.pirPeriod p.pirBytesPerPeriod
  ⟨c.1, q.1, if c.2 > p.cbs then p.cbs else c.2, if q.2 > p.pbs then p.pbs else q.2⟩

/-- `rte_meter_trtcm_color_blind_check`. -/
def rteMeterTrtcmColorBlindCheck (m : Trtcm) (p : TrtcmProfile) (time : UInt64)
    (pktLen : UInt32) : RteColor × Trtcm :=
  let m := trtcmUpdate m p time
  if m.tp < pktLen.toUInt64 then (.red, m)
  else if m.tc < pktLen.toUInt64 then (.yellow, { m with tp := m.tp - pktLen.toUInt64 })
  else (.green, { m with tc := m.tc - pktLen.toUInt64, tp := m.tp - pktLen.toUInt64 })

/-- `rte_meter_trtcm_color_aware_check`. -/
def rteMeterTrtcmColorAwareCheck (m : Trtcm) (p : TrtcmProfile) (time : UInt64)
    (pktLen : UInt32) (pktColor : RteColor) : RteColor × Trtcm :=
  let m := trtcmUpdate m p time
  if pktColor = .red ∨ m.tp < pktLen.toUInt64 then (.red, m)
  else if pktColor = .yellow ∨ m.tc < pktLen.toUInt64 then
    (.yellow, { m with tp := m.tp - pktLen.toUInt64 })
  else (.green, { m with tc := m.tc - pktLen.toUInt64, tp := m.tp - pktLen.toUInt64 })

/-! ## trTCM of RFC 4115 -/

/-- `struct rte_meter_trtcm_rfc4115_profile`. -/
structure TrtcmRfc4115Profile where
  cbs : UInt64
  ebs : UInt64
  cirPeriod : UInt64
  cirBytesPerPeriod : UInt64
  eirPeriod : UInt64
  eirBytesPerPeriod : UInt64

/-- `struct rte_meter_trtcm_rfc4115`. -/
structure TrtcmRfc4115 where
  timeTc : UInt64
  timeTe : UInt64
  tc : UInt64
  te : UInt64
deriving DecidableEq, Repr

/-- `rte_meter_trtcm_rfc4115_config`, at the time it reads. -/
def rteMeterTrtcmRfc4115Config (p : TrtcmRfc4115Profile) (now : UInt64) : TrtcmRfc4115 :=
  ⟨now, now, p.cbs, p.ebs⟩

/-- The bucket update of the two checks. -/
def rfc4115Update (m : TrtcmRfc4115) (p : TrtcmRfc4115Profile) (time : UInt64) : TrtcmRfc4115 :=
  let c := bucketUpdate time m.timeTc m.tc p.cirPeriod p.cirBytesPerPeriod
  let e := bucketUpdate time m.timeTe m.te p.eirPeriod p.eirBytesPerPeriod
  ⟨c.1, e.1, if c.2 > p.cbs then p.cbs else c.2, if e.2 > p.ebs then p.ebs else e.2⟩

/-- `rte_meter_trtcm_rfc4115_color_blind_check`. -/
def rteMeterTrtcmRfc4115ColorBlindCheck (m : TrtcmRfc4115) (p : TrtcmRfc4115Profile)
    (time : UInt64) (pktLen : UInt32) : RteColor × TrtcmRfc4115 :=
  let m := rfc4115Update m p time
  if m.tc ≥ pktLen.toUInt64 then (.green, { m with tc := m.tc - pktLen.toUInt64 })
  else if m.te ≥ pktLen.toUInt64 then (.yellow, { m with te := m.te - pktLen.toUInt64 })
  else (.red, m)

/-- `rte_meter_trtcm_rfc4115_color_aware_check`. -/
def rteMeterTrtcmRfc4115ColorAwareCheck (m : TrtcmRfc4115) (p : TrtcmRfc4115Profile)
    (time : UInt64) (pktLen : UInt32) (pktColor : RteColor) : RteColor × TrtcmRfc4115 :=
  let m := rfc4115Update m p time
  if pktColor = .green ∧ m.tc ≥ pktLen.toUInt64 then
    (.green, { m with tc := m.tc - pktLen.toUInt64 })
  else if pktColor ≠ .red ∧ m.te ≥ pktLen.toUInt64 then
    (.yellow, { m with te := m.te - pktLen.toUInt64 })
  else (.red, m)

/-! ## Calls -/

/-- **A call of a check**, colour blind where no colour is given. -/
structure Call where
  time : UInt64
  pktLen : UInt32
  pktColor : Option RteColor

/-- A call of an srTCM check. -/
def srtcmCheck (p : SrtcmProfile) (m : Srtcm) (c : Call) : RteColor × Srtcm :=
  match c.pktColor with
  | none => rteMeterSrtcmColorBlindCheck m p c.time c.pktLen
  | some color => rteMeterSrtcmColorAwareCheck m p c.time c.pktLen color

/-- A call of a trTCM check. -/
def trtcmCheck (p : TrtcmProfile) (m : Trtcm) (c : Call) : RteColor × Trtcm :=
  match c.pktColor with
  | none => rteMeterTrtcmColorBlindCheck m p c.time c.pktLen
  | some color => rteMeterTrtcmColorAwareCheck m p c.time c.pktLen color

/-- A call of an RFC 4115 check. -/
def rfc4115Check (p : TrtcmRfc4115Profile) (m : TrtcmRfc4115) (c : Call) :
    RteColor × TrtcmRfc4115 :=
  match c.pktColor with
  | none => rteMeterTrtcmRfc4115ColorBlindCheck m p c.time c.pktLen
  | some color => rteMeterTrtcmRfc4115ColorAwareCheck m p c.time c.pktLen color

end Meter
