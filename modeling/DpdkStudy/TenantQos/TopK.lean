import DpdkStudy.TenantQos.Stats
import Mathlib.Data.List.Nodup
import Mathlib.Data.List.Count

/-!
# Heavy hitters

A table of `k` slots that is meant to report the heavy hitters of a stream
must hold, after `n` packets, every key that came more than `n / k` times
(`HeavyHittersReported`).

The table of the data plane counts exactly, but it never gives up a slot:
where every slot is taken, an update replaces a slot only if it counts more
packets than the slot does, and every update of the data plane counts one.
The table therefore holds the first `k` distinct keys of the stream with
their exact counts, whatever comes after them (`TopkHolds`), and it reports
the heavy hitters exactly when these are among the first `k` keys
(`heavyHittersReported_iff`).
-/

open List

namespace TenantQos

variable {key : DpFlowKey} {occ topk : List DpFlowStat} {keys : List DpFlowKey} {k : ℕ}

/-! ## What the table holds -/

/-- **The table holds the first `k` distinct keys of a stream**, one slot
each in the order they came, with the number of times each has come; the
other slots are as they were at the start. -/
def TopkHolds (k : ℕ) (topk : List DpFlowStat) (keys : List DpFlowKey) : Prop :=
  ∃ occ : List DpFlowStat, topk = occ ++ List.replicate (k - occ.length) emptySlot
    ∧ occ.map DpFlowStat.key = keys.eraseDups.take k
    ∧ ∀ s ∈ occ, s.packets.toNat = keys.count s.key

/-- A table that is initialised holds the keys of the empty stream. -/
theorem topkHolds_nil (k : ℕ) : TopkHolds k (replicate k emptySlot) [] :=
  ⟨[], rfl, by simp, by simp⟩

/-- The keys of a stream, one more key at its end. -/
theorem eraseDups_append_singleton (keys : List DpFlowKey) (key : DpFlowKey) :
    (keys ++ [key]).eraseDups
      = if key ∈ keys then keys.eraseDups else keys.eraseDups ++ [key] := by
  rw [eraseDups_append]
  by_cases h : key ∈ keys
  · simp [removeAll, h]
  · simp [removeAll, h, eraseDups_cons]

theorem nodup_eraseDups (keys : List DpFlowKey) : keys.eraseDups.Nodup := by
  induction keys using reverseRecOn with
  | nil => simp
  | append_singleton keys key ih =>
    rw [eraseDups_append_singleton]
    split
    · exact ih
    · next h =>
      refine nodup_append.mpr ⟨ih, by simp, ?_⟩
      intro a ha b hb
      obtain rfl := mem_singleton.mp hb
      rintro rfl
      exact h (mem_eraseDups.mp ha)

theorem count_singleton_of_ne {a b : DpFlowKey} (h : a ≠ b) : [b].count a = 0 :=
  count_eq_zero.mpr (by simpa using h)

/-! ## One update -/

/-- The scan passes the occupied slots of other keys. -/
theorem dpTopkScan_append (hocc : ∀ s ∈ occ, s.packets ≠ 0) (hkey : key ∉ occ.map DpFlowStat.key)
    (packets bytes : UInt64) (rest : List DpFlowStat) :
    dpTopkScan key packets bytes (occ ++ rest)
      = (dpTopkScan key packets bytes rest).map (occ ++ ·) := by
  induction occ with
  | nil => simp
  | cons s occ ih =>
    have hs : s.packets ≠ 0 := hocc s (by simp)
    have hsk : s.key ≠ key := fun h => hkey (by simp [h])
    have htail := ih (fun s' hs' => hocc s' (mem_cons_of_mem _ hs'))
      (fun h => hkey (mem_cons_of_mem _ h))
    rw [cons_append, dpTopkScan, if_neg hs, if_neg hsk, htail, Option.map_map]
    rfl

theorem dpTopkScan_of_mem (hocc : ∀ s ∈ occ, s.packets ≠ 0) (hkey : key ∈ occ.map DpFlowStat.key)
    (packets bytes : UInt64) (rest : List DpFlowStat) :
    ∃ l s r, occ = l ++ s :: r ∧ s.key = key
      ∧ dpTopkScan key packets bytes (occ ++ rest)
        = some (l ++ { s with packets := s.packets + packets, bytes := s.bytes + bytes } :: r
            ++ rest) := by
  obtain ⟨ks, ks', hsplit, hnot⟩ := eq_append_cons_of_mem hkey
  obtain ⟨l, sr, rfl, rfl, hsr⟩ := map_eq_append_iff.mp hsplit
  obtain ⟨s, r, rfl, hs, -⟩ := map_eq_cons_iff.mp hsr
  refine ⟨l, s, r, rfl, hs, ?_⟩
  rw [append_assoc, dpTopkScan_append (fun s' hs' => hocc s' (by simp [hs'])) hnot,
    cons_append, dpTopkScan, if_neg (hocc s (by simp)), if_pos hs]
  simp

/-- The minimum of occupied slots counts at least one packet. -/
theorem dpTopkMin_ne_zero {rest : List DpFlowStat} (hrest : ∀ s ∈ rest, s.packets ≠ 0)
    {minPackets : UInt64} (hmin : minPackets ≠ 0) (minIdx i : ℕ) :
    (dpTopkMin minIdx minPackets i rest).2 ≠ 0 := by
  induction rest generalizing minIdx minPackets i with
  | nil => exact hmin
  | cons s rest ih =>
    have htail : ∀ s' ∈ rest, s'.packets ≠ 0 := fun s' hs' =>
      hrest s' (mem_cons_of_mem _ hs')
    rw [dpTopkMin]
    split
    · exact ih htail (hrest s (by simp)) _ _
    · exact ih htail hmin _ _

/-- **A full table keeps its slots**: an update of one packet never counts
more than an occupied slot. -/
theorem dpStatsUpdateTopk_full (hocc : ∀ s ∈ topk, s.packets ≠ 0)
    (hkey : key ∉ topk.map DpFlowStat.key) (bytes : UInt64) :
    dpStatsUpdateTopk topk key 1 bytes = topk := by
  have hscan : dpTopkScan key 1 bytes topk = none := by
    have h := dpTopkScan_append hocc hkey 1 bytes []
    rwa [append_nil] at h
  unfold dpStatsUpdateTopk
  rw [hscan]
  cases topk with
  | nil => rfl
  | cons s rest =>
    have hmin := dpTopkMin_ne_zero (fun s' hs' => hocc s' (mem_cons_of_mem _ hs'))
      (hocc s (by simp)) 0 1
    have hle : ¬ (1 : UInt64) > (dpTopkMin 0 s.packets 1 rest).2 := by
      rw [gt_iff_lt, UInt64.lt_iff_toNat_lt]
      have : (dpTopkMin 0 s.packets 1 rest).2.toNat ≠ 0 := fun h =>
        hmin (UInt64.toNat_inj.mp h)
      show ¬ _ < 1
      omega
    show (if (1 : UInt64) > (dpTopkMin 0 s.packets 1 rest).2 then _ else _) = _
    rw [if_neg hle]

/-- The occupied slots of a table are occupied, as long as no count has
wrapped. -/
theorem packets_ne_zero_of_count (hkeys : occ.map DpFlowStat.key = keys.eraseDups.take k)
    (hcount : ∀ s ∈ occ, s.packets.toNat = keys.count s.key) :
    ∀ s ∈ occ, s.packets ≠ 0 := by
  intro s hs h0
  have hmem : s.key ∈ keys := by
    have : s.key ∈ occ.map DpFlowStat.key := mem_map_of_mem hs
    rw [hkeys] at this
    exact mem_eraseDups.mp (mem_of_mem_take this)
  have hpos := count_pos_iff.mpr hmem
  rw [← hcount s hs, h0] at hpos
  exact absurd hpos (by decide)

/-- **One update keeps the table**, as long as its counts do not wrap: it
adds to the slot of its key, takes the next free slot, or leaves no trace. -/
theorem topkHolds_update (h : TopkHolds k topk keys) (hlen : keys.length + 1 < 2 ^ 64)
    (key : DpFlowKey) (bytes : UInt64) :
    TopkHolds k (dpStatsUpdateTopk topk key 1 bytes) (keys ++ [key]) := by
  obtain ⟨occ, rfl, hkeys, hcount⟩ := h
  have hocc := packets_ne_zero_of_count hkeys hcount
  have hbound : ∀ x : DpFlowKey, keys.count x + 1 < 2 ^ 64 := fun x =>
    lt_of_le_of_lt (Nat.succ_le_succ (count_le_length)) hlen
  have hfirst : occ.length = min k keys.eraseDups.length := by
    rw [← length_take, ← hkeys, length_map]
  by_cases hmem : key ∈ occ.map DpFlowStat.key
  · -- the key has a slot
    obtain ⟨l, s, r, rfl, rfl, hscan⟩ := dpTopkScan_of_mem hocc hmem 1 bytes
      (replicate (k - occ.length) emptySlot)
    have hin : s.key ∈ keys := by
      rw [hkeys] at hmem
      exact mem_eraseDups.mp (mem_of_mem_take hmem)
    refine ⟨l ++ { s with packets := s.packets + 1, bytes := s.bytes + bytes } :: r, ?_, ?_, ?_⟩
    · unfold dpStatsUpdateTopk
      rw [hscan]
      simp
    · rw [eraseDups_append_singleton, if_pos hin, ← hkeys]
      simp
    · have hnodup : ((l ++ s :: r).map DpFlowStat.key).Nodup := by
        rw [hkeys]
        exact (nodup_eraseDups keys).sublist (take_sublist _ _)
      have hsplit : s.key ∉ (l ++ r).map DpFlowStat.key := by
        rw [map_append, map_cons] at hnodup
        rw [map_append]
        exact (nodup_middle.mp hnodup |> nodup_cons.mp).1
      intro s' hs'
      rw [count_append]
      rcases mem_append.mp hs' with hl | hr
      · have hne : s'.key ≠ s.key := fun e => hsplit (e ▸ mem_map_of_mem (by simp [hl]))
        rw [hcount s' (by simp [hl]), count_singleton_of_ne hne, Nat.add_zero]
      · rcases mem_cons.mp hr with rfl | hr
        · have hs := hcount s (by simp)
          show (s.packets + 1).toNat = keys.count s.key + [s.key].count s.key
          rw [UInt64.toNat_add, hs, count_singleton_self]
          exact Nat.mod_eq_of_lt (hbound s.key)
        · have hne : s'.key ≠ s.key := fun e => hsplit (e ▸ mem_map_of_mem (by simp [hr]))
          rw [hcount s' (by simp [hr]), count_singleton_of_ne hne, Nat.add_zero]
  · have hother : ∀ s' ∈ occ, (keys ++ [key]).count s'.key = keys.count s'.key := by
      intro s' hs'
      have hne : s'.key ≠ key := fun e => hmem (e ▸ mem_map_of_mem hs')
      rw [count_append, count_singleton_of_ne hne, Nat.add_zero]
    by_cases hfull : occ.length < k
    · -- the key is new and there is a free slot
      have hall : occ.map DpFlowStat.key = keys.eraseDups := by
        rw [hkeys, take_of_length_le (by omega)]
      have hnew : key ∉ keys := fun h => hmem (hall ▸ mem_eraseDups.mpr h)
      obtain ⟨n, hn⟩ : ∃ n, k - occ.length = n + 1 := ⟨k - occ.length - 1, by omega⟩
      refine ⟨occ ++ [⟨key, 1, bytes⟩], ?_, ?_, ?_⟩
      · unfold dpStatsUpdateTopk
        rw [dpTopkScan_append hocc hmem, hn, replicate_succ]
        have hrest : k - (occ ++ [(⟨key, 1, bytes⟩ : DpFlowStat)]).length = n := by
          rw [length_append, length_singleton]
          omega
        rw [hrest, append_assoc]
        rfl
      · rw [eraseDups_append_singleton, if_neg hnew, map_append, hall,
          take_of_length_le]
        · rfl
        · rw [length_append, ← hall, length_map, length_singleton]
          omega
      · intro s' hs'
        rcases mem_append.mp hs' with h | h
        · rw [hother s' h]
          exact hcount s' h
        · obtain rfl := mem_singleton.mp h
          show (1 : UInt64).toNat = (keys ++ [key]).count key
          rw [count_append, count_eq_zero.mpr hnew, count_singleton_self]
          rfl
    · -- every slot belongs to another key
      have hk : occ.length = k := by omega
      refine ⟨occ, ?_, ?_, fun s' hs' => by rw [hother s' hs']; exact hcount s' hs'⟩
      · rw [hk, Nat.sub_self, replicate_zero, append_nil]
        exact dpStatsUpdateTopk_full hocc hmem bytes
      · rw [hkeys, eraseDups_append_singleton]
        split
        · rfl
        · rw [take_append_of_le_length (by omega)]

/-! ## A stream of updates -/

/-- The updates of a stream of packets, each with its bytes. -/
def dpTopkRun (topk : List DpFlowStat) (stream : List (DpFlowKey × UInt64)) :
    List DpFlowStat :=
  stream.foldl (fun topk p => dpStatsUpdateTopk topk p.1 1 p.2) topk

/-- **The table after a stream**: the first `k` distinct keys, with their
counts. -/
theorem topkHolds_run (k : ℕ) (stream : List (DpFlowKey × UInt64))
    (hlen : stream.length < 2 ^ 64) :
    TopkHolds k (dpTopkRun (replicate k emptySlot) stream) (stream.map Prod.fst) := by
  induction stream using reverseRecOn with
  | nil => exact topkHolds_nil k
  | append_singleton stream p ih =>
    rw [length_append, length_singleton] at hlen
    have hstep := topkHolds_update (ih (by omega)) (by simpa using hlen) p.1 p.2
    rw [dpTopkRun, foldl_append, map_append]
    exact hstep

/-- A key occupies a slot of the table exactly if it is one of the first
`k`. -/
theorem TopkHolds.occupied_iff (h : TopkHolds k topk keys) (key : DpFlowKey) :
    (∃ s ∈ topk, s.packets ≠ 0 ∧ s.key = key) ↔ key ∈ keys.eraseDups.take k := by
  obtain ⟨occ, rfl, hkeys, hcount⟩ := h
  have hocc := packets_ne_zero_of_count hkeys hcount
  rw [← hkeys, mem_map]
  constructor
  · rintro ⟨s, hs, hne, rfl⟩
    rcases mem_append.mp hs with h | h
    · exact ⟨s, h, rfl⟩
    · exact absurd (by rw [eq_of_mem_replicate h]; rfl) hne
  · rintro ⟨s, hs, rfl⟩
    exact ⟨s, mem_append_left _ hs, hocc s hs, rfl⟩

/-! ## The statistics -/

/-- A call of `dp_stats_record` for one packet. -/
structure RecordCall where
  key : DpFlowKey
  action : DpFlowAction
  bytes : UInt64

/-- A run of calls of `dp_stats_record`, each for one packet. -/
def recordRun (stats : DpStats) (calls : List RecordCall) : DpStats :=
  calls.foldl (fun stats c => dpStatsRecord stats c.key c.action 1 c.bytes) stats

/-- The calls that leave a trace: those of a tenant that has counters. -/
def recordedCalls (calls : List RecordCall) : List RecordCall :=
  calls.filter (fun c => c.action.tenantId.toNat < dpMaxTenants)

/-- The tables of a run are those of two streams: the flows and the tenants
of the calls that leave a trace. -/
theorem recordRun_topk (stats : DpStats) (calls : List RecordCall) :
    (recordRun stats calls).topkFlows
        = dpTopkRun stats.topkFlows ((recordedCalls calls).map (fun c => (c.key, c.bytes)))
      ∧ (recordRun stats calls).topkTenants
        = dpTopkRun stats.topkTenants
            ((recordedCalls calls).map (fun c => (dpTenantKey c.action.tenantId, c.bytes))) := by
  induction calls using reverseRecOn with
  | nil => exact ⟨rfl, rfl⟩
  | append_singleton calls c ih =>
    have hrun : recordRun stats (calls ++ [c])
        = dpStatsRecord (recordRun stats calls) c.key c.action 1 c.bytes := by
      simp [recordRun]
    have hcalls : recordedCalls (calls ++ [c])
        = if c.action.tenantId.toNat < dpMaxTenants then recordedCalls calls ++ [c]
          else recordedCalls calls := by
      unfold recordedCalls
      rw [filter_append]
      split <;> simp_all
    rw [hrun, hcalls]
    unfold dpStatsRecord
    split
    · simp only [ih.1, ih.2, map_append, dpTopkRun, foldl_append]
      exact ⟨rfl, rfl⟩
    · exact ih

/-- **Every heavy hitter is reported**: a flow, and a tenant, that accounts
for more than one in `DP_MAX_TOPK` of the calls occupies a slot of its
table. -/
def HeavyHittersReported (stats : DpStats) (calls : List RecordCall) : Prop :=
  (∀ key : DpFlowKey,
      calls.length < dpMaxTopk * calls.countP (fun c => c.key = key) →
        ∃ s ∈ stats.topkFlows, s.packets ≠ 0 ∧ s.key = key)
    ∧ ∀ tenantId : UInt32,
      calls.length < dpMaxTopk * calls.countP (fun c => c.action.tenantId = tenantId) →
        ∃ s ∈ stats.topkTenants, s.packets ≠ 0 ∧ s.key = dpTenantKey tenantId

/-- **Every heavy hitter came early**: among the first `DP_MAX_TOPK` flows,
or tenants, of the calls that leave a trace. -/
def HeavyHittersEarly (calls : List RecordCall) : Prop :=
  (∀ key : DpFlowKey,
      calls.length < dpMaxTopk * calls.countP (fun c => c.key = key) →
        key ∈ (((recordedCalls calls).map RecordCall.key).eraseDups).take dpMaxTopk)
    ∧ ∀ tenantId : UInt32,
      calls.length < dpMaxTopk * calls.countP (fun c => c.action.tenantId = tenantId) →
        dpTenantKey tenantId
          ∈ (((recordedCalls calls).map (fun c => dpTenantKey c.action.tenantId)).eraseDups).take
              dpMaxTopk

/-- **When the heavy hitters are reported.** After a sequence of calls too
short to wrap a count, every heavy hitter is in its table exactly if every
heavy hitter was there early. -/
theorem heavyHittersReported_iff (tenantCount : UInt32) (interval : UInt64)
    (calls : List RecordCall) (hlen : calls.length < 2 ^ 64) :
    HeavyHittersReported (recordRun (dpStatsInit tenantCount interval) calls) calls
      ↔ HeavyHittersEarly calls := by
  have hrec : (recordedCalls calls).length < 2 ^ 64 :=
    lt_of_le_of_lt (length_filter_le _ _) hlen
  obtain ⟨hflows, htenants⟩ := recordRun_topk (dpStatsInit tenantCount interval) calls
  have hf := topkHolds_run dpMaxTopk ((recordedCalls calls).map (fun c => (c.key, c.bytes)))
    (by rwa [length_map])
  have ht := topkHolds_run dpMaxTopk
    ((recordedCalls calls).map (fun c => (dpTenantKey c.action.tenantId, c.bytes)))
    (by rwa [length_map])
  rw [map_map] at hf ht
  unfold HeavyHittersReported HeavyHittersEarly
  rw [hflows, htenants]
  refine and_congr (forall_congr' fun key => ?_) (forall_congr' fun tenantId => ?_)
  · exact imp_congr Iff.rfl (hf.occupied_iff key)
  · exact imp_congr Iff.rfl (ht.occupied_iff (dpTenantKey tenantId))

/-- One packet of a flow, then twelve of another. -/
def earlyCalls : List RecordCall :=
  ⟨⟨2, 0, 0, 0, 17⟩, ⟨1, 0, 0⟩, 64⟩ :: List.replicate 12 ⟨⟨1, 0, 0, 0, 17⟩, ⟨0, 0, 0⟩, 64⟩

/-- Two flows are within the first ten, heavy or not. -/
theorem heavyHittersReported_early :
    HeavyHittersReported (recordRun (dpStatsInit 4 0) earlyCalls) earlyCalls := by
  refine (heavyHittersReported_iff 4 0 earlyCalls (by decide)).mpr ⟨?_, ?_⟩
  · intro key hheavy
    have hkeys : ∀ c ∈ earlyCalls, c.key
        ∈ (((recordedCalls earlyCalls).map RecordCall.key).eraseDups).take dpMaxTopk := by
      decide
    obtain ⟨c, hc, hkey⟩ := countP_pos_iff.mp (Nat.pos_of_mul_pos_left (Nat.zero_lt_of_lt hheavy))
    rw [← of_decide_eq_true hkey]
    exact hkeys c hc
  · intro tenantId hheavy
    have hkeys : ∀ c ∈ earlyCalls, dpTenantKey c.action.tenantId
        ∈ (((recordedCalls earlyCalls).map (fun c => dpTenantKey c.action.tenantId)).eraseDups).take
            dpMaxTopk := by
      decide
    obtain ⟨c, hc, htenant⟩ := countP_pos_iff.mp (Nat.pos_of_mul_pos_left (Nat.zero_lt_of_lt hheavy))
    rw [← of_decide_eq_true htenant]
    exact hkeys c hc

/-- A packet of flow `n`, of tenant `n`. -/
def lateCall (n : ℕ) : RecordCall :=
  ⟨⟨UInt32.ofNat n, 0, 0, 0, 17⟩, ⟨UInt32.ofNat n, 0, 0⟩, 64⟩

/-- Ten flows of ten tenants, one packet each, then twenty packets of an
eleventh. -/
def lateCalls : List RecordCall :=
  (List.range 10).map lateCall ++ List.replicate 20 (lateCall 10)

/-- **A late heavy hitter is never reported.** The eleventh flow, and its
tenant, account for two thirds of the packets and occupy no slot. -/
theorem heavyHitters_missed :
    lateCalls.length = 30
      ∧ lateCalls.countP (fun c => c.key = (lateCall 10).key) = 20
      ∧ lateCalls.countP (fun c => c.action.tenantId = 10) = 20
      ∧ (∀ s ∈ (recordRun (dpStatsInit 16 0) lateCalls).topkFlows, s.key ≠ (lateCall 10).key)
      ∧ (∀ s ∈ (recordRun (dpStatsInit 16 0) lateCalls).topkTenants, s.key ≠ dpTenantKey 10)
      ∧ ¬ HeavyHittersReported (recordRun (dpStatsInit 16 0) lateCalls) lateCalls := by
  have hflows : ∀ s ∈ (recordRun (dpStatsInit 16 0) lateCalls).topkFlows,
      s.key ≠ (lateCall 10).key := by
    decide
  refine ⟨by decide, by decide, by decide, hflows, by decide, fun h => ?_⟩
  obtain ⟨s, hs, -, hkey⟩ := h.1 (lateCall 10).key (by decide)
  exact hflows s hs hkey

end TenantQos
