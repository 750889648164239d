import DpdkStudy.Eal.Reciprocal
import DpdkStudy.Lib.Runs

/-!
# The time of a scheduler port

A port measures time in bytes of its line. Each dequeue reads the TSC, divides the cycles it has
not accounted for by the cycles a byte takes, and adds the quotient. The divisor is kept with eight
binary places, so that the bytes counted are those of a line with this many cycles for a byte, and
not of the line as it was configured; the cycles accounted for are rounded down as well, and what
is lost there is counted twice. Neither is corrected later, and `time_keeps_up` says how far the
two take the time over a run.

The division takes a dividend of 32 bits. A port that is not asked for `2 ^ 24` cycles comes with
more and loses what does not fit, so that the runs are of calls in time (`InTime`).
-/

open Runs Eal Nat

namespace Sched

/-- `RTE_SCHED_TIME_SHIFT`. -/
def timeShift : ℕ := 8

/-- The fields of `struct rte_sched_port` that keep its time. -/
structure PortTime where
  time_cpu_cycles : ℕ
  time_cpu_bytes : ℕ
  time : ℕ
  inv_cycles_per_byte : RteReciprocal
  cycles_per_byte : ℕ

/-- The time as `rte_sched_port_config()` sets it. The local `cycles_per_byte` has 32 bits. -/
def rteSchedPortConfigTime (tsc_hz rate cycles : ℕ) : PortTime :=
  let cycles_per_byte := tsc_hz * 2 ^ timeShift % 2 ^ 64 / rate % 2 ^ 32
  { time_cpu_cycles := cycles
    time_cpu_bytes := 0
    time := 0
    inv_cycles_per_byte := rteReciprocalValue cycles_per_byte
    cycles_per_byte := cycles_per_byte }

/-- `rte_sched_port_time_resync()`, where the TSC reads `cycles`. The dividend of
`rte_reciprocal_divide()` has 32 bits. -/
def rteSchedPortTimeResync (port : PortTime) (cycles : ℕ) : PortTime :=
  let time_cpu_cycles := if cycles < port.time_cpu_cycles then 0 else port.time_cpu_cycles
  let cycles_diff := cycles - time_cpu_cycles
  let bytes_diff := rteReciprocalDivide (cycles_diff * 2 ^ timeShift % 2 ^ 64 % 2 ^ 32)
    port.inv_cycles_per_byte
  let time_cpu_bytes := (port.time_cpu_bytes + bytes_diff) % 2 ^ 64
  { port with
    time_cpu_cycles :=
      (time_cpu_cycles + bytes_diff * port.cycles_per_byte % 2 ^ 64 / 2 ^ timeShift) % 2 ^ 64
    time_cpu_bytes := time_cpu_bytes
    time := if port.time < time_cpu_bytes then time_cpu_bytes else port.time }

/-- **A port and the TSC.** -/
structure Clocked where
  tsc : ℕ
  port : PortTime

/-- **A dequeue**: the cycles that have passed since the one before, and the bytes of the packets
that `grinder_schedule()` sends, each of which it adds to the time. -/
structure DequeueCall where
  gap : ℕ
  sent : ℕ

/-- `rte_sched_port_dequeue()`, as far as it tells the time. -/
def rteSchedPortDequeueTime (s : Clocked) (call : DequeueCall) : Clocked :=
  let port := rteSchedPortTimeResync s.port ((s.tsc + call.gap) % 2 ^ 64)
  { tsc := s.tsc + call.gap
    port := { port with time := (port.time + call.sent) % 2 ^ 64 } }

/-- A port that has been configured when the TSC read `start`. -/
def Clocked.init (tsc_hz rate start : ℕ) : Clocked :=
  ⟨start, rteSchedPortConfigTime tsc_hz rate start⟩

/-- **The time keeps up**: over `n` calls the increments differ from the bytes the line has had
time for by less than one a call. -/
def KeepsUp (tsc_hz rate start : ℕ) (s : Clocked) (n : ℕ) : Prop :=
  (s.tsc - start) * rate < tsc_hz * (s.port.time_cpu_bytes + n) ∧
    tsc_hz * s.port.time_cpu_bytes < (s.tsc - start) * rate + tsc_hz * n

/-- **A call in time**: there are fewer than `2 ^ 24` cycles to account for, and neither the TSC
nor the time is at the end of its word. -/
def InTime (s : Clocked) (call : DequeueCall) : Prop :=
  s.tsc + call.gap < 2 ^ 64 ∧ s.tsc + call.gap < s.port.time_cpu_cycles + 2 ^ 24 ∧
    s.port.time + 2 ^ 32 + call.sent ≤ 2 ^ 64

instance (s : Clocked) (call : DequeueCall) : Decidable (InTime s call) :=
  inferInstanceAs (Decidable (_ ∧ _ ∧ _))

/-! ## One call -/

/-- **What holds after `n` calls** of a port with `cpb` cycles for 256 bytes: the cycles accounted
for are those of the bytes counted but for the part of a cycle each call rounds off, and what is
not accounted for is not a byte. -/
structure Kept (cpb start : ℕ) (s : Clocked) (n : ℕ) : Prop where
  inv_eq : s.port.inv_cycles_per_byte = rteReciprocalValue cpb
  cpb_eq : s.port.cycles_per_byte = cpb
  start_le : start ≤ s.port.time_cpu_cycles
  cycles_le : s.port.time_cpu_cycles ≤ s.tsc
  bytes_le : s.port.time_cpu_bytes ≤ s.port.time
  low : 256 * (s.port.time_cpu_cycles - start) ≤ cpb * s.port.time_cpu_bytes
  high : cpb * s.port.time_cpu_bytes ≤ 256 * (s.port.time_cpu_cycles - start) + 255 * n
  behind : 256 * (s.tsc - start) < cpb * (s.port.time_cpu_bytes + 1)
  ahead : cpb * s.port.time_cpu_bytes ≤ 256 * (s.tsc - start) + 255 * (n - 1)

variable {cpb start n : ℕ} {s : Clocked} {call : DequeueCall}

/-- What a call in time does: it adds the quotient. -/
theorem Kept.dequeue_eq (h : Kept cpb start s n) (hcpb : 0 < cpb) (hcpb' : cpb < 2 ^ 32)
    (hin : InTime s call) :
    ∃ b, b = 256 * (s.tsc + call.gap - s.port.time_cpu_cycles) / cpb ∧
      rteSchedPortDequeueTime s call =
        { tsc := s.tsc + call.gap
          port := { s.port with
            time_cpu_cycles := s.port.time_cpu_cycles + b * cpb / 256
            time_cpu_bytes := s.port.time_cpu_bytes + b
            time := max s.port.time (s.port.time_cpu_bytes + b) + call.sent } } := by
  obtain ⟨htsc, hdiff, hroom⟩ := hin
  have hle := h.cycles_le
  have hbytes := h.bytes_le
  obtain ⟨b, hb⟩ : ∃ b, b = 256 * (s.tsc + call.gap - s.port.time_cpu_cycles) / cpb := ⟨_, rfl⟩
  have hdiv : rteReciprocalDivide ((s.tsc + call.gap - s.port.time_cpu_cycles) * 2 ^ timeShift %
      2 ^ 64 % 2 ^ 32) (rteReciprocalValue cpb) = b := by
    rw [timeShift, mod_eq_of_lt (by omega), mod_eq_of_lt (by omega),
      rteReciprocalDivide_eq hcpb hcpb' (by omega), hb, Nat.mul_comm, show 2 ^ 8 = 256 by rfl]
  have hb32 : b < 2 ^ 32 := hb ▸ lt_of_le_of_lt (Nat.div_le_self _ _) (by omega)
  have hmul : b * cpb ≤ 256 * (s.tsc + call.gap - s.port.time_cpu_cycles) :=
    hb ▸ div_mul_le_self _ _
  refine ⟨b, hb, ?_⟩
  simp only [rteSchedPortDequeueTime, rteSchedPortTimeResync, h.inv_eq, h.cpb_eq,
    mod_eq_of_lt htsc]
  rw [if_neg (by omega), hdiv, mod_eq_of_lt (show s.port.time_cpu_bytes + b < 2 ^ 64 by omega),
    mod_eq_of_lt (show b * cpb < 2 ^ 64 by omega)]
  congr 2
  · exact mod_eq_of_lt (by rw [timeShift]; omega)
  · rw [show (if s.port.time < s.port.time_cpu_bytes + b then s.port.time_cpu_bytes + b
      else s.port.time) = max s.port.time (s.port.time_cpu_bytes + b) by split <;> omega]
    exact mod_eq_of_lt (by omega)

/-- A call in time keeps what holds, and the time does not go back. -/
theorem Kept.dequeue (h : Kept cpb start s n) (hcpb : 0 < cpb) (hcpb' : cpb < 2 ^ 32)
    (hin : InTime s call) : Kept cpb start (rteSchedPortDequeueTime s call) (n + 1) ∧
      s.port.time ≤ (rteSchedPortDequeueTime s call).port.time := by
  obtain ⟨b, hb, heq⟩ := h.dequeue_eq hcpb hcpb' hin
  have hle := h.cycles_le
  have hstart := h.start_le
  have hlow := h.low
  have hhigh := h.high
  have hmul : b * cpb ≤ 256 * (s.tsc + call.gap - s.port.time_cpu_cycles) :=
    hb ▸ div_mul_le_self _ _
  have hlt : 256 * (s.tsc + call.gap - s.port.time_cpu_cycles) < cpb * (b + 1) :=
    hb ▸ lt_mul_div_succ _ hcpb
  have hadd : cpb * (s.port.time_cpu_bytes + b) = cpb * s.port.time_cpu_bytes + b * cpb := by ring
  have hadd' : cpb * (s.port.time_cpu_bytes + b + 1)
      = cpb * s.port.time_cpu_bytes + cpb * (b + 1) := by ring
  rw [heq]
  refine ⟨⟨h.inv_eq, h.cpb_eq, ?_, ?_, ?_, ?_, ?_, ?_, ?_⟩, ?_⟩ <;> dsimp only
  · omega
  · omega
  · omega
  · rw [hadd]
    omega
  · rw [hadd]
    omega
  · rw [hadd']
    omega
  · rw [hadd]
    omega
  · omega

theorem Kept.init {tsc_hz rate : ℕ} (hhz : tsc_hz * 256 < 2 ^ 64)
    (hcpb : 0 < tsc_hz * 256 / rate) (hcpb' : tsc_hz * 256 / rate < 2 ^ 32) (start : ℕ) :
    Kept (tsc_hz * 256 / rate) start (Clocked.init tsc_hz rate start) 0 := by
  have heq : tsc_hz * 2 ^ timeShift % 2 ^ 64 / rate % 2 ^ 32 = tsc_hz * 256 / rate := by
    rw [timeShift, show 2 ^ 8 = 256 by rfl, mod_eq_of_lt hhz, mod_eq_of_lt hcpb']
  refine ⟨congrArg rteReciprocalValue heq, heq, le_rfl, le_rfl, le_rfl, ?_, ?_, ?_, ?_⟩
  all_goals
    simp only [Clocked.init, rteSchedPortConfigTime]
    omega

/-! ## A run of calls -/

theorem Kept.run (h : Kept cpb start s n) (hcpb : 0 < cpb) (hcpb' : cpb < 2 ^ 32)
    {calls : List DequeueCall} (hin : Along rteSchedPortDequeueTime InTime s calls) :
    Kept cpb start (Runs.run rteSchedPortDequeueTime s calls) (n + calls.length) ∧
      s.port.time ≤ (Runs.run rteSchedPortDequeueTime s calls).port.time := by
  induction calls generalizing s n with
  | nil => exact ⟨h, le_rfl⟩
  | cons call calls ih =>
    obtain ⟨hnext, hle⟩ := h.dequeue hcpb hcpb' hin.1
    obtain ⟨hkept, hle'⟩ := ih hnext hin.2
    rw [Nat.add_assoc, Nat.add_comm 1] at hkept
    exact ⟨hkept, hle.trans hle'⟩

/-- **The time keeps up with the TSC**, as long as each call comes in time: the increments are
those of a line with `tsc_hz * 256 / rate` cycles for 256 bytes, to less than a byte below and to
what each call rounds off above. Where no cycles are lost to the rounding of that quotient, and a
byte takes a cycle, that is less than a byte a call. The time never goes back. -/
theorem time_keeps_up {tsc_hz rate start : ℕ} (hhz : tsc_hz * 256 < 2 ^ 64)
    (hcpb : 0 < tsc_hz * 256 / rate) (hcpb' : tsc_hz * 256 / rate < 2 ^ 32)
    {calls : List DequeueCall}
    (hin : Along rteSchedPortDequeueTime InTime (Clocked.init tsc_hz rate start) calls) :
    let s := run rteSchedPortDequeueTime (Clocked.init tsc_hz rate start) calls
    256 * (s.tsc - start) < tsc_hz * 256 / rate * (s.port.time_cpu_bytes + 1) ∧
    tsc_hz * 256 / rate * s.port.time_cpu_bytes
      ≤ 256 * (s.tsc - start) + 255 * (calls.length - 1) ∧
    s.port.time_cpu_bytes ≤ s.port.time ∧
    (∀ pre post, calls = pre ++ post →
      (run rteSchedPortDequeueTime (Clocked.init tsc_hz rate start) pre).port.time
        ≤ s.port.time) ∧
    (calls ≠ [] → rate ∣ tsc_hz * 256 → 255 ≤ tsc_hz * 256 / rate →
      KeepsUp tsc_hz rate start s calls.length) := by
  have hinit := Kept.init hhz hcpb hcpb' start
  obtain ⟨hkept, -⟩ := hinit.run hcpb hcpb' hin
  rw [Nat.zero_add] at hkept
  refine ⟨hkept.behind, hkept.ahead, hkept.bytes_le, fun pre post heq => ?_,
    fun hcalls hdvd hbyte => ?_⟩
  · subst heq
    obtain ⟨hpre, hpost⟩ := hin.append
    have hmid := (hinit.run hcpb hcpb' hpre).1
    rw [run_append]
    exact (hmid.run hcpb hcpb' hpost).2
  · have hpos : 0 < calls.length := List.length_pos_of_ne_nil hcalls
    have hmul : tsc_hz * 256 / rate * rate = tsc_hz * 256 := Nat.div_mul_cancel hdvd
    have hrate : 0 < rate := Nat.pos_of_ne_zero fun h0 => by simp [h0] at hcpb
    have hbehind := hkept.behind
    have hahead := hkept.ahead
    unfold KeepsUp
    generalize Runs.run rteSchedPortDequeueTime (Clocked.init tsc_hz rate start) calls = s at *
    generalize tsc_hz * 256 / rate = cpb at *
    generalize s.tsc - start = elapsed at *
    have hhz' : 0 < tsc_hz := by
      refine Nat.pos_of_ne_zero fun h0 => ?_
      rw [h0, Nat.zero_mul] at hmul
      rcases Nat.mul_eq_zero.mp hmul with h | h <;> omega
    refine ⟨Nat.lt_of_mul_lt_mul_left (a := 256) ?_, Nat.lt_of_mul_lt_mul_left (a := 256) ?_⟩
    · calc 256 * (elapsed * rate) = 256 * elapsed * rate := by ring
        _ < cpb * (s.port.time_cpu_bytes + 1) * rate := Nat.mul_lt_mul_of_pos_right hbehind hrate
        _ = cpb * rate * (s.port.time_cpu_bytes + 1) := by ring
        _ ≤ tsc_hz * 256 * (s.port.time_cpu_bytes + calls.length) := by
          rw [hmul]
          exact Nat.mul_le_mul_left _ (by omega)
        _ = 256 * (tsc_hz * (s.port.time_cpu_bytes + calls.length)) := by ring
    · calc 256 * (tsc_hz * s.port.time_cpu_bytes) = tsc_hz * 256 * s.port.time_cpu_bytes := by ring
        _ = cpb * s.port.time_cpu_bytes * rate := by rw [← hmul]; ring
        _ ≤ (256 * elapsed + 255 * (calls.length - 1)) * rate := Nat.mul_le_mul_right _ hahead
        _ = 256 * (elapsed * rate) + 255 * rate * (calls.length - 1) := by ring
        _ ≤ 256 * (elapsed * rate) + tsc_hz * 256 * (calls.length - 1) := by
          rw [← hmul]
          exact Nat.add_le_add_left (Nat.mul_le_mul_right _ (Nat.mul_le_mul_right _ hbyte)) _
        _ < 256 * (elapsed * rate) + tsc_hz * 256 * calls.length :=
          Nat.add_lt_add_left (Nat.mul_lt_mul_of_pos_left (by omega) (by omega)) _
        _ = 256 * (elapsed * rate + tsc_hz * calls.length) := by ring

/-- Two dequeues at 2 GHz on a line of ten gigabits, a thousand cycles apart. -/
theorem time_keeps_up_two :
    let s := run rteSchedPortDequeueTime (Clocked.init 2000000000 1250000000 0)
      [⟨1000, 0⟩, ⟨1000, 64⟩]
    256 * (s.tsc - 0) < 409 * (s.port.time_cpu_bytes + 1) :=
  (@time_keeps_up 2000000000 1250000000 0 (by norm_num) (by norm_num) (by norm_num)
    [⟨1000, 0⟩, ⟨1000, 64⟩] (by decide)).1

/-- On a line of ten gigabits at 2 GHz, 256 bytes take 409 cycles and not 409.6: over `2 ^ 23`
cycles seven thousand bytes too many are counted. -/
theorem cycles_per_byte_is_rounded :
    ¬ ∀ (tsc_hz rate start : ℕ) (calls : List DequeueCall), 0 < tsc_hz → 0 < rate →
      calls ≠ [] → (∀ call ∈ calls, call.gap ≤ 2 ^ 55) →
      KeepsUp tsc_hz rate start
        (run rteSchedPortDequeueTime (Clocked.init tsc_hz rate start) calls) calls.length := by
  intro hall
  have h := hall 2000000000 1250000000 0 [⟨2 ^ 23, 0⟩] (by norm_num) (by norm_num) (by simp)
    (by simp)
  exact absurd h.2 (by decide)

end Sched
