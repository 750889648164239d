import Mathlib.Tactic.Ring
import DpdkStudy.Bitmap.Summary
import DpdkStudy.Lib.Admission
import DpdkStudy.Sched.Sched

/-!
# A burst is enqueued as its packets one by one

The pipeline of `rte_sched_port_enqueue` reads the subport, the queue and the write pointer
location of a packet while up to six packets before it have not been written yet. None of
what it reads early is ever written by the enqueue side: this is the **layout** of a port
(`SameLayout`), and each write keeps it (`enqueueQwa_spec`). So each turn of the loop hands
the packets on as if they had been read when they are written (`Filled.turn`), and the burst
leaves the port as single calls do.

The count that is returned is the number of packets for which there was room. It is kept in
a `uint32_t` and returned as an `int`, so a burst of which $2^{31}$ packets or more are
enqueued returns a negative number.
-/

open Option Nat

namespace Sched

open Function Bitmap Admission

variable {i : ℕ} {k : ℕ × BitVec 32} {n_pkts result : BitVec 32}

/-! ## What a write leaves as it is -/

/-- What of a subport says where its packets go. -/
def RteSchedSubport.layout (s : RteSchedSubport) :=
  (s.n_pipes_per_subport_enabled, s.qsize, s.qsize_add, s.qsize_sum, s.bmp.array1_size,
    s.bmp.array2_size)

/-- **Two states with the same layout.** -/
structure SameLayout (sch sch' : State) : Prop where
  log2 : sch'.port.n_pipes_per_subport_log2 = sch.port.n_pipes_per_subport_log2
  pipe_tc : sch'.port.pipe_tc = sch.port.pipe_tc
  subports : ∀ i, (sch'.port.subports i).map RteSchedSubport.layout =
    (sch.port.subports i).map RteSchedSubport.layout

/-- The bitmaps of the subports have the sizes for their queues. -/
def Sound (port : RteSchedPort) : Prop :=
  ∀ i s, port.subports i = some s → Sized s.pipeQueues.toNat s.bmp

/-- A subport has a queue. -/
def HasQueue (sch : State) (k : ℕ × BitVec 32) : Prop :=
  ∃ s, sch.port.subports k.1 = some s ∧ k.2 < s.pipeQueues

/-- **The queue of a packet**: the subport and the number in it. -/
def queueOf (sch : State) (pkt : RteMbuf) : ℕ × BitVec 32 :=
  (portSubport sch pkt, enqueueQptrsPrefetch0 pkt sch.port.subportQmask)

/-- The room that a queue has in its subport. -/
def subportRoom (port : RteSchedPort) (s : RteSchedSubport) (qindex : BitVec 32) : ℕ :=
  (subportPipeQsize port s qindex).toNat -
    ((s.queue qindex.toNat).qw - (s.queue qindex.toNat).qr).toNat

/-- **The room of a queue**: how many packets it can still take. -/
def room (sch : State) (k : ℕ × BitVec 32) : ℕ :=
  ((sch.port.subports k.1).map fun s => subportRoom sch.port s k.2).getD 0

variable {sch sch' sch₁ : State} {s s' : RteSchedSubport} {pkts : ℕ → RteMbuf}

theorem SameLayout.refl (sch : State) : SameLayout sch sch := ⟨rfl, rfl, fun _ => rfl⟩

theorem SameLayout.trans (h : SameLayout sch sch') (h' : SameLayout sch' sch₁) :
    SameLayout sch sch₁ :=
  ⟨h'.log2.trans h.log2, h'.pipe_tc.trans h.pipe_tc,
    fun i => (h'.subports i).trans (h.subports i)⟩

theorem SameLayout.exists_subport (h : SameLayout sch sch') (hs : sch.port.subports i = some s) :
    ∃ s', sch'.port.subports i = some s' ∧ s'.layout = s.layout := by
  have hmap := h.subports i
  rw [hs, map_some, map_eq_some_iff] at hmap
  exact hmap

theorem SameLayout.symm (h : SameLayout sch sch') : SameLayout sch' sch :=
  ⟨h.log2.symm, h.pipe_tc.symm, fun i => (h.subports i).symm⟩

theorem pipeQueues_eq (h : s'.layout = s.layout) : s'.pipeQueues = s.pipeQueues := by
  simp only [RteSchedSubport.layout, Prod.mk.injEq] at h
  simp only [RteSchedSubport.pipeQueues, h]

section

variable (h : SameLayout sch sch')

include h

theorem SameLayout.sound (hsound : Sound sch.port) :
    Sound sch'.port := by
  intro i s' hs'
  obtain ⟨s, hs, hl⟩ := h.symm.exists_subport hs'
  have hsized := hsound i s hs
  rw [pipeQueues_eq hl] at hsized
  simp only [RteSchedSubport.layout, Prod.mk.injEq] at hl
  obtain ⟨-, -, -, -, h1, h2⟩ := hl
  exact ⟨h2 ▸ hsized.bits, h2 ▸ hsized.lines, h1 ▸ h2 ▸ hsized.covered, h1 ▸ hsized.pow,
    h2 ▸ hsized.small⟩

theorem SameLayout.hasQueue (hk : HasQueue sch k) : HasQueue sch' k := by
  obtain ⟨s, hs, hlt⟩ := hk
  obtain ⟨s', hs', hl⟩ := h.exists_subport hs
  exact ⟨s', hs', by rwa [pipeQueues_eq hl]⟩

/-- **What the first stages read is the same** after packets have been written. -/
theorem SameLayout.portSubport_eq (pkt : RteMbuf) :
    portSubport sch' pkt = portSubport sch pkt := by
  rw [portSubport, portSubport, h.log2]

theorem SameLayout.subportQmask_eq :
    sch'.port.subportQmask = sch.port.subportQmask := by
  rw [RteSchedPort.subportQmask, RteSchedPort.subportQmask, h.log2]

theorem SameLayout.queueOf_eq (pkt : RteMbuf) :
    queueOf sch' pkt = queueOf sch pkt := by
  rw [queueOf, queueOf, h.portSubport_eq, h.subportQmask_eq]

theorem SameLayout.qbaseAt_eq (i : ℕ) (q : BitVec 32) :
    qbaseAt sch' i q = qbaseAt sch i q := by
  have hmap := congrArg (Option.map fun l =>
    (q >>> 4 * l.2.2.2.1).toNat + (l.2.2.1 (q &&& (queuesPerPipe - 1)).toNat).toNat)
    (h.subports i)
  rw [map_map, map_map] at hmap
  exact hmap

end

theorem exists_qbaseAt (hk : HasQueue sch k) :
    ∃ base, qbaseAt sch k.1 k.2 = some base := by
  obtain ⟨s, hs, -⟩ := hk
  exact ⟨s.pipeQbase k.2, by rw [qbaseAt, hs, map_some]⟩

/-! ## Writing one packet -/

theorem SameLayout.write (hs : sch.port.subports i = some s) (hl : s'.layout = s.layout)
    (freed : List RteMbuf) : SameLayout sch (sch.write i s' freed) := by
  refine ⟨rfl, rfl, fun j => ?_⟩
  show ((update sch.port.subports i (some s')) j).map _ = _
  by_cases hj : j = i
  · rw [hj, update_self, hs, map_some, map_some, hl]
  · rw [update_of_ne hj]

theorem room_write (i : ℕ) (s' : RteSchedSubport) (freed : List RteMbuf) (q : BitVec 32) :
    room (sch.write i s' freed) (i, q) = subportRoom sch.port s' q := by
  show ((update sch.port.subports i (some s') i).map _).getD 0 = _
  rw [update_self]
  rfl

theorem room_write_of_ne (s' : RteSchedSubport) (freed : List RteMbuf) (hk : k.1 ≠ i) :
    room (sch.write i s' freed) k = room sch k := by
  show ((update sch.port.subports i (some s') k.1).map _).getD 0 = _
  rw [update_of_ne hk]
  rfl

theorem exists_set {n_bits pos : ℕ} {bmp : RteBitmap} (hsized : Sized n_bits bmp)
    (hpos : pos < n_bits) :
    ∃ bmp', bmp.set pos = some bmp' ∧ bmp'.array1_size = bmp.array1_size ∧
      bmp'.array2_size = bmp.array2_size := by
  have hlt := hsized.lt_array2 hpos
  obtain ⟨array1, hmark, -⟩ := orSlab_spec hsized rfl hlt (1#64 <<< (pos % slabBitSize))
  rw [RteBitmap.set, if_pos hlt]
  exact ⟨_, hmark, rfl, rfl⟩

/-- A queue with a packet more has less room by one. -/
theorem room_succ {qsize qw qr : BitVec 16} (h : ¬ qw - qr ≥ qsize) :
    qsize.toNat - (qw + 1 - qr).toNat = qsize.toNat - (qw - qr).toNat - 1 := by
  have hlt : (qw - qr).toNat < qsize.toNat := BitVec.lt_def.mp (BitVec.not_le.mp h)
  have hmore : qw + 1 - qr = qw - qr + 1 := by grind
  have hone : (1 : BitVec 16).toNat = 1 := rfl
  have hsize := qsize.isLt
  rw [hmore, BitVec.toNat_add, hone, mod_eq_of_lt (by omega), sub_add_eq]

/-- **A packet is written** if its queue has room. The layout stays, and no other queue has
another room. -/
theorem enqueueQwa_spec (hsound : Sound sch.port) (hk : HasQueue sch k) (qbase : ℕ) (pkt : RteMbuf)
    :
    ∃ sch', enqueueQwa sch k.1 k.2 qbase pkt = some (if 0 < room sch k then 1 else 0, sch') ∧
      SameLayout sch sch' ∧
      ∀ j, room sch' j = room sch j - if k = j then 1 else 0 := by
  obtain ⟨i, q⟩ := k
  obtain ⟨s, hs, hlt⟩ := hk
  have hroom : room sch (i, q) = subportRoom sch.port s q := by rw [room, hs]; rfl
  -- All rooms, once those of this subport are known.
  have hrooms : ∀ (s' : RteSchedSubport) (freed : List RteMbuf),
      (∀ q', subportRoom sch.port s' q' = subportRoom sch.port s q' - if q = q' then 1 else 0) →
      ∀ j, room (sch.write i s' freed) j = room sch j - if (i, q) = j then 1 else 0 := by
    intro s' freed hq' ⟨i', q'⟩
    by_cases hi : i' = i
    · subst hi
      rw [room_write, hq', room, hs]
      simp
    · rw [room_write_of_ne s' freed hi, if_neg (by simp [Ne.symm hi]), Nat.sub_zero]
  rw [enqueueQwa, hs, bind_eq_bind, bind_some, if_pos hlt]
  by_cases hfull : (s.queue q.toNat).qw - (s.queue q.toNat).qr ≥ subportPipeQsize sch.port s q
  · have hzero : subportRoom sch.port s q = 0 :=
      Nat.sub_eq_zero_of_le (BitVec.le_def.mp hfull)
    rw [hroom, hzero]
    refine ⟨_, if_pos hfull, SameLayout.write hs (by rfl) _, hrooms _ _ fun q' => ?_⟩
    show subportRoom sch.port s q' = _
    by_cases hq : q = q'
    · rw [← hq, hzero, Nat.zero_sub]
    · rw [if_neg hq, Nat.sub_zero]
  · have hpos : 0 < subportRoom sch.port s q :=
      Nat.sub_pos_of_lt (BitVec.lt_def.mp (BitVec.not_le.mp hfull))
    obtain ⟨bmp, hset, h1, h2⟩ := exists_set (hsound i s hs) (BitVec.lt_def.mp hlt)
    rw [if_neg hfull, hroom, if_pos hpos]
    dsimp only
    rw [hset]
    refine ⟨_, rfl, SameLayout.write hs ?_ _, hrooms _ _ fun q' => ?_⟩
    · show (_, _, _, _, bmp.array1_size, bmp.array2_size) = _
      rw [h1, h2]
      rfl
    · by_cases hq : q = q'
      · subst hq
        rw [if_pos rfl]
        show _ - ((update s.queue q.toNat _ q.toNat).qw -
          (update s.queue q.toNat _ q.toNat).qr).toNat = _
        rw [update_self]
        exact room_succ hfull
      · have hne : q'.toNat ≠ q.toNat := fun e => hq (BitVec.eq_of_toNat_eq e.symm)
        rw [if_neg hq, Nat.sub_zero]
        show _ - ((update s.queue q.toNat _ q'.toNat).qw -
          (update s.queue q.toNat _ q'.toNat).qr).toNat = _
        rw [update_of_ne hne]
        rfl

/-! ## Writing packets in a row -/

/-- The write pointer location for a packet. -/
def qbaseOf (sch : State) (pkt : RteMbuf) : ℕ :=
  (qbaseAt sch (queueOf sch pkt).1 (queueOf sch pkt).2).getD 0

/-- **The first packets are written** to the queues that the state before all of them says. -/
def written (sch : State) (pkts : ℕ → RteMbuf) : ℕ → Option (BitVec 32 × State) :=
  writeAll sch pkts (fun i => (queueOf sch (pkts i)).1) (fun i => (queueOf sch (pkts i)).2)
    fun i => qbaseOf sch (pkts i)

/-- **How many of the first packets find room** in their queues. -/
def enqueued (sch : State) (pkts : ℕ → RteMbuf) (n : ℕ) : ℕ :=
  admitted (fun i => queueOf sch (pkts i)) (room sch) n

/-- **A burst for queues of the port.** -/
structure Burst (sch : State) (pkts : ℕ → RteMbuf) (n : ℕ) : Prop where
  sound : Sound sch.port
  hasQueue : ∀ i < n, HasQueue sch (queueOf sch (pkts i))

variable {n j : ℕ}

theorem Burst.qbaseAt_eq (h : Burst sch pkts n) (hl : SameLayout sch sch') (hj : j < n) :
    qbaseAt sch' (queueOf sch (pkts j)).1 (queueOf sch (pkts j)).2 =
      some (qbaseOf sch (pkts j)) := by
  obtain ⟨base, hbase⟩ := exists_qbaseAt (h.hasQueue j hj)
  rw [hl.qbaseAt_eq, qbaseOf, hbase, getD_some]

theorem written_succ {pkts : ℕ → RteMbuf} {j : ℕ} {r : BitVec 32}
    (hwritten : written sch pkts j = some (result, sch'))
    (henqueue : enqueueQwa sch' (queueOf sch (pkts j)).1 (queueOf sch (pkts j)).2
      (qbaseOf sch (pkts j)) (pkts j) = some (r, sch₁)) :
    written sch pkts (j + 1) = some (result + r, sch₁) := by
  show Option.bind (written sch pkts j) _ = _
  rw [hwritten, Option.bind_some]
  show Option.bind (enqueueQwa _ _ _ _ _) _ = _
  rw [henqueue]
  rfl

theorem enqueued_succ (sch : State) (pkts : ℕ → RteMbuf) (j : ℕ) :
    enqueued sch pkts (j + 1) = enqueued sch pkts j +
      if arrivals (fun i => queueOf sch (pkts i)) j (queueOf sch (pkts j)) <
        room sch (queueOf sch (pkts j)) then 1 else 0 :=
  admitted_succ _ _ j

/-- **Packets in a row** are counted if their queues have room, which they then take. -/
theorem Burst.written (h : Burst sch pkts n) (hj : j ≤ n) :
    ∃ sch', written sch pkts j = some (BitVec.ofNat 32 (enqueued sch pkts j), sch') ∧
      SameLayout sch sch' ∧
      ∀ k, room sch' k = room sch k - arrivals (fun i => queueOf sch (pkts i)) j k := by
  induction j with
  | zero =>
    refine ⟨sch, ?_, SameLayout.refl sch, fun k => ?_⟩
    · rw [enqueued, admitted_zero]
      rfl
    · rw [arrivals_zero, Nat.sub_zero]
  | succ j ih =>
    obtain ⟨sch', hwritten, hl, hroom⟩ := ih (le_of_succ_le hj)
    obtain ⟨sch₁, henqueue, hl₁, hroom₁⟩ := enqueueQwa_spec (hl.sound h.sound)
      (hl.hasQueue (h.hasQueue j hj)) (qbaseOf sch (pkts j)) (pkts j)
    refine ⟨sch₁, ?_, hl.trans hl₁, fun k => ?_⟩
    · rw [written_succ hwritten henqueue, enqueued_succ, hroom]
      simp only [Nat.sub_pos_iff_lt, BitVec.ofNat_add]
      split <;> rfl
    · rw [hroom₁, hroom, arrivals_succ, Nat.sub_sub]

theorem Burst.next (h : Burst sch pkts n) (hj : j < n)
    (hwritten : Sched.written sch pkts j = some (result, sch')) :
    ∃ r sch₁, enqueueQwa sch' (queueOf sch (pkts j)).1 (queueOf sch (pkts j)).2
        (qbaseOf sch (pkts j)) (pkts j) = some (r, sch₁) ∧
      Sched.written sch pkts (j + 1) = some (result + r, sch₁) := by
  obtain ⟨t, ht, hl, -⟩ := h.written (le_of_lt hj)
  obtain ⟨-, rfl⟩ := Prod.mk.inj (some.inj (hwritten.symm.trans ht))
  obtain ⟨sch₁, henqueue, -⟩ := enqueueQwa_spec (hl.sound h.sound)
    (hl.hasQueue (h.hasQueue j hj)) (qbaseOf sch (pkts j)) (pkts j)
  exact ⟨_, sch₁, henqueue, written_succ hwritten henqueue⟩

theorem Burst.sameLayout (h : Burst sch pkts n) (hj : j ≤ n)
    (hwritten : Sched.written sch pkts j = some (result, sch')) : SameLayout sch sch' := by
  obtain ⟨t, ht, hl, -⟩ := h.written hj
  obtain ⟨-, rfl⟩ := Prod.mk.inj (some.inj (hwritten.symm.trans ht))
  exact hl

/-! ## The pipeline -/

/-- **The pipeline before the turn for packet `j + 6`**: the packets before `j` are written,
and the six from `j` on are in the stages. -/
structure Filled (sch : State) (pkts : ℕ → RteMbuf) (j : ℕ) (p : Pipeline) : Prop where
  pkt20 : p.pkt20 = pkts j
  pkt21 : p.pkt21 = pkts (j + 1)
  pkt10 : p.pkt10 = pkts (j + 2)
  pkt11 : p.pkt11 = pkts (j + 3)
  pkt00 : p.pkt00 = pkts (j + 4)
  pkt01 : p.pkt01 = pkts (j + 5)
  queue20 : p.subport20 = (queueOf sch (pkts j)).1 ∧ p.q20 = (queueOf sch (pkts j)).2
  queue21 : p.subport21 = (queueOf sch (pkts (j + 1))).1 ∧ p.q21 = (queueOf sch (pkts (j + 1))).2
  queue10 : p.subport10 = (queueOf sch (pkts (j + 2))).1 ∧ p.q10 = (queueOf sch (pkts (j + 2))).2
  queue11 : p.subport11 = (queueOf sch (pkts (j + 3))).1 ∧ p.q11 = (queueOf sch (pkts (j + 3))).2
  q20_base : p.q20_base = qbaseOf sch (pkts j)
  q21_base : p.q21_base = qbaseOf sch (pkts (j + 1))
  written : Sched.written sch pkts j = some (p.result, p.sch)

/-- The pipeline is fed with the first six packets. -/
theorem Burst.feed (h : Burst sch pkts n) (hn : 6 ≤ n) :
    ∃ p, feed sch pkts sch.port.subportQmask = some p ∧ Filled sch pkts 0 p := by
  have hl := SameLayout.refl sch
  refine ⟨⟨pkts 4, pkts 5, pkts 2, pkts 3, pkts 0, pkts 1, (queueOf sch (pkts 2)).1,
    (queueOf sch (pkts 3)).1, (queueOf sch (pkts 0)).1, (queueOf sch (pkts 1)).1,
    (queueOf sch (pkts 2)).2, (queueOf sch (pkts 3)).2, (queueOf sch (pkts 0)).2,
    (queueOf sch (pkts 1)).2, qbaseOf sch (pkts 0), qbaseOf sch (pkts 1), 0, sch⟩, ?_,
    ⟨rfl, rfl, rfl, rfl, rfl, rfl, ⟨rfl, rfl⟩, ⟨rfl, rfl⟩, ⟨rfl, rfl⟩, ⟨rfl, rfl⟩, rfl, rfl, rfl⟩⟩
  show Option.bind (qbaseAt sch (queueOf sch (pkts 0)).1 (queueOf sch (pkts 0)).2) _ = _
  rw [h.qbaseAt_eq hl (by omega), Option.bind_some]
  show Option.bind (qbaseAt sch (queueOf sch (pkts 1)).1 (queueOf sch (pkts 1)).2) _ = _
  rw [h.qbaseAt_eq hl (by omega)]
  rfl

/-- One turn of the pipeline writes two packets, and takes in two. -/
theorem Filled.turn {p : Pipeline} (hp : Filled sch pkts j p) (h : Burst sch pkts n)
    (hj : j + 8 ≤ n) :
    ∃ p', turn pkts sch.port.subportQmask (j + 6) p = some p' ∧ Filled sch pkts (j + 2) p' := by
  have hl := h.sameLayout (by omega) hp.written
  obtain ⟨r30, t, h30, hw⟩ := h.next (by omega) hp.written
  obtain ⟨r31, t', h31, hw'⟩ := h.next (by omega) hw
  obtain ⟨hs20, hq20⟩ := hp.queue20
  obtain ⟨hs21, hq21⟩ := hp.queue21
  obtain ⟨hs10, hq10⟩ := hp.queue10
  obtain ⟨hs11, hq11⟩ := hp.queue11
  refine ⟨⟨pkts (j + 6), pkts (j + 7), pkts (j + 4), pkts (j + 5), pkts (j + 2), pkts (j + 3),
    (queueOf sch (pkts (j + 4))).1, (queueOf sch (pkts (j + 5))).1,
    (queueOf sch (pkts (j + 2))).1, (queueOf sch (pkts (j + 3))).1,
    (queueOf sch (pkts (j + 4))).2, (queueOf sch (pkts (j + 5))).2,
    (queueOf sch (pkts (j + 2))).2, (queueOf sch (pkts (j + 3))).2,
    qbaseOf sch (pkts (j + 2)), qbaseOf sch (pkts (j + 3)), p.result + (r30 + r31), t'⟩, ?_,
    ⟨rfl, rfl, rfl, rfl, rfl, rfl, ⟨rfl, rfl⟩, ⟨rfl, rfl⟩, ⟨rfl, rfl⟩, ⟨rfl, rfl⟩, rfl, rfl, ?_⟩⟩
  · simp only [Sched.turn, hs20, hq20, hs21, hq21, hs10, hq10, hs11, hq11, hp.pkt20, hp.pkt21,
      hp.pkt10, hp.pkt11, hp.pkt00, hp.pkt01, hp.q20_base, hp.q21_base, hl.portSubport_eq,
      h.qbaseAt_eq hl (show j + 2 < n by omega), h.qbaseAt_eq hl (show j + 3 < n by omega),
      h30, h31, bind_eq_bind, bind_some]
    rfl
  · rw [hw', BitVec.add_assoc]

/-- **The loop of the pipeline** leaves the last six packets of an even number in the stages. -/
theorem Filled.turns (h : Burst sch pkts n) {m : ℕ} (hm : 2 * m ≤ n) (k : ℕ) :
    ∀ j p, j + 6 + 2 * k = 2 * m → Filled sch pkts j p →
      ∃ p', turns pkts sch.port.subportQmask (2 * m) (j + 6) p = some p' ∧
        Filled sch pkts (2 * m - 6) p' := by
  induction k with
  | zero =>
    intro j p hk hp
    refine ⟨p, ?_, ?_⟩
    · rw [Sched.turns, if_neg (by omega)]
    · rw [show 2 * m - 6 = j by omega]
      exact hp
  | succ k ih =>
    intro j p hk hp
    obtain ⟨p', hturn, hp'⟩ := hp.turn h (by omega)
    obtain ⟨p'', hturns, hp''⟩ := ih (j + 2) p' (by omega) hp'
    refine ⟨p'', ?_, hp''⟩
    rw [Sched.turns, if_pos (by omega), hturn, bind_some]
    exact hturns

/-- **The pipeline is drained**: the six packets in it are written, and the last one of an odd
number. -/
theorem Filled.drain {p : Pipeline} (hp : Filled sch pkts j p) (h : Burst sch pkts n_pkts.toNat)
    (hj : j + 6 = 2 * (n_pkts.toNat / 2)) :
    Sched.drain pkts sch.port.subportQmask n_pkts p = Sched.written sch pkts n_pkts.toNat := by
  have hl := h.sameLayout (by omega) hp.written
  obtain ⟨r20, t₁, h20, hw₁⟩ := h.next (by omega) hp.written
  obtain ⟨r21, t₂, h21, hw₂⟩ := h.next (by omega) hw₁
  obtain ⟨r10, t₃, h10, hw₃⟩ := h.next (by omega) hw₂
  obtain ⟨r11, t₄, h11, hw₄⟩ := h.next (by omega) hw₃
  obtain ⟨r00, t₅, h00, hw₅⟩ := h.next (by omega) hw₄
  obtain ⟨r01, t₆, h01, hw₆⟩ := h.next (by omega) hw₅
  have hl₂ := h.sameLayout (by omega) hw₂
  have hl₄ := h.sameLayout (by omega) hw₄
  obtain ⟨hs20, hq20⟩ := hp.queue20
  obtain ⟨hs21, hq21⟩ := hp.queue21
  obtain ⟨hs10, hq10⟩ := hp.queue10
  obtain ⟨hs11, hq11⟩ := hp.queue11
  have hlast : (n_pkts - 1).toNat = n_pkts.toNat - 1 := by
    rw [BitVec.toNat_sub_of_le (BitVec.le_def.mpr (by show 1 ≤ _; omega))]
    rfl
  have hodd : n_pkts &&& 1 ≠ 0 ↔ n_pkts.toNat % 2 = 1 := by
    rw [ne_eq, ← BitVec.toNat_inj, BitVec.toNat_and]
    show ¬ n_pkts.toNat &&& 1 = 0 ↔ _
    rw [and_one_is_mod]
    omega
  have hqueue : ∀ (t : State) (pkt : RteMbuf), SameLayout sch t →
      (portSubport t pkt = (queueOf sch pkt).1 ∧
        enqueueQptrsPrefetch0 pkt sch.port.subportQmask = (queueOf sch pkt).2) :=
    fun t pkt hl => ⟨hl.portSubport_eq pkt, rfl⟩
  simp only [Sched.drain, hs20, hq20, hs21, hq21, hs10, hq10, hs11, hq11, hp.pkt20, hp.pkt21,
    hp.pkt10, hp.pkt11, hp.pkt00, hp.pkt01, hp.q20_base, hp.q21_base, hlast,
    (hqueue p.sch _ hl).1, (hqueue t₂ _ hl₂).1, (hqueue t₂ _ hl₂).2,
    h.qbaseAt_eq hl (show j + 2 < n_pkts.toNat by omega),
    h.qbaseAt_eq hl (show j + 3 < n_pkts.toNat by omega),
    h.qbaseAt_eq hl₂ (show j + 4 < n_pkts.toNat by omega),
    h.qbaseAt_eq hl₂ (show j + 5 < n_pkts.toNat by omega),
    h.qbaseAt_eq hl₄ (show n_pkts.toNat - 1 < n_pkts.toNat by omega),
    h20, h21, h10, h11, h00, h01, bind_eq_bind, bind_some]
  by_cases hone : n_pkts &&& 1 ≠ 0
  · have hn : n_pkts.toNat = j + 6 + 1 := by
      have hmod := hodd.mp hone
      omega
    obtain ⟨r_last, t₇, hr, hw₇⟩ := h.next (hn ▸ lt_succ_self _) hw₆
    rw [if_pos hone, hn, Nat.add_sub_cancel, hr, bind_some, hw₇]
    simp only [BitVec.add_assoc]
  · have hn : n_pkts.toNat = j + 6 := by
      have hmod := mt hodd.mpr hone
      omega
    rw [if_neg hone, hn, hw₆]
    simp only [BitVec.add_assoc]

/-! ## A burst and its packets -/

/-- The write pointer locations are loaded for all packets. -/
theorem Burst.loadQbase (h : Burst sch pkts n) (hj : j ≤ n) :
    ∃ q_base, loadQbase sch (fun i => portSubport sch (pkts i))
        (fun i => enqueueQptrsPrefetch0 (pkts i) sch.port.subportQmask) j = some q_base ∧
      ∀ i < j, q_base i = qbaseOf sch (pkts i) := by
  induction j with
  | zero => exact ⟨_, rfl, fun i hi => absurd hi (Nat.not_lt_zero i)⟩
  | succ j ih =>
    obtain ⟨q_base, hload, hbase⟩ := ih (Nat.le_of_succ_le hj)
    have hat := h.qbaseAt_eq (SameLayout.refl sch) hj
    refine ⟨update q_base j (qbaseOf sch (pkts j)), ?_, fun i hi => ?_⟩
    · show Option.bind (Sched.loadQbase _ _ _ j) _ = _
      rw [hload, Option.bind_some]
      show Option.bind (qbaseAt sch (queueOf sch (pkts j)).1 (queueOf sch (pkts j)).2) _ = _
      rw [hat]
      rfl
    · rcases Nat.lt_succ_iff_lt_or_eq.mp hi with hlt | rfl
      · rw [update_of_ne (Nat.ne_of_lt hlt), hbase i hlt]
      · rw [update_self]

theorem writeAll_congr {subports : ℕ → ℕ} {q : ℕ → BitVec 32} {q_base q_base' : ℕ → ℕ}
    (h : ∀ i < j, q_base i = q_base' i) :
    writeAll sch pkts subports q q_base j = writeAll sch pkts subports q q_base' j := by
  induction j with
  | zero => rfl
  | succ j ih =>
    show bind (writeAll sch pkts subports q q_base j) _ = bind _ _
    rw [ih fun i hi => h i (lt_succ_of_lt hi), h j (lt_succ_self j)]

theorem toNat_and_not_one (n : BitVec 32) : (n &&& ~~~1#32).toNat = 2 * (n.toNat / 2) := by
  have hshift : n &&& ~~~1#32 = n >>> 1 <<< 1 := by
    ext i hi
    cases i with
    | zero => simp
    | succ i => simp [-BitVec.reduceNot, BitVec.getLsbD_eq_getElem hi, add_comm 1 i]
  have hlt := n.isLt
  rw [hshift, BitVec.toNat_shiftLeft, BitVec.toNat_ushiftRight, shiftLeft_eq,
    shiftRight_eq_div_pow, mod_eq_of_lt (by omega)]
  omega

/-- **What `rte_sched_port_enqueue` computes**: its packets are written one after the other. -/
theorem Burst.enqueue (h : Burst sch pkts n_pkts.toNat) :
    rteSchedPortEnqueue sch pkts n_pkts =
      (Sched.written sch pkts n_pkts.toNat).map fun c => (c.1.toInt, c.2) := by
  obtain ⟨sch', hwritten, -⟩ := h.written (le_refl _)
  by_cases hsmall : n_pkts < 6
  · obtain ⟨q_base, hload, hbase⟩ := h.loadQbase (le_refl _)
    have hall : writeAll sch pkts (fun i => portSubport sch (pkts i))
        (fun i => enqueueQptrsPrefetch0 (pkts i) sch.port.subportQmask) q_base n_pkts.toNat =
          Sched.written sch pkts n_pkts.toNat := writeAll_congr hbase
    simp only [rteSchedPortEnqueue, if_pos hsmall, hload, hall, hwritten, bind_eq_bind,
      bind_some, map_some]
  · have hsix : 6 ≤ n_pkts.toNat := BitVec.le_def.mp (BitVec.not_lt.mp hsmall)
    have hlast := toNat_and_not_one n_pkts
    obtain ⟨p, hfeed, hp⟩ := h.feed hsix
    obtain ⟨p', hturns, hp'⟩ := Filled.turns h (m := n_pkts.toNat / 2) (by omega)
      (n_pkts.toNat / 2 - 3) 0 p (by omega) hp
    have hdrain := hp'.drain h (by omega)
    simp only [rteSchedPortEnqueue, if_neg hsmall, hfeed, hlast, hturns, hdrain, hwritten,
      bind_eq_bind, bind_some, map_some]

/-- **Calls with one packet each**, and the sum of what they return. -/
def singleCalls (sch : State) (pkts : ℕ → RteMbuf) : ℕ → Option (ℤ × State)
  | 0 => some (0, sch)
  | i + 1 => do
    let (count, sch) ← singleCalls sch pkts i
    let (r, sch) ← rteSchedPortEnqueue sch (fun _ => pkts i) 1
    some (count + r, sch)

theorem SameLayout.qbaseOf_eq (h : SameLayout sch sch') (pkt : RteMbuf) :
    qbaseOf sch' pkt = qbaseOf sch pkt := by
  rw [qbaseOf, h.queueOf_eq, h.qbaseAt_eq, qbaseOf]

/-- **A single call** writes its packet, and returns whether there was room. -/
theorem enqueue_one (hsound : Sound sch.port) {pkt : RteMbuf} (hk : HasQueue sch (queueOf sch pkt))
    {r : BitVec 32} (hr : r = 0 ∨ r = 1)
    (henqueue : enqueueQwa sch (queueOf sch pkt).1 (queueOf sch pkt).2 (qbaseOf sch pkt) pkt =
      some (r, sch')) :
    rteSchedPortEnqueue sch (fun _ => pkt) 1 = some ((r.toNat : ℤ), sch') := by
  have hburst : Burst sch (fun _ => pkt) (1 : BitVec 32).toNat := ⟨hsound, fun _ _ => hk⟩
  have hone : Sched.written sch (fun _ => pkt) (1 : BitVec 32).toNat = some (0 + r, sch') :=
    written_succ (show written sch (fun _ => pkt) 0 = some (0, sch) from rfl) henqueue
  rw [hburst.enqueue, hone, map_some]
  rcases hr with rfl | rfl <;> rfl

/-- **Single calls** enqueue the packets for which there is room, and return their number. -/
theorem Burst.singleCalls (h : Burst sch pkts n) (hj : j ≤ n) :
    ∃ result sch', Sched.written sch pkts j = some (result, sch') ∧
      Sched.singleCalls sch pkts j = some ((enqueued sch pkts j : ℤ), sch') := by
  induction j with
  | zero =>
    refine ⟨0, sch, rfl, ?_⟩
    rw [enqueued, admitted_zero]
    rfl
  | succ j ih =>
    obtain ⟨result, t, hwritten, hcalls⟩ := ih (le_of_succ_le hj)
    obtain ⟨t', ht, hl, hroom⟩ := h.written (le_of_succ_le hj)
    obtain ⟨-, rfl⟩ := Prod.mk.inj (Option.some.inj (hwritten.symm.trans ht))
    have hk := hl.hasQueue (h.hasQueue j hj)
    obtain ⟨sch₁, henqueue, -⟩ := enqueueQwa_spec (hl.sound h.sound) hk
      (qbaseOf sch (pkts j)) (pkts j)
    have hbit : (if 0 < room t (queueOf sch (pkts j)) then 1 else 0 : BitVec 32) = 0 ∨
        (if 0 < room t (queueOf sch (pkts j)) then 1 else 0 : BitVec 32) = 1 := by
      split <;> simp
    have hsingle := enqueue_one (hl.sound h.sound) (by rwa [hl.queueOf_eq]) hbit
      (by rwa [hl.queueOf_eq, hl.qbaseOf_eq])
    refine ⟨_, sch₁, written_succ hwritten henqueue, ?_⟩
    show Option.bind (Sched.singleCalls sch pkts j) _ = _
    rw [hcalls, Option.bind_some]
    show Option.bind (rteSchedPortEnqueue _ _ _) _ = _
    rw [hsingle, enqueued_succ, hroom]
    simp only [Nat.sub_pos_iff_lt]
    split <;> rfl

/-! ## Configured ports -/

theorem exists_pow_of_isPowerOf2 {n : BitVec 32} (h : rteIsPowerOf2 n = true) :
    ∃ k, k < 32 ∧ n.toNat = 2 ^ k := by
  simp only [rteIsPowerOf2, Bool.and_eq_true, decide_eq_true_eq] at h
  obtain ⟨hne, hand⟩ := h
  have hpos : n.toNat ≠ 0 := fun e => hne (BitVec.eq_of_toNat_eq e)
  have hsub : (n - 1).toNat = n.toNat - 1 :=
    BitVec.toNat_sub_of_le (BitVec.le_def.mpr (one_le_iff_ne_zero.mpr hpos))
  have hnat : n.toNat &&& n.toNat - 1 = 0 := by
    rw [← hsub, ← BitVec.toNat_and, hand]
    rfl
  obtain ⟨k, hk⟩ := (and_sub_one_eq_zero_iff_isPowerOfTwo hpos).mp hnat
  exact ⟨k, (Nat.pow_lt_pow_iff_right (by decide)).mp (hk ▸ n.isLt), hk⟩

/-- The bits for the queues of a subport can be counted. -/
theorem queues_le_maxBits {n : BitVec 32} (h : rteIsPowerOf2 n = true) :
    (queuesPerPipe * n).toNat ≤ maxBits := by
  obtain ⟨k, hk, hn⟩ := exists_pow_of_isPowerOf2 h
  rw [BitVec.toNat_mul, hn]
  have hall : ∀ k < 32, queuesPerPipe.toNat * 2 ^ k % 2 ^ 32 ≤ maxBits := by decide
  exact hall k hk

theorem rteSchedPortConfig_sound {n_subports n_pipes : BitVec 32} {port : RteSchedPort}
    (h : rteSchedPortConfig n_subports n_pipes = some port) : Sound port := by
  unfold rteSchedPortConfig at h
  split at h
  · exact absurd h (by simp)
  · split at h
    · exact absurd h (by simp)
    · obtain rfl := some.inj h
      intro i s hs
      exact absurd hs (by simp)

/-- A bitmap that has been made has the sizes for its bits. -/
theorem rteBitmapInit_sized {n_bits mem mem_size : ℕ} {bmp : RteBitmap} (hmax : n_bits ≤ maxBits)
    (h : rteBitmapInit n_bits mem mem_size = some bmp) : Sized n_bits bmp := by
  unfold rteBitmapInit at h
  split at h
  · exact absurd h (by simp)
  split at h
  · exact absurd h (by simp)
  rename_i hne _
  dsimp only at h
  split at h
  · exact absurd h (by simp)
  obtain rfl := some.inj h
  exact setup_sized (pos_of_ne_zero hne) hmax _ _

/-- A port stays sound when a subport of it is configured. -/
theorem rteSchedSubportConfig_sound {port port' : RteSchedPort} {subport_id : ℕ}
    {params : RteSchedSubportParams} {bmp_array : ℕ} (hsound : Sound port)
    (h : rteSchedSubportConfig port subport_id params bmp_array = some port') : Sound port' := by
  unfold rteSchedSubportConfig at h
  split at h
  · exact absurd h (by simp)
  split at h
  · exact absurd h (by simp)
  split at h
  · exact absurd h (by simp)
  rename_i hcheck
  simp only [rteSchedSubportCheckParams, Bool.not_eq_true, Bool.not_eq_false', Bool.and_eq_true]
    at hcheck
  obtain ⟨bmp, hinit, h⟩ := bind_eq_some_iff.mp h
  obtain rfl := some.inj h
  have hsized := rteBitmapInit_sized (queues_le_maxBits hcheck.2) hinit
  intro i s (hs : update port.subports subport_id _ i = some s)
  by_cases hi : i = subport_id
  · rw [hi, update_self] at hs
    obtain rfl := some.inj hs
    exact hsized
  · rw [update_of_ne hi] at hs
    exact hsound i s hs

/-! ## The result -/

/-- **A burst and its packets one by one.** Both leave the port alike, with the same packets
freed, and as many packets have been enqueued as there was room for. -/
theorem Burst.matches_iff (h : Burst sch pkts n_pkts.toNat) :
    ∃ sch', Sched.singleCalls sch pkts n_pkts.toNat =
        some ((enqueued sch pkts n_pkts.toNat : ℤ), sch') ∧
      (rteSchedPortEnqueue sch pkts n_pkts).map Prod.snd = some sch' ∧
      (rteSchedPortEnqueue sch pkts n_pkts = Sched.singleCalls sch pkts n_pkts.toNat ↔
        enqueued sch pkts n_pkts.toNat < 2 ^ 31) := by
  obtain ⟨result, sch', hwritten, hcalls⟩ := h.singleCalls (le_refl _)
  obtain ⟨t, ht, -⟩ := h.written (le_refl _)
  obtain ⟨rfl, rfl⟩ := Prod.mk.inj (some.inj (hwritten.symm.trans ht))
  have hle : enqueued sch pkts n_pkts.toNat < 2 ^ 32 :=
    lt_of_le_of_lt (admitted_le _ _ _) n_pkts.isLt
  have hburst := h.enqueue
  rw [hwritten, map_some] at hburst
  refine ⟨sch', hcalls, by rw [hburst, map_some], ?_⟩
  rw [hburst, hcalls, some_inj, Prod.mk.injEq, and_iff_left rfl,
    BitVec.toInt_eq_toNat_cond, BitVec.toNat_ofNat, mod_eq_of_lt hle]
  split <;> omega

/-- **A burst leaves a port as its packets one by one do**, and returns their count exactly if
there is room for fewer than $2^{31}$ of them. -/
theorem burst_matches_single_calls_iff {n_pkts : BitVec 32} (h : Burst sch pkts n_pkts.toNat) :
    ∃ sch', singleCalls sch pkts n_pkts.toNat =
        some ((enqueued sch pkts n_pkts.toNat : ℤ), sch') ∧
      (rteSchedPortEnqueue sch pkts n_pkts).map Prod.snd = some sch' ∧
      (rteSchedPortEnqueue sch pkts n_pkts = singleCalls sch pkts n_pkts.toNat ↔
        enqueued sch pkts n_pkts.toNat < 2 ^ 31) :=
  h.matches_iff

/-! ## A port with room for all packets that can be counted -/

/-- Subports of 512 pipes, all queues of the largest size. -/
def largeParams : RteSchedSubportParams := ⟨512, fun _ => 32768⟩

/-- A subport of this size, when it has been configured. -/
def largeSubport : RteSchedSubport :=
  { stats := ⟨fun _ => 0, fun _ => 0, fun _ => 0, fun _ => 0, fun _ => 0⟩
    n_pipes_per_subport_enabled := 512
    qsize := fun _ => 32768
    bmp := setup (footprint 8192) (fun _ => 0) fun _ => 0
    qsize_add := qsizeAdd fun _ => 32768
    qsize_sum := qsizeAdd (fun _ => 32768) 16
    queue := fun _ => ⟨0, 0⟩
    queue_extra := fun _ => ⟨0, 0, 0, 0, 0⟩
    queue_array := fun _ => none }

/-- A port with the first of its eight subports configured. -/
def largePort (k : ℕ) : RteSchedPort :=
  { n_subports_per_port := 8
    n_pipes_per_subport_log2 := 9
    n_pipes_per_subport := 512
    pipe_tc := fun i => min i trafficClassBe
    subports := fun i => if i < k then some largeSubport else none }

/-- The port is configured one subport after the other. -/
theorem largePort_configured :
    rteSchedPortConfig 8 512 = some (largePort 0) ∧
    ∀ k < 8, rteSchedSubportConfig (largePort k) k largeParams 64 = some (largePort (k + 1)) := by
  refine ⟨?_, fun k hk => ?_⟩
  · have hctz : (512 : BitVec 32).ctz.toNat = 9 := by decide +kernel
    rw [rteSchedPortConfig, if_neg (by decide), if_neg (by decide), hctz, largePort]
    simp
  have hcheck : rteSchedSubportCheckParams largeParams (largePort k).n_pipes_per_subport = true :=
    show rteSchedSubportCheckParams largeParams 512 = true by decide
  have hinit : rteBitmapInit 8192 64 (rteBitmapGetMemoryFootprint 8192) =
      some (setup (footprint 8192) (fun _ => 0) fun _ => 0) := by
    rw [rteBitmapInit, if_neg (by decide), if_neg (by decide)]
    rfl
  have hsubports : update (largePort k).subports k (some largeSubport) =
      (largePort (k + 1)).subports := by
    funext i
    show update (fun i => if i < k then some largeSubport else none) k _ i =
      if i < k + 1 then some largeSubport else none
    by_cases hi : i = k
    · rw [hi, update_self, if_pos (lt_succ_self k)]
    · rw [update_of_ne hi]
      exact if_congr (by omega) rfl rfl
  have hnone : (largePort k).subports k = none := if_neg (lt_irrefl k)
  have hlt : ¬ (largePort k).n_subports_per_port.toNat ≤ k := not_le.mpr hk
  have hqueues : (queuesPerPipe * largeParams.n_pipes_per_subport_enabled).toNat = 8192 := by
    decide
  rw [rteSchedSubportConfig, if_neg hlt, hnone, if_neg (by simp), hcheck, if_neg (by simp)]
  simp only [hqueues, hinit, bind_eq_bind, bind_some]
  exact congrArg (fun t => some { largePort k with subports := t }) hsubports

theorem largePort_sound : ∀ k ≤ 8, Sound (largePort k)
  | 0, _ => rteSchedPortConfig_sound largePort_configured.1
  | k + 1, hk => rteSchedSubportConfig_sound (largePort_sound k (le_of_succ_le hk))
      (largePort_configured.2 k hk)

/-- The port, when nothing has been enqueued. -/
def large : State := ⟨largePort 8, []⟩

/-- Packets with 32768 in a row for each queue. -/
def blocks (i : ℕ) : RteMbuf := ⟨i, BitVec.ofNat 32 (i / 32768), 64⟩

theorem queueOf_blocks (hi : i < 2 ^ 31) :
    queueOf large (blocks i) = (i / 32768 / 8192, BitVec.ofNat 32 (i / 32768 % 8192)) := by
  have hid : i / 32768 < 2 ^ 32 := by omega
  refine Prod.ext ?_ (BitVec.eq_of_toNat_eq ?_)
  · show (BitVec.ofNat 32 (i / 32768) >>> 13).toNat = _
    rw [BitVec.toNat_ushiftRight, BitVec.toNat_ofNat, mod_eq_of_lt hid,
      shiftRight_eq_div_pow]
  · show (8191#32 &&& BitVec.ofNat 32 (i / 32768)).toNat = _
    rw [BitVec.toNat_and, BitVec.toNat_ofNat, BitVec.toNat_ofNat, BitVec.toNat_ofNat,
      Nat.mod_eq_of_lt hid, Nat.and_comm]
    show i / 32768 &&& 2 ^ 13 - 1 = _
    rw [and_two_pow_sub_one_eq_mod]
    omega

theorem subports_large (hi : i < 8) : large.port.subports i = some largeSubport :=
  if_pos hi

theorem blocks_burst : Burst large blocks (0x80000000#32).toNat where
  sound := largePort_sound 8 (le_refl 8)
  hasQueue i hi := by
    have hi' : i < 2 ^ 31 := hi
    rw [queueOf_blocks hi']
    refine ⟨largeSubport, subports_large (by omega), BitVec.lt_def.mpr ?_⟩
    show _ < 8192
    rw [BitVec.toNat_ofNat]
    omega

theorem enqueued_blocks {m : ℕ} (hm : m ≤ 2 ^ 31) : enqueued large blocks m = m := by
  refine admitted_eq_of_fits _ _ (fun k => ?_) hm
  by_cases hk : k ∈ (Finset.range (2 ^ 31)).image fun i => queueOf large (blocks i)
  · obtain ⟨i, hi, rfl⟩ := Finset.mem_image.mp hk
    have hroom : room large (queueOf large (blocks i)) = 32768 := by
      have hi' := Finset.mem_range.mp hi
      rw [queueOf_blocks hi', room, subports_large (by omega)]
      show (32768 : BitVec 16).toNat - ((0 : BitVec 16) - 0).toNat = _
      decide
    rw [hroom]
    refine arrivals_le_of_blocks _ _ _ (fun i hi j hj hkey => ?_) (by decide)
    rw [queueOf_blocks hi, queueOf_blocks hj, Prod.mk.injEq, ← BitVec.toNat_inj,
      BitVec.toNat_ofNat, BitVec.toNat_ofNat] at hkey
    omega
  · rw [arrivals_eq_zero _ hk]
    exact zero_le _

/-- **A count that is negative**: all of $2^{31}$ packets are enqueued. -/
theorem burst_returns_negative :
    (rteSchedPortEnqueue large blocks 0x80000000#32).map Prod.fst = some (-2 ^ 31) ∧
    (singleCalls large blocks (0x80000000#32).toNat).map Prod.fst = some (2 ^ 31) ∧
    rteSchedPortEnqueue large blocks 0x80000000#32 ≠
      singleCalls large blocks (0x80000000#32).toNat := by
  obtain ⟨sch', hcalls, -, hiff⟩ := blocks_burst.matches_iff
  obtain ⟨t, hwritten, -⟩ := blocks_burst.written (le_refl _)
  have hcount : enqueued large blocks (0x80000000#32).toNat = 2 ^ 31 :=
    enqueued_blocks (le_refl _)
  rw [hcount] at hcalls hwritten hiff
  refine ⟨?_, ?_, fun h => absurd (hiff.mp h) (by decide)⟩
  · have hint : (BitVec.ofNat 32 (2 ^ 31)).toInt = -2 ^ 31 := by decide
    rw [blocks_burst.enqueue, hwritten, map_some, map_some, hint]
  · rw [hcalls, map_some]
    rfl

/-- The first seven packets go through the pipeline. -/
theorem burst_matches_single_calls_seven :
    rteSchedPortEnqueue large blocks 7#32 = singleCalls large blocks (7#32).toNat ∧
      (singleCalls large blocks (7#32).toNat).map Prod.fst = some 7 := by
  have hburst : Burst large blocks (7#32).toNat :=
    ⟨blocks_burst.sound, fun i hi => blocks_burst.hasQueue i (lt_trans hi (by decide))⟩
  obtain ⟨sch', hcalls, -, hiff⟩ := burst_matches_single_calls_iff hburst
  have hcount : enqueued large blocks (7#32).toNat = 7 := enqueued_blocks (by decide)
  rw [hcount] at hcalls hiff
  refine ⟨hiff.mpr (by decide), ?_⟩
  rw [hcalls, map_some]
  rfl

end Sched
