import DpdkStudy.Ring.Invariant

/-!
# The steps of a ring call

Each access to shared memory keeps what holds in every reachable state. Most
of them change nothing but where the thread is. The others are the ways to
change a buffer with reservations: a head that moves reserves, a copy reads or
writes, a finish supplies and retracts, and a tail that is stored commits.
-/

open Reservations Runs Function List Option Nat

namespace Ring

variable {T α : Type*} [DecidableEq T] {s : System T α} {tail : Side → ℕ} {t u : T}

variable {r : Reservation α} {i pos : ℕ} {sync : Side → RteRingSyncType} {c : Call α} {m : Moved α}
  {tbl : List α} {d : Side}

/-! ## Words that wrap -/

/-- Two positions less than `2^32` apart are told apart by their remainders. -/
theorem eq_of_mod_eq {a b : ℕ} (h : a % 2 ^ 32 = b % 2 ^ 32) (hab : a ≤ b) (hba : b < a + 2 ^ 32) :
    a = b :=
  mod_inj h (by omega) hba

/-- The difference of two positions that do not wrap. -/
theorem sub32_eq {a b x y : ℕ} (ha : a % 2 ^ 32 = y % 2 ^ 32) (hb : b = x % 2 ^ 32) (hxy : x ≤ y)
    (hlt : y < x + 2 ^ 32) : sub32 a b = y - x := by
  unfold sub32
  omega

theorem RteRing.Wf.size_le {r : RteRing α} (h : r.Wf) : r.size ≤ 2 ^ 31 := by
  obtain ⟨k, hk, hsize⟩ := h.size_eq
  rw [hsize]
  exact Nat.pow_le_pow_right (by decide) hk

theorem RteRing.Wf.capacity_lt_two_pow {r : RteRing α} (h : r.Wf) : r.capacity < 2 ^ 31 :=
  lt_of_lt_of_le h.capacity_lt h.size_le

/-- The slot of an element is the one of its position. -/
theorem RteRing.Wf.slotOf_eq {r : RteRing α} (h : r.Wf) {start n : ℕ} (hpos : pos = start % 2 ^ 32)
    (hn : n ≤ r.size) (hi : i < n) :
    r.slotOf pos n i = (start + i) % r.size := by
  obtain ⟨k, hk, hsize⟩ := h.size_eq
  have hidx : pos &&& r.mask = start % r.size := by
    rw [h.mask_eq, hsize, land_mask_eq_mod, hpos]
    exact mod_mod_of_dvd _ (pow_dvd_pow 2 (by omega))
  have hlt : start % r.size < r.size := Nat.mod_lt _ (by rw [hsize]; exact Nat.two_pow_pos k)
  have hmod : (start + i) % r.size = (start % r.size + i) % r.size := (mod_add_mod _ _ _).symm
  simp only [RteRing.slotOf, hidx, hmod]
  split
  · exact (mod_eq_of_lt (by omega)).symm
  · split
    · exact (mod_eq_of_lt (by assumption)).symm
    · rw [mod_eq_sub_mod (a := start % r.size + i) (by omega)]
      exact (mod_eq_of_lt (by omega)).symm

/-- What a call fits is no more than what there is room for and what it was
given. -/
theorem Call.fit_le (c : Call α) (entries : ℕ) : c.fit entries ≤ entries ∧ c.fit entries ≤ c.n := by
  unfold Call.fit
  split
  · split <;> omega
  · omega

/-! ## What the invariant says of a thread -/

omit [DecidableEq T] in
theorem Inv.tail_le (h : Inv s tail) (side : Side) : tail side ≤ (s.progress side).total :=
  h.ok.tail_le side

omit [DecidableEq T] in
theorem Inv.total_lt (h : Inv s tail) (side : Side) :
    (s.progress side).total < tail side + 2 ^ 31 :=
  lt_of_le_of_lt (h.ok.head_le_tail_add side)
    (Nat.add_lt_add_left h.wf.capacity_lt_two_pow _)

omit [DecidableEq T] in
/-- A head and a tail that hold the same word are at the same position. -/
theorem Inv.settled_of_eq (h : Inv s tail) {side : Side}
    (heq : (s.r.ht side).head = (s.r.ht side).tail) : tail side = (s.progress side).total := by
  rw [h.head_eq, h.tail_eq] at heq
  have hlt := h.total_lt side
  exact eq_of_mod_eq heq.symm (h.tail_le side) (by omega)

omit [DecidableEq T] in
/-- What a thread has seen is not ahead of the head. -/
theorem Seen.le_total {side : Side} {cnt : ℕ} (hs : Seen s tail t side pos cnt) (h : Inv s tail) :
    (s.seen t).total ≤ (s.progress side).total := by
  have htail := h.tail_le side
  obtain ⟨-, hs⟩ := hs
  cases hsync : (s.r.ht side).syncType <;> simp only [hsync] at hs
  · exact hs
  · exact hs.le
  · exact hs.1
  · exact le_trans hs htail

omit [DecidableEq T] in
/-- The end of a reservation is the one its thread is at. -/
theorem Pc.Wf.side_eq {pc : Pc α} (hwf : pc.Wf sync) (hr : pc.res = some r) :
    pc.side = some r.side := by
  cases pc <;> simp only [Pc.res, reduceCtorEq, some.injEq] at hr <;> subst hr <;>
    simp only [Pc.side, Moved.res]
  case getTail m c tbl => rw [hwf.2.1]

omit [DecidableEq T] in
/-- Except at an end with one thread at a time, a reservation is not empty. -/
theorem Pc.Wf.len_pos {pc : Pc α} (hwf : pc.Wf sync) (hr : pc.res = some r)
    (hsync : sync r.side ≠ .st) : 0 < r.len := by
  cases pc <;> simp only [Pc.res, reduceCtorEq, some.injEq] at hr <;> subst hr <;>
    simp only [Moved.res] at hsync ⊢
  case copy m i tbl => exact hwf.2.1
  case waitUntilEqual m tbl => exact hwf.2.1
  case storeTail m tbl => exact hwf.2.1 hsync
  case loadRtsTail m tbl => exact hwf.2.1
  case loadRtsHead m tbl ot => exact hwf.2.1
  case casRtsTail m tbl ot nt => exact hwf.2.1
  case opened m tbl => exact Moved.Open.len_pos hwf
  case getTail m c tbl => exact hwf.1.len_pos
  case storeHead m tbl => exact hwf.2.1

omit [DecidableEq T] in
/-- **One call at a time**: an `st` or `hts` end has one reservation at most. -/
theorem Inv.eq_of_peek (h : Inv s tail) {q : Reservation α} (hr : (s.pc t).res = some r)
    (hq : (s.pc u).res = some q) (hside : q.side = r.side) (hpeek : Peek s r.side) : t = u := by
  rcases hpeek with hst | hhts
  · exact h.single _ hst t u ((h.pcs t).side_eq hr) (hside ▸ (h.pcs u).side_eq hq)
  · by_contra hne
    have hrpos := (h.pcs t).len_pos hr (by simp [hhts])
    have hqpos := (h.pcs u).len_pos hq (by simp [hside, hhts])
    have hre := h.exclusive hr (Or.inr hhts)
    have hqe := h.exclusive hq (by rw [hside]; exact Or.inr hhts)
    rw [hside] at hqe
    rcases h.ok.apart hr hq hne hside.symm with hlt | hlt <;> omega

omit [DecidableEq T] in
/-- Where an `st` or `hts` end is settled and a thread is there that holds no
reservation, none does. -/
theorem Inv.not_opens (h : Inv s tail) {side : Side} (hpeek : Peek s side)
    (hsettled : tail side = (s.progress side).total) (hside : (s.pc t).side = some side)
    (hfree : (s.pc t).res = none) (u : T) : ¬ Opens s side u := by
  rintro ⟨q, hq, rfl⟩
  rcases hpeek with hst | hhts
  · obtain rfl := h.single _ hst t u hside ((h.pcs u).side_eq hq)
    rw [hfree] at hq
    exact nomatch hq
  · have hqpos := (h.pcs u).len_pos hq (by simp [hhts])
    have hqe := h.exclusive hq (Or.inr hhts)
    omega

/-! ## Steps that are quiet -/

theorem Inv.setPc (h : Inv s tail) (pc : Pc α) (hres : pc.res = (s.pc t).res)
    (hwf : pc.Wf fun side => (s.r.ht side).syncType)
    (hside : ∀ side, pc.side = some side → (s.pc t).side = some side ∨ Single s side)
    (hsupplied : ∀ x, pc.supplied = some x → s.enqueued.flatten.length = x)
    (hlooked : Looked (s.setPc t pc) tail t pc) : Inv (s.setPc t pc) tail := by
  have hseen : update s.seen t (s.seen t) = s.seen := update_eq_self t s.seen
  have hquiet := h.quiet (t := t) pc (s.seen t) s.result hres hwf hside hsupplied
  rw [hseen] at hquiet
  exact hquiet hlooked

theorem Inv.goes (h : Inv s tail) (pc : Pc α) (hres : (s.pc t).res = pc.res)
    (hside : (s.pc t).side = pc.side) (hnone : pc.supplied = none)
    (hwf : pc.Wf fun side => (s.r.ht side).syncType)
    (hlooked : Looked (s.setPc t pc) tail t pc) : Inv (s.setPc t pc) tail :=
  h.setPc pc hres.symm hwf (fun _ hs => Or.inl (hside.trans hs))
    (fun _ hx => nomatch hnone.symm.trans hx) hlooked

/-- A call returns that holds no reservation, or keeps it. -/
theorem Inv.ret (h : Inv s tail) (pc : Pc α) (n left : ℕ) (objs : List α)
    (hres : pc.res = (s.pc t).res) (hwf : pc.Wf fun side => (s.r.ht side).syncType)
    (hside : ∀ side, pc.side = some side → (s.pc t).side = some side ∨ Single s side)
    (hsupplied : ∀ x, pc.supplied = some x → s.enqueued.flatten.length = x)
    (hlooked : Looked (s.ret t pc n left objs) tail t pc) : Inv (s.ret t pc n left objs) tail := by
  have hseen : update s.seen t (s.seen t) = s.seen := update_eq_self t s.seen
  have hquiet := h.quiet (t := t) pc (s.seen t)
    (update s.result t (some ⟨n, left, objs⟩)) hres hwf hside hsupplied
  rw [hseen] at hquiet
  exact hquiet hlooked

/-- What a thread knows that looks at the head now. -/
theorem Inv.seen_look (h : Inv s tail) {side : Side} {cnt : ℕ} {pc : T → Pc α}
    {result : T → Option (Result α)}
    (hcnt : (s.r.ht side).syncType = .rts → cnt = (s.r.ht side).headCnt)
    (hhts : (s.r.ht side).syncType = .hts → (s.r.ht side).head = (s.r.ht side).tail) :
    Seen { s with pc, result, seen := update s.seen t (s.progress side) } tail t side
      (s.r.ht side).head cnt := by
  unfold Seen
  simp only [update_self]
  refine ⟨h.head_eq side, ?_⟩
  cases hsync : (s.r.ht side).syncType
  · exact le_rfl
  · exact trivial
  · obtain ⟨l, -, -, hlen⟩ := h.openings side
    exact ⟨le_rfl, (hcnt hsync).trans (h.cnt_eq side hsync).1, by omega, le_rfl, fun _ => trivial⟩
  · exact (h.settled_of_eq (hhts hsync)).ge

theorem Inv.loadHead (h : Inv s tail) (hpc : s.pc t = .loadHead c) :
    Inv (loadHead s t c) tail := by
  have hwf := h.pcs t
  rw [hpc] at hwf
  have hside : (s.pc t).side = some c.side := by rw [hpc]; rfl
  have hfree : (s.pc t).res = none := by rw [hpc]; rfl
  have hload : ∀ cnt, ((s.r.ht c.side).syncType = .rts → cnt = (s.r.ht c.side).headCnt) →
      ((s.r.ht c.side).syncType = .hts → (s.r.ht c.side).head = (s.r.ht c.side).tail) →
      Inv ((s.look t c.side).setPc t (.loadTail c (s.r.ht c.side).head cnt)) tail :=
    fun cnt hr hh =>
    h.quiet _ _ s.result hfree.symm hwf (fun side hs => Or.inl (hside.trans hs))
      (fun x hx => by cases hx) (h.seen_look hr hh)
  cases hsync : (s.r.ht c.side).syncType <;> simp only [Ring.loadHead, hsync]
  · exact hload 0 (by simp [hsync]) (by simp [hsync])
  · exact hload 0 (by simp [hsync]) (by simp [hsync])
  · exact h.quiet _ _ s.result hfree.symm ⟨hwf, hsync⟩ (fun side hs => Or.inl (hside.trans hs))
      (fun x hx => by cases hx) (h.seen_look (fun _ => rfl) (by simp [hsync]))
  · split
    · have hsame : update s.pc t (.loadHead c) = s.pc := by
        rw [← hpc, update_eq_self]
      have hquiet := h.quiet (t := t) (.loadHead c) (s.progress c.side) s.result hfree.symm hwf
        (fun side hs => Or.inl (hside.trans hs)) (fun x hx => nomatch hx) trivial
      rw [hsame] at hquiet
      exact hquiet
    · rename_i heq
      exact hload 0 (by simp [hsync]) (fun _ => not_not.mp heq)

theorem Inv.waitTail (h : Inv s tail) {cnt : ℕ} (hpc : s.pc t = .waitTail c pos cnt) :
    Inv (waitTail s t c pos cnt) tail := by
  have hwf := h.pcs t
  have hlooked := h.looked t
  rw [hpc] at hwf hlooked
  have hside : (s.pc t).side = some c.side := by rw [hpc]; rfl
  have hfree : (s.pc t).res = none := by rw [hpc]; rfl
  unfold Ring.waitTail
  dsimp only
  split
  · exact h.goes _ hfree hside rfl hwf.1 trivial
  · exact h.goes _ hfree hside rfl hwf.1 hlooked

omit [DecidableEq T] in
/-- **What a thread computes from the other end's tail** is the room there is
from where it saw the head, if its own tail has not passed that. -/
theorem Inv.entries_eq (h : Inv s tail) {side : Side} {cnt : ℕ} (hs : Seen s tail t side pos cnt)
    (hle : tail side ≤ (s.seen t).total) :
    sub32 (side.room s.r.capacity + (s.r.ht side.opp).tail) pos
      = tail side.opp + side.room s.r.capacity - (s.seen t).total := by
  have hroom := h.ok.room_within hle (hs.le_total h)
  have hcap := h.wf.capacity_lt_two_pow
  simp only [abs] at hroom
  refine sub32_eq ?_ hs.1 hroom.1 (by omega)
  rw [h.tail_eq]
  omega

theorem Inv.loadTail (h : Inv s tail) {cnt : ℕ} (hpc : s.pc t = .loadTail c pos cnt) :
    Inv (loadTail s t c pos cnt) tail := by
  have hwf := h.pcs t
  have hlooked := h.looked t
  rw [hpc] at hwf hlooked
  have hside : (s.pc t).side = some c.side := by rw [hpc]; rfl
  have hfree : (s.pc t).res = none := by rw [hpc]; rfl
  unfold Ring.loadTail
  dsimp only
  split
  · exact h.ret _ _ _ _ hfree.symm trivial (fun side hs => nomatch hs) (fun x hx => nomatch hx)
      trivial
  · rename_i hn
    have hfit := c.fit_le (sub32 (c.side.room s.r.capacity + (s.r.ht c.side.opp).tail) pos)
    refine h.goes _ hfree hside rfl ⟨hwf, pos_of_ne_zero hn, hfit.2⟩ ⟨hlooked, fun hle => ?_⟩
    have hroom := h.ok.room_within hle (hlooked.le_total h)
    have heq := h.entries_eq hlooked hle
    simp only [abs] at hroom
    simp only [System.setPc]
    omega

theorem Inv.waitUntilEqual (h : Inv s tail) (hpc : s.pc t = .waitUntilEqual m tbl) :
    Inv (waitUntilEqual s t m tbl) tail := by
  have hwf := h.pcs t
  rw [hpc] at hwf
  have hside : (s.pc t).side = some m.call.side := by rw [hpc]; rfl
  have hres : (s.pc t).res = some (m.res m.n tbl) := by rw [hpc]; rfl
  unfold Ring.waitUntilEqual
  split
  · rename_i heq
    have hmt := hwf.2.2.2
    refine h.goes _ hres hside rfl ⟨hwf.1, fun _ => hwf.2.1, hwf.2.2.1, by simp [hmt]⟩ ?_
    rw [h.tail_eq, hwf.1.pos_eq] at heq
    have hstart := (h.ok.fits hres).start_le
    have hend := (h.ok.fits hres).end_le
    have hlt := h.total_lt m.call.side
    simp only [abs, Moved.res] at hstart hend
    exact eq_of_mod_eq heq hstart (by omega)
  · exact h

theorem Inv.loadRtsTail (h : Inv s tail) {side : Side} (hside : (s.pc t).side = some side)
    (hres : (s.pc t).res = some (m.res m.n tbl))
    (hwf : (Pc.loadRtsTail m tbl).Wf fun side => (s.r.ht side).syncType) :
    Inv (loadRtsTail s t m tbl) tail := by
  obtain rfl : m.call.side = side :=
    some.inj (((h.pcs t).side_eq hres).symm.trans hside)
  refine h.quiet _ _ s.result hres.symm hwf (fun side hs => Or.inl (hside.trans hs))
    (fun x hx => nomatch hx) ?_
  refine ⟨?_, ?_, fun _ => h.tail_eq _⟩
  · simpa using (h.cnt_eq _ hwf.2.2.2).2
  · simp

omit [DecidableEq T] in
theorem Inv.eq_of_moves (h : Inv s tail) {side : Side} (ht : Opens s side t) (hu : Opens s side u)
    (hone : (s.progress side).moves = (s.progress side).finished + 1) : u = t := by
  obtain ⟨l, -, hmem, hlen⟩ := h.openings side
  obtain ⟨x, rfl⟩ := length_eq_one_iff.mp (by omega : l.length = 1)
  rw [mem_singleton.mp ((hmem u).mpr hu), mem_singleton.mp ((hmem t).mpr ht)]

/-- **The load of the head of an `rts` end**, in front of the CAS of its
tail: the tail may go to the head if no other call is left, and stays where
it is otherwise. -/
theorem Inv.loadRtsHead (h : Inv s tail) {ot : Poscnt} (hpc : s.pc t = .loadRtsHead m tbl ot)
    (hfew : FewCalls s t m.call.side 1) :
    Inv (loadRtsHead s t m tbl ot) tail := by
  have hwf := h.pcs t
  have hseen := h.looked t
  rw [hpc] at hwf hseen
  have hside : (s.pc t).side = some m.call.side := by rw [hpc]; rfl
  have hres : (s.pc t).res = some (m.res m.n tbl) := by rw [hpc]; rfl
  have hopen : Opens s m.call.side t := ⟨_, hres, rfl⟩
  have hlt := h.finished_lt hopen
  obtain ⟨hcnt, hfin, hpos⟩ := hseen
  have hhead := (h.cnt_eq _ hwf.2.2.2).1
  have hothers : ∀ u q, (update s.pc t (.casRtsTail m tbl ot ⟨if (ot.cnt + 1) % 2 ^ 32 =
      (s.r.ht m.call.side).headCnt then (s.r.ht m.call.side).head else ot.pos,
      (ot.cnt + 1) % 2 ^ 32⟩) u).res = some q → (s.pc u).res = some q := fun u q hq =>
    (res_update_of_eq (by rw [hpc]; rfl) u).symm.trans hq
  unfold FewCalls at hfew
  refine h.goes _ hres hside rfl hwf ⟨⟨hcnt, hfin, hpos⟩, ?_, fun hsame => ?_⟩
  · rw [hcnt]
    exact mod_add_mod _ _ _
  · replace hsame : (s.progress m.call.side).finished = (s.seen t).finished := hsame
    have hnext : (ot.cnt + 1) % 2 ^ 32 = ((s.seen t).finished + 1) % 2 ^ 32 := by
      rw [hcnt, mod_add_mod]
    by_cases hlast : (ot.cnt + 1) % 2 ^ 32 = (s.r.ht m.call.side).headCnt
    · have hone : (s.seen t).finished + 1 = (s.progress m.call.side).moves :=
        eq_of_mod_eq (hnext.symm.trans (hlast.trans hhead)) (by omega) (by omega)
      refine ⟨(s.progress m.call.side).total, (if_pos hlast).trans (h.head_eq _), h.tail_le _,
        le_rfl, fun u q hq hut hq' => absurd ?_ hut, fun _ => rfl⟩
      exact h.eq_of_moves hopen ⟨q, hothers u q hq, hq'⟩ (by omega)
    · refine ⟨tail m.call.side, (if_neg hlast).trans (hpos hsame), le_rfl, h.tail_le _,
        fun u q hq _ hq' => ?_, fun hone => absurd ?_ hlast⟩
      · have hstart := (h.ok.fits (hothers u q hq)).start_le
        rwa [hq'] at hstart
      · replace hone : (s.progress m.call.side).moves = (s.seen t).finished + 1 := hone
        rw [hnext, hhead, hone]

/-! ## Steps of a thread that holds a reservation -/

/-- **A thread copies or supplies**: its reservation stays where it is, and
the words of the ring do not change. -/
theorem Inv.held (h : Inv s tail) (pc : Pc α) (slots : ℕ → α) (enqueued : List (List α))
    (r' : Reservation α) (hres : (s.pc t).res = some r) (hres' : pc.res = some r')
    (hrside : r'.side = r.side) (hstart : r'.start = r.start) (hlen : r'.len = r.len)
    (hok : (abs { s with
      r := { s.r with slots }, pc := update s.pc t pc, enqueued } tail).Ok)
    (hwf : pc.Wf fun side => (s.r.ht side).syncType)
    (hsupplied : ∀ u x, (update s.pc t pc u).supplied = some x →
      enqueued.flatten.length = x) (hfull : ¬ Peek s .prod → enqueued = s.enqueued)
    (htake : enqueued.flatten.take (tail .cons) = s.enqueued.flatten.take (tail .cons))
    (hlooked : Looked { s with
      r := { s.r with slots }, pc := update s.pc t pc, enqueued } tail t pc) :
    Inv { s with r := { s.r with slots }, pc := update s.pc t pc, enqueued } tail := by
  have hpcside : pc.side = (s.pc t).side := by
    rw [hwf.side_eq hres', (h.pcs t).side_eq hres, hrside]
  have hstill := h.still (t := t) pc (s.seen t) slots s.result enqueued
    (fun q' hq' => by
      obtain rfl := some.inj (hres'.symm.trans hq')
      exact ⟨r, hres, hrside.symm, hstart.symm, hlen.symm⟩)
    (fun q hq => by
      obtain rfl := some.inj (hres.symm.trans hq)
      exact ⟨r', hres', hrside⟩)
  rw [System.goOn_seen] at hstill
  exact hstill hok hwf (fun side hs => Or.inl (hpcside ▸ hs)) hsupplied hfull htake hlooked

omit [DecidableEq T] in
theorem Inv.len_le (h : Inv s tail) (hr : (s.pc t).res = some r) :
    r.len ≤ s.r.size := by
  have hstart := (h.ok.fits hr).start_le
  have hend := (h.ok.fits hr).end_le
  have hcap := h.ok.head_le_tail_add r.side
  have hsize := h.wf.capacity_lt
  simp only [abs] at hstart hend hcap
  omega

theorem Inv.copied (h : Inv s tail) (hpc : s.pc t = .copy m i tbl) (hi : i = m.n) :
    Inv (copied s t m tbl) tail := by
  subst hi
  have hwf := h.pcs t
  rw [hpc] at hwf
  have hside : (s.pc t).side = some m.call.side := by rw [hpc]; rfl
  have hres : (s.pc t).res = some (m.res m.n tbl) := by rw [hpc]; rfl
  obtain ⟨hm, hpos, -, hlen, hpeek, hfinish, hstart⟩ := hwf
  unfold Ring.copied
  cases hkind : m.call.kind <;> dsimp only
  case start =>
    have hcons := hstart hkind
    have hread := (h.ok.fits hres).length_read hcons
    simp only [Moved.res, Moved.batch, hcons] at hread
    have hreseq : (Pc.opened m tbl).res = (s.pc t).res := by
      rw [hres]
      simp only [Pc.res, Moved.res, Moved.batch, hcons, hread]
    refine h.ret _ _ _ _ hreseq ?_ (fun side hs => Or.inl (hside.trans hs)) ?_ trivial
    · exact ⟨hm.pos_eq, hpos, hpeek (by simp [hkind]), by simp [hcons],
        fun _ => hread.trans (hlen (by simp [hkind]))⟩
    · intro x hx
      simp [Pc.supplied, hcons] at hx
  case finish =>
    have hprod := hfinish hkind
    have hreseq : (Pc.storeHead m tbl).res = (s.pc t).res := by
      rw [hres]
      simp only [Pc.res, Moved.done, hprod]
    refine h.setPc _ hreseq ⟨hm, hpos, hpeek (by simp [hkind]), by simp [hprod]⟩
      (fun side hs => Or.inl (hside.trans hs)) (fun x hx => h.supplied t x ?_) trivial
    rw [hpc]
    simpa [Pc.supplied, hprod, hkind] using hx
  case plain =>
    have hn := hlen (by simp [hkind])
    cases hsync : (s.r.ht m.call.side).syncType <;> dsimp only
    · exact h.goes _ hres hside rfl ⟨hm, hpos, hn, hsync⟩ trivial
    · exact h.goes _ hres hside rfl ⟨hm, fun _ => hpos, hn, by simp [hsync]⟩
        (h.exclusive hres (Or.inl hsync)).1.symm
    · exact h.goes _ hres hside rfl ⟨hm, hpos, hn, hsync⟩ trivial
    · exact h.goes _ hres hside rfl ⟨hm, fun _ => hpos, hn, by simp [hsync]⟩
        (h.exclusive hres (Or.inr hsync)).1.symm

theorem Inv.copy (h : Inv s tail) {s' : System T α} (hpc : s.pc t = .copy m i tbl)
    (hs' : copy s t m i tbl = some s') : Inv s' tail := by
  have hwf := h.pcs t
  rw [hpc] at hwf
  have hres : (s.pc t).res = some (m.res i tbl) := by rw [hpc]; rfl
  unfold Ring.copy at hs'
  split at hs'
  · rename_i hi
    have hslot := h.wf.slotOf_eq hwf.1.pos_eq (le_trans hwf.1.n_le (h.len_le hres)) hi
    have hlt : i < m.len := lt_of_lt_of_le hi hwf.1.n_le
    have hwf' : ∀ tbl, (Pc.copy m (i + 1) tbl).Wf fun side => (s.r.ht side).syncType :=
      fun _ => ⟨hwf.1, hwf.2.1, hi, hwf.2.2.2⟩
    have hsupplied : ∀ tbl x, (Pc.copy m (i + 1) tbl).supplied = some x →
        s.enqueued.flatten.length = x := fun _ x hx => h.supplied t x (by rw [hpc]; exact hx)
    cases hside : m.call.side <;> simp only [hside] at hs'
    · obtain ⟨x, hx, rfl⟩ := map_eq_some_iff.mp hs'
      refine h.held (.copy m (i + 1) tbl) _ s.enqueued _ hres rfl rfl rfl rfl ?_ (hwf' tbl)
        (h.supplied_update _ (hsupplied tbl)) (fun _ => rfl) rfl trivial
      have hwrite := h.ok.write (x := x) hres hside hlt (by
        simpa [Moved.res, Moved.batch, hside, hi] using hx)
      convert hwrite using 1
      ext1 <;> try rfl
      · simp only [abs, Buffer.write, res_update]
        rfl
      · simp only [abs, Buffer.write, hslot]
        rfl
    · obtain rfl := some.inj hs'
      refine h.held (.copy m (i + 1) _) s.r.slots s.enqueued _ hres rfl rfl rfl rfl ?_ (hwf' _)
        (h.supplied_update _ (hsupplied _)) (fun _ => rfl) rfl trivial
      have hread := h.ok.read hres hside hlt
      convert hread using 1
      ext1 <;> try rfl
      simp only [abs, Buffer.read, res_update]
      simp only [Pc.res, Moved.res, Moved.batch, hside, hslot]
  · obtain rfl := some.inj hs'
    exact h.copied hpc (le_antisymm hwf.2.2.1 (not_lt.mp (by assumption)))

omit [DecidableEq T] in
/-- A thread in front of which producers have put in a known part holds a
reservation between a start and its finish. -/
theorem Pc.Wf.res_of_supplied {pc : Pc α} (hwf : pc.Wf sync) {x : ℕ} (hx : pc.supplied = some x) :
    ∃ r, pc.res = some r ∧ r.side = .prod ∧ (sync .prod = .st ∨ sync .prod = .hts) := by
  cases pc <;> simp only [Pc.supplied, reduceCtorEq, ite_eq_iff, some.injEq, and_false,
    or_false] at hx
  case copy m i tbl =>
    have hprod := hwf.2.2.2.2.2.1 hx.1
    exact ⟨_, rfl, hprod, hprod ▸ hwf.2.2.2.2.1 (by simp [hx.1])⟩
  case opened m tbl => exact ⟨_, rfl, hx.1, hx.1 ▸ Moved.Open.peek hwf⟩
  case getTail m c tbl => exact ⟨_, rfl, hx.1, hx.1 ▸ hwf.1.peek⟩
  case storeHead m tbl => exact ⟨_, rfl, hx.1, hx.1 ▸ hwf.2.2.1⟩

omit [DecidableEq T] in
/-- What the consumers have left behind has been put in. -/
theorem Inv.tail_le_length (h : Inv s tail) : tail .cons ≤ s.enqueued.flatten.length :=
  le_trans (h.tail_le .cons) (le_trans h.ok.cons_le h.ok.log_ge)

omit [DecidableEq T] in
/-- What the consumers have left behind stays what it is as more is put in. -/
theorem Inv.take_append (h : Inv s tail) (l : List α) :
    (s.enqueued ++ [l]).flatten.take (tail .cons) = s.enqueued.flatten.take (tail .cons) := by
  rw [flatten_concat, take_append_of_le_length h.tail_le_length]

/-- **The first access of a finish**: more than is reserved counts as none,
and what a producer hands in is put in. -/
theorem Inv.getTail (h : Inv s tail) (hpc : s.pc t = .getTail m c tbl) :
    Inv (getTail s t m c tbl) tail := by
  have hwf := h.pcs t
  rw [hpc] at hwf
  obtain ⟨hopen, hcside, hkind, hobjs⟩ := hwf
  have hside : (s.pc t).side = some c.side := by rw [hpc]; rfl
  have hres : (s.pc t).res = some ⟨m.call.side, m.start, m.len, tbl.length, tbl⟩ := by
    rw [hpc]; rfl
  obtain ⟨hstart, hend⟩ := h.exclusive hres hopen.peek
  dsimp only at hstart hend
  have hlt := h.total_lt c.side
  have hdist : sub32 (s.r.ht c.side).head (s.r.ht c.side).tail = m.len := by
    rw [sub32_eq (by rw [h.head_eq, mod_mod]) (h.tail_eq _) (h.tail_le _) (by omega), hcside]
    omega
  unfold Ring.getTail
  dsimp only
  rw [hdist]
  generalize hn : (if c.n ≤ m.len then c.n else 0) = n
  have hnlen : n ≤ m.len := by split at hn <;> omega
  have hnobjs : c.side = .prod → n ≤ c.objs.length := fun hs => by
    have hle := hobjs hs
    split at hn <;> omega
  have hpos : (s.r.ht c.side).tail = m.start % 2 ^ 32 := by rw [h.tail_eq, hcside, hstart]
  have hlog : c.side = .prod → s.enqueued.flatten.length = m.start := fun hs => by
    refine h.supplied t m.start ?_
    rw [hpc]
    simp [Pc.supplied, ← hcside, hs]
  split
  · rename_i hprod
    have hmprod : m.call.side = .prod := hcside.symm.trans hprod.1
    have hlen : (c.objs.take n).length = n := by simpa using hnobjs hprod.1
    have hpeek : Peek s .prod := by
      have := hopen.peek
      rwa [hmprod] at this
    refine h.held _ s.r.slots _ ⟨c.side, m.start, m.len, 0, c.objs.take n⟩ hres
      (by simp [Pc.res, Moved.res, Moved.batch, hprod.1]) hcside rfl rfl ?_ ?_ ?_
      (fun hno => absurd hpeek hno) (h.take_append _) trivial
    · have hsupply := h.ok.supply (l := c.objs.take n) hres hmprod
        (by rw [hopen.prod hmprod]; rfl) (hlog hprod.1) (hlen.trans_le hnlen)
      convert hsupply using 1
      ext1 <;> try rfl
      · simp only [abs, Buffer.supply, res_update]
        simp only [Pc.res, Moved.res, Moved.batch, hprod.1, hmprod, hopen.prod hmprod, length_nil]
      · simp only [abs, Buffer.supply, flatten_concat]
    · exact ⟨⟨hpos, hnlen, hnobjs⟩, hopen.len_pos, zero_le _, fun hno => absurd hkind hno,
        fun _ => by rw [hcside]; exact hopen.peek, fun _ => hprod.1, fun hno => by
          rw [hkind] at hno
          cases hno⟩
    · intro u x hx
      by_cases hu : u = t
      · subst hu
        rw [update_self] at hx
        simp only [Pc.supplied, hkind, if_true, some.injEq] at hx
        rw [flatten_concat, length_append, hlen, hlog hprod.1, hx]
      · rw [update_of_ne hu] at hx
        obtain ⟨q, hq, hqside, hpeek'⟩ := (h.pcs u).res_of_supplied hx
        exact absurd (h.eq_of_peek hres hq (hqside.trans hmprod.symm)
          (by dsimp only; rw [hmprod]; exact hpeek')) (Ne.symm hu)
  · rename_i hno
    have hn0 : c.side = .prod → n = 0 := fun hs => by
      by_contra hne
      exact hno ⟨hs, hne⟩
    refine h.setPc _ ?_ ⟨⟨hpos, hnlen, hnobjs⟩, hopen.len_pos, by rw [hcside]; exact hopen.peek,
        fun hs => hopen.cons (hcside ▸ hs)⟩
      (fun side hs => Or.inl (hside.trans hs)) ?_ trivial
    · rw [hres]
      simp only [Pc.res, Moved.res, Moved.done, Moved.batch]
      cases hs : c.side
      · simp [← hcside, hs, hn0 hs, hopen.prod (hcside.symm.trans hs)]
      · simp [← hcside, hs]
    · intro x hx
      simp only [Pc.supplied, ite_eq_iff, reduceCtorEq, and_false, or_false, some.injEq] at hx
      rw [← hx.2, hn0 hx.1, add_zero]
      exact hlog hx.1

/-! ## The head moves -/

/-- Where a call is that has moved the head. -/
def afterMove (m : Moved α) : Pc α :=
  if m.call.side = Side.prod ∧ m.call.kind = Kind.start then .opened m [] else .copy m 0 []

/-- What a call that has moved the head has put in. -/
def movedBatch (c : Call α) (n : ℕ) : List α :=
  if c.side = Side.prod ∧ c.kind = Kind.plain then c.objs.take n else []

theorem afterMove_res (hkind : m.call.kind ≠ .finish) :
    (afterMove m).res = some ⟨m.call.side, m.start, m.len, 0, movedBatch m.call m.n⟩ := by
  unfold afterMove movedBatch
  cases hside : m.call.side <;> cases hk : m.call.kind <;>
    simp_all [Pc.res, Moved.res, Moved.batch]

theorem afterMove_wf (hc : m.call.Wf sync) (hpos : m.pos = m.start % 2 ^ 32) (hn : 0 < m.n)
    (hle : m.n ≤ m.call.n) (hlen : m.len = m.n) :
    (afterMove m).Wf sync := by
  unfold afterMove
  split
  · rename_i hps
    exact ⟨hpos, hlen.symm ▸ hn, hc.peek hps.2, fun _ => rfl, fun hs => by simp [hps.1] at hs⟩
  · rename_i hps
    refine ⟨⟨hpos, hlen.ge, fun hs => le_trans hle (hc.objs hs ?_)⟩, hlen.symm ▸ hn, zero_le _,
      fun _ => hlen.symm, fun hk => hc.peek ?_, fun hk => absurd hk hc.kind, fun hk => ?_⟩
    · cases hk : m.call.kind
      · rfl
      · exact absurd ⟨hs, hk⟩ hps
      · exact absurd hk hc.kind
    · cases hk' : m.call.kind
      · exact absurd hk' hk
      · rfl
      · exact absurd hk' hc.kind
    · cases hs : m.call.side
      · exact absurd ⟨hs, hk⟩ hps
      · rfl

/-- **A head has moved.** -/
def advanceHead (s : System T α) (t : T) (side : Side) (head cnt n : ℕ) (pc : Pc α)
    (result : T → Option (Result α)) (enqueued : List (List α)) : System T α :=
  { s with
    r := { s.r with
      ht := Function.update s.r.ht side { s.r.ht side with head, headCnt := cnt } }
    pc := Function.update s.pc t pc
    result
    progress := Function.update s.progress side
      { s.progress side with
        total := (s.progress side).total + n
        moves := (s.progress side).moves + 1 }
    heads := Function.update s.heads side (head :: s.heads side)
    enqueued }

section Advance

variable {side : Side} {head cnt n : ℕ} {pc : Pc α} {result : T → Option (Result α)}
  {enqueued : List (List α)}

theorem advance_sync (d : Side) :
    ((advanceHead s t side head cnt n pc result enqueued).r.ht d).syncType =
      (s.r.ht d).syncType := by
  by_cases hd : d = side
  · subst hd
    simp [advanceHead]
  · simp [advanceHead, hd]

theorem advance_progress : (advanceHead s t side head cnt n pc result enqueued).progress side =
      ⟨(s.progress side).total + n, (s.progress side).moves + 1, (s.progress side).finished⟩ := by
  simp [advanceHead]

theorem advance_progress_of_ne (hd : d ≠ side) :
    (advanceHead s t side head cnt n pc result enqueued).progress d = s.progress d := by
  simp [advanceHead, hd]

/-- A head that moves over positions that are reserved by its thread. -/
theorem Inv.advance (h : Inv s tail) (hside : (s.pc t).side = some side)
    (hfree : (s.pc t).res = none) (hres : pc.res = some r) (hrside : r.side = side)
    (hstart : r.start = (s.progress side).total) (hlen : r.len = n)
    (hwf : pc.Wf fun d => (s.r.ht d).syncType)
    (hok : (abs (advanceHead s t side head cnt n pc result enqueued) tail).Ok)
    (hhead : head = ((s.progress side).total + n) % 2 ^ 32)
    (hcnt : (s.r.ht side).syncType = .rts → cnt = ((s.progress side).moves + 1) % 2 ^ 32)
    (hsettled : Peek s side → tail side = (s.progress side).total)
    (hfull : ¬ Peek s .prod → enqueued.flatten.length
      = ((advanceHead s t side head cnt n pc result enqueued).progress .prod).total)
    (hsupplied : ∀ u x, (update s.pc t pc u).supplied = some x → enqueued.flatten.length = x)
    (htake : enqueued.flatten.take (tail .cons) = s.enqueued.flatten.take (tail .cons))
    (hlooked : Looked (advanceHead s t side head cnt n pc result enqueued) tail t pc) :
    Inv (advanceHead s t side head cnt n pc result enqueued) tail := by
  have hpct : (advanceHead s t side head cnt n pc result enqueued).pc t = pc :=
    update_self _ _ _
  have hpres : ((advanceHead s t side head cnt n pc result enqueued).pc t).res = some r := by
    rw [hpct, hres]
  refine h.oneStep t side ?_
  exact {
    size := rfl
    mask := rfl
    capacity := rfl
    sync := by simp [advanceHead]
    pc_eq := fun u hu => update_of_ne hu _ _
    seen_eq := fun _ _ => rfl
    ht_eq := fun d hd => update_of_ne hd _ _
    progress_eq := fun d hd => update_of_ne hd _ _
    tail_eq := fun _ _ => rfl
    ok := hok
    wf := hpct.symm ▸ hwf
    at_side := fun d hd => by
      rw [hpct, hwf.side_eq hres, hrside] at hd
      exact Or.inl (hside.trans hd)
    res := fun q hq => by
      obtain rfl := some.inj (hpres.symm.trans hq)
      exact Or.inr (by rw [hrside, hstart])
    opens := fun d hd => by simp [Opens, hpct, hres, hfree, hrside, Ne.symm hd]
    calls := Or.inr (Or.inl ⟨by simp [Opens, hfree], ⟨r, hpres, hrside⟩,
      by simp [advanceHead], by simp [advanceHead]⟩)
    head_word := by simpa [advanceHead] using hhead
    tail_word := by simpa [advanceHead] using h.tail_eq side
    cnt := fun hrts => ⟨by simpa [advanceHead] using hcnt hrts,
      by simpa [advanceHead] using (h.cnt_eq side hrts).2⟩
    tail_le := le_rfl
    st := fun hst => Or.inr fun u hu hs => hu (h.single side hst u t hs hside)
    mt := fun _ => by simp [advanceHead]
    rts := fun _ => by simp [advanceHead]
    turn := fun _ _ _ _ _ _ => rfl
    settled := fun _ heq => by
      obtain ⟨l, -, -, hmoves⟩ := h.openings side
      rw [advance_progress] at heq
      dsimp only at heq
      omega
    exclusive := fun {q} hq hpeek => by
      obtain rfl := some.inj (hpres.symm.trans hq)
      rw [hrside] at hpeek ⊢
      rw [advance_progress]
      exact ⟨hstart.trans (hsettled hpeek).symm, by rw [hstart, hlen]⟩
    alone := fun hpeek =>
      Or.inl fun u _ => h.not_opens hpeek (hsettled hpeek) hside hfree u
    reserved := fun _ _ => ⟨t, r, hpres, hrside⟩
    full := hfull
    supplied := hsupplied
    looked := hpct.symm ▸ hlooked
    in_order := fun hrts => ⟨(h.in_order hrts).flatten_eq.trans htake.symm,
      (h.in_order hrts).sorted, (h.in_order hrts).below⟩ }

end Advance

theorem movedHead_eq (s : System T α) (t : T) (c : Call α) (pos cnt n entries : ℕ) :
    ∃ result, movedHead s t c pos cnt n entries = advanceHead s t c.side ((pos + n) % 2 ^ 32) cnt n
        (afterMove ⟨c, pos, n, entries, (s.progress c.side).total, n⟩) result
        (if c.side = Side.prod ∧ c.kind = Kind.plain then s.enqueued ++ [c.objs.take n]
          else s.enqueued) := by
  unfold movedHead afterMove
  by_cases hps : c.side = Side.prod ∧ c.kind = Kind.start
  · simp only [hps, and_self, if_true]
    exact ⟨_, rfl⟩
  · simp only [hps, if_false]
    exact ⟨_, rfl⟩

omit [DecidableEq T] in
theorem flatten_movedBatch (l : List (List α)) (c : Call α) (n : ℕ) :
    (if c.side = Side.prod ∧ c.kind = Kind.plain then l ++ [c.objs.take n] else l).flatten
      = l.flatten ++ movedBatch c n := by
  unfold movedBatch
  split <;> simp

/-- The positions of the heads, when one has moved. -/
theorem total_update (f : Side → Progress) (side : Side) (p : Progress) :
    (fun d => (update f side p d).total)
      = update (fun d => (f d).total) side p.total := by
  funext d
  exact apply_update (fun _ => Progress.total) f side p d

/-- **The buffer when a head has moved**: positions are reserved, and what a
producer has been given is supplied. -/
theorem Inv.movedHead_ok (h : Inv s tail) {n head cnt : ℕ} {pc : Pc α}
    {result : T → Option (Result α)} (hfree : (s.pc t).res = none)
    (hres : pc.res = some ⟨c.side, (s.progress c.side).total, n, 0, movedBatch c n⟩)
    (hroom : (s.progress c.side).total + n ≤ tail c.side.opp + c.side.room s.r.capacity)
    (hlog : c.side = .prod → s.enqueued.flatten.length = (s.progress .prod).total) :
    (abs (advanceHead s t c.side head cnt n pc result
      (if c.side = Side.prod ∧ c.kind = Kind.plain then s.enqueued ++ [c.objs.take n]
        else s.enqueued)) tail).Ok := by
  have hreserve := h.ok.reserve (s := c.side) (n := n) (t := t) hfree hroom
  by_cases hpp : c.side = Side.prod ∧ c.kind = Kind.plain
  · have hbatch : (movedBatch c n).length ≤ n := by
      unfold movedBatch
      split <;> simp
    have hsupply := hreserve.supply (t := t) (r := ⟨c.side, (s.progress c.side).total, n, 0, []⟩)
      (l := movedBatch c n) (update_self _ _ _) hpp.1 rfl
      (by simpa only [Buffer.reserve, abs, hpp.1] using hlog hpp.1) hbatch
    convert hsupply using 1
    ext1 <;> try rfl
    · exact total_update _ _ _
    · simp only [abs, advanceHead, Buffer.supply, Buffer.reserve, res_update, hres, update_idem]
    · exact flatten_movedBatch _ _ _
  · have hnil : movedBatch c n = [] := if_neg hpp
    convert hreserve using 1
    ext1 <;> try rfl
    · exact total_update _ _ _
    · simp only [abs, advanceHead, Buffer.reserve, res_update, hres, hnil]
    · simp only [abs, advanceHead, hpp, if_false]
      rfl

/-- A head that moves reserves, where there is room. -/
theorem Inv.movedHead (h : Inv s tail) {cnt₀ cnt n entries : ℕ}
    (hpc : s.pc t = .moveHead c pos cnt₀ n entries)
    (hpos : pos = (s.progress c.side).total % 2 ^ 32)
    (hroom : (s.progress c.side).total + n ≤ tail c.side.opp + c.side.room s.r.capacity)
    (hcnt : (s.r.ht c.side).syncType = .rts → cnt = ((s.progress c.side).moves + 1) % 2 ^ 32)
    (hsettled : Peek s c.side → tail c.side = (s.progress c.side).total) :
    Inv (movedHead s t c pos cnt n entries) tail := by
  have hwf := h.pcs t
  rw [hpc] at hwf
  obtain ⟨hc, hn, hle⟩ := hwf
  have hside : (s.pc t).side = some c.side := by rw [hpc]; rfl
  have hfree : (s.pc t).res = none := by rw [hpc]; rfl
  -- everything reserved at the producers' end is put in
  have hlog : c.side = .prod → s.enqueued.flatten.length = (s.progress .prod).total := by
    intro hprod
    by_cases hpeek : Peek s .prod
    · have htail := hsettled (hprod ▸ hpeek)
      rw [hprod] at htail
      exact le_antisymm h.ok.log_le (htail ▸ h.ok.log_ge)
    · exact h.full hpeek
  have hplain : c.side = .prod → ¬ Peek s .prod → c.kind = .plain := by
    intro hprod hpeek
    cases hkind : c.kind
    · rfl
    · exact absurd (hprod ▸ hc.peek hkind) hpeek
    · exact absurd hkind hc.kind
  obtain ⟨result, heq⟩ := movedHead_eq s t c pos cnt n entries
  have hres := afterMove_res (m := ⟨c, pos, n, entries, (s.progress c.side).total, n⟩) hc.kind
  rw [heq]
  refine h.advance hside hfree hres rfl rfl rfl (afterMove_wf hc hpos hn hle rfl)
    (h.movedHead_ok hfree hres hroom hlog) ?_ hcnt hsettled ?_ ?_ ?_ ?_
  · rw [hpos, mod_add_mod]
  · intro hpeek
    rw [flatten_movedBatch]
    by_cases hprod : c.side = .prod
    · have hkind := hplain hprod hpeek
      have hobjs := hc.objs hprod hkind
      rw [length_append, hlog hprod, movedBatch, if_pos ⟨hprod, hkind⟩, ← hprod, advance_progress]
      simpa using le_trans hle hobjs
    · rw [advance_progress_of_ne (Ne.symm hprod), movedBatch, if_neg (fun hpp => hprod hpp.1),
        append_nil]
      exact h.full hpeek
  · intro u x hx
    rw [flatten_movedBatch]
    by_cases hu : u = t
    · subst hu
      rw [update_self] at hx
      have hps : c.side = .prod ∧ c.kind = .start := by
        by_contra hno
        simp only [afterMove, hno, if_false, Pc.supplied, hc.kind] at hx
        exact nomatch hx
      simp only [afterMove, hps, and_self, if_true, Pc.supplied, some.injEq] at hx
      rw [movedBatch, if_neg (by simp [hps.2]), append_nil, hlog hps.1, hx]
    · rw [update_of_ne hu] at hx
      obtain ⟨q, hq, hqside, hpeek⟩ := (h.pcs u).res_of_supplied hx
      by_cases hprod : c.side = .prod
      · exact absurd ⟨q, hq, hqside.trans hprod.symm⟩
          (h.not_opens (hprod ▸ hpeek) (hsettled (hprod ▸ hpeek)) hside hfree u)
      · rw [movedBatch, if_neg (fun hpp => hprod hpp.1), append_nil]
        exact h.supplied u x hx
  · rw [flatten_movedBatch, take_append_of_le_length h.tail_le_length]
  · unfold afterMove
    split <;> exact trivial

theorem Inv.moveHead (h : Inv s tail) {cnt n entries : ℕ}
    (hpc : s.pc t = .moveHead c pos cnt n entries) (hprompt : Prompt s (.thread t)) :
    Inv (moveHead s t c pos cnt n entries) tail := by
  have hwf := h.pcs t
  have hlooked := h.looked t
  rw [hpc] at hwf hlooked
  have hside : (s.pc t).side = some c.side := by rw [hpc]; rfl
  have hfree : (s.pc t).res = none := by rw [hpc]; rfl
  obtain ⟨hseen, hroom⟩ := hlooked
  have hle := hseen.le_total h
  simp only [Prompt, hpc, InTime] at hprompt
  have hagain : Inv (s.setPc t (.loadHead c)) tail :=
    h.goes _ hfree hside rfl hwf.1 trivial
  -- where the head is still the one that was seen, there is room
  have hmoved : ∀ cnt', (s.seen t).total = (s.progress c.side).total →
      ((s.r.ht c.side).syncType = .rts → cnt' = ((s.progress c.side).moves + 1) % 2 ^ 32) →
      (Peek s c.side → tail c.side = (s.progress c.side).total) →
      Inv (Ring.movedHead s t c pos cnt' n entries) tail := by
    intro cnt' htotal hcnt' hsettled
    refine h.movedHead hpc (by rw [hseen.1, htotal]) ?_ hcnt' hsettled
    rw [← htotal]
    exact hroom (by rw [htotal]; exact h.tail_le _)
  cases hsync : (s.r.ht c.side).syncType <;> simp only [Ring.moveHead, hsync]
  case st =>
    refine hmoved _ ?_ (by simp [hsync]) (fun hpeek => ?_)
    · have := hseen.2
      simpa only [hsync] using this
    · by_contra hne
      obtain ⟨u, q, hq, hqside⟩ := h.reserved _ hpeek hne
      obtain rfl := h.single _ hsync t u hside (hqside ▸ (h.pcs u).side_eq hq)
      rw [hfree] at hq
      cases hq
  case mt =>
    split
    · rename_i heq
      rw [h.head_eq, hseen.1] at heq
      exact hmoved _ (eq_of_mod_eq heq.symm hle (hprompt.1 (Or.inl hsync))) (by simp [hsync])
        (by simp [Peek, hsync])
    · exact h.quiet _ _ s.result hfree.symm hwf.1 (fun side hs => Or.inl (hside.trans hs))
        (fun x hx => by cases hx) (h.seen_look (by simp [hsync]) (by simp [hsync]))
  case rts =>
    have hfew : (s.progress c.side).moves < (s.seen t).finished + 2 ^ 32 := hprompt.2 hsync
    obtain ⟨-, hs⟩ := hseen
    simp only [hsync] at hs
    obtain ⟨-, hcnt, hfin, hmoves, hsame⟩ := hs
    split
    · rename_i heq
      have hhead := heq.2
      rw [(h.cnt_eq _ hsync).1, hcnt] at hhead
      have hm := eq_of_mod_eq hhead.symm hmoves (by omega)
      exact hmoved _ (hsame hm.symm).symm (fun _ => by rw [hcnt, hm, mod_add_mod])
        (by simp [Peek, hsync])
    · exact hagain
  case hts =>
    have hfew : (s.progress c.side).total < (s.seen t).total + 2 ^ 32 := hprompt.1 (Or.inr hsync)
    have hs := hseen.2
    simp only [hsync] at hs
    have htail := h.tail_le c.side
    split
    · rename_i heq
      have hhead := heq.1
      have htl := heq.2
      rw [h.head_eq, hseen.1] at hhead
      rw [h.tail_eq, hseen.1] at htl
      have htotal := eq_of_mod_eq hhead.symm hle hfew
      exact hmoved _ htotal (by simp [hsync])
        (fun _ => (eq_of_mod_eq htl.symm hs (by omega)).symm.trans htotal)
    · exact hagain

/-! ## The tail moves -/

/-- **A call has returned** that has stored the words of its end. -/
def retire (s : System T α) (t : T) (side : Side) (ht : RteRingHeadtail) (total : ℕ)
    (result : T → Option (Result α)) (heads : Side → List ℕ) (dequeued : List (ℕ × List α)) :
    System T α :=
  { s with
    r := { s.r with ht := Function.update s.r.ht side ht }
    pc := Function.update s.pc t .idle
    result
    progress := Function.update s.progress side
      { s.progress side with total, finished := (s.progress side).finished + 1 }
    heads
    dequeued }

section Retire

variable {side : Side} {ht : RteRingHeadtail} {total x : ℕ} {result : T → Option (Result α)}
  {heads : Side → List ℕ} {dequeued : List (ℕ × List α)}

theorem retire_progress : (retire s t side ht total result heads dequeued).progress side =
      ⟨total, (s.progress side).moves, (s.progress side).finished + 1⟩ := by
  simp [retire]

theorem retire_progress_of_ne (hd : d ≠ side) :
    (retire s t side ht total result heads dequeued).progress d = s.progress d := by
  simp [retire, hd]

omit [DecidableEq T] in
/-- A thread that has gone, or whose reservation stays, is at no other end. -/
theorem Inv.alone (h : Inv s tail) (hres : (s.pc t).res = some r) (hrside : r.side = side)
    (hpeek : Peek s side) (u : T) (hu : u ≠ t) : ¬ Opens s side u := by
  rintro ⟨q, hq, hqside⟩
  exact hu (h.eq_of_peek hres hq (hqside.trans hrside.symm) (hrside ▸ hpeek)).symm

omit [DecidableEq T] in
/-- The end a thread holds a reservation of is the one it holds it of. -/
theorem opens_iff_of_res (hres : (s.pc t).res = some r) : Opens s d t ↔ r.side = d := by
  simp [Opens, hres]

/-- A tail that moves as a reservation is given up. -/
theorem Inv.retire (h : Inv s tail) (hres : (s.pc t).res = some r) (hrside : r.side = side)
    (hsync : ht.syncType = (s.r.ht side).syncType)
    (hok : (abs (Ring.retire s t side ht total result heads dequeued)
      (update tail side x)).Ok) (htotal : ¬ Peek s side → total = (s.progress side).total)
    (hx : tail side ≤ x) (hturn : (s.r.ht side).syncType ≠ .rts → r.start = tail side)
    (hhead : ht.head = total % 2 ^ 32) (htail : ht.tail = x % 2 ^ 32)
    (hcnt : (s.r.ht side).syncType = .rts → ht.headCnt = (s.progress side).moves % 2 ^ 32 ∧
      ht.tailCnt = ((s.progress side).finished + 1) % 2 ^ 32)
    (hlast : (s.r.ht side).syncType = .rts →
      (s.progress side).finished + 1 = (s.progress side).moves → x = total)
    (hpeek : Peek s side → x = total) (horder : (s.r.ht .cons).syncType ≠ .rts →
      InOrder (Ring.retire s t side ht total result heads dequeued) (update tail side x)) :
    Inv (Ring.retire s t side ht total result heads dequeued) (update tail side x) := by
  have hpct : (Ring.retire s t side ht total result heads dequeued).pc t = .idle :=
    update_self _ _ _
  have hnores : ((Ring.retire s t side ht total result heads dequeued).pc t).res = none := by
    rw [hpct]; rfl
  refine h.oneStep t side ?_
  exact {
    size := rfl
    mask := rfl
    capacity := rfl
    sync := by simpa [Ring.retire] using hsync
    pc_eq := fun u hu => update_of_ne hu _ _
    seen_eq := fun _ _ => rfl
    ht_eq := fun d hd => update_of_ne hd _ _
    progress_eq := fun d hd => update_of_ne hd _ _
    tail_eq := fun d hd => update_of_ne hd _ _
    ok := hok
    wf := hpct.symm ▸ trivial
    at_side := fun d hd => by rw [hpct] at hd; exact nomatch hd
    res := fun q hq => nomatch hnores.symm.trans hq
    opens := fun d hd => by
      rw [opens_iff_of_res hres, hrside]
      simp [Opens, hnores, Ne.symm hd]
    calls := Or.inr (Or.inr ⟨⟨r, hres, hrside⟩, by simp [Opens, hnores], by simp [Ring.retire],
      by simp [Ring.retire]⟩)
    head_word := by simpa [Ring.retire] using hhead
    tail_word := by simpa [Ring.retire] using htail
    cnt := by simpa [Ring.retire] using hcnt
    tail_le := by rwa [update_self]
    st := fun hst =>
      Or.inr fun u hu hs => hu (h.single side hst u t hs (hrside ▸ (h.pcs t).side_eq hres))
    mt := fun hmt => by rw [retire_progress, htotal (by simp [Peek, hmt])]
    rts := fun hrts => by
      rw [retire_progress, htotal (by simp [Peek, hrts])]
      exact ⟨le_rfl, fun _ => rfl, fun heq => by simp at heq⟩
    turn := fun u hu m tbl hpc hd => by
      -- two calls of one end whose turn it is would hold one reservation
      have hq : (s.pc u).res = some (m.res m.n tbl) := by rw [hpc]; rfl
      have hwf := h.pcs u
      have hlooked := h.looked u
      rw [hpc] at hwf hlooked
      have hstart := hturn (hd ▸ hwf.2.2.2)
      by_cases hpeek : Peek s side
      · exact absurd ⟨_, hq, hd⟩ (h.alone hres hrside hpeek u hu)
      · have hst : (s.r.ht side).syncType ≠ .st := fun hst => hpeek (Or.inl hst)
        have hpos := (h.pcs t).len_pos hres (by rwa [hrside])
        have hpos' := hwf.2.1 (by rwa [hd])
        have hlooked' : tail side = m.start := by rw [← hd]; exact hlooked
        rcases h.ok.apart hq hres hu (hd.trans hrside.symm) with hlt | hlt <;>
          simp only [Moved.res] at hlt <;> omega
    settled := fun hrts => by
      rw [retire_progress, update_self]
      exact hlast hrts
    exclusive := fun {q} hq => nomatch hnores.symm.trans hq
    alone := fun hpk => Or.inl fun u hu => h.alone hres hrside hpk u hu
    reserved := fun hpk hne => by
      rw [retire_progress, update_self] at hne
      exact absurd (hpeek hpk) hne
    full := fun hpk => by
      by_cases hd : Side.prod = side
      · subst hd
        rw [retire_progress, htotal hpk]
        exact h.full hpk
      · rw [retire_progress_of_ne hd]
        exact h.full hpk
    supplied := h.supplied_update .idle (fun x hx => nomatch hx)
    looked := hpct.symm ▸ trivial
    in_order := horder }

end Retire

/-- What is dequeued when a call returns. -/
def dequeuedBy (s : System T α) (m : Moved α) (tbl : List α) : List (ℕ × List α) :=
  if m.call.side = Side.cons ∧ tbl ≠ [] then s.dequeued ++ [(m.start, tbl)] else s.dequeued

theorem publish_eq (s : System T α) (t : T) (m : Moved α) (tbl : List α) (ht : RteRingHeadtail) :
    ∃ result, publish s t m tbl ht =
      retire s t m.call.side ht (s.progress m.call.side).total result s.heads
        (dequeuedBy s m tbl) :=
  ⟨_, rfl⟩

/-- **The batches come back in order** where the tail moves over the batch that
comes next. -/
theorem InOrder.retire (h : InOrder s tail) {ht : RteRingHeadtail} {total x : ℕ}
    {result : T → Option (Result α)} {heads : Side → List ℕ}
    (hcons : m.call.side = .cons → m.start = tail .cons ∧ x = tail .cons + tbl.length ∧
      tbl <+: s.enqueued.flatten.drop (tail .cons)) :
    InOrder (retire s t m.call.side ht total result heads (dequeuedBy s m tbl))
      (update tail m.call.side x) := by
  cases hside : m.call.side
  · have hsame : dequeuedBy s m tbl = s.dequeued := if_neg (by simp [hside])
    exact ⟨by simpa [Ring.retire, hsame] using h.flatten_eq,
      by simpa [Ring.retire, hsame] using h.sorted, by simpa [Ring.retire, hsame] using h.below⟩
  · obtain ⟨hstart, hx, hwithin⟩ := hcons hside
    have htake : s.enqueued.flatten.take x = s.enqueued.flatten.take (tail .cons) ++ tbl := by
      rw [hx, take_add, ← prefix_iff_eq_take.mp hwithin]
    by_cases hnil : tbl = []
    · subst hnil
      have hsame : dequeuedBy s m [] = s.dequeued := if_neg (by simp)
      obtain rfl : x = tail .cons := hx
      rw [hsame, update_eq_self]
      exact ⟨h.flatten_eq, h.sorted, h.below⟩
    · have hnew : dequeuedBy s m tbl = s.dequeued ++ [(m.start, tbl)] := if_pos ⟨hside, hnil⟩
      rw [hnew]
      refine ⟨?_, ?_, ?_⟩
      · simp [Ring.retire, h.flatten_eq, htake]
      · refine pairwise_append.mpr ⟨h.sorted, pairwise_singleton _ _, ?_⟩
        intro y hy z hz
        obtain rfl := mem_singleton.mp hz
        exact le_trans (h.below y hy) hstart.ge
      · intro y hy
        rw [update_self]
        rcases mem_append.mp hy with hy | hy
        · exact le_trans (h.below y hy) (by omega)
        · obtain rfl := mem_singleton.mp hy
          simp only
          omega

/-- **The buffer when a call has returned** that has copied what it reserved. -/
theorem Inv.retire_ok (h : Inv s tail) {ht : RteRingHeadtail} {x : ℕ}
    {result : T → Option (Result α)} {heads : Side → List ℕ}
    (hres : (s.pc t).res = some (m.res m.n tbl)) (hlen : m.n = m.len) (htail : tail m.call.side ≤ x)
    (hhead : x ≤ (s.progress m.call.side).total)
    (hothers : ∀ u q, (s.pc u).res = some q → u ≠ t → q.side = m.call.side → x ≤ q.start)
    (hlog : m.call.side = .prod → x ≤ s.enqueued.flatten.length) :
    (abs (Ring.retire s t m.call.side ht (s.progress m.call.side).total result heads
      (dequeuedBy s m tbl)) (update tail m.call.side x)).Ok := by
  have hcommit := h.ok.commit (x := x) hres hlen htail hhead hothers hlog
  convert hcommit using 1
  ext1 <;> try rfl
  · refine (total_update _ _ _).trans ?_
    exact update_eq_self _ _
  · simp only [abs, Ring.retire, Buffer.commit, res_update]
    rfl
  · simp only [abs, Ring.retire, Buffer.commit, dequeuedBy, Moved.res, Moved.batch]
    by_cases hside : m.call.side = .cons
    · simp [hside]
    · simp [hside]

omit [DecidableEq T] in
theorem Inv.end_le_length (h : Inv s tail) (hr : (s.pc t).res = some r) (hpos : 0 < r.done) :
    r.start + r.done ≤ s.enqueued.flatten.length := by
  have hle := (h.ok.fits hr).done_le_batch
  have hlen := (h.ok.fits hr).batch_within.length_le
  rw [length_drop] at hlen
  simp only [abs] at hlen
  omega

theorem Inv.storeTail (h : Inv s tail) (hpc : s.pc t = .storeTail m tbl) :
    Inv (storeTail s t m tbl) (update tail m.call.side (m.start + m.n)) := by
  have hwf := h.pcs t
  have hturn := h.looked t
  rw [hpc] at hwf hturn
  obtain ⟨hm, hpos, hlen, hrts⟩ := hwf
  replace hturn : tail m.call.side = m.start := hturn
  have hres : (s.pc t).res = some (m.res m.n tbl) := by rw [hpc]; rfl
  have hfits := h.ok.fits hres
  have hend : m.start + m.len ≤ (s.progress m.call.side).total := hfits.end_le
  have hothers : ∀ u q, (s.pc u).res = some q → u ≠ t → q.side = m.call.side →
      m.start + m.n ≤ q.start := by
    intro u q hq hu hs
    by_cases hpeek : Peek s m.call.side
    · exact absurd (h.eq_of_peek hres hq hs hpeek) (Ne.symm hu)
    · have hst : (s.r.ht m.call.side).syncType ≠ .st := fun hst => hpeek (Or.inl hst)
      have hqpos := (h.pcs u).len_pos hq (by rwa [hs])
      have hqstart := (h.ok.fits hq).start_le
      rw [hs] at hqstart
      replace hqstart : tail m.call.side ≤ q.start := hqstart
      have htpos := hpos hst
      rcases h.ok.apart hres hq (Ne.symm hu) hs.symm with hlt | hlt <;>
        simp only [Moved.res] at hlt <;> omega
  have hlog : m.call.side = .prod → m.start + m.n ≤ s.enqueued.flatten.length := by
    intro hprod
    by_cases hn : m.n = 0
    · rw [hn, add_zero, ← hturn, hprod]
      exact h.ok.log_ge
    · exact h.end_le_length hres (pos_of_ne_zero hn)
  obtain ⟨result, heq⟩ := publish_eq s t m tbl
    { s.r.ht m.call.side with tail := (m.pos + m.n) % 2 ^ 32 }
  rw [Ring.storeTail, heq]
  refine h.retire hres rfl rfl
    (h.retire_ok hres hlen (by omega) (by omega) hothers hlog) (fun _ => rfl) (by omega)
    (fun _ => hturn.symm) (h.head_eq _) (by rw [hm.pos_eq, mod_add_mod])
    (fun hr => absurd hr hrts) (fun hr => absurd hr hrts) (fun hpeek => ?_)
    (fun hr => (h.in_order hr).retire (fun hcons => ?_))
  · rw [hlen]
    exact (h.exclusive hres hpeek).2
  · have hread := hfits.length_read hcons
    have hwithin := hfits.batch_within
    simp only [Moved.res, Moved.batch, hcons, abs] at hread hwithin
    rw [hcons] at hturn
    exact ⟨hturn.symm, by rw [hturn, hread], by rw [hturn]; exact hwithin⟩

theorem Inv.casRtsTail (h : Inv s tail) {ot nt : Poscnt} (hpc : s.pc t = .casRtsTail m tbl ot nt)
    (hfew : FewCalls s t m.call.side 1) :
    ∃ tail', Inv (casRtsTail s t m tbl ot nt) tail' ∧ (tail' = tail ∨ ∃ x,
      tail m.call.side ≤ x ∧ x ≤ (s.progress m.call.side).total ∧
      tail' = update tail m.call.side x) := by
  have hwf := h.pcs t
  have hlooked := h.looked t
  rw [hpc] at hwf hlooked
  obtain ⟨hm, hpos, hlen, hrts⟩ := hwf
  have hside : (s.pc t).side = some m.call.side := by rw [hpc]; rfl
  have hres : (s.pc t).res = some (m.res m.n tbl) := by rw [hpc]; rfl
  unfold Ring.casRtsTail
  dsimp only
  split
  · rename_i hcas
    obtain ⟨⟨hcnt, hfin, -⟩, hnt, hreach⟩ := hlooked
    have hlt := h.finished_lt ⟨_, hres, rfl⟩
    simp only [Moved.res] at hlt
    unfold FewCalls at hfew
    have hcas := hcas.2
    rw [(h.cnt_eq _ hrts).2, hcnt] at hcas
    have hsame := eq_of_mod_eq hcas.symm hfin (by omega)
    obtain ⟨x, hntpos, hx, hx', hothers, hlast⟩ := hreach hsame.symm
    obtain ⟨result, heq⟩ := publish_eq s t m tbl
      { s.r.ht m.call.side with tail := nt.pos, tailCnt := nt.cnt }
    have hpeek : ¬ Peek s m.call.side := by simp [Peek, hrts]
    rw [heq]
    refine ⟨_, h.retire hres rfl rfl (h.retire_ok hres hlen hx hx' hothers (fun hprod => ?_))
      (fun _ => rfl) hx (fun hr => absurd hrts hr) (h.head_eq _) hntpos
      (fun _ => ⟨(h.cnt_eq _ hrts).1, by rw [hnt, hsame]⟩) (fun _ hone => hlast (by omega))
      (fun hp => absurd hp hpeek) (fun hr => (h.in_order hr).retire (fun hcons => ?_)),
      Or.inr ⟨x, hx, hx', rfl⟩⟩
    · rw [h.full (hprod ▸ hpeek), ← hprod]
      exact hx'
    · rw [hcons] at hrts
      exact absurd hrts hr
  · exact ⟨tail, h.loadRtsTail hside hres ⟨hm, hpos, hlen, hrts⟩, Or.inl rfl⟩

/-! ## A finish gives back what it does not keep -/

/-- **The head has gone back** at an end with one thread at a time. -/
def rollback (s : System T α) (t : T) (side : Side) (head total : ℕ) (pc : Pc α)
    (heads : Side → List ℕ) : System T α :=
  { s with
    r := { s.r with ht := Function.update s.r.ht side { s.r.ht side with head } }
    pc := Function.update s.pc t pc
    progress := Function.update s.progress side { s.progress side with total }
    heads }

section Rollback

variable {side : Side} {head total : ℕ} {pc : Pc α} {heads : Side → List ℕ}

theorem rollback_progress : (rollback s t side head total pc heads).progress side =
      ⟨total, (s.progress side).moves, (s.progress side).finished⟩ := by
  simp [rollback]

theorem rollback_progress_of_ne (hd : d ≠ side) :
    (rollback s t side head total pc heads).progress d = s.progress d := by
  simp [rollback, hd]

/-- A head that goes back to the end of what is kept. -/
theorem Inv.rollback (h : Inv s tail) (r' : Reservation α) (hres : (s.pc t).res = some r)
    (hres' : pc.res = some r') (hrside : r.side = side) (hrside' : r'.side = side)
    (hstart : r'.start = r.start) (hst : (s.r.ht side).syncType = .st)
    (htotal : total = r'.start + r'.len) (hhead : head = total % 2 ^ 32)
    (hok : (abs (Ring.rollback s t side head total pc heads) tail).Ok)
    (hwf : pc.Wf fun d => (s.r.ht d).syncType) (hsupplied : pc.supplied = none)
    (hlooked : Looked (Ring.rollback s t side head total pc heads) tail t pc) :
    Inv (Ring.rollback s t side head total pc heads) tail := by
  have hpct : (Ring.rollback s t side head total pc heads).pc t = pc := update_self _ _ _
  have hpres : ((Ring.rollback s t side head total pc heads).pc t).res = some r' := by rw [hpct, hres']
  have hpeek : Peek s side := Or.inl hst
  refine h.oneStep t side ?_
  exact {
    size := rfl
    mask := rfl
    capacity := rfl
    sync := by simp [Ring.rollback]
    pc_eq := fun u hu => update_of_ne hu _ _
    seen_eq := fun _ _ => rfl
    ht_eq := fun d hd => update_of_ne hd _ _
    progress_eq := fun d hd => update_of_ne hd _ _
    tail_eq := fun _ _ => rfl
    ok := hok
    wf := hpct.symm ▸ hwf
    at_side := fun d hd => by
      rw [hpct, hwf.side_eq hres', hrside', ← hrside] at hd
      exact Or.inl (((h.pcs t).side_eq hres).trans hd)
    res := fun q hq => by
      obtain rfl := some.inj (hpres.symm.trans hq)
      exact Or.inl ⟨r, hres, hrside.trans hrside'.symm, hstart.symm⟩
    opens := fun d hd => by
      rw [opens_iff_of_res hres, opens_iff_of_res hpres, hrside, hrside']
    calls := Or.inl ⟨by rw [opens_iff_of_res hres, opens_iff_of_res hpres, hrside, hrside'],
      by simp [Ring.rollback], by simp [Ring.rollback]⟩
    head_word := by simpa [Ring.rollback] using hhead
    tail_word := by simpa [Ring.rollback] using h.tail_eq side
    cnt := fun hrts => nomatch hst.symm.trans hrts
    tail_le := le_rfl
    st := fun _ =>
      Or.inr fun u hu hs => hu (h.single side hst u t hs (hrside ▸ (h.pcs t).side_eq hres))
    mt := fun hmt => nomatch hst.symm.trans hmt
    rts := fun hrts => nomatch hst.symm.trans hrts
    turn := fun _ _ _ _ _ _ => rfl
    settled := fun hrts => nomatch hst.symm.trans hrts
    exclusive := fun {q} hq _ => by
      obtain rfl := some.inj (hpres.symm.trans hq)
      have hold := (h.exclusive hres (hrside ▸ hpeek)).1
      rw [hrside', rollback_progress]
      exact ⟨by rw [hstart, hold, hrside], htotal.symm⟩
    alone := fun _ => Or.inl fun u hu => h.alone hres hrside hpeek u hu
    reserved := fun _ _ => ⟨t, r', hpres, hrside'⟩
    full := fun hno => by
      have hd : Side.prod ≠ side := by
        rintro rfl
        exact hno hpeek
      rw [rollback_progress_of_ne hd]
      exact h.full hno
    supplied := h.supplied_update pc (fun x hx => nomatch hsupplied.symm.trans hx)
    looked := hpct.symm ▸ hlooked
    in_order := fun hrts =>
      ⟨(h.in_order hrts).flatten_eq, (h.in_order hrts).sorted, (h.in_order hrts).below⟩ }

end Rollback

theorem storeHead_hts_eq (s : System T α) (t : T) (m : Moved α) (tbl : List α) :
    ∃ result, publish { s with
        progress := update s.progress m.call.side
          { s.progress m.call.side with total := m.start + m.n }
        heads := update s.heads m.call.side
          ((m.pos + m.n) % 2 ^ 32 :: s.heads m.call.side) } t m (tbl.take m.n)
        { s.r.ht m.call.side with
          head := (m.pos + m.n) % 2 ^ 32, tail := (m.pos + m.n) % 2 ^ 32 } =
      retire s t m.call.side
        { s.r.ht m.call.side with
          head := (m.pos + m.n) % 2 ^ 32, tail := (m.pos + m.n) % 2 ^ 32 }
        (m.start + m.n) result
        (update s.heads m.call.side ((m.pos + m.n) % 2 ^ 32 :: s.heads m.call.side))
        (dequeuedBy s m (tbl.take m.n)) := by
  refine ⟨update s.result t (some ⟨m.n, m.entries - m.n, tbl.take m.n⟩), ?_⟩
  simp only [publish, retire, System.ret, System.setHt, dequeuedBy, update_idem, update_self]

/-- **The store that ends a finish**: the head goes back to the end of what is
kept, and the tail follows, at once or with the next store. -/
theorem Inv.storeHead (h : Inv s tail) (hpc : s.pc t = .storeHead m tbl) : Inv (storeHead s t m tbl)
      (if (s.r.ht m.call.side).syncType = .hts
        then update tail m.call.side (m.start + m.n) else tail) := by
  have hwf := h.pcs t
  rw [hpc] at hwf
  obtain ⟨hm, hpos, hsync, htbl⟩ := hwf
  have hres : (s.pc t).res = some (m.res (m.done tbl) tbl) := by rw [hpc]; rfl
  obtain ⟨hstart, hend⟩ := h.exclusive hres hsync
  have hfits := h.ok.fits hres
  have hlog : m.call.side = .prod → s.enqueued.flatten.length = m.start + m.n := fun hprod => by
    refine h.supplied t _ ?_
    rw [hpc]
    simp [Pc.supplied, hprod]
  have hretract := h.ok.retract hres hm.n_le hend
    (fun u q hq hu hs => hu (h.eq_of_peek hres hq hs hsync).symm)
    (fun hprod => (hlog hprod).le)
  have hkept : (⟨m.call.side, m.start, m.n, min (m.done tbl) m.n,
      (m.batch tbl).take m.n⟩ : Reservation α)
      = { m with len := m.n }.res m.n (tbl.take m.n) := by
    cases hside : m.call.side
    · simp [Moved.res, Moved.done, Moved.batch, hside]
    · simp [Moved.res, Moved.done, Moved.batch, hside, htbl hside, hm.n_le]
  have hpos' : (m.pos + m.n) % 2 ^ 32 = (m.start + m.n) % 2 ^ 32 := by
    rw [hm.pos_eq, mod_add_mod]
  replace hstart : m.start = tail m.call.side := hstart
  unfold Ring.storeHead
  dsimp only
  by_cases hhts : (s.r.ht m.call.side).syncType = .hts
  · rw [if_pos hhts]
    have hcommit := hretract.commit (t := t) (x := m.start + m.n)
      (r := { m with len := m.n }.res m.n (tbl.take m.n)) (by rw [← hkept]; exact update_self _ _ _) rfl
      (by rw [hstart]; exact le_add_right _ _)
      (by simp [Buffer.retract, Moved.res])
      (fun u q hq hu hs => by
        have hq' : (s.pc u).res = some q := by simpa [Buffer.retract, abs, hu] using hq
        exact absurd (h.eq_of_peek hres hq' hs hsync) (Ne.symm hu))
      (fun hprod => (hlog hprod).ge)
    obtain ⟨result, heq⟩ := storeHead_hts_eq s t m tbl
    rw [heq, if_pos hhts]
    refine h.retire hres rfl rfl ?_
      (fun hno => absurd hsync hno) (by omega) (fun _ => hstart) hpos' hpos'
      (fun hrts => by simp [hhts] at hrts) (fun hrts => by simp [hhts] at hrts) (fun _ => rfl)
      (fun hr => (h.in_order hr).retire (fun hcons => ?_))
    · convert hcommit using 1
      ext1 <;> try rfl
      · refine (total_update _ _ _).trans ?_
        simp only [abs, Buffer.commit, Buffer.retract]
        rfl
      · simp only [abs, Ring.retire, Buffer.commit, Buffer.retract, res_update, update_idem]
        rfl
      · simp only [abs, Ring.retire, Buffer.commit, Buffer.retract, dequeuedBy, Moved.res,
          Moved.batch]
        by_cases hcons : m.call.side = .cons
        · simp [hcons]
        · simp [hcons]
    · have hwithin := hfits.batch_within
      simp only [Moved.res, Moved.batch, hcons, abs] at hwithin
      rw [hcons] at hstart
      refine ⟨hstart, ?_, ?_⟩
      · rw [length_take, htbl hcons, min_eq_left hm.n_le, hstart]
      · rw [← hstart]
        exact ( take_prefix _ _).trans hwithin
  · have hst : (s.r.ht m.call.side).syncType = .st := hsync.resolve_right hhts
    rw [if_neg hhts, if_neg hhts]
    refine h.rollback ({ m with len := m.n }.res m.n (tbl.take m.n)) hres rfl rfl rfl
      rfl hst rfl hpos' ?_ ⟨⟨hm.pos_eq, le_rfl, hm.objs⟩, fun hno => absurd hst hno, rfl,
        by simp [hst]⟩ rfl hstart.symm
    convert hretract using 1
    ext1 <;> try rfl
    · exact total_update _ _ _
    · simp only [abs, Ring.rollback, Buffer.retract, res_update]
      rw [show (Pc.storeTail { m with len := m.n } (tbl.take m.n)).res = some
        ({ m with len := m.n }.res m.n (tbl.take m.n)) from rfl, ← hkept]
      rfl

end Ring
