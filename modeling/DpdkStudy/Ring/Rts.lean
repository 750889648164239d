import DpdkStudy.Ring.Safety
import Mathlib.Data.Fintype.Basic

/-!
# Relaxed tail sync

At an `rts` end the calls do not wait for each other: each one that ends
counts itself, and the one whose count comes to the number of calls that have
moved the head takes the tail to the head. What this leaves true is stated for
the words (`RtsSafe`): the tail does not pass a reservation that is not
finished, it only has values that the head has had and does not go back, the
counters tell how many calls are not finished, and an end that is at rest is
settled.

The ring as a whole delivers each element once (`DeliveredOnce`); an `rts` end
of consumers returns its batches in any order, each at its own positions.
-/

open Reservations Runs

namespace Ring

variable {T α : Type*} [DecidableEq T] {s s' : System T α} {tail tail' : Side → ℕ} {t u : T}

variable {pc : Pc α} {m : Moved α} {side : Side} {e : Event T α}

/-- What a call has moved the head over, while it is not finished. -/
def Pc.moved : Pc α → Option (Moved α)
  | .copy m _ _ => some m
  | .waitUntilEqual m _ => some m
  | .storeTail m _ => some m
  | .loadRtsTail m _ => some m
  | .loadRtsHead m _ _ => some m
  | .casRtsTail m _ _ _ => some m
  | .opened m _ => some m
  | .getTail m _ _ => some m
  | .storeHead m _ => some m
  | _ => none

omit [DecidableEq T] in
/-- A call that is not finished holds its reservation. -/
theorem Pc.moved_of_res {r : Reservation α} (hr : pc.res = some r) :
    ∃ m, pc.moved = some m ∧ m.call.side = r.side ∧ m.start = r.start ∧ m.len = r.len := by
  cases pc <;> simp only [Pc.res, reduceCtorEq, Option.some.injEq] at hr <;> subst hr <;>
    exact ⟨_, rfl, rfl, rfl, rfl⟩

omit [DecidableEq T] in
theorem Pc.res_of_moved (hm : pc.moved = some m) :
    ∃ r, pc.res = some r ∧ r.side = m.call.side ∧ r.start = m.start ∧ r.len = m.len := by
  cases pc <;> simp only [Pc.moved, reduceCtorEq, Option.some.injEq] at hm <;> subst hm <;>
    exact ⟨_, rfl, rfl, rfl, rfl⟩

omit [DecidableEq T] in
theorem opens_iff :
    Opens s side t ↔ ∃ m, (s.pc t).moved = some m ∧ m.call.side = side := by
  constructor
  · rintro ⟨r, hr, rfl⟩
    obtain ⟨m, hm, hside, -⟩ := Pc.moved_of_res hr
    exact ⟨m, hm, hside⟩
  · rintro ⟨m, hm, rfl⟩
    obtain ⟨r, hr, hside, -⟩ := Pc.res_of_moved hm
    exact ⟨r, hr, hside⟩

omit [DecidableEq T] in
/-- The position of a call is that where its positions start. -/
theorem Pc.Wf.pos_eq {sync : Side → RteRingSyncType} (hwf : pc.Wf sync) (hm : pc.moved = some m) :
    m.pos = m.start % 2 ^ 32 := by
  cases pc <;> simp only [Pc.moved, reduceCtorEq, Option.some.injEq] at hm <;> subst hm
  case opened m tbl => exact Moved.Open.pos_eq hwf
  case getTail m c tbl => exact hwf.1.pos_eq
  all_goals exact hwf.1.pos_eq

omit [DecidableEq T] in
/-- The counters tell how many calls are not finished. -/
theorem Inv.counts (h : Inv s tail) (hrts : (s.r.ht side).syncType = .rts) :
    ∃ l : List T, l.Nodup ∧
      (∀ t, t ∈ l ↔ ∃ m, (s.pc t).moved = some m ∧ m.call.side = side) ∧
      sub32 (s.r.ht side).headCnt (s.r.ht side).tailCnt = l.length % 2 ^ 32 := by
  obtain ⟨l, hnodup, hmem, hlen⟩ := h.openings side
  obtain ⟨hhead, htail⟩ := h.cnt_eq side hrts
  refine ⟨l, hnodup, fun t => (hmem t).trans opens_iff, ?_⟩
  rw [hhead, htail, hlen]
  unfold sub32
  omega

omit [DecidableEq T] in
/-- A tail does not go back, and not past the head. -/
theorem TailStep.within (hstep : TailStep s tail e tail') (h : Inv s tail) (side : Side) :
    tail side ≤ tail' side ∧ tail' side ≤ (s.progress side).total := by
  have hupdate : ∀ {d x}, tail d ≤ x → x ≤ (s.progress d).total →
      tail side ≤ Function.update tail d x side ∧
        Function.update tail d x side ≤ (s.progress side).total := by
    intro d x hx hx'
    by_cases hd : side = d
    · subst hd
      simpa using ⟨hx, hx'⟩
    · simpa [hd] using h.tail_le side
  cases hstep with
  | stays e => exact ⟨le_rfl, h.tail_le side⟩
  | cas t d x hrts hx hx' => exact hupdate hx hx'
  | stored t m tbl hpc =>
    have hres : ∃ r, (s.pc t).res = some r ∧ r.side = m.call.side ∧ r.start = m.start ∧
        r.len = m.len := by
      rcases hpc with hpc | ⟨hpc, -⟩ <;> exact Pc.res_of_moved (by rw [hpc]; rfl)
    obtain ⟨r, hr, hside, hstart, hlen⟩ := hres
    have hn : m.n ≤ m.len := by
      have hwf := h.pcs t
      rcases hpc with hpc | ⟨hpc, -⟩ <;> rw [hpc] at hwf
      · exact hwf.2.2.1.le
      · exact hwf.1.n_le
    have hs := (h.ok.fits hr).start_le
    have he := (h.ok.fits hr).end_le
    rw [hside, hstart] at hs he
    simp only [abs] at hs he
    exact hupdate (by omega) (by omega)

/-- The positions that a thread holds to store as the tail. -/
def Pc.tails (side : Side) : Pc α → List ℕ
  | .loadRtsHead m _ ot => if m.call.side = side then [ot.pos] else []
  | .casRtsTail m _ ot nt => if m.call.side = side then [ot.pos, nt.pos] else []
  | _ => []

/-- **The tail has been the head**, and so has each position that a thread is
about to store. -/
structure PastHead (s : System T α) (side : Side) : Prop where
  head_mem : (s.r.ht side).head ∈ s.heads side
  tail_mem : (s.r.ht side).tail ∈ s.heads side
  tails_mem : ∀ t, ∀ x ∈ (s.pc t).tails side, x ∈ s.heads side

theorem PastHead.goOn (h : PastHead s side) (pc : Pc α)
    (hht : (s'.r.ht side).head = (s.r.ht side).head ∧ (s'.r.ht side).tail = (s.r.ht side).tail)
    (hheads : s'.heads side = s.heads side) (hpc : s'.pc = Function.update s.pc t pc)
    (htails : ∀ x ∈ pc.tails side, x ∈ s.heads side) : PastHead s' side where
  head_mem := by
    rw [hheads, hht.1]
    exact h.head_mem
  tail_mem := by
    rw [hheads, hht.2]
    exact h.tail_mem
  tails_mem := by
    intro u x hx
    rw [hheads]
    rw [hpc] at hx
    by_cases hu : u = t
    · subst hu
      exact htails x (by simpa using hx)
    · exact h.tails_mem u x (by simpa [hu] using hx)

theorem PastHead.movedHead {c : Call α} {pos cnt n entries : ℕ} (h : PastHead s side) :
    PastHead (movedHead s t c pos cnt n entries) side := by
  obtain ⟨result, heq⟩ := movedHead_eq s t c pos cnt n entries
  rw [heq]
  have hmono : ∀ x ∈ s.heads side, x ∈ (advanceHead s t c.side ((pos + n) % 2 ^ 32) cnt n
      (afterMove ⟨c, pos, n, entries, (s.progress c.side).total, n⟩) result
      (if c.side = Side.prod ∧ c.kind = Kind.plain then s.enqueued ++ [c.objs.take n]
        else s.enqueued)).heads side := by
    intro x hx
    by_cases hs : side = c.side
    · subst hs
      simpa [advanceHead] using Or.inr hx
    · simpa [advanceHead, hs] using hx
  refine ⟨?_, hmono _ ?_, fun u x hx => hmono x ?_⟩
  · by_cases hs : side = c.side
    · subst hs
      simp [advanceHead]
    · simpa [advanceHead, hs] using h.head_mem
  · by_cases hs : side = c.side
    · subst hs
      simpa [advanceHead] using h.tail_mem
    · simpa [advanceHead, hs] using h.tail_mem
  · by_cases hu : u = t
    · subst hu
      have hnil : (afterMove ⟨c, pos, n, entries, (s.progress c.side).total, n⟩ : Pc α).tails side
          = [] := by
        unfold afterMove
        split <;> rfl
      simp [advanceHead, hnil] at hx
    · exact h.tails_mem u x (by simpa [advanceHead, hu] using hx)

/-- A tail that is stored has been the head, if it is a position that has. -/
theorem PastHead.publish {tbl : List α} {ht : RteRingHeadtail} (h : PastHead s side)
    (hhead : m.call.side = side → ht.head = (s.r.ht side).head)
    (htail : m.call.side = side → ht.tail ∈ s.heads side) :
    PastHead (publish s t m tbl ht) side := by
  obtain ⟨result, heq⟩ := publish_eq s t m tbl ht
  rw [heq]
  refine ⟨?_, ?_, fun u x hx => ?_⟩
  · by_cases hs : side = m.call.side
    · subst hs
      simpa [retire, hhead rfl] using h.head_mem
    · simpa [retire, hs] using h.head_mem
  · by_cases hs : side = m.call.side
    · subst hs
      simpa [retire] using htail rfl
    · simpa [retire, hs] using h.tail_mem
  · by_cases hu : u = t
    · subst hu
      simp [retire, Pc.tails] at hx
    · exact h.tails_mem u x (by simpa [retire, hu] using hx)

/-- **Every access at an `rts` end keeps to positions that the head has had.** -/
theorem PastHead.threadStep (h : PastHead s side) (hi : Inv s tail)
    (hrts : (s.r.ht side).syncType = .rts) (hs : threadStep s t = some s') : PastHead s' side := by
  have hwf := hi.pcs t
  have hset : ∀ pc : Pc α, (∀ x ∈ pc.tails side, x ∈ s.heads side) →
      PastHead (s.setPc t pc) side := fun pc htails => h.goOn _ ⟨rfl, rfl⟩ rfl rfl htails
  have hlook : ∀ (d : Side) (pc : Pc α), (∀ x ∈ pc.tails side, x ∈ s.heads side) →
      PastHead ((s.look t d).setPc t pc) side :=
    fun d pc htails => h.goOn _ ⟨rfl, rfl⟩ rfl rfl htails
  have hret : ∀ (pc : Pc α) (n left : ℕ) (objs : List α),
      (∀ x ∈ pc.tails side, x ∈ s.heads side) → PastHead (s.ret t pc n left objs) side :=
    fun pc n left objs htails => h.goOn _ ⟨rfl, rfl⟩ rfl rfl htails
  have hne : ∀ {d}, (s.r.ht d).syncType ≠ .rts → d ≠ side := by
    rintro d hd rfl
    exact hd hrts
  unfold Ring.threadStep at hs
  cases hpc : s.pc t <;> rw [hpc] at hwf <;>
    simp only [hpc, reduceCtorEq, Option.some.injEq] at hs
  case loadHead c =>
    subst hs
    cases hsync : (s.r.ht c.side).syncType <;> simp only [loadHead, hsync]
    case hts =>
      split
      · exact h.goOn (s.pc t) ⟨rfl, rfl⟩ rfl (Function.update_eq_self _ _).symm
          (h.tails_mem t)
      · exact hlook _ _ (by simp [Pc.tails])
    all_goals exact hlook _ _ (by simp [Pc.tails])
  case waitTail c pos cnt =>
    subst hs
    unfold waitTail
    dsimp only
    split <;> exact hset _ (by simp [Pc.tails])
  case loadTail c pos cnt =>
    subst hs
    unfold loadTail
    dsimp only
    split
    · exact hret _ _ _ _ (by simp [Pc.tails])
    · exact hset _ (by simp [Pc.tails])
  case moveHead c pos cnt n entries =>
    subst hs
    cases hsync : (s.r.ht c.side).syncType <;> simp only [moveHead, hsync]
    case st => exact h.movedHead
    case mt =>
      split
      · exact h.movedHead
      · exact hlook _ _ (by simp [Pc.tails])
    all_goals
      split
      · exact h.movedHead
      · exact hset _ (by simp [Pc.tails])
  case copy m i tbl =>
    unfold copy at hs
    split at hs
    · cases hside : m.call.side <;> simp only [hside] at hs
      · obtain ⟨x, -, rfl⟩ := Option.map_eq_some_iff.mp hs
        exact h.goOn (.copy m (i + 1) tbl) ⟨rfl, rfl⟩ rfl rfl (by simp [Pc.tails])
      · obtain rfl := Option.some.inj hs
        exact hset _ (by simp [Pc.tails])
    · obtain rfl := Option.some.inj hs
      cases hkind : m.call.kind <;> simp only [copied, hkind]
      case plain =>
        cases (s.r.ht m.call.side).syncType <;> exact hset _ (by simp [Pc.tails])
      case start => exact hret _ _ _ _ (by simp [Pc.tails])
      case finish => exact hset _ (by simp [Pc.tails])
  case waitUntilEqual m tbl =>
    subst hs
    unfold waitUntilEqual
    split
    · exact hset _ (by simp [Pc.tails])
    · exact h
  case storeTail m tbl =>
    subst hs
    exact h.publish (fun hs => absurd hs (hne hwf.2.2.2)) (fun hs => absurd hs (hne hwf.2.2.2))
  case loadRtsTail m tbl =>
    subst hs
    refine hlook _ _ (fun x hx => ?_)
    by_cases hside : m.call.side = side
    · simp only [Pc.tails, hside, if_true, List.mem_singleton] at hx
      exact hx ▸ h.tail_mem
    · simp [Pc.tails, hside] at hx
  case loadRtsHead m tbl ot =>
    subst hs
    refine hset _ (fun x hx => ?_)
    by_cases hside : m.call.side = side
    · have hot : ot.pos ∈ s.heads side := h.tails_mem t _ (by simp [hpc, Pc.tails, hside])
      simp only [Pc.tails, hside, if_true, List.mem_cons, List.not_mem_nil, or_false] at hx
      rcases hx with rfl | rfl
      · exact hot
      · split
        · exact h.head_mem
        · exact hot
    · simp [Pc.tails, hside] at hx
  case casRtsTail m tbl ot nt =>
    subst hs
    unfold casRtsTail
    dsimp only
    split
    · refine h.publish (fun hs => by rw [hs]) (fun hside => ?_)
      exact h.tails_mem t _ (by simp [hpc, Pc.tails, hside])
    · refine hlook _ _ (fun x hx => ?_)
      by_cases hside : m.call.side = side
      · simp only [Pc.tails, hside, if_true, List.mem_singleton] at hx
        exact hx ▸ h.tail_mem
      · simp [Pc.tails, hside] at hx
  case getTail m c tbl =>
    subst hs
    unfold getTail
    dsimp only
    split <;> split <;> exact h.goOn _ ⟨rfl, rfl⟩ rfl rfl (by simp [Pc.tails])
  case storeHead m tbl =>
    have hside : m.call.side ≠ side := hne (by rcases hwf.2.2.1 with hp | hp <;> simp [hp])
    subst hs
    unfold storeHead
    dsimp only
    split
    · refine PastHead.publish (h.goOn (s.pc t) ⟨rfl, rfl⟩ ?_
        (Function.update_eq_self _ _).symm (h.tails_mem t)) (fun hs => absurd hs hside)
        (fun hs => absurd hs hside)
      simp [Ne.symm hside]
    · refine h.goOn _ ?_ ?_ rfl (by simp [Pc.tails])
      · simp [System.setHt, System.setPc, Ne.symm hside]
      · simp [System.setHt, System.setPc, Ne.symm hside]

omit [DecidableEq T] in
/-- A call that begins holds no position to store. -/
theorem Begins.tails {pc' : Pc α} (h : Begins pc pc') (side : Side) : pc'.tails side = [] := by
  cases h <;> rfl

/-- Every event keeps to positions that the head has had. -/
theorem PastHead.step (h : PastHead s side) (hi : Inv s tail) (hrts : (s.r.ht side).syncType = .rts)
    (hs : Ring.step s e = some s') : PastHead s' side := by
  rcases step_cases hs with ⟨t, rfl, ht⟩ | ⟨t, pc, result, hbegins, rfl⟩
  · exact h.threadStep hi hrts ht
  · exact h.goOn _ ⟨rfl, rfl⟩ rfl rfl (by simp [hbegins.tails])

/-- The words of an `rts` end in every state that is reached. -/
theorem PastHead.run {slots : ℕ → α} {esize count flags : UInt32} {r : RteRing α}
    (hr : rteRingCreateElem slots esize count flags = some r) {es : List (Event T α)}
    (hes : AlongOption Ring.step (fun s e => Legal s e ∧ Prompt s e) (initial T r) es)
    (hs : runOption Ring.step (initial T r) es = some s) (hrts : (s.r.ht side).syncType = .rts) :
    PastHead s side := by
  obtain ⟨hwf, hzero⟩ := rteRingCreateElem_wf hr
  have hinit : PastHead (initial T r) side :=
    ⟨by simp [initial], by simp [initial, hzero side], fun _ _ hx => by cases hx⟩
  have hkept := hes.invariant
    (P := fun s => (∃ tail, Inv s tail) ∧ ((s.r.ht side).syncType = .rts → PastHead s side))
    (fun s e s' hk he hstep => by
      obtain ⟨⟨tail, hi⟩, h⟩ := hk
      refine ⟨(hi.step he.1 he.2 hstep).imp (fun _ => And.left), fun hsync => ?_⟩
      have hrts' := step_sync hstep side ▸ hsync
      exact (h hrts').step hi hrts' hstep)
    hs ⟨⟨_, Inv.initial hwf hzero⟩, fun _ => hinit⟩
  exact hkept.2 hrts

end Ring
