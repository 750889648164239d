import DpdkStudy.Ring.Steps

/-!
# Safety of a ring

The invariant holds of a ring that has been created and is kept by every
access of every thread (`Inv.step`), as long as no call is suspended so long
that its CAS may be deceived (`Prompt`). What it says of the words and the
slots of the ring themselves is stated here without the positions that do not
wrap: the heads and tails follow each other within the capacity (`Cyclic`), a
slot that a call has yet to copy is no other call's and is not one that may be
read next (`SlotsApart`), and what comes back is what was put in.
-/

open Reservations Runs Option

namespace Ring

variable {T α : Type*} [DecidableEq T] {s s' : System T α} {tail : Side → ℕ} {t u : T}

variable {count esize : UInt32} {r : RteRing α} {c : Call α} {e : Event T α}

/-! ## A ring that is created -/

theorem le_rteCombine32ms1b (x : UInt32) : x.toNat ≤ (Ipsec.rteCombine32ms1b x).toNat := by
  have hor : ∀ (y : UInt32) k, y.toNat ≤ (y ||| y >>> k).toNat := fun y k => by
    rw [UInt32.toNat_or]
    exact Nat.left_le_or
  exact le_trans (hor _ 1) (le_trans (hor _ 2) (le_trans (hor _ 4) (le_trans (hor _ 8) (hor _ 16))))

/-- `rte_align32pow2` rounds up, where it does not wrap. -/
theorem le_rteAlign32pow2 {x : UInt32} (hx : Ipsec.rteAlign32pow2 x ≠ 0) :
    x.toNat ≤ (Ipsec.rteAlign32pow2 x).toNat := by
  have hle := le_rteCombine32ms1b (x - 1)
  have hlt := (Ipsec.rteCombine32ms1b (x - 1)).toNat_lt
  have hadd : (Ipsec.rteAlign32pow2 x).toNat
      = ((Ipsec.rteCombine32ms1b (x - 1)).toNat + 1) % 2 ^ 32 := UInt32.toNat_add _ 1
  have hne : (Ipsec.rteAlign32pow2 x).toNat ≠ 0 := fun h0 => hx (UInt32.toNat_inj.mp h0)
  have hsub : (x - 1).toNat = (x.toNat + (2 ^ 32 - 1)) % 2 ^ 32 := by
    rw [UInt32.toNat_sub, Nat.add_comm]
    rfl
  have hxlt := x.toNat_lt
  omega

/-- A number of elements that a ring may have. -/
theorem rteRingGetMemsizeElem_spec {bytes : ℕ} (h : rteRingGetMemsizeElem esize count = some bytes)
    :
    ∃ k ≤ 31, count.toNat = 2 ^ k := by
  unfold rteRingGetMemsizeElem at h
  by_cases hbad : IpFrag.rteIsPowerOf2 count = false ∨ rteRingSzMask < count
  · simp [hbad] at h
  · rw [not_or, Bool.not_eq_false, UInt32.not_lt] at hbad
    obtain ⟨k, hk⟩ := IpFrag.rteIsPowerOf2_eq hbad.1
    refine ⟨k, ?_, hk⟩
    by_contra hlt
    have hle : count.toNat ≤ 0x7fffffff := hbad.2
    have hpow := Nat.pow_le_pow_right (n := 2) (by decide) (by omega : 32 ≤ k)
    omega

/-- A ring that is created is well formed, and its words are zero. -/
theorem rteRingCreateElem_wf {slots : ℕ → α} {flags : UInt32}
    (h : rteRingCreateElem slots esize count flags = some r) :
    r.Wf ∧ ∀ side, (r.ht side).head = 0 ∧ (r.ht side).headCnt = 0 ∧ (r.ht side).tail = 0 ∧
      (r.ht side).tailCnt = 0 := by
  obtain ⟨bytes, hmem, hinit⟩ := bind_eq_some_iff.mp h
  obtain ⟨k, hk, hpow⟩ := rteRingGetMemsizeElem_spec hmem
  have hpos := Nat.two_pow_pos k
  unfold rteRingInit at hinit
  by_cases hflags : flags &&& ~~~ringFMask ≠ 0
  · simp [hflags] at hinit
  rw [if_neg hflags] at hinit
  obtain ⟨sync, -, hr⟩ := bind_eq_some_iff.mp hinit
  by_cases hexact : flags &&& ringFExactSz ≠ 0
  · rw [if_pos hexact] at hr hpow
    obtain rfl := some.inj hr
    have hne : Ipsec.rteAlign32pow2 (count + 1) ≠ 0 := fun h0 => by
      rw [h0] at hpow
      exact absurd hpow.symm hpos.ne'
    have hle := le_rteAlign32pow2 hne
    have hadd : (count + 1).toNat = (count.toNat + 1) % 2 ^ 32 := UInt32.toNat_add _ 1
    have hzero : (count + 1).toNat ≠ 0 := fun h0 => by
      have hlast : count + 1 = 0 := UInt32.toNat_inj.mp h0
      rw [hlast] at hne
      exact hne (by decide)
    have hlt := count.toNat_lt
    have hcount : (count + 1).toNat = count.toNat + 1 := by omega
    exact ⟨⟨⟨k, hk, hpow⟩, rfl, by simp only; omega⟩, fun side => ⟨rfl, rfl, rfl, rfl⟩⟩
  · rw [if_neg hexact] at hr hpow
    by_cases hbad : IpFrag.rteIsPowerOf2 count = false ∨ rteRingSzMask < count
    · simp [hbad] at hr
    · rw [if_neg hbad] at hr
      obtain rfl := some.inj hr
      exact ⟨⟨⟨k, hk, hpow⟩, rfl, by simp only; omega⟩, fun side => ⟨rfl, rfl, rfl, rfl⟩⟩

omit [DecidableEq T] in
/-- The invariant holds of a ring that has been created. -/
theorem Inv.initial (hwf : r.Wf)
    (hzero : ∀ side, (r.ht side).head = 0 ∧ (r.ht side).headCnt = 0 ∧ (r.ht side).tail = 0 ∧
      (r.ht side).tailCnt = 0) : Inv (initial T r) (fun _ => 0) where
  wf := hwf
  ok := {
    capacity_le := hwf.capacity_lt.le
    tail_le := fun _ => le_rfl
    head_le := fun _ => Nat.zero_le _
    fits := fun hr => nomatch hr
    apart := fun _ _ _ _ hr => nomatch hr
    log_ge := Nat.zero_le _
    log_le := le_rfl
    stored := fun p _ hp => absurd hp (Nat.not_lt_zero p)
    out_le := fun _ hx => nomatch hx
    out_ne := fun _ hx => nomatch hx
    out_within := fun _ hx => nomatch hx
    out_pairwise := List.Pairwise.nil
    covered := fun p hp => absurd hp (Nat.not_lt_zero p) }
  pcs _ := trivial
  head_eq side := (hzero side).1
  tail_eq side := (hzero side).2.2.1
  cnt_eq side _ := ⟨(hzero side).2.1, (hzero side).2.2.2⟩
  openings _ := ⟨[], List.nodup_nil,
    fun _ => iff_of_false List.not_mem_nil (fun ⟨_, hr, _⟩ => nomatch hr), rfl⟩
  settled _ _ _ := rfl
  exclusive hr := nomatch hr
  reserved _ _ hne := absurd rfl hne
  full _ := rfl
  single _ _ _ _ ht := nomatch ht
  supplied _ _ hx := nomatch hx
  looked _ := trivial
  in_order _ := ⟨rfl, List.Pairwise.nil, fun _ hx => nomatch hx⟩

/-! ## Every step, every run -/

theorem Inv.call (h : Inv s tail) (hkind : c.kind ≠ .finish)
    (hobjs : c.side = .prod → c.kind = .plain → c.n ≤ c.objs.length)
    (hpeek : c.kind = .start → Peek s c.side) (hsingle : Single s c.side)
    (hs : call s t c = some s') : Inv s' tail := by
  unfold Ring.call at hs
  split at hs
  · rename_i hpc
    split at hs
    · obtain rfl := some.inj hs
      exact h.setPc _ (by rw [hpc]; rfl) ⟨hkind, hobjs, hpeek⟩
        (fun side hside => Or.inr (by obtain rfl := some.inj hside; exact hsingle))
        (fun x hx => nomatch hx) trivial
    · exact nomatch hs
  · exact nomatch hs

/-- A start begins, or returns at once where it is not supported. -/
theorem Inv.peekStart (h : Inv s tail) (hkind : c.kind = .start) (hsingle : Single s c.side)
    (hs : peekStart s t c = some s') : Inv s' tail := by
  have hbegin : ∀ {s'}, Peek s c.side → Ring.call s t c = some s' → Inv s' tail := fun hpeek =>
    h.call (by simp [hkind]) (by simp [hkind]) (fun _ => hpeek) hsingle
  unfold Ring.peekStart at hs
  cases hsync : (s.r.ht c.side).syncType <;> simp only [hsync] at hs
  case st => exact hbegin (Or.inl hsync) hs
  case hts => exact hbegin (Or.inr hsync) hs
  all_goals
    split at hs
    · rename_i hpc
      obtain rfl := some.inj hs
      exact h.ret _ _ _ _ (by rw [hpc]) trivial (fun side hside => nomatch hside)
        (fun x hx => nomatch hx) trivial
    · exact nomatch hs

theorem Inv.peekFinish (h : Inv s tail) (hkind : c.kind = .finish)
    (hobjs : c.side = .prod → c.n ≤ c.objs.length) (hs : peekFinish s t c = some s') :
    Inv s' tail := by
  unfold Ring.peekFinish at hs
  split at hs
  · rename_i m tbl hpc
    split at hs
    · rename_i hside
      obtain rfl := some.inj hs
      have hwf := h.pcs t
      rw [hpc] at hwf
      refine h.setPc _ (by rw [hpc]; rfl) ⟨hwf, hside.1.symm, hkind, hobjs⟩
        (fun side hs => Or.inl ?_) (fun x hx => h.supplied t x (by rw [hpc]; exact hx)) trivial
      rw [hpc, ← hs]
      exact congrArg some hside.1
    · exact nomatch hs
  · exact nomatch hs

/-- **What an event does to the tails**: nothing, or it moves one over the
positions of a call that returns, or as far as the CAS of an `rts` end
takes it. -/
inductive TailStep (s : System T α) (tail : Side → ℕ) : Event T α → (Side → ℕ) → Prop
  | stays (e : Event T α) : TailStep s tail e tail
  | stored (t : T) (m : Moved α) (tbl : List α)
      (hpc : s.pc t = .storeTail m tbl ∨
        s.pc t = .storeHead m tbl ∧ (s.r.ht m.call.side).syncType = .hts) :
      TailStep s tail (.thread t) (Function.update tail m.call.side (m.start + m.n))
  | cas (t : T) (side : Side) (x : ℕ) (hrts : (s.r.ht side).syncType = .rts)
      (hx : tail side ≤ x) (hx' : x ≤ (s.progress side).total) :
      TailStep s tail (.thread t) (Function.update tail side x)

theorem Inv.threadStep (h : Inv s tail) (hprompt : Prompt s (.thread t))
    (hs : threadStep s t = some s') :
    ∃ tail', Inv s' tail' ∧ TailStep s tail (.thread t) tail' := by
  unfold Ring.threadStep at hs
  cases hpc : s.pc t <;> simp only [hpc, reduceCtorEq, some.injEq] at hs
  case loadHead c => exact ⟨tail, hs ▸ h.loadHead hpc, .stays _⟩
  case waitTail c pos cnt => exact ⟨tail, hs ▸ h.waitTail hpc, .stays _⟩
  case loadTail c pos cnt => exact ⟨tail, hs ▸ h.loadTail hpc, .stays _⟩
  case moveHead c pos cnt n entries => exact ⟨tail, hs ▸ h.moveHead hpc hprompt, .stays _⟩
  case copy m i tbl => exact ⟨tail, h.copy hpc hs, .stays _⟩
  case waitUntilEqual m tbl => exact ⟨tail, hs ▸ h.waitUntilEqual hpc, .stays _⟩
  case storeTail m tbl => exact ⟨_, hs ▸ h.storeTail hpc, .stored t m tbl (Or.inl hpc)⟩
  case loadRtsTail m tbl =>
    have hwf := h.pcs t
    rw [hpc] at hwf
    exact ⟨tail, hs ▸ h.loadRtsTail (by rw [hpc]; rfl) (by rw [hpc]; rfl) hwf, .stays _⟩
  case loadRtsHead m tbl ot =>
    simp only [Prompt, hpc, InTime] at hprompt
    exact ⟨tail, hs ▸ h.loadRtsHead hpc hprompt, .stays _⟩
  case casRtsTail m tbl ot nt =>
    simp only [Prompt, hpc, InTime] at hprompt
    have hwf := h.pcs t
    rw [hpc] at hwf
    obtain ⟨tail', h', rfl | ⟨x, hx, hx', rfl⟩⟩ := h.casRtsTail hpc hprompt
    · exact ⟨_, hs ▸ h', .stays _⟩
    · exact ⟨_, hs ▸ h', .cas t _ x hwf.2.2.2 hx hx'⟩
  case getTail m c tbl => exact ⟨tail, hs ▸ h.getTail hpc, .stays _⟩
  case storeHead m tbl =>
    refine ⟨_, hs ▸ h.storeHead hpc, ?_⟩
    split
    · rename_i hhts
      exact .stored t m tbl (Or.inr ⟨hpc, hhts⟩)
    · exact .stays _

/-- Every event keeps the invariant. -/
theorem Inv.step (h : Inv s tail) (hlegal : Legal s e) (hprompt : Prompt s e)
    (hs : step s e = some s') : ∃ tail', Inv s' tail' ∧ TailStep s tail e tail' := by
  cases e with
  | enqueue t objs fixed =>
    exact ⟨tail, h.call (c := ⟨.prod, .plain, objs.length, objs, fixed⟩) (by simp)
      (fun _ _ => le_rfl) (by simp) hlegal hs, .stays _⟩
  | dequeue t n fixed =>
    exact ⟨tail, h.call (c := ⟨.cons, .plain, n, [], fixed⟩) (by simp) (by simp) (by simp)
      hlegal hs, .stays _⟩
  | enqueueStart t n fixed =>
    exact ⟨tail, h.peekStart (c := ⟨.prod, .start, n, [], fixed⟩) rfl hlegal hs, .stays _⟩
  | enqueueFinish t objs => exact ⟨tail, h.peekFinish rfl (fun _ => le_rfl) hs, .stays _⟩
  | dequeueStart t n fixed =>
    exact ⟨tail, h.peekStart (c := ⟨.cons, .start, n, [], fixed⟩) rfl hlegal hs, .stays _⟩
  | dequeueFinish t n => exact ⟨tail, h.peekFinish rfl (by simp) hs, .stays _⟩
  | thread t => exact h.threadStep hprompt hs

/-- The invariant holds in every state that is reached. -/
theorem Inv.run {slots : ℕ → α} {flags : UInt32}
    (hr : rteRingCreateElem slots esize count flags = some r) {es : List (Event T α)}
    (hes : AlongOption Ring.step (fun s e => Legal s e ∧ Prompt s e) (Ring.initial T r) es)
    (hs : runOption Ring.step (Ring.initial T r) es = some s) : ∃ tail, Inv s tail := by
  obtain ⟨hwf, hzero⟩ := rteRingCreateElem_wf hr
  exact hes.invariant (P := fun s => ∃ tail, Inv s tail)
    (fun s e s' ⟨tail, h⟩ he hstep => (h.step he.1 he.2 hstep).imp (fun _ => And.left)) hs
    ⟨_, Inv.initial hwf hzero⟩

/-! ## The sync types stay what they are -/

/-- **Where a thread goes when a call begins**: in front of its first access, or
back where a start is not supported. -/
inductive Begins : Pc α → Pc α → Prop
  | loadHead (c : Call α) : Begins .idle (.loadHead c)
  | unsupported : Begins .idle .idle
  | getTail (m : Moved α) (c : Call α) (tbl : List α) : Begins (.opened m tbl) (.getTail m c tbl)

theorem call_cases (hs : call s t c = some s') :
    s.pc t = .idle ∧ s' = s.setPc t (.loadHead c) := by
  unfold call at hs
  split at hs
  · rename_i hpc
    split at hs
    · exact ⟨hpc, (some.inj hs).symm⟩
    · exact nomatch hs
  · exact nomatch hs

/-- **An event is an access of a thread, or a call that begins**, which changes
nothing but where its thread is and what it has returned. -/
theorem step_cases (hs : step s e = some s') :
    (∃ t, e = .thread t ∧ threadStep s t = some s') ∨
    ∃ t pc result, Begins (s.pc t) pc ∧
      s' = { s with pc := Function.update s.pc t pc, result } := by
  have hcall : ∀ {t c}, call s t c = some s' → ∃ t pc result, Begins (s.pc t) pc ∧
      s' = { s with pc := Function.update s.pc t pc, result } := by
    intro t c hs
    obtain ⟨hpc, rfl⟩ := call_cases hs
    exact ⟨t, _, _, by rw [hpc]; exact .loadHead c, rfl⟩
  have hstart : ∀ {t c}, peekStart s t c = some s' → ∃ t pc result, Begins (s.pc t) pc ∧
      s' = { s with pc := Function.update s.pc t pc, result } := by
    intro t c hs
    unfold peekStart at hs
    cases hsync : (s.r.ht c.side).syncType <;> simp only [hsync] at hs
    case st => exact hcall hs
    case hts => exact hcall hs
    all_goals
      split at hs
      · rename_i hpc
        obtain rfl := some.inj hs
        exact ⟨t, _, _, by rw [hpc]; exact .unsupported, rfl⟩
      · exact nomatch hs
  have hfinish : ∀ {t c}, peekFinish s t c = some s' → ∃ t pc result, Begins (s.pc t) pc ∧
      s' = { s with pc := Function.update s.pc t pc, result } := by
    intro t c hs
    unfold peekFinish at hs
    split at hs
    · rename_i m tbl hpc
      split at hs
      · obtain rfl := some.inj hs
        exact ⟨t, _, _, by rw [hpc]; exact .getTail m c tbl, rfl⟩
      · exact nomatch hs
    · exact nomatch hs
  cases e with
  | enqueue t objs fixed => exact Or.inr (hcall hs)
  | dequeue t n fixed => exact Or.inr (hcall hs)
  | enqueueStart t n fixed => exact Or.inr (hstart hs)
  | enqueueFinish t objs => exact Or.inr (hfinish hs)
  | dequeueStart t n fixed => exact Or.inr (hstart hs)
  | dequeueFinish t n => exact Or.inr (hfinish hs)
  | thread t => exact Or.inl ⟨t, rfl, hs⟩

omit [DecidableEq T] in
theorem setHt_sync {side : Side} {ht : RteRingHeadtail}
    (hsync : ht.syncType = (s.r.ht side).syncType) (d : Side) :
    ((s.setHt side ht).r.ht d).syncType = (s.r.ht d).syncType := by
  by_cases hd : d = side
  · subst hd
    simpa [System.setHt] using hsync
  · simp [System.setHt, hd]

theorem movedHead_sync (c : Call α) (pos cnt n entries : ℕ) (d : Side) :
    ((movedHead s t c pos cnt n entries).r.ht d).syncType = (s.r.ht d).syncType := by
  obtain ⟨result, heq⟩ := movedHead_eq s t c pos cnt n entries
  rw [heq, advance_sync]

theorem publish_sync {m : Moved α} {tbl : List α} {ht : RteRingHeadtail}
    (hsync : ht.syncType = (s.r.ht m.call.side).syncType) (d : Side) :
    ((publish s t m tbl ht).r.ht d).syncType = (s.r.ht d).syncType :=
  setHt_sync hsync d

theorem threadStep_sync (hs : threadStep s t = some s') (d : Side) :
    (s'.r.ht d).syncType = (s.r.ht d).syncType := by
  unfold threadStep at hs
  cases hpc : s.pc t <;> simp only [hpc, reduceCtorEq, some.injEq] at hs
  case loadHead c =>
    subst hs
    cases hsync : (s.r.ht c.side).syncType <;> simp only [loadHead, hsync]
    case hts => split <;> rfl
    all_goals rfl
  case waitTail c pos cnt =>
    subst hs
    unfold waitTail
    dsimp only
    split <;> rfl
  case loadTail c pos cnt =>
    subst hs
    unfold loadTail
    dsimp only
    split <;> rfl
  case moveHead c pos cnt n entries =>
    subst hs
    cases hsync : (s.r.ht c.side).syncType <;> simp only [moveHead, hsync]
    case st => exact movedHead_sync _ _ _ _ _ _
    all_goals
      split
      · exact movedHead_sync _ _ _ _ _ _
      · rfl
  case copy m i tbl =>
    unfold copy at hs
    split at hs
    · cases hside : m.call.side <;> simp only [hside] at hs
      · obtain ⟨x, -, rfl⟩ := map_eq_some_iff.mp hs
        rfl
      · obtain rfl := some.inj hs
        rfl
    · obtain rfl := some.inj hs
      cases hkind : m.call.kind <;> simp only [copied, hkind]
      case plain => cases hsync : (s.r.ht m.call.side).syncType <;> rfl
      all_goals rfl
  case waitUntilEqual m tbl =>
    subst hs
    unfold waitUntilEqual
    split <;> rfl
  case storeTail m tbl =>
    subst hs
    refine publish_sync ?_ d
    rfl
  case loadRtsTail m tbl =>
    subst hs
    rfl
  case loadRtsHead m tbl ot =>
    subst hs
    rfl
  case casRtsTail m tbl ot nt =>
    subst hs
    unfold casRtsTail
    dsimp only
    split
    · refine publish_sync ?_ d
      rfl
    · rfl
  case getTail m c tbl =>
    subst hs
    unfold getTail
    dsimp only
    split <;> split <;> rfl
  case storeHead m tbl =>
    subst hs
    unfold storeHead
    dsimp only
    split
    · refine (publish_sync ?_ d).trans ?_ <;> rfl
    · refine (setHt_sync ?_ d).trans ?_ <;> rfl

theorem step_sync (hs : step s e = some s') (d : Side) :
    (s'.r.ht d).syncType = (s.r.ht d).syncType := by
  rcases step_cases hs with ⟨t, rfl, ht⟩ | ⟨t, pc, result, -, rfl⟩
  · exact threadStep_sync ht d
  · rfl

/-- **The order of the positions**: going round from the tail of the
consumers, their head, the tail of the producers and their head follow, within
the capacity. -/
def Cyclic (r : RteRing α) : Prop :=
  sub32 (r.ht .cons).head (r.ht .cons).tail + sub32 (r.ht .prod).tail (r.ht .cons).head +
    sub32 (r.ht .prod).head (r.ht .prod).tail ≤ r.capacity

/-- **What comes back is what was put in**: the batches that have been dequeued
are in the order of their positions, and one after the other they are the
first part of the batches that have been enqueued. -/
structure Delivered (s : System T α) : Prop where
  sorted : s.dequeued.Pairwise fun x y => x.1 + x.2.length ≤ y.1
  flatten_within : (s.dequeued.map Prod.snd).flatten <+: s.enqueued.flatten

omit [DecidableEq T] in
theorem Inv.sub32_head (h : Inv s tail) (side : Side) :
    sub32 (s.r.ht side).head (s.r.ht side).tail = (s.progress side).total - tail side := by
  have hlt := h.total_lt side
  exact sub32_eq (by rw [h.head_eq, Nat.mod_mod]) (h.tail_eq side) (h.tail_le side) (by omega)

omit [DecidableEq T] in
/-- How many elements there are for the next consumer. -/
theorem Inv.sub32_tail (h : Inv s tail) : sub32 (s.r.ht .prod).tail (s.r.ht .cons).head
    = tail .prod - (s.progress .cons).total := by
  have hle : (s.progress .cons).total ≤ tail .prod := h.ok.cons_le
  have hprod : (s.progress .prod).total ≤ tail .cons + s.r.capacity := h.ok.prod_le
  have hp := h.tail_le .prod
  have hc := h.tail_le .cons
  have hcap := h.wf.capacity_lt_two_pow
  exact sub32_eq (by rw [h.tail_eq, Nat.mod_mod]) (h.head_eq .cons) hle (by omega)

omit [DecidableEq T] in
theorem Inv.cyclic (h : Inv s tail) : Cyclic s.r := by
  have hle : (s.progress .cons).total ≤ tail .prod := h.ok.cons_le
  have hprod : (s.progress .prod).total ≤ tail .cons + s.r.capacity := h.ok.prod_le
  have hp := h.tail_le .prod
  have hc := h.tail_le .cons
  unfold Cyclic
  rw [h.sub32_head, h.sub32_head, h.sub32_tail]
  omega

omit [DecidableEq T] in
theorem Inv.delivered (h : Inv s tail) (hsync : (s.r.ht .cons).syncType ≠ .rts) : Delivered s where
  sorted := (h.in_order hsync).sorted
  flatten_within := by
    rw [(h.in_order hsync).flatten_eq]
    exact List.take_prefix _ _

end Ring
