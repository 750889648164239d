import DpdkStudy.Ring.Rts

/-!
# Calls in two parts

At an end whose sync type is `st` or `hts` a call may come in two parts, a
start that reserves positions and a finish that keeps the first of them and
gives back the rest. What the ring holds, from tail to tail, is a queue
(`content`), and nothing but the last access of a call changes it
(`committing`): it appends what a producer keeps or removes what a consumer
keeps, all at once (`Commits`). In between, a transaction is a run of positions
that starts at the tail of its end and reaches to the head, and there is only
one of them at an end (`Transactions`), so what a finish gives back is what the
next start reserves.
-/

open Reservations Runs Function List Option

namespace Ring

variable {T α : Type*} [DecidableEq T] {s s' : System T α} {tail : Side → ℕ} {t u : T}

variable {m : Moved α} {e : Event T α} {tbl : List α}

/-! ## The queue -/

/-- **What a ring holds**, from the tail of the consumers to the tail of the
producers. -/
def RteRing.content (r : RteRing α) : List α :=
  view r.size r.slots (r.ht .cons).tail (sub32 (r.ht .prod).tail (r.ht .cons).tail)

/-- **The call that moves a tail**, and what a consumer returns: with the store
of the tail, or with that of head and tail together. -/
def committing (s : System T α) : Event T α → Option (Moved α × List α)
  | .thread t =>
    match s.pc t with
    | .storeTail m tbl => some (m, tbl)
    | .storeHead m tbl =>
      if (s.r.ht m.call.side).syncType = .hts then some (m, tbl.take m.n) else none
    | _ => none
  | _ => none

/-- What a call that keeps its first elements makes of the queue. -/
def Moved.commit (m : Moved α) (l : List α) : List α :=
  match m.call.side with
  | .prod => l ++ m.call.objs.take m.n
  | .cons => l.drop m.n

/-- How many of its elements a call keeps: a plain call all of them, and a
finish as many as it asks for, but none if there are not so many. -/
def Moved.kept (m : Moved α) : ℕ :=
  if m.call.kind = .finish then (if m.call.n ≤ m.len then m.call.n else 0) else m.len

omit [DecidableEq T] in
/-- A transaction at an `st` or `hts` end reaches from the tail to the head. -/
theorem Inv.moved_eq (h : Inv s tail) (hm : (s.pc t).moved = some m) (hpeek : Peek s m.call.side) :
    m.start = tail m.call.side ∧ m.start + m.len = (s.progress m.call.side).total := by
  obtain ⟨r, hr, hside, hstart, hlen⟩ := Pc.res_of_moved hm
  have hex := h.exclusive hr (by rwa [hside])
  rwa [hside, hstart, hlen] at hex

omit [DecidableEq T] in
theorem Inv.moved_len (h : Inv s tail) (hm : (s.pc t).moved = some m) (hpeek : Peek s m.call.side) :
    sub32 (s.r.ht m.call.side).head (s.r.ht m.call.side).tail = m.len := by
  obtain ⟨hstart, hend⟩ := h.moved_eq hm hpeek
  rw [h.sub32_head]
  omega

/-! ## How many elements a finish keeps -/

/-- Each call that has moved a head keeps what it is to keep. -/
def Keeps (s : System T α) : Prop := ∀ t m, (s.pc t).moved = some m → m.n = m.kept

theorem Keeps.goOn (h : Keeps s) (pc : Pc α) (hpc : s'.pc = update s.pc t pc)
    (hm : ∀ m, pc.moved = some m → m.n = m.kept) : Keeps s' := by
  intro u m hu
  rw [hpc] at hu
  by_cases hut : u = t
  · subst hut
    exact hm m (by simpa using hu)
  · exact h u m (by simpa [hut] using hu)

theorem Keeps.same (h : Keeps s) (pc : Pc α) (hpc : s'.pc = update s.pc t pc)
    (hm : ∀ m, pc.moved = some m → (s.pc t).moved = some m) : Keeps s' :=
  h.goOn pc hpc (fun m hpm => h t m (hm m hpm))

theorem Keeps.movedHead {c : Call α} {pos cnt n entries : ℕ} (h : Keeps s)
    (hkind : c.kind ≠ .finish) : Keeps (movedHead s t c pos cnt n entries) := by
  obtain ⟨result, heq⟩ := movedHead_eq s t c pos cnt n entries
  rw [heq]
  refine h.goOn _ rfl (fun m hm => ?_)
  have hm' : m = ⟨c, pos, n, entries, (s.progress c.side).total, n⟩ := by
    unfold afterMove at hm
    split at hm <;> exact (some.inj hm).symm
  simp [hm', Moved.kept, hkind]

theorem Keeps.threadStep (h : Keeps s) (hi : Inv s tail) (hs : threadStep s t = some s') :
    Keeps s' := by
  have hwf := hi.pcs t
  unfold Ring.threadStep at hs
  cases hpc : s.pc t <;> rw [hpc] at hwf <;>
    simp only [hpc, reduceCtorEq, some.injEq] at hs
  case loadHead c =>
    subst hs
    cases hsync : (s.r.ht c.side).syncType <;> simp only [loadHead, hsync]
    case hts =>
      split
      · exact h
      · exact h.same _ rfl (by simp [Pc.moved])
    all_goals exact h.same _ rfl (by simp [Pc.moved])
  case waitTail c pos cnt =>
    subst hs
    unfold waitTail
    dsimp only
    split <;> exact h.same _ rfl (by simp [Pc.moved])
  case loadTail c pos cnt =>
    subst hs
    unfold loadTail
    dsimp only
    split <;> exact h.same _ rfl (by simp [Pc.moved])
  case moveHead c pos cnt n entries =>
    subst hs
    have hkind := hwf.1.kind
    cases hsync : (s.r.ht c.side).syncType <;> simp only [moveHead, hsync]
    case st => exact h.movedHead hkind
    all_goals
      split
      · exact h.movedHead hkind
      · exact h.same _ rfl (by simp [Pc.moved])
  case copy m i tbl =>
    unfold copy at hs
    split at hs
    · cases hside : m.call.side <;> simp only [hside] at hs
      · obtain ⟨x, -, rfl⟩ := map_eq_some_iff.mp hs
        exact h.same (.copy m (i + 1) tbl) rfl (by simp [hpc, Pc.moved])
      · obtain rfl := some.inj hs
        exact h.same _ rfl (by simp [hpc, Pc.moved])
    · obtain rfl := some.inj hs
      cases hkind : m.call.kind <;> simp only [copied, hkind]
      case plain =>
        cases (s.r.ht m.call.side).syncType <;> exact h.same _ rfl (by simp [hpc, Pc.moved])
      all_goals exact h.same _ rfl (by simp [hpc, Pc.moved])
  case waitUntilEqual m tbl =>
    subst hs
    unfold waitUntilEqual
    split
    · exact h.same _ rfl (by simp [hpc, Pc.moved])
    · exact h
  case storeTail m tbl =>
    subst hs
    exact h.same .idle rfl (by simp [Pc.moved])
  case loadRtsTail m tbl =>
    subst hs
    exact h.same _ rfl (by simp [hpc, Pc.moved])
  case loadRtsHead m tbl ot =>
    subst hs
    exact h.same _ rfl (by simp [hpc, Pc.moved])
  case casRtsTail m tbl ot nt =>
    subst hs
    unfold casRtsTail
    dsimp only
    split
    · exact h.same .idle rfl (by simp [Pc.moved])
    · exact h.same _ rfl (by simp [hpc, Pc.moved])
  case getTail m c tbl =>
    subst hs
    have hdist := hi.moved_len (t := t) (m := m) (by rw [hpc]; rfl) hwf.1.peek
    rw [← hwf.2.1] at hdist
    have hkept : (if c.n ≤ m.len then c.n else 0)
        = Moved.kept { m with
          call := c, pos := (s.r.ht c.side).tail, n := if c.n ≤ m.len then c.n else 0 } := by
      simp [Moved.kept, hwf.2.2.1]
    unfold getTail
    dsimp only
    rw [hdist]
    generalize (if c.n ≤ m.len then c.n else 0) = n at hkept ⊢
    split
    · refine h.goOn _ rfl (fun q hq => ?_)
      obtain rfl := some.inj hq
      exact hkept
    · refine h.goOn _ rfl (fun q hq => ?_)
      obtain rfl := some.inj hq
      exact hkept
  case storeHead m tbl =>
    have hm := h t m (by rw [hpc]; rfl)
    subst hs
    unfold storeHead
    dsimp only
    split
    · exact h.same .idle rfl (by simp [Pc.moved])
    · refine h.goOn (.storeTail { m with len := m.n } (tbl.take m.n)) rfl (fun q hq => ?_)
      obtain rfl := some.inj hq
      unfold Moved.kept at hm ⊢
      split_ifs at hm ⊢ <;> simp only at * <;> omega

omit [DecidableEq T] in
/-- A call that begins has not moved a head, and one that goes on has. -/
theorem Begins.moved {pc pc' : Pc α} (h : Begins pc pc') : pc'.moved = pc.moved := by
  cases h <;> rfl

theorem Keeps.step (h : Keeps s) (hi : Inv s tail) (hs : Ring.step s e = some s') : Keeps s' := by
  rcases step_cases hs with ⟨t, rfl, ht⟩ | ⟨t, pc, result, hbegins, rfl⟩
  · exact h.threadStep hi ht
  · exact h.same _ rfl (by simp [hbegins.moved])

/-! ## What is put in is not taken back -/

omit [DecidableEq T] in
/-- A call that moves a tail does so with its store. -/
theorem committing_eq_some (h : committing s e = some (m, tbl)) : ∃ t, e = .thread t ∧
      (s.pc t = .storeTail m tbl ∨ ∃ tbl', s.pc t = .storeHead m tbl' ∧
        (s.r.ht m.call.side).syncType = .hts ∧ tbl = tbl'.take m.n) := by
  unfold committing at h
  cases e <;> simp only [reduceCtorEq] at h
  case thread t =>
    refine ⟨t, rfl, ?_⟩
    cases hpc : s.pc t <;> simp only [hpc, reduceCtorEq, some.injEq, Prod.mk.injEq] at h
    case storeTail m' tbl' =>
      obtain ⟨rfl, rfl⟩ := h
      exact Or.inl rfl
    case storeHead m' tbl' =>
      split at h
      · rename_i hhts
        obtain ⟨rfl, rfl⟩ := Prod.mk.inj (some.inj h)
        exact Or.inr ⟨tbl', rfl, hhts, rfl⟩
      · exact nomatch h

/-- What a call that ends keeps: what a producer has put in, or what a consumer
returns. -/
def Moved.keeps (m : Moved α) (tbl : List α) : List α :=
  match m.call.side with
  | .prod => m.call.objs.take m.n
  | .cons => tbl

omit [DecidableEq T] in
/-- **A call that ends** has reserved from the tail to the head, and what it keeps is
what has been put in from there. -/
theorem Inv.ends (h : Inv s tail) (hpeek : ∀ side, Peek s side)
    (hcom : committing s e = some (m, tbl)) :
    m.pos = m.start % 2 ^ 32 ∧ m.n ≤ m.len ∧ m.start = tail m.call.side ∧
      m.start + m.len = (s.progress m.call.side).total ∧
      m.keeps tbl = (s.enqueued.flatten.drop m.start).take m.n ∧ (m.keeps tbl).length = m.n := by
  have hof : m.keeps tbl <+: s.enqueued.flatten.drop m.start → (m.keeps tbl).length = m.n →
      m.keeps tbl = (s.enqueued.flatten.drop m.start).take m.n ∧ (m.keeps tbl).length = m.n := by
    intro hpre hlen
    exact ⟨by rw [← hlen]; exact prefix_iff_eq_take.mp hpre, hlen⟩
  obtain ⟨t, rfl, hpc | ⟨tbl', hpc, hhts, rfl⟩⟩ := committing_eq_some hcom
  · have hwf := h.pcs t
    rw [hpc] at hwf
    obtain ⟨hm, -, hlen, -⟩ := hwf
    obtain ⟨hstart, hend⟩ := h.moved_eq (t := t) (m := m) (by rw [hpc]; rfl) (hpeek _)
    have hfits := h.ok.fits (t := t) (r := m.res m.n tbl) (by simp only [abs, hpc]; rfl)
    have hpre := hfits.batch_within
    have hread := hfits.length_read
    simp only [Moved.res, Moved.batch, abs] at hpre hread
    refine ⟨hm.pos_eq, hm.n_le, hstart, hend, hof ?_ ?_⟩
    · exact hpre
    · cases hside : m.call.side <;> simp only [Moved.keeps, hside]
      · simpa using hm.objs hside
      · simpa [hside] using hread hside
  · have hwf := h.pcs t
    rw [hpc] at hwf
    obtain ⟨hm, -, -, htbl⟩ := hwf
    obtain ⟨hstart, hend⟩ := h.moved_eq (t := t) (m := m) (by rw [hpc]; rfl) (hpeek _)
    have hfits := h.ok.fits (t := t) (r := m.res (m.done tbl') tbl') (by simp only [abs, hpc]; rfl)
    have hpre := hfits.batch_within
    simp only [Moved.res, Moved.batch, abs] at hpre
    refine ⟨hm.pos_eq, hm.n_le, hstart, hend, hof ?_ ?_⟩
    · cases hside : m.call.side <;> simp only [Moved.keeps, hside] at hpre ⊢
      · exact hpre
      · exact ( take_prefix _ _).trans hpre
    · cases hside : m.call.side <;> simp only [Moved.keeps, hside]
      · simpa using hm.objs hside
      · rw [length_take, htbl hside, Nat.min_eq_left hm.n_le]

end Ring
