import DpdkStudy.IpFrag.Conservation
import DpdkStudy.Ring.Ring

/-!
# What holds of a ring in every reachable state

The ring between its threads is a buffer with reservations (`abs`): the
history gives the positions of the heads, and each thread that has moved a
head holds a reservation. Only the tails are not to be read off, since a tail
that has wrapped does not tell how often: the invariant is stated for tails
that leave the remainders the words hold (`Inv`).

A thread that has looked at its end goes by what it saw. What it may still
conclude depends on the sync type (`Seen`), and stays true whatever the other
threads do in between (`Looked.later`). A step is of one thread at one end,
and `OneStep` says what has to be shown of the two to keep the invariant.
-/

open Reservations Runs Function

namespace Ring

variable {T α : Type*}

/-! ## The reservations of the threads -/

/-- The batch of a call: what a producer puts in, or what a consumer has read. -/
def Moved.batch (m : Moved α) (tbl : List α) : List α :=
  match m.call.side with
  | .prod => m.call.objs.take m.n
  | .cons => tbl

/-- The reservation of a call that has copied the first elements. -/
def Moved.res (m : Moved α) (done : ℕ) (tbl : List α) : Reservation α :=
  ⟨m.call.side, m.start, m.len, done, m.batch tbl⟩

/-- How many elements a call has copied when it is about to finish. -/
def Moved.done (m : Moved α) (tbl : List α) : ℕ :=
  match m.call.side with
  | .prod => m.n
  | .cons => tbl.length

/-- **The reservation that a thread holds.** -/
def Pc.res : Pc α → Option (Reservation α)
  | .copy m i tbl => some (m.res i tbl)
  | .waitUntilEqual m tbl => some (m.res m.n tbl)
  | .storeTail m tbl => some (m.res m.n tbl)
  | .loadRtsTail m tbl => some (m.res m.n tbl)
  | .loadRtsHead m tbl _ => some (m.res m.n tbl)
  | .casRtsTail m tbl _ _ => some (m.res m.n tbl)
  | .opened m tbl => some ⟨m.call.side, m.start, m.len, tbl.length, tbl⟩
  | .getTail m _ tbl => some ⟨m.call.side, m.start, m.len, tbl.length, tbl⟩
  | .storeHead m tbl => some (m.res (m.done tbl) tbl)
  | _ => none

/-- **The ring as a buffer**, for given positions of the tails. -/
def abs (s : System T α) (tail : Side → ℕ) : Buffer T α where
  capacity := s.r.capacity
  size := s.r.size
  head := fun side => (s.progress side).total
  tail := tail
  res := fun t => (s.pc t).res
  slot := s.r.slots
  log := s.enqueued.flatten
  out := s.dequeued

/-- A thread holds a reservation of an end. -/
def Opens (s : System T α) (side : Side) (t : T) : Prop :=
  ∃ r, (s.pc t).res = some r ∧ r.side = side

/-- An end whose calls may come in two parts: one at a time has positions
reserved. -/
def Peek (s : System T α) (side : Side) : Prop :=
  (s.r.ht side).syncType = .st ∨ (s.r.ht side).syncType = .hts

/-! ## The invariant -/

/-- **A ring as it is created.** -/
structure RteRing.Wf (r : RteRing α) : Prop where
  size_eq : ∃ k ≤ 31, r.size = 2 ^ k
  mask_eq : r.mask = r.size - 1
  capacity_lt : r.capacity < r.size

/-- What is true of the arguments of a call. -/
structure Call.Wf (sync : Side → RteRingSyncType) (c : Call α) : Prop where
  kind : c.kind ≠ .finish
  objs : c.side = .prod → c.kind = .plain → c.n ≤ c.objs.length
  peek : c.kind = .start → sync c.side = .st ∨ sync c.side = .hts

/-- What is true of a call that copies or has copied. -/
structure Moved.Wf (m : Moved α) : Prop where
  pos_eq : m.pos = m.start % 2 ^ 32
  n_le : m.n ≤ m.len
  objs : m.call.side = .prod → m.n ≤ m.call.objs.length

/-- A reservation between a start and its finish. -/
structure Moved.Open (sync : Side → RteRingSyncType) (m : Moved α) (tbl : List α) : Prop where
  pos_eq : m.pos = m.start % 2 ^ 32
  len_pos : 0 < m.len
  peek : sync m.call.side = .st ∨ sync m.call.side = .hts
  prod : m.call.side = .prod → tbl = []
  cons : m.call.side = .cons → tbl.length = m.len

/-- **What is true of where a thread is**, taken by itself. -/
def Pc.Wf (sync : Side → RteRingSyncType) : Pc α → Prop
  | .idle => True
  | .loadHead c => c.Wf sync
  | .waitTail c _ _ => c.Wf sync ∧ sync c.side = .rts
  | .loadTail c _ _ => c.Wf sync
  | .moveHead c _ _ n _ => c.Wf sync ∧ 0 < n ∧ n ≤ c.n
  | .copy m i _ => m.Wf ∧ 0 < m.len ∧ i ≤ m.n ∧ (m.call.kind ≠ .finish → m.n = m.len) ∧
      (m.call.kind ≠ .plain → sync m.call.side = .st ∨ sync m.call.side = .hts) ∧
      (m.call.kind = .finish → m.call.side = .prod) ∧ (m.call.kind = .start → m.call.side = .cons)
  | .waitUntilEqual m _ => m.Wf ∧ 0 < m.len ∧ m.n = m.len ∧ sync m.call.side = .mt
  | .storeTail m _ => m.Wf ∧ (sync m.call.side ≠ .st → 0 < m.len) ∧ m.n = m.len ∧
      sync m.call.side ≠ .rts
  | .loadRtsTail m _ => m.Wf ∧ 0 < m.len ∧ m.n = m.len ∧ sync m.call.side = .rts
  | .loadRtsHead m _ _ => m.Wf ∧ 0 < m.len ∧ m.n = m.len ∧ sync m.call.side = .rts
  | .casRtsTail m _ _ _ => m.Wf ∧ 0 < m.len ∧ m.n = m.len ∧ sync m.call.side = .rts
  | .opened m tbl => m.Open sync tbl
  | .getTail m c tbl => m.Open sync tbl ∧ c.side = m.call.side ∧ c.kind = .finish ∧
      (c.side = .prod → c.n ≤ c.objs.length)
  | .storeHead m tbl => m.Wf ∧ 0 < m.len ∧ (sync m.call.side = .st ∨ sync m.call.side = .hts) ∧
      (m.call.side = .cons → tbl.length = m.len)

/-- How much has been put in while a producer has the peek API open. -/
def Pc.supplied : Pc α → Option ℕ
  | .copy m _ _ => if m.call.kind = .finish then some (m.start + m.n) else none
  | .opened m _ => if m.call.side = .prod then some m.start else none
  | .getTail m _ _ => if m.call.side = .prod then some m.start else none
  | .storeHead m _ => if m.call.side = .prod then some (m.start + m.n) else none
  | _ => none

/-- **What a thread knows that has looked at the head** of its end: it has not
moved since, or it has moved on, or the tail has come to where it was. -/
def Seen (s : System T α) (tail : Side → ℕ) (t : T) (side : Side) (pos cnt : ℕ) : Prop :=
  pos = (s.seen t).total % 2 ^ 32 ∧
  match (s.r.ht side).syncType with
  | .st => (s.seen t).total = (s.progress side).total
  | .mt => (s.seen t).total ≤ (s.progress side).total
  | .hts => (s.seen t).total ≤ tail side
  | .rts => (s.seen t).total ≤ (s.progress side).total ∧ cnt = (s.seen t).moves % 2 ^ 32 ∧
      (s.seen t).finished ≤ (s.seen t).moves ∧ (s.seen t).moves ≤ (s.progress side).moves ∧
      ((s.progress side).moves = (s.seen t).moves → (s.progress side).total = (s.seen t).total)

/-- What a thread knows that has looked at the tail of an `rts` end. -/
def TailSeen (s : System T α) (tail : Side → ℕ) (t : T) (side : Side) (ot : Poscnt) : Prop :=
  ot.cnt = (s.seen t).finished % 2 ^ 32 ∧ (s.seen t).finished ≤ (s.progress side).finished ∧
  ((s.progress side).finished = (s.seen t).finished → ot.pos = tail side % 2 ^ 32)

/-- **Where the tail of an `rts` end may go**, if it has not moved since: no
reservation but the thread's own starts below, and where that is the only one
it is the head. -/
def Reaches (s : System T α) (tail : Side → ℕ) (t : T) (side : Side) (pos : ℕ) : Prop :=
  (s.progress side).finished = (s.seen t).finished → ∃ x, pos = x % 2 ^ 32 ∧
    tail side ≤ x ∧ x ≤ (s.progress side).total ∧
    (∀ u q, (s.pc u).res = some q → u ≠ t → q.side = side → x ≤ q.start) ∧
    ((s.progress side).moves = (s.seen t).finished + 1 → x = (s.progress side).total)

/-- **What a thread goes by.** -/
def Looked (s : System T α) (tail : Side → ℕ) (t : T) : Pc α → Prop
  | .waitTail c pos cnt => Seen s tail t c.side pos cnt
  | .loadTail c pos cnt => Seen s tail t c.side pos cnt
  | .moveHead c pos cnt n _ => Seen s tail t c.side pos cnt ∧
      (tail c.side ≤ (s.seen t).total →
        (s.seen t).total + n ≤ tail c.side.opp + c.side.room s.r.capacity)
  | .storeTail m _ => tail m.call.side = m.start
  | .loadRtsHead m _ ot => TailSeen s tail t m.call.side ot
  | .casRtsTail m _ ot nt => TailSeen s tail t m.call.side ot ∧
      nt.cnt = ((s.seen t).finished + 1) % 2 ^ 32 ∧ Reaches s tail t m.call.side nt.pos
  | _ => True

/-- The batches that come back from consumers whose tail is stored in the order
of the heads are what has been put in, up to the tail. -/
structure InOrder (s : System T α) (tail : Side → ℕ) : Prop where
  flatten_eq : (s.dequeued.map Prod.snd).flatten = s.enqueued.flatten.take (tail .cons)
  sorted : s.dequeued.Pairwise fun x y => x.1 + x.2.length ≤ y.1
  below : ∀ x ∈ s.dequeued, x.1 + x.2.length ≤ tail .cons

/-- **What holds in every reachable state.** -/
structure Inv (s : System T α) (tail : Side → ℕ) : Prop where
  wf : s.r.Wf
  ok : (abs s tail).Ok
  pcs : ∀ t, (s.pc t).Wf fun side => (s.r.ht side).syncType
  head_eq : ∀ side, (s.r.ht side).head = (s.progress side).total % 2 ^ 32
  tail_eq : ∀ side, (s.r.ht side).tail = tail side % 2 ^ 32
  cnt_eq : ∀ side, (s.r.ht side).syncType = .rts →
    (s.r.ht side).headCnt = (s.progress side).moves % 2 ^ 32 ∧
    (s.r.ht side).tailCnt = (s.progress side).finished % 2 ^ 32
  /-- The threads that hold a reservation are those whose call is not
  finished. -/
  openings : ∀ side, ∃ l : List T, l.Nodup ∧ (∀ t, t ∈ l ↔ Opens s side t) ∧
    (s.progress side).moves = (s.progress side).finished + l.length
  settled : ∀ side, (s.r.ht side).syncType = .rts →
    (s.progress side).finished = (s.progress side).moves → tail side = (s.progress side).total
  exclusive : ∀ {t r}, (s.pc t).res = some r → Peek s r.side →
    r.start = tail r.side ∧ r.start + r.len = (s.progress r.side).total
  reserved : ∀ side, Peek s side → tail side ≠ (s.progress side).total → ∃ t, Opens s side t
  full : ¬ Peek s .prod → s.enqueued.flatten.length = (s.progress .prod).total
  single : ∀ side, (s.r.ht side).syncType = .st →
    ∀ t u, (s.pc t).side = some side → (s.pc u).side = some side → t = u
  supplied : ∀ t x, (s.pc t).supplied = some x → s.enqueued.flatten.length = x
  looked : ∀ t, Looked s tail t (s.pc t)
  in_order : (s.r.ht .cons).syncType ≠ .rts → InOrder s tail

/-! ## What the other threads leave true -/

/-- **What a step of a thread `t` does to what the others go by.** -/
structure Later (s s' : System T α) (tail tail' : Side → ℕ) (t : T) : Prop where
  seen : ∀ u, u ≠ t → s'.seen u = s.seen u
  sync : ∀ side, (s'.r.ht side).syncType = (s.r.ht side).syncType
  capacity : s'.r.capacity = s.r.capacity
  tail_le : ∀ side, tail side ≤ tail' side
  finished_le : ∀ side, (s.progress side).finished ≤ (s'.progress side).finished
  st : ∀ side, (s.r.ht side).syncType = .st →
    (s'.progress side).total = (s.progress side).total ∨ ∀ u, u ≠ t → (s.pc u).side ≠ some side
  mt : ∀ side, (s.r.ht side).syncType = .mt →
    (s.progress side).total ≤ (s'.progress side).total
  rts : ∀ side, (s.r.ht side).syncType = .rts →
    (s.progress side).total ≤ (s'.progress side).total ∧
    (s.progress side).moves ≤ (s'.progress side).moves ∧
    ((s'.progress side).moves = (s.progress side).moves →
      (s'.progress side).total = (s.progress side).total) ∧
    ((s'.progress side).finished = (s.progress side).finished → tail' side = tail side)
  res : ∀ u q', (s'.pc u).res = some q' → (s.r.ht q'.side).syncType = .rts →
    (∃ q, (s.pc u).res = some q ∧ q.side = q'.side ∧ q.start = q'.start) ∨
      (s.progress q'.side).total ≤ q'.start
  turn : ∀ u, u ≠ t → ∀ m tbl, s.pc u = .storeTail m tbl → tail' m.call.side = tail m.call.side

variable {s s' : System T α} {tail tail' : Side → ℕ} {t u : T}

theorem Seen.later {side : Side} {pos cnt : ℕ} (h : Seen s tail u side pos cnt)
    (hl : Later s s' tail tail' t) (hu : u ≠ t) (hside : (s.pc u).side = some side) :
    Seen s' tail' u side pos cnt := by
  unfold Seen at h ⊢
  rw [hl.seen u hu, hl.sync]
  refine ⟨h.1, ?_⟩
  cases hsync : (s.r.ht side).syncType
  · simp only [hsync] at h ⊢
    exact le_trans h.2 (hl.mt side hsync)
  · simp only [hsync] at h ⊢
    exact h.2.trans ((hl.st side hsync).resolve_right (fun hno => hno u hu hside)).symm
  · simp only [hsync] at h ⊢
    obtain ⟨-, htotal, hcnt, hfin, hmoves, heq⟩ := h
    obtain ⟨htotal', hmoves', heq', -⟩ := hl.rts side hsync
    refine ⟨le_trans htotal htotal', hcnt, hfin, le_trans hmoves hmoves', fun hm => ?_⟩
    have hsame : (s.progress side).moves = (s.seen u).moves := by omega
    exact (heq' (hm.trans hsame.symm)).trans (heq hsame)
  · simp only [hsync] at h ⊢
    exact le_trans h.2 (hl.tail_le side)

theorem TailSeen.later {side : Side} {ot : Poscnt} (h : TailSeen s tail u side ot)
    (hl : Later s s' tail tail' t) (hu : u ≠ t) (hsync : (s.r.ht side).syncType = .rts) :
    TailSeen s' tail' u side ot := by
  obtain ⟨hcnt, hle, hpos⟩ := h
  have hfin := hl.finished_le side
  unfold TailSeen
  rw [hl.seen u hu]
  refine ⟨hcnt, le_trans hle hfin, fun heq => ?_⟩
  have hsame : (s.progress side).finished = (s.seen u).finished := by omega
  rw [(hl.rts side hsync).2.2.2 (heq.trans hsame.symm)]
  exact hpos hsame

theorem Reaches.later {side : Side} {ot : Poscnt} {pos : ℕ} (h : Reaches s tail u side pos)
    (hseen : TailSeen s tail u side ot) (hl : Later s s' tail tail' t) (hu : u ≠ t)
    (hsync : (s.r.ht side).syncType = .rts)
    (hopen : (s.progress side).finished < (s.progress side).moves) :
    Reaches s' tail' u side pos := by
  intro hfin'
  have hle := hseen.2.1
  have hfin := hl.finished_le side
  obtain ⟨htotal, hmoves, heq, htail⟩ := hl.rts side hsync
  rw [hl.seen u hu] at hfin' ⊢
  have hsame : (s.progress side).finished = (s.seen u).finished := by omega
  obtain ⟨x, hpos, hx, hx', hothers, hlast⟩ := h hsame
  refine ⟨x, hpos, (htail (hfin'.trans hsame.symm)).trans_le hx, le_trans hx' htotal,
    fun v q' hv hvu hside => ?_, fun hone => ?_⟩
  · rcases hl.res v q' hv (by rwa [hside]) with ⟨q, hq, hqs, hstart⟩ | hge
    · rw [← hstart]
      exact hothers v q hq hvu (hqs.trans hside)
    · rw [hside] at hge
      exact le_trans hx' hge
  · have hmoves' : (s'.progress side).moves = (s.progress side).moves := by omega
    rw [heq hmoves']
    exact hlast (by omega)

/-- What a thread goes by stays true when another one takes a step. -/
theorem Looked.later (h : Looked s tail u (s.pc u)) (hl : Later s s' tail tail' t) (hu : u ≠ t)
    (hwf : (s.pc u).Wf fun side => (s.r.ht side).syncType)
    (hopen : ∀ side, Opens s side u → (s.progress side).finished < (s.progress side).moves) :
    Looked s' tail' u (s.pc u) := by
  have hturn := hl.turn u hu
  cases hpc : s.pc u <;> rw [hpc] at h hwf <;> simp only [Looked] at h ⊢
  case waitTail c pos cnt => exact h.later hl hu (by rw [hpc]; rfl)
  case loadTail c pos cnt => exact h.later hl hu (by rw [hpc]; rfl)
  case moveHead c pos cnt n entries =>
    refine ⟨h.1.later hl hu (by rw [hpc]; rfl), fun hle => ?_⟩
    rw [hl.seen u hu, hl.capacity] at *
    have hroom := h.2 (le_trans (hl.tail_le _) hle)
    exact le_trans hroom (Nat.add_le_add_right (hl.tail_le _) _)
  case storeTail m tbl => exact (hturn m tbl hpc).trans h
  case loadRtsHead m tbl ot => exact h.later hl hu hwf.2.2.2
  case casRtsTail m tbl ot nt =>
    obtain ⟨hseen, hcnt, hreach⟩ := h
    rw [hl.seen u hu]
    exact ⟨hseen.later hl hu hwf.2.2.2, hcnt, hreach.later hseen hl hu hwf.2.2.2
      (hopen _ ⟨_, by rw [hpc]; rfl, rfl⟩)⟩

/-- A call that holds a reservation is not finished. -/
theorem Inv.finished_lt (h : Inv s tail) {side : Side} (ho : Opens s side t) :
    (s.progress side).finished < (s.progress side).moves := by
  obtain ⟨l, -, hmem, hlen⟩ := h.openings side
  have hpos := List.length_pos_of_mem ((hmem t).mpr ho)
  omega

/-! ## A step of one thread at one end -/

/-- **What a step is**: one thread goes on, and the words, the history and the tail of one end may
change. The fields about the thread and the end are what has to be shown of a step. -/
structure OneStep (s s' : System T α) (tail tail' : Side → ℕ) (t : T) (side : Side) : Prop where
  size : s'.r.size = s.r.size
  mask : s'.r.mask = s.r.mask
  capacity : s'.r.capacity = s.r.capacity
  sync : (s'.r.ht side).syncType = (s.r.ht side).syncType
  pc_eq : ∀ u, u ≠ t → s'.pc u = s.pc u
  seen_eq : ∀ u, u ≠ t → s'.seen u = s.seen u
  ht_eq : ∀ d, d ≠ side → s'.r.ht d = s.r.ht d
  progress_eq : ∀ d, d ≠ side → s'.progress d = s.progress d
  tail_eq : ∀ d, d ≠ side → tail' d = tail d
  ok : (abs s' tail').Ok
  wf : (s'.pc t).Wf fun d => (s.r.ht d).syncType
  at_side : ∀ d, (s'.pc t).side = some d → (s.pc t).side = some d ∨ Single s d
  res : ∀ q', (s'.pc t).res = some q' →
    (∃ q, (s.pc t).res = some q ∧ q.side = q'.side ∧ q.start = q'.start) ∨
      (s.progress q'.side).total ≤ q'.start
  opens : ∀ d, d ≠ side → (Opens s' d t ↔ Opens s d t)
  /-- The call of the thread stays as it is, or moves the head, or finishes. -/
  calls : ((Opens s' side t ↔ Opens s side t) ∧
      (s'.progress side).moves = (s.progress side).moves ∧
      (s'.progress side).finished = (s.progress side).finished) ∨
    (¬ Opens s side t ∧ Opens s' side t ∧
      (s'.progress side).moves = (s.progress side).moves + 1 ∧
      (s'.progress side).finished = (s.progress side).finished) ∨
    (Opens s side t ∧ ¬ Opens s' side t ∧
      (s'.progress side).moves = (s.progress side).moves ∧
      (s'.progress side).finished = (s.progress side).finished + 1)
  head_word : (s'.r.ht side).head = (s'.progress side).total % 2 ^ 32
  tail_word : (s'.r.ht side).tail = tail' side % 2 ^ 32
  cnt : (s.r.ht side).syncType = .rts →
    (s'.r.ht side).headCnt = (s'.progress side).moves % 2 ^ 32 ∧
    (s'.r.ht side).tailCnt = (s'.progress side).finished % 2 ^ 32
  tail_le : tail side ≤ tail' side
  st : (s.r.ht side).syncType = .st → (s'.progress side).total = (s.progress side).total ∨
    ∀ u, u ≠ t → (s.pc u).side ≠ some side
  mt : (s.r.ht side).syncType = .mt → (s.progress side).total ≤ (s'.progress side).total
  rts : (s.r.ht side).syncType = .rts →
    (s.progress side).total ≤ (s'.progress side).total ∧
    ((s'.progress side).moves = (s.progress side).moves →
      (s'.progress side).total = (s.progress side).total) ∧
    ((s'.progress side).finished = (s.progress side).finished → tail' side = tail side)
  turn : ∀ u, u ≠ t → ∀ m tbl, s.pc u = .storeTail m tbl → m.call.side = side →
    tail' side = tail side
  settled : (s.r.ht side).syncType = .rts →
    (s'.progress side).finished = (s'.progress side).moves → tail' side = (s'.progress side).total
  exclusive : ∀ {q}, (s'.pc t).res = some q → Peek s q.side →
    q.start = tail' q.side ∧ q.start + q.len = (s'.progress q.side).total
  alone : Peek s side → (∀ u, u ≠ t → ¬ Opens s side u) ∨
    tail' side = tail side ∧ (s'.progress side).total = (s.progress side).total
  reserved : Peek s side → tail' side ≠ (s'.progress side).total → ∃ u, Opens s' side u
  full : ¬ Peek s .prod → s'.enqueued.flatten.length = (s'.progress .prod).total
  supplied : ∀ u x, (s'.pc u).supplied = some x → s'.enqueued.flatten.length = x
  looked : Looked s' tail' t (s'.pc t)
  in_order : (s.r.ht .cons).syncType ≠ .rts → InOrder s' tail'

section OneStep

variable {side d : Side} (hst : OneStep s s' tail tail' t side)
include hst

theorem OneStep.sync_eq (d : Side) : (s'.r.ht d).syncType = (s.r.ht d).syncType := by
  by_cases hd : d = side
  · rw [hd, hst.sync]
  · rw [hst.ht_eq d hd]

theorem OneStep.peek_iff : Peek s' d ↔ Peek s d := by
  simp only [Peek, hst.sync_eq]

theorem OneStep.opens_iff (hne : d ≠ side ∨ u ≠ t) : Opens s' d u ↔ Opens s d u := by
  by_cases hu : u = t
  · subst hu
    exact hst.opens d (hne.resolve_right (· rfl))
  · simp only [Opens, hst.pc_eq u hu]

/-- What the other threads go by is left true by a step. -/
theorem OneStep.later : Later s s' tail tail' t where
  seen := hst.seen_eq
  sync := hst.sync_eq
  capacity := hst.capacity
  tail_le d := by
    by_cases hd : d = side
    · exact hd ▸ hst.tail_le
    · exact (hst.tail_eq d hd).ge
  finished_le d := by
    by_cases hd : d = side
    · subst hd
      obtain ⟨-, -, hfin⟩ | ⟨-, -, -, hfin⟩ | ⟨-, -, -, hfin⟩ := hst.calls <;> omega
    · rw [hst.progress_eq d hd]
  st d hsync := by
    by_cases hd : d = side
    · subst hd
      exact hst.st hsync
    · exact Or.inl (by rw [hst.progress_eq d hd])
  mt d hsync := by
    by_cases hd : d = side
    · subst hd
      exact hst.mt hsync
    · rw [hst.progress_eq d hd]
  rts d hsync := by
    by_cases hd : d = side
    · subst hd
      obtain ⟨htotal, hmoves, hfin⟩ := hst.rts hsync
      refine ⟨htotal, ?_, hmoves, hfin⟩
      obtain ⟨-, hm, -⟩ | ⟨-, -, hm, -⟩ | ⟨-, -, hm, -⟩ := hst.calls <;> omega
    · rw [hst.progress_eq d hd]
      exact ⟨le_rfl, le_rfl, fun _ => rfl, fun _ => hst.tail_eq d hd⟩
  res u q' hq _ := by
    by_cases hu : u = t
    · subst hu
      exact hst.res q' hq
    · rw [hst.pc_eq u hu] at hq
      exact Or.inl ⟨q', hq, rfl, rfl⟩
  turn u hu m tbl hpc := by
    by_cases hd : m.call.side = side
    · rw [hd]
      exact hst.turn u hu m tbl hpc hd
    · exact hst.tail_eq _ hd

theorem OneStep.openings [DecidableEq T] (h : Inv s tail) (d : Side) :
    ∃ l : List T, l.Nodup ∧ (∀ u, u ∈ l ↔ Opens s' d u) ∧
      (s'.progress d).moves = (s'.progress d).finished + l.length := by
  obtain ⟨l, hnodup, hmem, hlen⟩ := h.openings d
  by_cases hd : d = side
  · subst hd
    obtain ⟨hiff, hm, hf⟩ | ⟨hno, ho, hm, hf⟩ | ⟨ho, hno, hm, hf⟩ := hst.calls
    · refine ⟨l, hnodup, fun u => ?_, by omega⟩
      rw [hmem]
      by_cases hu : u = t
      · exact hu ▸ hiff.symm
      · exact (hst.opens_iff (Or.inr hu)).symm
    · refine ⟨t :: l, List.nodup_cons.mpr ⟨fun ht => hno ((hmem t).mp ht), hnodup⟩, fun u => ?_,
        by rw [List.length_cons]; omega⟩
      rw [List.mem_cons, hmem]
      by_cases hu : u = t
      · simp [hu, ho]
      · simp [hu, hst.opens_iff (Or.inr hu)]
    · have ht : t ∈ l := (hmem t).mpr ho
      have hpos := List.length_pos_of_mem ht
      refine ⟨l.erase t, hnodup.erase t, fun u => ?_, by rw [List.length_erase_of_mem ht]; omega⟩
      rw [hnodup.mem_erase_iff, hmem]
      by_cases hu : u = t
      · simp [hu, hno]
      · simp [hu, hst.opens_iff (Or.inr hu)]
  · exact ⟨l, hnodup, fun u => (hmem u).trans (hst.opens_iff (Or.inl hd)).symm,
      by rw [hst.progress_eq d hd, hlen]⟩

end OneStep

/-- A step keeps what holds in every reachable state. -/
theorem Inv.oneStep [DecidableEq T] (h : Inv s tail) (t : T) (side : Side)
    (hst : OneStep s s' tail tail' t side) : Inv s' tail' where
  wf := ⟨hst.size ▸ h.wf.size_eq, by rw [hst.mask, hst.size, h.wf.mask_eq],
    by rw [hst.capacity, hst.size]; exact h.wf.capacity_lt⟩
  ok := hst.ok
  pcs u := by
    simp only [hst.sync_eq]
    by_cases hu : u = t
    · exact hu ▸ hst.wf
    · exact hst.pc_eq u hu ▸ h.pcs u
  head_eq d := by
    by_cases hd : d = side
    · exact hd ▸ hst.head_word
    · rw [hst.ht_eq d hd, hst.progress_eq d hd, h.head_eq]
  tail_eq d := by
    by_cases hd : d = side
    · exact hd ▸ hst.tail_word
    · rw [hst.ht_eq d hd, hst.tail_eq d hd, h.tail_eq]
  cnt_eq d hrts := by
    rw [hst.sync_eq] at hrts
    by_cases hd : d = side
    · subst hd
      exact hst.cnt hrts
    · rw [hst.ht_eq d hd, hst.progress_eq d hd]
      exact h.cnt_eq d hrts
  openings := hst.openings h
  settled d hrts := by
    rw [hst.sync_eq] at hrts
    by_cases hd : d = side
    · subst hd
      exact hst.settled hrts
    · rw [hst.progress_eq d hd, hst.tail_eq d hd]
      exact h.settled d hrts
  exclusive {u q} hq hpeek := by
    rw [hst.peek_iff] at hpeek
    by_cases hu : u = t
    · subst hu
      exact hst.exclusive hq hpeek
    · rw [hst.pc_eq u hu] at hq
      have hold := h.exclusive hq hpeek
      by_cases hd : q.side = side
      · obtain hno | ⟨htail, htotal⟩ := hst.alone (hd ▸ hpeek)
        · exact absurd ⟨q, hq, hd⟩ (hno u hu)
        · rwa [hd, htail, htotal, ← hd]
      · rwa [hst.tail_eq _ hd, hst.progress_eq _ hd]
  reserved d hpeek hne := by
    rw [hst.peek_iff] at hpeek
    by_cases hd : d = side
    · subst hd
      exact hst.reserved hpeek hne
    · rw [hst.tail_eq d hd, hst.progress_eq d hd] at hne
      exact (h.reserved d hpeek hne).imp fun u => (hst.opens_iff (Or.inl hd)).mpr
  full hpeek := hst.full (fun hp => hpeek (hst.peek_iff.mpr hp))
  single d hsync u v hu hv := by
    rw [hst.sync_eq] at hsync
    have hold : ∀ x, (s'.pc x).side = some d →
        (s.pc x).side = some d ∨ x = t ∧ ∀ y, (s.pc y).side ≠ some d := by
      intro x hx
      by_cases hxt : x = t
      · subst hxt
        exact (hst.at_side d hx).imp_right (fun hs => ⟨rfl, hs hsync⟩)
      · rw [hst.pc_eq x hxt] at hx
        exact Or.inl hx
    rcases hold u hu with hou | ⟨rfl, hno⟩ <;> rcases hold v hv with hov | ⟨rfl, hno'⟩
    · exact h.single d hsync u v hou hov
    · exact absurd hou (hno' u)
    · exact absurd hov (hno v)
    · rfl
  supplied := hst.supplied
  looked u := by
    by_cases hu : u = t
    · exact hu ▸ hst.looked
    · rw [hst.pc_eq u hu]
      exact (h.looked u).later hst.later hu (h.pcs u) (fun d => h.finished_lt)
  in_order hrts := hst.in_order (by rwa [hst.sync_eq] at hrts)


/-! ## Steps that change nothing but where a thread is -/

variable [DecidableEq T]

theorem res_update (f : T → Pc α) (t : T) (pc : Pc α) :
    (fun u => (update f t pc u).res) = update (fun u => (f u).res) t pc.res := by
  funext u
  exact apply_update (fun _ => Pc.res) f t pc u

theorem res_update_of_eq {f : T → Pc α} {pc : Pc α} (hres : pc.res = (f t).res) (u : T) :
    (update f t pc u).res = (f u).res := by
  by_cases hu : u = t
  · subst hu
    rw [update_self, hres]
  · rw [update_of_ne hu]

/-- A thread goes on, and the words of the ring do not change. -/
def System.goOn (s : System T α) (t : T) (pc : Pc α) (w : Progress) (slots : ℕ → α)
    (result : T → Option (Result α)) (enqueued : List (List α)) : System T α :=
  { s with
    r := { s.r with slots }
    pc := Function.update s.pc t pc
    seen := Function.update s.seen t w
    result
    enqueued }

/-- A thread goes on that has not looked at its end. -/
theorem System.goOn_seen (s : System T α) (t : T) (pc : Pc α) (slots : ℕ → α)
    (result : T → Option (Result α)) (enqueued : List (List α)) :
    s.goOn t pc (s.seen t) slots result enqueued = { s with
      r := { s.r with slots }, pc := update s.pc t pc, result, enqueued } := by
  rw [System.goOn, update_eq_self]

/-- A thread goes on with the positions it has reserved. -/
theorem Inv.still (h : Inv s tail) (pc : Pc α) (w : Progress) (slots : ℕ → α)
    (result : T → Option (Result α)) (enqueued : List (List α))
    (hres : ∀ q', pc.res = some q' → ∃ q, (s.pc t).res = some q ∧ q.side = q'.side ∧
      q.start = q'.start ∧ q.len = q'.len)
    (hback : ∀ q, (s.pc t).res = some q → ∃ q', pc.res = some q' ∧ q'.side = q.side)
    (hok : (abs (s.goOn t pc w slots result enqueued) tail).Ok)
    (hwf : pc.Wf fun side => (s.r.ht side).syncType)
    (hside : ∀ side, pc.side = some side → (s.pc t).side = some side ∨ Single s side)
    (hsupplied : ∀ u x, (update s.pc t pc u).supplied = some x →
      enqueued.flatten.length = x) (hfull : ¬ Peek s .prod → enqueued = s.enqueued)
    (htake : enqueued.flatten.take (tail .cons) = s.enqueued.flatten.take (tail .cons))
    (hlooked : Looked (s.goOn t pc w slots result enqueued) tail t pc) :
    Inv (s.goOn t pc w slots result enqueued) tail := by
  have hpct : (s.goOn t pc w slots result enqueued).pc t = pc := update_self _ _ _
  have hopens : ∀ d, Opens (s.goOn t pc w slots result enqueued) d t ↔ Opens s d t := by
    intro d
    simp only [Opens, hpct]
    constructor
    · rintro ⟨q', hq', rfl⟩
      obtain ⟨q, hq, hqside, -⟩ := hres q' hq'
      exact ⟨q, hq, hqside⟩
    · rintro ⟨q, hq, rfl⟩
      exact hback q hq
  refine h.oneStep t .prod ?_
  exact {
    size := rfl
    mask := rfl
    capacity := rfl
    sync := rfl
    pc_eq := fun u hu => update_of_ne hu _ _
    seen_eq := fun u hu => update_of_ne hu _ _
    ht_eq := fun _ _ => rfl
    progress_eq := fun _ _ => rfl
    tail_eq := fun _ _ => rfl
    ok := hok
    wf := by rwa [hpct]
    at_side := by rwa [hpct]
    res := fun q' hq' => by
      rw [hpct] at hq'
      obtain ⟨q, hq, hqside, hstart, -⟩ := hres q' hq'
      exact Or.inl ⟨q, hq, hqside, hstart⟩
    opens := fun d _ => hopens d
    calls := Or.inl ⟨hopens _, rfl, rfl⟩
    head_word := h.head_eq _
    tail_word := h.tail_eq _
    cnt := h.cnt_eq _
    tail_le := le_rfl
    st := fun _ => Or.inl rfl
    mt := fun _ => le_rfl
    rts := fun _ => ⟨le_rfl, fun _ => rfl, fun _ => rfl⟩
    turn := fun _ _ _ _ _ _ => rfl
    settled := h.settled _
    exclusive := fun {q'} hq' hpeek => by
      rw [hpct] at hq'
      obtain ⟨q, hq, hqside, hstart, hlen⟩ := hres q' hq'
      rw [← hqside] at hpeek
      rw [← hqside, ← hstart, ← hlen]
      exact h.exclusive hq hpeek
    alone := fun _ => Or.inr ⟨rfl, rfl⟩
    reserved := fun hpeek hne => (h.reserved _ hpeek hne).imp fun u hu => by
      by_cases hut : u = t
      · exact hut ▸ (hopens _).mpr (hut ▸ hu)
      · simpa [Opens, System.goOn, hut] using hu
    full := fun hpeek => (congrArg (·.flatten.length) (hfull hpeek)).trans (h.full hpeek)
    supplied := hsupplied
    looked := by rwa [hpct]
    in_order := fun hsync => ⟨(h.in_order hsync).flatten_eq.trans htake.symm,
      (h.in_order hsync).sorted, (h.in_order hsync).below⟩ }

theorem Inv.supplied_update (h : Inv s tail) (pc : Pc α)
    (hpc : ∀ x, pc.supplied = some x → s.enqueued.flatten.length = x) (u : T) (x : ℕ)
    (hx : (update s.pc t pc u).supplied = some x) : s.enqueued.flatten.length = x := by
  by_cases hu : u = t
  · subst hu
    exact hpc x (by simpa using hx)
  · exact h.supplied u x (by simpa [hu] using hx)

/-- **A thread goes on**, has looked at its end or has returned, and nothing
else changes. -/
theorem Inv.quiet (h : Inv s tail) (pc : Pc α) (w : Progress) (result : T → Option (Result α))
    (hres : pc.res = (s.pc t).res) (hwf : pc.Wf fun side => (s.r.ht side).syncType)
    (hside : ∀ side, pc.side = some side → (s.pc t).side = some side ∨ Single s side)
    (hsupplied : ∀ x, pc.supplied = some x → s.enqueued.flatten.length = x)
    (hlooked : Looked { s with
      pc := update s.pc t pc, seen := update s.seen t w, result } tail t pc) :
    Inv { s with
      pc := update s.pc t pc, seen := update s.seen t w, result } tail := by
  refine h.still pc w s.r.slots result s.enqueued
    (fun q' hq' => ⟨q', hres.symm.trans hq', rfl, rfl, rfl⟩)
    (fun q hq => ⟨q, hres.trans hq, rfl⟩) ?_ hwf hside (h.supplied_update pc hsupplied)
    (fun _ => rfl) rfl hlooked
  have hsame : update (fun u => (s.pc u).res) t pc.res = fun u => (s.pc u).res := by
    rw [hres, update_eq_self]
  convert h.ok using 1
  ext1 <;> try rfl
  exact (res_update _ _ _).trans hsame

end Ring
