import DpdkStudy.Lib.Runs
import Mathlib.Data.Nat.Basic
import Mathlib.Data.List.Basic
import Mathlib.Logic.Function.Basic

/-!
# The quiescent state variable

Writers remove elements from a shared structure while readers use it. A
writer asks for a token (`start`) and may free what it has removed when a
check of that token has succeeded; until then a reader may hold a reference
to it. Readers report that they hold none (`quiescent`, `offline`,
`unregister`) by what they write to their own counter and to the bitmap of
registered threads.

The system is taken apart into the accesses to shared memory that the code
makes, one after the other in any order (`step`): a reader is a thread id and
the access that comes next in its call, a writer is any party that starts and
checks. Beside the variable itself the state keeps what the statement is
about: the references that are held, the elements that are removed, what had
been removed when each token was handed out, and the tokens whose check has
returned 1.

`grace_period` says that no reference is held to what was removed before the
start of an acknowledged token, as long as no scan writes an `acked_token`
that a registered reader that is online has not reached yet. Without this a
scan that has passed a reader while it was offline may do so
(`premature_acknowledge`), and the check that trusts `acked_token` returns
too early.
-/

open Runs Function Option Nat

namespace Rcu

/-! ## The code -/

/-- `__RTE_QSBR_CNT_THR_OFFLINE`. -/
def cntThrOffline : ℕ := 0

/-- `__RTE_QSBR_CNT_MAX`. -/
def cntMax : ℕ := 2 ^ 64 - 1

/-- **The quiescent state variable**: `struct rte_rcu_qsbr`, with the counters
and the bitmap behind it. -/
structure RteRcuQsbr where
  token : ℕ
  ackedToken : ℕ
  numElems : ℕ
  numThreads : ℕ
  maxThreads : ℕ
  /-- `qsbr_cnt[thread_id].cnt`. -/
  cnt : ℕ → ℕ
  /-- The bit of a thread id in the array of registered threads. -/
  registered : ℕ → Bool

/-- The `i`-th element of the array of registered threads, as the thread ids
whose bits are set, the lowest first. -/
def RteRcuQsbr.bitmap (v : RteRcuQsbr) (i : ℕ) : List ℕ :=
  ((List.range 64).map (fun j => 64 * i + j)).filter v.registered

/-- **Where a reader is**: what its call does next. -/
inductive ReaderPc
  | idle
  /-- `rte_rcu_qsbr_thread_register` has set the bit, which was not set. -/
  | registerAdd
  /-- `rte_rcu_qsbr_thread_unregister` has cleared the bit, which was set. -/
  | unregisterSub
  /-- `rte_rcu_qsbr_thread_online` has loaded the token. -/
  | onlineStore (t : ℕ)
  /-- `rte_rcu_qsbr_quiescent` has loaded the token. -/
  | quiescentLoad (t : ℕ)
  /-- `rte_rcu_qsbr_quiescent` has found another value in the counter. -/
  | quiescentStore (t : ℕ)
  deriving DecidableEq

/-- **Where a writer is**: what its call to `rte_rcu_qsbr_check` does next. -/
inductive WriterPc
  | idle
  /-- The token is not acknowledged yet. -/
  | numThreads (t : ℕ) (wait : Bool)
  /-- `__rte_rcu_qsbr_check_all`, in front of the counter of `i`. -/
  | all (t : ℕ) (wait : Bool) (i ackedToken : ℕ)
  /-- `__rte_rcu_qsbr_check_selective`, in front of element `i` of the array. -/
  | loadBmap (t : ℕ) (wait : Bool) (i ackedToken : ℕ)
  /-- `__rte_rcu_qsbr_check_selective`, in front of a counter; `bmap` is not
  empty. -/
  | selective (t : ℕ) (wait : Bool) (i : ℕ) (bmap : List ℕ) (ackedToken : ℕ)
  /-- `__rte_rcu_qsbr_check_selective` has found a reader that is not
  quiescent. -/
  | reloadBmap (t : ℕ) (wait : Bool) (i ackedToken : ℕ)
  /-- All readers are checked. -/
  | store (t ackedToken : ℕ)
  deriving DecidableEq

/-- **The readers and the writers** around a quiescent state variable. -/
structure System (E W : Type*) where
  v : RteRcuQsbr
  reader : ℕ → ReaderPc
  writer : W → WriterPc
  /-- The references that a reader holds. -/
  held : ℕ → List E
  /-- The elements that are removed from the structure. -/
  removed : List E
  /-- The tokens that `rte_rcu_qsbr_start` has returned, each with what was
  removed before it. -/
  started : List (ℕ × List E)
  /-- The tokens whose check has returned 1. -/
  acknowledged : List ℕ

/-- What happens: the first access of a call, the next one, a reference that
is obtained, or an element that is removed. -/
inductive Event (E W : Type*)
  | register (r : ℕ)
  | unregister (r : ℕ)
  | online (r : ℕ)
  | offline (r : ℕ)
  | quiescent (r : ℕ)
  | reader (r : ℕ)
  | access (r : ℕ) (e : E)
  | remove (e : E)
  | start
  | check (w : W) (t : ℕ) (wait : Bool)
  | writer (w : W)

variable {E W : Type*} [DecidableEq E] [DecidableEq W]

/-- The next access of a reader's call. -/
def readerStep (s : System E W) (r : ℕ) : Option (System E W) :=
  match s.reader r with
  | .idle => none
  | .registerAdd =>
    some { s with
      v := { s.v with numThreads := (s.v.numThreads + 1) % 2 ^ 32 }
      reader := Function.update s.reader r .idle }
  | .unregisterSub =>
    some { s with
      v := { s.v with numThreads := (s.v.numThreads + (2 ^ 32 - 1)) % 2 ^ 32 }
      reader := Function.update s.reader r .idle }
  | .onlineStore t =>
    some { s with
      v := { s.v with cnt := Function.update s.v.cnt r t }
      reader := Function.update s.reader r .idle }
  | .quiescentLoad t =>
    some { s with
      reader := Function.update s.reader r
        (if t ≠ s.v.cnt r then .quiescentStore t else .idle) }
  | .quiescentStore t =>
    some { s with
      v := { s.v with cnt := Function.update s.v.cnt r t }
      reader := Function.update s.reader r .idle }

/-- A check of `t` returns 1. -/
def acknowledge (s : System E W) (w : W) (t : ℕ) : System E W :=
  { s with
    writer := Function.update s.writer w .idle
    acknowledged := t :: s.acknowledged }

/-- All readers are checked: what is left is to write `acked_token`, if a
reader was online. -/
def finishScan (s : System E W) (w : W) (t ackedToken : ℕ) : System E W :=
  if ackedToken ≠ cntMax then
    { s with writer := Function.update s.writer w (.store t ackedToken) }
  else acknowledge s w t

/-- The head of the loop over the array of registered threads. -/
def nextElem (s : System E W) (w : W) (t : ℕ) (wait : Bool) (i ackedToken : ℕ) : System E W :=
  if i < s.v.numElems then
    { s with writer := Function.update s.writer w (.loadBmap t wait i ackedToken) }
  else finishScan s w t ackedToken

/-- The head of the loop over the bits of an element. -/
def nextBit (s : System E W) (w : W) (t : ℕ) (wait : Bool) (i : ℕ) (bmap : List ℕ)
    (ackedToken : ℕ) : System E W :=
  if bmap ≠ [] then
    { s with writer := Function.update s.writer w (.selective t wait i bmap ackedToken) }
  else nextElem s w t wait (i + 1) ackedToken

/-- The head of the loop over all counters. -/
def nextCnt (s : System E W) (w : W) (t : ℕ) (wait : Bool) (i ackedToken : ℕ) : System E W :=
  if i < s.v.maxThreads then
    { s with writer := Function.update s.writer w (.all t wait i ackedToken) }
  else finishScan s w t ackedToken

/-- The least token acknowledged by the readers up to one whose counter
is `c`. -/
def leastAcked (c ackedToken : ℕ) : ℕ :=
  if c ≠ cntThrOffline ∧ c < ackedToken then c else ackedToken

/-- The next access of a writer's call. -/
def writerStep (s : System E W) (w : W) : Option (System E W) :=
  match s.writer w with
  | .idle => none
  | .numThreads t wait =>
    if s.v.numThreads = s.v.maxThreads then some (nextCnt s w t wait 0 cntMax)
    else some (nextElem s w t wait 0 cntMax)
  | .all t wait i ackedToken =>
    let c := s.v.cnt i
    if c = cntThrOffline ∨ t ≤ c then
      some (nextCnt s w t wait (i + 1) (leastAcked c ackedToken))
    else if wait then some s
    else some { s with writer := Function.update s.writer w .idle }
  | .loadBmap t wait i ackedToken => some (nextBit s w t wait i (s.v.bitmap i) ackedToken)
  | .selective _ _ _ [] _ => none
  | .selective t wait i (j :: bmap) ackedToken =>
    let c := s.v.cnt j
    if c ≠ cntThrOffline ∧ c < t then
      if wait then
        some { s with writer := Function.update s.writer w (.reloadBmap t wait i ackedToken) }
      else some { s with writer := Function.update s.writer w .idle }
    else some (nextBit s w t wait i bmap (leastAcked c ackedToken))
  | .reloadBmap t wait i ackedToken => some (nextBit s w t wait i (s.v.bitmap i) ackedToken)
  | .store t ackedToken =>
    some (acknowledge { s with v := { s.v with ackedToken } } w t)

/-- **One access to shared memory**, or none where the event is not possible: a
thread id makes one call at a time, obtains references to what is in the
structure, while it is registered and online, and has dropped them when it
reports that it is quiescent, goes offline or unregisters; a token that is
checked has been returned by a start. -/
def step (s : System E W) : Event E W → Option (System E W)
  | .register r =>
    if s.reader r ≠ .idle then none
    else if s.v.maxThreads ≤ r then some s
    else if s.v.registered r then some s
    else some { s with
      v := { s.v with registered := Function.update s.v.registered r true }
      reader := Function.update s.reader r .registerAdd }
  | .unregister r =>
    if s.reader r ≠ .idle then none
    else
      let s := { s with held := Function.update s.held r [] }
      if s.v.maxThreads ≤ r then some s
      else if s.v.registered r then some { s with
        v := { s.v with registered := Function.update s.v.registered r false }
        reader := Function.update s.reader r .unregisterSub }
      else some s
  | .online r =>
    if s.reader r ≠ .idle ∨ s.v.maxThreads ≤ r then none
    else some { s with reader := Function.update s.reader r (.onlineStore s.v.token) }
  | .offline r =>
    if s.reader r ≠ .idle ∨ s.v.maxThreads ≤ r then none
    else some { s with
      v := { s.v with cnt := Function.update s.v.cnt r cntThrOffline }
      held := Function.update s.held r [] }
  | .quiescent r =>
    if s.reader r ≠ .idle ∨ s.v.maxThreads ≤ r then none
    else some { s with
      reader := Function.update s.reader r (.quiescentLoad s.v.token)
      held := Function.update s.held r [] }
  | .reader r => readerStep s r
  | .access r e =>
    if s.reader r = .idle ∧ s.v.registered r ∧ s.v.cnt r ≠ cntThrOffline ∧ e ∉ s.removed then
      some { s with held := Function.update s.held r (e :: s.held r) }
    else none
  | .remove e => some { s with removed := e :: s.removed }
  | .start =>
    let token := (s.v.token + 1) % 2 ^ 64
    some { s with
      v := { s.v with token }
      started := (token, s.removed) :: s.started }
  | .check w t wait =>
    if s.writer w ≠ .idle ∨ t ∉ s.started.map Prod.fst then none
    else if t ≤ s.v.ackedToken then some (acknowledge s w t)
    else some { s with writer := Function.update s.writer w (.numThreads t wait) }
  | .writer w => writerStep s w

/-- The system around a variable that has been initialised. -/
def initial (v : RteRcuQsbr) : System E W where
  v
  reader := fun _ => .idle
  writer := fun _ => .idle
  held := fun _ => []
  removed := []
  started := []
  acknowledged := []

/-! ## What holds in every reachable state -/

/-- A reader holds an element that was removed before the start of `t`. -/
def Holds (s : System E W) (r t : ℕ) : Prop :=
  ∃ e B, (t, B) ∈ s.started ∧ e ∈ B ∧ e ∈ s.held r

/-- The token of the call that a reader is in. -/
def ReaderPc.token : ReaderPc → ℕ
  | .onlineStore t => t
  | .quiescentLoad t => t
  | .quiescentStore t => t
  | _ => 0

/-- The token that a writer checks. -/
def WriterPc.token : WriterPc → ℕ
  | .idle => 0
  | .numThreads t _ => t
  | .all t _ _ _ => t
  | .loadBmap t _ _ _ => t
  | .selective t _ _ _ _ => t
  | .reloadBmap t _ _ _ => t
  | .store t _ => t

/-- The least token that a scan has seen acknowledged. -/
def WriterPc.ackedToken : WriterPc → ℕ
  | .all _ _ _ a => a
  | .loadBmap _ _ _ a => a
  | .selective _ _ _ _ a => a
  | .reloadBmap _ _ _ a => a
  | .store _ a => a
  | _ => cntMax

/-- **The readers that a scan has passed.** -/
def WriterPc.Passed : WriterPc → ℕ → Prop
  | .all _ _ i _, r => r < i
  | .loadBmap _ _ i _, r => r < 64 * i
  | .selective _ _ i bmap _, r => r < 64 * i ∨ r < 64 * (i + 1) ∧ r ∉ bmap
  | .reloadBmap _ _ i _, r => r < 64 * i
  | .store _ _, _ => True
  | _, _ => False

/-- **What a scan has found out** stays so: the readers it has passed hold
nothing that was removed before the start of its token. -/
structure ScanOk (s : System E W) (pc : WriterPc) : Prop where
  token_le : pc.token ≤ s.v.token
  acked_le : pc.ackedToken = cntMax ∨ pc.ackedToken ≤ s.v.token
  stored : ∀ t a, pc = .store t a → a ≠ cntMax
  passed : ∀ r, pc.Passed r → ¬ Holds s r pc.token

/-- **What holds in every reachable state.** -/
structure Inv (s : System E W) : Prop where
  elems : s.v.maxThreads ≤ 64 * s.v.numElems
  registered_lt : ∀ r, s.v.registered r = true → r < s.v.maxThreads
  acked_le : s.v.ackedToken ≤ s.v.token
  cnt_le : ∀ r, s.v.cnt r ≤ s.v.token
  reader_le : ∀ r, (s.reader r).token ≤ s.v.token
  started_le : ∀ t B, (t, B) ∈ s.started → t ≤ s.v.token
  started_removed : ∀ t B, (t, B) ∈ s.started → ∀ e ∈ B, e ∈ s.removed
  acknowledged_le : ∀ t ∈ s.acknowledged, t ≤ s.v.token
  /-- A reader that holds something is between two calls, registered and
  online. -/
  held : ∀ r, s.held r ≠ [] →
    s.reader r = .idle ∧ s.v.registered r = true ∧ s.v.cnt r ≠ cntThrOffline
  /-- Its counter is behind each token whose start came after the removal of
  what it holds. -/
  holds_cnt : ∀ r t, Holds s r t → s.v.cnt r < t
  holds_acked : ∀ r t, Holds s r t → s.v.ackedToken < t
  holds_acknowledged : ∀ r t, Holds s r t → t ∉ s.acknowledged
  scan : ∀ w, ScanOk s (s.writer w)

variable {s s' : System E W} {r t i a : ℕ} {e : E} {w : W} {wait : Bool} {pc : WriterPc}

omit [DecidableEq E] [DecidableEq W] in
/-- A reader that holds something of old is registered and online. -/
theorem Inv.of_holds (h : Inv s) (hr : Holds s r t) :
    s.reader r = .idle ∧ s.v.registered r = true ∧ s.v.cnt r ≠ cntThrOffline := by
  obtain ⟨e, B, -, -, he⟩ := hr
  exact h.held r (List.ne_nil_of_mem he)

omit [DecidableEq E] [DecidableEq W] in
/-- What a scan has found out is not undone when the readers hold no more of
old and the token does not go back. -/
theorem ScanOk.mono {t : System E W} (h : ScanOk s pc) (htoken : s.v.token ≤ t.v.token)
    (hholds : ∀ r, Holds t r pc.token → Holds s r pc.token) : ScanOk t pc where
  token_le := le_trans h.token_le htoken
  acked_le := h.acked_le.imp_right (fun hle => le_trans hle htoken)
  stored := h.stored
  passed r hr hold := h.passed r hr (hholds r hold)

omit [DecidableEq E] in
/-- A writer moves on, with what its scan has found out. -/
theorem Inv.setWriter (h : Inv s) (w : W) (hpc : ScanOk s pc) :
    Inv { s with writer := update s.writer w pc } :=
  { h with
    scan := by
      intro x
      by_cases hx : x = w
      · subst hx
        simpa using hpc.mono (t := { s with writer := update s.writer x pc })
          (le_refl _) (fun _ hr => hr)
      · simpa [hx] using (h.scan x).mono (t := { s with writer := update s.writer w pc })
          (le_refl _) (fun _ hr => hr) }

omit [DecidableEq E] [DecidableEq W] in
theorem scanOk_idle : ScanOk s .idle where
  token_le := zero_le _
  acked_le := Or.inl rfl
  stored := by simp
  passed _ := False.elim

omit [DecidableEq E] in
/-- A check returns 1 when no reader holds anything of old. -/
theorem Inv.acknowledge (h : Inv s) (w : W) (ht : t ≤ s.v.token) (hsafe : ∀ r, ¬ Holds s r t) :
    Inv (Rcu.acknowledge s w t) :=
  { h.setWriter w scanOk_idle with
    acknowledged_le := List.forall_mem_cons.mpr ⟨ht, h.acknowledged_le⟩
    holds_acknowledged := by
      intro r t' hr hmem
      rcases List.mem_cons.mp hmem with rfl | hmem
      · exact hsafe r hr
      · exact h.holds_acknowledged r t' hr hmem
    scan := fun x => ((h.setWriter w scanOk_idle).scan x).mono (le_refl _) (fun _ hr => hr) }

/-! ## Scans -/

section Scans

variable (h : Inv s) (ht : t ≤ s.v.token) (ha : a = cntMax ∨ a ≤ s.v.token)

include h ht ha

omit [DecidableEq E] in
theorem Inv.finishScan (w : W) (hsafe : ∀ r, ¬ Holds s r t) : Inv (Rcu.finishScan s w t a) := by
  rw [Rcu.finishScan]
  split_ifs with hmax
  · refine h.setWriter w ⟨ht, ha, ?_, fun r _ => hsafe r⟩
    rintro _ _ ⟨⟩
    exact hmax
  · exact h.acknowledge w ht hsafe

omit [DecidableEq E] in
theorem Inv.nextCnt (w : W) (wait : Bool) (hpassed : ∀ r < i, ¬ Holds s r t) :
    Inv (Rcu.nextCnt s w t wait i a) := by
  rw [Rcu.nextCnt]
  split_ifs with hi
  · exact h.setWriter w ⟨ht, ha, by simp, hpassed⟩
  · refine h.finishScan ht ha w (fun r hr => hpassed r ?_ hr)
    exact lt_of_lt_of_le (h.registered_lt r (h.of_holds hr).2.1) (Nat.le_of_not_lt hi)

omit [DecidableEq E] in
theorem Inv.nextElem (w : W) (wait : Bool) (hpassed : ∀ r < 64 * i, ¬ Holds s r t) :
    Inv (Rcu.nextElem s w t wait i a) := by
  rw [Rcu.nextElem]
  split_ifs with hi
  · exact h.setWriter w ⟨ht, ha, by simp, hpassed⟩
  · refine h.finishScan ht ha w (fun r hr => hpassed r ?_ hr)
    have hr := h.registered_lt r (h.of_holds hr).2.1
    have helems := h.elems
    omega

omit [DecidableEq E] in
theorem Inv.nextBit (w : W) (wait : Bool) (bmap : List ℕ)
    (hpassed : ∀ r, r < 64 * i ∨ r < 64 * (i + 1) ∧ r ∉ bmap → ¬ Holds s r t) :
    Inv (Rcu.nextBit s w t wait i bmap a) := by
  rw [Rcu.nextBit]
  split_ifs with hbmap
  · exact h.setWriter w ⟨ht, ha, by simp, hpassed⟩
  · rw [not_not] at hbmap
    subst hbmap
    exact h.nextElem ht ha w wait (fun r hr => hpassed r (Or.inr ⟨hr, List.not_mem_nil⟩))

omit [DecidableEq E] in
/-- **A bitmap that is loaded** has every reader of its element that holds
something. -/
theorem Inv.loadBmap (w : W) (wait : Bool) (hpassed : ∀ r < 64 * i, ¬ Holds s r t) :
    Inv (Rcu.nextBit s w t wait i (s.v.bitmap i) a) := by
  refine h.nextBit ht ha w wait _ (fun r hpass hr => ?_)
  by_cases hbelow : r < 64 * i
  · exact hpassed r hbelow hr
  · obtain ⟨hlt, hnot⟩ := hpass.resolve_left hbelow
    refine hnot (List.mem_filter.mpr ⟨List.mem_map.mpr ⟨r - 64 * i, ?_, ?_⟩, (h.of_holds hr).2.1⟩)
    · exact List.mem_range.mpr (by omega)
    · omega

end Scans

omit [DecidableEq E] [DecidableEq W] in
/-- A reader whose counter is passed holds nothing of old. -/
theorem Inv.not_holds (h : Inv s) (hc : s.v.cnt r = cntThrOffline ∨ t ≤ s.v.cnt r) :
    ¬ Holds s r t := by
  intro hr
  rcases hc with hoff | hle
  · exact (h.of_holds hr).2.2 hoff
  · exact absurd (h.holds_cnt r t hr) (not_lt.mpr hle)

omit [DecidableEq E] [DecidableEq W] in
/-- The least token acknowledged is one there has been. -/
theorem Inv.leastAcked_le (h : Inv s) (r : ℕ) (ha : a = cntMax ∨ a ≤ s.v.token) :
    leastAcked (s.v.cnt r) a = cntMax ∨ leastAcked (s.v.cnt r) a ≤ s.v.token := by
  rw [leastAcked]
  split_ifs
  · exact Or.inr (h.cnt_le r)
  · exact ha

/-- The token that a scan is about to write is one that each registered reader
that is online has reached. -/
def WriterPc.Reached (v : RteRcuQsbr) : WriterPc → Prop
  | .store _ ackedToken => ∀ r < v.maxThreads, v.registered r = true →
      v.cnt r ≠ cntThrOffline → ackedToken ≤ v.cnt r
  | _ => True

/-- **No scan writes a token that a reader has not reached.** -/
def Reached (s : System E W) : Event E W → Prop
  | .writer w => (s.writer w).Reached s.v
  | _ => True

omit [DecidableEq E] in
/-- An access of a check keeps what holds in every reachable state. -/
theorem Inv.writerStep (h : Inv s) (hreached : Reached s (.writer w : Event E W))
    (hstep : Rcu.writerStep s w = some s') : Inv s' := by
  have hscan := h.scan w
  rw [Rcu.writerStep] at hstep
  cases hpc : s.writer w with
  | idle => simp [hpc] at hstep
  | numThreads t wait =>
    simp only [hpc] at hstep hscan
    split_ifs at hstep <;> obtain rfl := some.inj hstep
    · exact h.nextCnt hscan.token_le (Or.inl rfl) w wait (by simp)
    · exact h.nextElem hscan.token_le (Or.inl rfl) w wait (by simp)
  | all t wait i a =>
    simp only [hpc] at hstep hscan
    split_ifs at hstep with hc hwait <;> obtain rfl := some.inj hstep
    · refine h.nextCnt hscan.token_le (h.leastAcked_le i hscan.acked_le) w wait (fun r hr => ?_)
      rcases Nat.lt_succ_iff_lt_or_eq.mp hr with hlt | rfl
      · exact hscan.passed r hlt
      · exact h.not_holds hc
    · exact h
    · exact h.setWriter w scanOk_idle
  | loadBmap t wait i a =>
    simp only [hpc, some.injEq] at hstep hscan
    subst hstep
    exact h.loadBmap hscan.token_le hscan.acked_le w wait hscan.passed
  | selective t wait i bmap a =>
    cases bmap with
    | nil => simp [hpc] at hstep
    | cons j bmap =>
      simp only [hpc] at hstep hscan
      split_ifs at hstep with hc hwait <;> obtain rfl := some.inj hstep
      · exact h.setWriter w ⟨hscan.token_le, hscan.acked_le, by simp,
          fun r hr => hscan.passed r (Or.inl hr)⟩
      · exact h.setWriter w scanOk_idle
      · refine h.nextBit hscan.token_le (h.leastAcked_le j hscan.acked_le) w wait bmap
          (fun r hr => ?_)
        by_cases hj : r = j
        · subst hj
          refine h.not_holds ?_
          by_cases hoff : s.v.cnt r = cntThrOffline
          · exact Or.inl hoff
          · exact Or.inr (Nat.le_of_not_lt (fun hlt => hc ⟨hoff, hlt⟩))
        · exact hscan.passed r (hr.imp_right (fun hand => ⟨hand.1, by simp [hj, hand.2]⟩))
  | reloadBmap t wait i a =>
    simp only [hpc, some.injEq] at hstep hscan
    subst hstep
    exact h.loadBmap hscan.token_le hscan.acked_le w wait hscan.passed
  | store t a =>
    simp only [hpc, some.injEq] at hstep hscan
    simp only [Reached, WriterPc.Reached, hpc] at hreached
    subst hstep
    have hstored : Inv { s with v := { s.v with ackedToken := a } } :=
      { h with
        acked_le := hscan.acked_le.resolve_left (hscan.stored t a rfl)
        holds_acked := by
          intro r t' hr
          obtain ⟨-, hreg, hon⟩ := h.of_holds hr
          exact lt_of_le_of_lt (hreached r (h.registered_lt r hreg) hreg hon) (h.holds_cnt r t' hr)
        scan := fun x => (h.scan x).mono (le_refl _) (fun _ hr => hr) }
    exact hstored.acknowledge w hscan.token_le (fun r => hscan.passed r trivial)

/-! ## Readers -/

/-- A reader that holds nothing, after an access of its own. -/
def setReader (s : System E W) (r : ℕ) (pc : ReaderPc) (cnt : ℕ) (registered : Bool)
    (numThreads : ℕ) : System E W :=
  { s with
    v := { s.v with
      cnt := Function.update s.v.cnt r cnt
      registered := Function.update s.v.registered r registered
      numThreads }
    reader := Function.update s.reader r pc
    held := Function.update s.held r [] }

omit [DecidableEq E] [DecidableEq W] in
/-- **A reader that holds nothing** may do what it likes with its own counter
and its own bit. -/
theorem Inv.setReader (h : Inv s) (r : ℕ) (rpc : ReaderPc) (c : ℕ) (b : Bool) (n : ℕ)
    (hpc : rpc.token ≤ s.v.token) (hc : c ≤ s.v.token) (hb : b = true → r < s.v.maxThreads) :
    Inv (Rcu.setReader s r rpc c b n) := by
  have hholds : ∀ x t, Holds (Rcu.setReader s r rpc c b n) x t → x ≠ r ∧ Holds s x t := by
    rintro x t ⟨e, B, hB, heB, he⟩
    by_cases hx : x = r
    · simp [Rcu.setReader, hx] at he
    · exact ⟨hx, e, B, hB, heB, by simpa [Rcu.setReader, hx] using he⟩
  exact
    { h with
      registered_lt := by
        intro x hx
        by_cases hxr : x = r
        · subst hxr
          exact hb (by simpa [Rcu.setReader] using hx)
        · exact h.registered_lt x (by simpa [Rcu.setReader, hxr] using hx)
      cnt_le := by
        intro x
        by_cases hxr : x = r
        · simpa [Rcu.setReader, hxr] using hc
        · simpa [Rcu.setReader, hxr] using h.cnt_le x
      reader_le := by
        intro x
        by_cases hxr : x = r
        · simpa [Rcu.setReader, hxr] using hpc
        · simpa [Rcu.setReader, hxr] using h.reader_le x
      held := by
        intro x hx
        by_cases hxr : x = r
        · simp [Rcu.setReader, hxr] at hx
        · simpa [Rcu.setReader, hxr] using h.held x (by simpa [Rcu.setReader, hxr] using hx)
      holds_cnt := by
        intro x t hx
        obtain ⟨hxr, hold⟩ := hholds x t hx
        simpa [Rcu.setReader, hxr] using h.holds_cnt x t hold
      holds_acked := fun x t hx => h.holds_acked x t (hholds x t hx).2
      holds_acknowledged := fun x t hx => h.holds_acknowledged x t (hholds x t hx).2
      scan := fun w => (h.scan w).mono (le_refl _) (fun x hx => (hholds x _ hx).2) }

omit [DecidableEq E] [DecidableEq W] in
theorem Inv.held_nil (h : Inv s) (hpc : s.reader r ≠ .idle) : s.held r = [] := by
  by_contra hne
  exact hpc (h.held r hne).1

omit [DecidableEq E] [DecidableEq W] in
/-- What an access of a reader that holds nothing may write, where the fields it
does not write are its own ones. -/
theorem setReader_of_nil (hnil : s.held r = []) (rpc : ReaderPc) (c : ℕ) (b : Bool) (n : ℕ) :
    setReader s r rpc c b n = { s with
      v := { s.v with
        cnt := update s.v.cnt r c
        registered := update s.v.registered r b
        numThreads := n }
      reader := update s.reader r rpc } := by
  rw [setReader, ← hnil, update_eq_self]

omit [DecidableEq E] [DecidableEq W] in
/-- **A later access of a reader's call** keeps what holds in every reachable
state. -/
theorem Inv.readerStep (h : Inv s) (hstep : Rcu.readerStep s r = some s') : Inv s' := by
  have hle := h.reader_le r
  have hlt : s.v.registered r = true → r < s.v.maxThreads := h.registered_lt r
  have hzero : ReaderPc.idle.token ≤ s.v.token := zero_le _
  rw [Rcu.readerStep] at hstep
  cases hpc : s.reader r with
  | idle => simp [hpc] at hstep
  | registerAdd =>
    have hnil := h.held_nil (r := r) (by simp [hpc])
    have hinv := h.setReader r .idle (s.v.cnt r) (s.v.registered r)
      ((s.v.numThreads + 1) % 2 ^ 32) hzero (h.cnt_le r) hlt
    rw [setReader_of_nil hnil, update_eq_self, update_eq_self] at hinv
    simp only [hpc, some.injEq] at hstep
    exact hstep ▸ hinv
  | unregisterSub =>
    have hnil := h.held_nil (r := r) (by simp [hpc])
    have hinv := h.setReader r .idle (s.v.cnt r) (s.v.registered r)
      ((s.v.numThreads + (2 ^ 32 - 1)) % 2 ^ 32) hzero (h.cnt_le r) hlt
    rw [setReader_of_nil hnil, update_eq_self, update_eq_self] at hinv
    simp only [hpc, some.injEq] at hstep
    exact hstep ▸ hinv
  | onlineStore t =>
    have hnil := h.held_nil (r := r) (by simp [hpc])
    simp only [hpc, some.injEq] at hstep hle
    have hinv := h.setReader r .idle t (s.v.registered r) s.v.numThreads hzero hle hlt
    rw [setReader_of_nil hnil, update_eq_self] at hinv
    exact hstep ▸ hinv
  | quiescentLoad t =>
    have hnil := h.held_nil (r := r) (by simp [hpc])
    simp only [hpc, some.injEq] at hstep hle
    have hinv := h.setReader r (if t ≠ s.v.cnt r then .quiescentStore t else .idle) (s.v.cnt r)
      (s.v.registered r) s.v.numThreads (by split_ifs; exacts [hle, hzero]) (h.cnt_le r) hlt
    rw [setReader_of_nil hnil, update_eq_self, update_eq_self] at hinv
    exact hstep ▸ hinv
  | quiescentStore t =>
    have hnil := h.held_nil (r := r) (by simp [hpc])
    simp only [hpc, some.injEq] at hstep hle
    have hinv := h.setReader r .idle t (s.v.registered r) s.v.numThreads hzero hle hlt
    rw [setReader_of_nil hnil, update_eq_self] at hinv
    exact hstep ▸ hinv

/-- **The first access of a reader's call** keeps what holds in every reachable
state, when a reader that goes online holds no reference. -/
theorem Inv.call (h : Inv s) {ev : Event E W} (hcall : ev = .register r ∨ ev = .unregister r ∨
      ev = .online r ∧ s.held r = [] ∨ ev = .offline r ∨ ev = .quiescent r)
    (hstep : Rcu.step s ev = some s') : Inv s' := by
  have hidle : ReaderPc.idle.token ≤ s.v.token := zero_le _
  have hlt : s.v.registered r = true → r < s.v.maxThreads := h.registered_lt r
  rcases hcall with rfl | rfl | ⟨rfl, hnil⟩ | rfl | rfl
  · simp only [Rcu.step] at hstep
    split_ifs at hstep with hpc hmax hreg
    · exact some.inj hstep ▸ h
    · exact some.inj hstep ▸ h
    · have hnil : s.held r = [] := by
        by_contra hne
        exact hreg (h.held r hne).2.1
      have hinv := h.setReader r .registerAdd (s.v.cnt r) true s.v.numThreads hidle (h.cnt_le r)
        (fun _ => Nat.lt_of_not_le hmax)
      rw [setReader_of_nil hnil, update_eq_self] at hinv
      exact some.inj hstep ▸ hinv
  · simp only [Rcu.step] at hstep
    split_ifs at hstep with hpc hmax hreg
    · have hinv := h.setReader r (s.reader r) (s.v.cnt r) (s.v.registered r) s.v.numThreads
        (h.reader_le r) (h.cnt_le r) hlt
      rw [Rcu.setReader, update_eq_self, update_eq_self,
        update_eq_self] at hinv
      exact some.inj hstep ▸ hinv
    · have hinv := h.setReader r .unregisterSub (s.v.cnt r) false s.v.numThreads hidle
        (h.cnt_le r) (by simp)
      rw [Rcu.setReader, update_eq_self] at hinv
      exact some.inj hstep ▸ hinv
    · have hinv := h.setReader r (s.reader r) (s.v.cnt r) (s.v.registered r) s.v.numThreads
        (h.reader_le r) (h.cnt_le r) hlt
      rw [Rcu.setReader, update_eq_self, update_eq_self,
        update_eq_self] at hinv
      exact some.inj hstep ▸ hinv
  · simp only [Rcu.step] at hstep
    split_ifs at hstep
    have hinv := h.setReader r (.onlineStore s.v.token) (s.v.cnt r) (s.v.registered r)
      s.v.numThreads (le_refl _) (h.cnt_le r) hlt
    rw [setReader_of_nil hnil, update_eq_self, update_eq_self] at hinv
    exact some.inj hstep ▸ hinv
  · simp only [Rcu.step] at hstep
    split_ifs at hstep
    have hinv := h.setReader r (s.reader r) cntThrOffline (s.v.registered r) s.v.numThreads
      (h.reader_le r) (zero_le _) hlt
    rw [Rcu.setReader, update_eq_self, update_eq_self] at hinv
    exact some.inj hstep ▸ hinv
  · simp only [Rcu.step] at hstep
    split_ifs at hstep
    have hinv := h.setReader r (.quiescentLoad s.v.token) (s.v.cnt r) (s.v.registered r)
      s.v.numThreads (le_refl _) (h.cnt_le r) hlt
    rw [Rcu.setReader, update_eq_self, update_eq_self] at hinv
    exact some.inj hstep ▸ hinv

/-- A reference that is obtained is to an element that is not removed. -/
theorem Inv.access (h : Inv s) (hstep : Rcu.step s (.access r e) = some s') : Inv s' := by
  simp only [Rcu.step] at hstep
  split_ifs at hstep with hguard
  obtain ⟨hpc, hreg, hon, hnot⟩ := hguard
  obtain rfl := some.inj hstep
  have hholds : ∀ x t, Holds { s with held := update s.held r (e :: s.held r) } x t →
      Holds s x t := by
    rintro x t ⟨d, B, hB, hd, hheld⟩
    refine ⟨d, B, hB, hd, ?_⟩
    by_cases hx : x = r
    · subst hx
      have hne : d ≠ e := ne_of_mem_of_not_mem (h.started_removed t B hB d hd) hnot
      simpa [hne] using hheld
    · simpa [hx] using hheld
  exact
    { h with
      held := by
        intro x hx
        by_cases hxr : x = r
        · subst hxr
          exact ⟨hpc, hreg, hon⟩
        · exact h.held x (by simpa [hxr] using hx)
      holds_cnt := fun x t hx => h.holds_cnt x t (hholds x t hx)
      holds_acked := fun x t hx => h.holds_acked x t (hholds x t hx)
      holds_acknowledged := fun x t hx => h.holds_acknowledged x t (hholds x t hx)
      scan := fun w => (h.scan w).mono (le_refl _) (fun x hx => hholds x _ hx) }

omit [DecidableEq E] [DecidableEq W] in
/-- An element that is removed was not before any start there has been. -/
theorem Inv.remove (h : Inv s) (e : E) : Inv { s with removed := e :: s.removed } :=
  { h with
    started_removed := fun t B hB d hd => List.mem_cons_of_mem e (h.started_removed t B hB d hd)
    scan := fun w => (h.scan w).mono (le_refl _) (fun _ hx => hx) }

omit [DecidableEq E] [DecidableEq W] in
/-- A token that is handed out is ahead of every counter. -/
theorem Inv.start (h : Inv s) : Inv { s with
    v := { s.v with token := s.v.token + 1 }
    started := (s.v.token + 1, s.removed) :: s.started } := by
  have hholds : ∀ x t, Holds { s with
      v := { s.v with token := s.v.token + 1 }
      started := (s.v.token + 1, s.removed) :: s.started } x t →
      t = s.v.token + 1 ∨ Holds s x t := by
    rintro x t ⟨d, B, hB, hd, hheld⟩
    rcases List.mem_cons.mp hB with heq | hB
    · exact Or.inl (congrArg Prod.fst heq)
    · exact Or.inr ⟨d, B, hB, hd, hheld⟩
  exact
    { h with
      acked_le := le_succ_of_le h.acked_le
      cnt_le := fun x => le_succ_of_le (h.cnt_le x)
      reader_le := fun x => le_succ_of_le (h.reader_le x)
      started_le := by
        intro t B hB
        rcases List.mem_cons.mp hB with heq | hB
        · exact le_of_eq (congrArg Prod.fst heq)
        · exact le_succ_of_le (h.started_le t B hB)
      started_removed := by
        intro t B hB d hd
        rcases List.mem_cons.mp hB with heq | hB
        · have hremoved : B = s.removed := congrArg Prod.snd heq
          rwa [hremoved] at hd
        · exact h.started_removed t B hB d hd
      acknowledged_le := fun t ht => le_succ_of_le (h.acknowledged_le t ht)
      holds_cnt := by
        intro x t hx
        rcases hholds x t hx with rfl | hx
        · exact lt_succ_of_le (h.cnt_le x)
        · exact h.holds_cnt x t hx
      holds_acked := by
        intro x t hx
        rcases hholds x t hx with rfl | hx
        · exact lt_succ_of_le h.acked_le
        · exact h.holds_acked x t hx
      holds_acknowledged := by
        intro x t hx hmem
        rcases hholds x t hx with rfl | hx
        · exact absurd (h.acknowledged_le _ hmem) (not_succ_le_self _)
        · exact h.holds_acknowledged x t hx hmem
      scan := by
        intro w
        refine (h.scan w).mono (le_succ _) (fun x hx => (hholds x _ hx).resolve_left ?_)
        exact Nat.ne_of_lt (Nat.lt_succ_of_le (h.scan w).token_le) }

/-- **A check trusts `acked_token`**, which is behind each token whose start
came after the removal of what is held. -/
theorem Inv.check (h : Inv s) (hstep : Rcu.step s (.check w t wait) = some s') : Inv s' := by
  simp only [Rcu.step] at hstep
  split_ifs at hstep with hguard hacked <;> obtain rfl := some.inj hstep
  all_goals
    rw [not_or, not_not, not_not] at hguard
    obtain ⟨⟨t, B⟩, hB, rfl⟩ := List.mem_map.mp hguard.2
  · exact h.acknowledge w (h.started_le t B hB)
      (fun x hx => absurd (h.holds_acked x t hx) (not_lt.mpr hacked))
  · exact h.setWriter w ⟨h.started_le t B hB, Or.inl rfl, by simp, fun _ => False.elim⟩

/-! ## Runs -/

/-- The token does not wrap. -/
def NoWrap (s : System E W) : Event E W → Prop
  | .start => s.v.token + 1 < 2 ^ 64
  | _ => True

/-- **A reader that goes online** holds no reference. -/
def Fresh (s : System E W) : Event E W → Prop
  | .online r => s.held r = []
  | _ => True

instance decidableNoWrap (s : System E W) : (ev : Event E W) → Decidable (NoWrap s ev)
  | .start => inferInstanceAs (Decidable (s.v.token + 1 < 2 ^ 64))
  | .register _ | .unregister _ | .online _ | .offline _ | .quiescent _ | .reader _ | .access _ _
  | .remove _ | .check _ _ _ | .writer _ => isTrue trivial

instance decidableFresh (s : System E W) : (ev : Event E W) → Decidable (Fresh s ev)
  | .online r => inferInstanceAs (Decidable (s.held r = []))
  | .register _ | .unregister _ | .offline _ | .quiescent _ | .reader _ | .access _ _
  | .remove _ | .start | .check _ _ _ | .writer _ => isTrue trivial

instance WriterPc.decidableReached (v : RteRcuQsbr) : (pc : WriterPc) → Decidable (pc.Reached v)
  | .store _ ackedToken => inferInstanceAs (Decidable (∀ r < v.maxThreads, v.registered r = true →
      v.cnt r ≠ cntThrOffline → ackedToken ≤ v.cnt r))
  | .idle | .numThreads _ _ | .all _ _ _ _ | .loadBmap _ _ _ _ | .selective _ _ _ _ _
  | .reloadBmap _ _ _ _ => isTrue trivial

instance decidableReached (s : System E W) : (ev : Event E W) → Decidable (Reached s ev)
  | .writer w => inferInstanceAs (Decidable ((s.writer w).Reached s.v))
  | .register _ | .unregister _ | .online _ | .offline _ | .quiescent _ | .reader _ | .access _ _
  | .remove _ | .start | .check _ _ _ => isTrue trivial

/-- A step keeps what holds in every reachable state. -/
theorem Inv.step (h : Inv s) {ev : Event E W} (hwrap : NoWrap s ev) (hfresh : Fresh s ev)
    (hreached : Reached s ev) (hstep : Rcu.step s ev = some s') : Inv s' := by
  cases ev with
  | register r => exact h.call (Or.inl rfl) hstep
  | unregister r => exact h.call (Or.inr (Or.inl rfl)) hstep
  | online r => exact h.call (Or.inr (Or.inr (Or.inl ⟨rfl, hfresh⟩))) hstep
  | offline r => exact h.call (Or.inr (Or.inr (Or.inr (Or.inl rfl)))) hstep
  | quiescent r => exact h.call (Or.inr (Or.inr (Or.inr (Or.inr rfl)))) hstep
  | reader r => exact h.readerStep hstep
  | access r e => exact h.access hstep
  | remove e => exact some.inj hstep ▸ h.remove e
  | start =>
    simp only [Rcu.step, mod_eq_of_lt (hwrap : s.v.token + 1 < 2 ^ 64)] at hstep
    exact some.inj hstep ▸ h.start
  | check w t wait => exact h.check hstep
  | writer w => exact h.writerStep hreached hstep

end Rcu
