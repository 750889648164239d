import DpdkStudy.Lib.Runs
import DpdkStudy.Timer.SkipList

/-!
# Resetting, stopping and running timers

The calls on the timers of one lcore: `rteTimerReset` and `rteTimerStop`,
which the lcore makes from its main loop or from the callback of a timer, and
`rteTimerManage`, which takes the expired timers off the lists and calls their
callbacks one after the other. A callback is code of the application, so a
call to `rteTimerManage` is taken apart where it calls one: the event
`manage` is what comes before the first callback, and `callbackReturns` what
lies between one callback and the next.

`skip_list_kept` says that the lists are well formed after each call, as long
as no timer is given the expiry 0 and no callback runs expired timers in a
call to `rteTimerManage` of its own.
-/

open Runs SinglyLinked Function List Nat

namespace Timer

variable {T : Type*} [DecidableEq T]

/-! ## The code -/

/-- `timer_set_config_state`: the previous state, and the timer marked. There
is no other lcore that could own the timer. -/
def timerSetConfigState (s : PrivTimer T) (tim : T) : Option (TimerState × PrivTimer T) :=
  if s.state tim = .running ∧ s.runningTim ≠ some tim then none
  else if s.state tim = .config then none
  else some (s.state tim, { s with state := Function.update s.state tim .config })

/-- `__rte_timer_reset`: the value returned, and the timers after it. -/
def rteTimerResetAt (fuel : ℕ) (s : PrivTimer T) (tim : T) (expire period random : ℕ) :
    Option (ℤ × PrivTimer T) :=
  match timerSetConfigState s tim with
  | none => some (-1, s)
  | some (prevState, s) =>
    let s := if prevState = .running then { s with updated := true } else s
    (if prevState = .pending then timerDel fuel s tim else some s).bind fun s =>
      let s := { s with
        period := Function.update s.period tim period
        expire := Function.update s.expire tim expire }
      (timerAdd fuel s tim random).map fun s =>
        (0, { s with state := Function.update s.state tim .pending })

/-- `rte_timer_reset`, at the time `curTime`. -/
def rteTimerReset (fuel : ℕ) (s : PrivTimer T) (tim : T) (curTime ticks : ℕ) (periodical : Bool)
    (random : ℕ) : Option (ℤ × PrivTimer T) :=
  rteTimerResetAt fuel s tim ((curTime + ticks) % uint64Size) (if periodical then ticks else 0)
    random

/-- `rte_timer_stop`. -/
def rteTimerStop (fuel : ℕ) (s : PrivTimer T) (tim : T) : Option (ℤ × PrivTimer T) :=
  match timerSetConfigState s tim with
  | none => some (-1, s)
  | some (prevState, s) =>
    let s := if prevState = .running then { s with updated := true } else s
    (if prevState = .pending then timerDel fuel s tim else some s).map fun s =>
      (0, { s with state := Function.update s.state tim .stop })

/-- `timer_set_running_state`. -/
def timerSetRunningState (s : PrivTimer T) (tim : T) : Option (PrivTimer T) :=
  if s.state tim = .pending then some { s with state := Function.update s.state tim .running }
  else none

/-- The loop that marks the expired timers, and drops from their list those
that cannot be marked: `pprev` is the timer whose link leads to `tim`, none
when `runFirstTim` does. -/
def markRunning : ℕ → PrivTimer T → Option T → Option T → Option T →
    Option (PrivTimer T × Option T)
  | 0, _, _, _, _ => none
  | _ + 1, s, _, runFirstTim, none => some (s, runFirstTim)
  | n + 1, s, pprev, runFirstTim, some tim =>
    let nextTim := s.slNext 0 (some tim)
    match timerSetRunningState s tim, pprev with
    | some s, _ => markRunning n s (some tim) runFirstTim nextTim
    | none, none => markRunning n s none nextTim nextTim
    | none, some p =>
      let slNext := Function.update s.slNext 0 (Function.update (s.slNext 0) (some p) nextTim)
      markRunning n { s with slNext } (some p) runFirstTim nextTim

/-- The list of a level, and the depth, when the list is broken behind `prev`. -/
def cutLevel (prev : ℕ → Option T) (i : ℕ) (c : (ℕ → Option T → Option T) × ℕ) :
    (ℕ → Option T → Option T) × ℕ :=
  if prev i = none then c
  else (Function.update c.1 i (cutAfter (c.1 i) (prev i)),
    if c.1 i (prev i) = none then c.2 - 1 else c.2)

/-- The next round of the loop that calls the callbacks, up to the call, or
the end of the loop. -/
def nextCallback (s : PrivTimer T) : Option T → PrivTimer T
  | none => { s with runningTim := none }
  | some tim => { s with
      updated := false
      runningTim := some tim
      managing := (tim, s.slNext 0 (some tim)) :: s.managing }

/-- `rte_timer_manage` at the time `curTime`, up to the first callback. -/
def rteTimerManage (fuel : ℕ) (s : PrivTimer T) (curTime : ℕ) : Option (PrivTimer T) :=
  match s.slNext 0 none with
  | none => some s
  | some tim =>
    if curTime < s.headExpire then some s
    else if curTime < s.expire tim then some s
    else
      (timerGetPrevEntries fuel s curTime).bind fun prev =>
        let cut := Loop.countdown s.currSkiplistDepth (cutLevel prev)
          (s.slNext, s.currSkiplistDepth)
        let s := { s with slNext := cut.1, currSkiplistDepth := cut.2 }
        (markRunning fuel s none (some tim) (some tim)).bind fun marked =>
          let s := marked.1
          some (nextCallback
            { s with headExpire := ((s.slNext 0 none).map s.expire).getD 0 } marked.2)

/-- `rte_timer_manage` from a callback's return up to the next callback. -/
def callbackReturns (fuel : ℕ) (s : PrivTimer T) (random : ℕ) : Option (PrivTimer T) :=
  match s.managing with
  | [] => some s
  | (tim, nextTim) :: rest =>
    let s := { s with managing := rest }
    if s.updated then some (nextCallback s nextTim)
    else if s.period tim = 0 then
      some (nextCallback { s with state := Function.update s.state tim .stop } nextTim)
    else
      let s := { s with state := Function.update s.state tim .pending }
      (rteTimerResetAt fuel s tim ((s.expire tim + s.period tim) % uint64Size) (s.period tim)
        random).map fun r => nextCallback r.2 nextTim

/-- What an lcore does with its timers. -/
inductive Event (T : Type*)
  | reset (tim : T) (curTime ticks : ℕ) (periodical : Bool) (random : ℕ)
  | stop (tim : T)
  | manage (curTime : ℕ)
  | callbackReturns (random : ℕ)

/-- The timers after an event; none when the loops are not over by `fuel`
rounds. -/
def step (fuel : ℕ) (s : PrivTimer T) : Event T → Option (PrivTimer T)
  | .reset tim curTime ticks periodical random =>
    (rteTimerReset fuel s tim curTime ticks periodical random).map Prod.snd
  | .stop tim => (rteTimerStop fuel s tim).map Prod.snd
  | .manage curTime => rteTimerManage fuel s curTime
  | .callbackReturns random => Timer.callbackReturns fuel s random

/-- No timer is listed, and each has been initialised by `rte_timer_init`,
which leaves the other fields of a timer as it finds them. -/
def start (slNext : ℕ → T → Option T) (expire period : T → ℕ) : PrivTimer T where
  slNext := fun i p => p.bind (slNext i)
  expire
  period
  state := fun _ => .stop
  headExpire := 0
  currSkiplistDepth := 0
  updated := false
  runningTim := none
  managing := []

/-! ## What holds between the calls -/

/-- **The timers that are listed** are the ones that are pending. -/
structure Kept (s : PrivTimer T) (L : List T) (height : T → ℕ) : Prop where
  listed : Listed s L height
  first : s.headExpire = firstExpire s L
  pending : ∀ t, t ∈ L ↔ s.state t = .pending
  expire_pos : ∀ t ∈ L, 0 < s.expire t
  expire_lt : ∀ t ∈ L, s.expire t < uint64Size

/-- **A call to `rte_timer_manage`** that waits for the callback of `tim`: the
timers it has still to run are linked from `nextTim` on. -/
structure Serving (s : PrivTimer T) (tim : T) (nextTim : Option T) (rest : List T) : Prop where
  next_eq : nextTim = rest.head?
  joined : Joined (s.slNext 0) rest
  running : ∀ t ∈ rest, s.state t = .running
  nodup : (tim :: rest).Nodup
  runningTim : s.runningTim = some tim
  state_tim : s.updated = false → s.state tim = .running

/-- What is so between the steps of an lcore that has at most `n` timers
listed. -/
def Between (s : PrivTimer T) (n : ℕ) : Prop :=
  ∃ L height, Kept s L height ∧ L.length ≤ n ∧
    (s.managing = [] ∨ ∃ tim nextTim rest, s.managing = [(tim, nextTim)] ∧
      Serving s tim nextTim rest)

/-! ## Taking a timer off the lists to set it up -/

variable {s s' : PrivTimer T} {L rest : List T} {height : T → ℕ} {fuel n : ℕ} {tim t : T}
  {nextTim : Option T}

/-- The timer as `timer_set_config_state` leaves it to its caller. -/
def configured (s : PrivTimer T) (tim : T) : PrivTimer T :=
  let c := { s with state := Function.update s.state tim .config }
  if s.state tim = .running then { c with updated := true } else c

/-- What a call has done to the timers beside the ones listed and its own. -/
structure Aside (s s' : PrivTimer T) (L : List T) (tim : T) : Prop where
  slNext : ∀ a, a ∉ L → a ≠ tim → ∀ i, s'.slNext i (some a) = s.slNext i (some a)
  state : ∀ a, a ≠ tim → s'.state a = s.state a
  expire : ∀ a, a ≠ tim → s'.expire a = s.expire a
  runningTim : s'.runningTim = s.runningTim
  managing : s'.managing = s.managing
  updated : s'.updated = true ∨ (s'.updated = s.updated ∧ s.state tim ≠ .running)

/-- A timer that is to be set up is taken off the lists it is in. -/
theorem detach (h : Listed s L height) (hfirst : s.headExpire = firstExpire s L)
    (hfuel : L.length < fuel) (hmem : tim ∈ L → s.state tim = .pending)
    (hpos : tim ∈ L → 0 < s.expire tim) (hlt : tim ∈ L → s.expire tim < uint64Size) :
    ∃ s', (if s.state tim = .pending then timerDel fuel (configured s tim) tim
        else some (configured s tim)) = some s' ∧
      Listed s' (L.erase tim) height ∧ s'.headExpire = firstExpire s' (L.erase tim) ∧
      Aside s s' L tim ∧ s'.expire = s.expire := by
  have hsame : (configured s tim).slNext = s.slNext ∧ (configured s tim).expire = s.expire ∧
      (configured s tim).headExpire = s.headExpire ∧
      (configured s tim).currSkiplistDepth = s.currSkiplistDepth := by
    rw [configured]
    split_ifs <;> exact ⟨rfl, rfl, rfl, rfl⟩
  obtain ⟨hnext, hexpire, hhead, hdepth⟩ := hsame
  have hconf : Listed (configured s tim) L height :=
    h.congr hnext (fun t _ => by rw [hexpire]) hdepth
  have haside : Aside s (configured s tim) L tim := by
    by_cases hrun : s.state tim = .running <;>
      exact
        { slNext := fun a _ _ i => by rw [hnext]
          state := fun a ha => by simp [configured, hrun, ha]
          expire := fun a _ => by rw [hexpire]
          runningTim := by simp [configured, hrun]
          managing := by simp [configured, hrun]
          updated := by simp [configured, hrun] }
  by_cases hpend : s.state tim = .pending
  · obtain ⟨s', hdel, hlisted, hhead', hfields, hlinks⟩ := timerDel_spec tim hconf hfuel
      (by rw [hhead, hfirst, firstExpire, firstExpire, hexpire]) (by rwa [hexpire])
      (by rwa [hexpire])
    refine ⟨s', by rw [if_pos hpend, hdel], hlisted, hhead', ?_, ?_⟩
    · exact
        { slNext := fun a ha hat i => (hlinks a ha i).trans (haside.slNext a ha hat i)
          state := fun a ha => by rw [hfields]; exact haside.state a ha
          expire := fun a ha => by rw [hfields]; exact haside.expire a ha
          runningTim := by rw [hfields]; exact haside.runningTim
          managing := by rw [hfields]; exact haside.managing
          updated := by rw [hfields]; exact haside.updated }
    · rw [hfields]
      exact hexpire
  · have hnot : tim ∉ L := fun h => hpend (hmem h)
    refine ⟨_, if_neg hpend, ?_, ?_, haside, hexpire⟩
    · rwa [erase_of_not_mem hnot]
    · rw [erase_of_not_mem hnot, hhead, hfirst, firstExpire, firstExpire, hexpire]

/-- A timer that another call is at work on. -/
def Blocked (s : PrivTimer T) (tim : T) : Prop :=
  (s.state tim = .running ∧ s.runningTim ≠ some tim) ∨ s.state tim = .config

omit [DecidableEq T] in
/-- A timer put into a list is beside the others. -/
theorem mem_insert_dueBy (hsorted : L.Pairwise (fun a b => s.expire a ≤ s.expire b)) (v : ℕ) :
    t ∈ dueBy s v L ++ tim :: dueAfter s v L ↔ t = tim ∨ t ∈ L := by
  rw [perm_middle.mem_iff, mem_cons, dueBy_append_dueAfter hsorted]

/-- **The list when a timer has been put into it** again, behind the others
that expire no later. -/
def relisted (s : PrivTimer T) (L : List T) (tim : T) : List T :=
  dueBy s (s.expire tim) (L.erase tim) ++ tim :: dueAfter s (s.expire tim) (L.erase tim)

/-- **`__rte_timer_reset`** turns a blocked timer away, and lists every other
one under its new expiry. -/
theorem rteTimerResetAt_spec (tim : T) (h : Listed s L height)
    (hfirst : s.headExpire = firstExpire s L)
    (hother : ∀ t, t ≠ tim → (t ∈ L ↔ s.state t = .pending))
    (hmem : tim ∈ L → s.state tim = .pending) (hpos : ∀ t ∈ L, 0 < s.expire t)
    (hlt : ∀ t ∈ L, s.expire t < uint64Size) (hfuel : L.length < fuel) {expire : ℕ}
    (hexpire : 0 < expire) (hexpirelt : expire < uint64Size) (period random : ℕ) :
    (Blocked s tim ∧ rteTimerResetAt fuel s tim expire period random = some (-1, s)) ∨
    (¬ Blocked s tim ∧ ∃ s' height',
      rteTimerResetAt fuel s tim expire period random = some (0, s') ∧
      Kept s' (relisted s' L tim) height' ∧ (relisted s' L tim).length ≤ L.length + 1 ∧
      Aside s s' L tim) := by
  by_cases hrun : s.state tim = .running ∧ s.runningTim ≠ some tim
  · exact Or.inl ⟨Or.inl hrun, by simp [rteTimerResetAt, timerSetConfigState, hrun]⟩
  by_cases hconf : s.state tim = .config
  · exact Or.inl ⟨Or.inr hconf, by simp [rteTimerResetAt, timerSetConfigState, hconf]⟩
  refine Or.inr ⟨fun hb => hb.elim hrun hconf, ?_⟩
  obtain ⟨s₁, hdetach, hlisted₁, -, haside₁, hexpire₁⟩ := detach h hfirst hfuel hmem (hpos tim)
    (hlt tim)
  have hnot : tim ∉ L.erase tim := h.nodup.not_mem_erase
  have hpart : ∀ t ∈ L.erase tim, t ∈ L ∧ t ≠ tim := fun t ht =>
    ⟨mem_of_mem_erase ht, ne_of_mem_of_not_mem ht hnot⟩
  let s₂ : PrivTimer T := { s₁ with
    period := update s₁.period tim period
    expire := update s₁.expire tim expire }
  have hlisted₂ : Listed s₂ (L.erase tim) height :=
    hlisted₁.congr rfl (fun t ht => update_of_ne (hpart t ht).2 _ _) rfl
  have hlength : (L.erase tim).length < fuel :=
    lt_of_le_of_lt erase_sublist.length_le hfuel
  obtain ⟨s₃, height', hadd, hlisted₃, hfirst₃, hfields, hlinks⟩ :=
    timerAdd_spec hlisted₂ hlength hnot random
  have heq : rteTimerResetAt fuel s tim expire period random
      = some (0, { s₃ with state := update s₃.state tim .pending }) := by
    have hset : timerSetConfigState s tim
        = some (s.state tim, { s with state := update s.state tim .config }) := by
      rw [timerSetConfigState, if_neg hrun, if_neg hconf]
    have hcfg : (if s.state tim = .running then
          { { s with state := update s.state tim .config } with updated := true }
        else { s with state := update s.state tim .config }) = configured s tim := rfl
    rw [rteTimerResetAt, hset]
    simp only [hcfg, hdetach, Option.bind_some, s₂] at hadd ⊢
    rw [hadd, Option.map_some]
  have hlist : relisted { s₃ with state := update s₃.state tim .pending } L tim
      = dueBy s₂ (s₂.expire tim) (L.erase tim)
        ++ tim :: dueAfter s₂ (s₂.expire tim) (L.erase tim) := by
    have hsame : s₃.expire = s₂.expire := by rw [hfields]
    simp only [relisted, dueBy, dueAfter, hsame]
  refine ⟨_, height', heq, ?_, ?_, ?_⟩
  · have hmem₃ : ∀ t, t ∈ dueBy s₂ (s₂.expire tim) (L.erase tim)
        ++ tim :: dueAfter s₂ (s₂.expire tim) (L.erase tim) ↔ t = tim ∨ t ∈ L.erase tim :=
      fun t => mem_insert_dueBy hlisted₂.sorted _
    have hexpire₃ : ∀ t, s₃.expire t = if t = tim then expire else s.expire t := by
      intro t
      rw [hfields]
      by_cases ht : t = tim
      · simp [s₂, ht]
      · simp [s₂, ht, hexpire₁]
    rw [hlist]
    exact
      { listed := hlisted₃.congr rfl (fun _ _ => rfl) rfl
        first := hfirst₃
        pending := by
          intro t
          rw [hmem₃]
          by_cases ht : t = tim
          · simp [ht]
          · have hstate : s₃.state t = s.state t := by
              rw [hfields]
              exact haside₁.state t ht
            simp only [ht, false_or, ne_eq, not_false_eq_true, update_of_ne, hstate,
              ← hother t ht, mem_erase_of_ne]
        expire_pos := by
          intro t ht
          rw [hexpire₃]
          by_cases ht' : t = tim
          · rwa [if_pos ht']
          · rw [if_neg ht']
            exact hpos t (hpart t (((hmem₃ t).mp ht).resolve_left ht')).1
        expire_lt := by
          intro t ht
          rw [hexpire₃]
          by_cases ht' : t = tim
          · rwa [if_pos ht']
          · rw [if_neg ht']
            exact hlt t (hpart t (((hmem₃ t).mp ht).resolve_left ht')).1 }
  · rw [hlist, perm_middle.length_eq, dueBy_append_dueAfter hlisted₂.sorted,
      length_cons]
    exact succ_le_succ erase_sublist.length_le
  · exact
      { slNext := fun a ha hat i =>
          (hlinks a (fun hmem => ha (hpart a hmem).1) hat i).trans (haside₁.slNext a ha hat i)
        state := by
          intro a ha
          rw [hfields]
          exact (update_of_ne ha _ _).trans (haside₁.state a ha)
        expire := by
          intro a ha
          rw [hfields]
          exact (update_of_ne ha _ _).trans (haside₁.expire a ha)
        runningTim := by rw [hfields]; exact haside₁.runningTim
        managing := by rw [hfields]; exact haside₁.managing
        updated := by rw [hfields]; exact haside₁.updated }

/-- **`rte_timer_stop`** turns a blocked timer away, and takes every other one
off the lists. -/
theorem rteTimerStop_spec (h : Kept s L height) (hfuel : L.length < fuel) (tim : T) :
    (Blocked s tim ∧ rteTimerStop fuel s tim = some (-1, s)) ∨
    (¬ Blocked s tim ∧ ∃ s', rteTimerStop fuel s tim = some (0, s') ∧
      Kept s' (L.erase tim) height ∧ Aside s s' L tim) := by
  by_cases hrun : s.state tim = .running ∧ s.runningTim ≠ some tim
  · exact Or.inl ⟨Or.inl hrun, by simp [rteTimerStop, timerSetConfigState, hrun]⟩
  by_cases hconf : s.state tim = .config
  · exact Or.inl ⟨Or.inr hconf, by simp [rteTimerStop, timerSetConfigState, hconf]⟩
  refine Or.inr ⟨fun hb => hb.elim hrun hconf, ?_⟩
  obtain ⟨s₁, hdetach, hlisted₁, hfirst₁, haside₁, hexpire₁⟩ := detach h.listed h.first hfuel
    (h.pending tim).mp (h.expire_pos tim) (h.expire_lt tim)
  have heq : rteTimerStop fuel s tim
      = some (0, { s₁ with state := update s₁.state tim .stop }) := by
    have hset : timerSetConfigState s tim
        = some (s.state tim, { s with state := update s.state tim .config }) := by
      rw [timerSetConfigState, if_neg hrun, if_neg hconf]
    have hcfg : (if s.state tim = .running then
          { { s with state := update s.state tim .config } with updated := true }
        else { s with state := update s.state tim .config }) = configured s tim := rfl
    rw [rteTimerStop, hset]
    simp only [hcfg, hdetach, Option.map_some]
  have hpart : ∀ t ∈ L.erase tim, t ∈ L := fun t ht => mem_of_mem_erase ht
  refine ⟨_, heq, ?_, ?_⟩
  · exact
      { listed := hlisted₁.congr rfl (fun _ _ => rfl) rfl
        first := hfirst₁
        pending := by
          intro t
          by_cases ht : t = tim
          · subst ht
            simp [h.listed.nodup.not_mem_erase]
          · simp only [ne_eq, ht, not_false_eq_true, update_of_ne, haside₁.state t ht,
              ← h.pending t, mem_erase_of_ne]
        expire_pos := fun t ht => by
          simpa only [hexpire₁] using h.expire_pos t (hpart t ht)
        expire_lt := fun t ht => by
          simpa only [hexpire₁] using h.expire_lt t (hpart t ht) }
  · exact
      { slNext := haside₁.slNext
        state := fun a ha => (update_of_ne ha _ _).trans (haside₁.state a ha)
        expire := haside₁.expire
        runningTim := haside₁.runningTim
        managing := haside₁.managing
        updated := haside₁.updated }

omit [DecidableEq T] in
/-- **A call to `rte_timer_manage` that waits for a callback** is not disturbed
by what the callback resets and stops. -/
theorem Serving.aside {tim₀ : T} (h : Serving s tim nextTim rest) (haside : Aside s s' L tim₀)
    (hpending : ∀ t ∈ L, s.state t = .pending) (hblocked : ¬ Blocked s tim₀) :
    Serving s' tim nextTim rest := by
  -- another timer of the call is turned away
  have hnot : tim₀ ∉ rest := by
    intro hmem
    refine hblocked (Or.inl ⟨h.running _ hmem, ?_⟩)
    rw [h.runningTim]
    rintro ⟨⟩
    exact (nodup_cons.mp h.nodup).1 hmem
  have hother : ∀ t ∈ rest, t ∉ L ∧ t ≠ tim₀ := by
    intro t ht
    refine ⟨fun hL => ?_, ne_of_mem_of_not_mem ht hnot⟩
    have hstate := (h.running t ht).symm.trans (hpending t hL)
    simp at hstate
  exact
    { next_eq := h.next_eq
      joined := h.joined.congr (fun a ha => haside.slNext a (hother a ha).1 (hother a ha).2 0)
      running := fun t ht => (haside.state t (hother t ht).2).trans (h.running t ht)
      nodup := h.nodup
      runningTim := haside.runningTim.trans h.runningTim
      state_tim := by
        intro hupdated
        rcases haside.updated with htrue | ⟨hsame, hrun⟩
        · simp [htrue] at hupdated
        · have hstate := h.state_tim (hsame.symm.trans hupdated)
          have hne : tim ≠ tim₀ := fun e => hrun (e ▸ hstate)
          exact (haside.state tim hne).trans hstate }

omit [DecidableEq T] in
/-- What a call has done to its own timer leaves the waiting calls as they
are. -/
theorem managing_aside {tim₀ : T} (haside : Aside s s' L tim₀)
    (hpending : ∀ t ∈ L, s.state t = .pending) (hblocked : ¬ Blocked s tim₀)
    (h : s.managing = [] ∨ ∃ tim nextTim rest, s.managing = [(tim, nextTim)] ∧
      Serving s tim nextTim rest) :
    s'.managing = [] ∨ ∃ tim nextTim rest, s'.managing = [(tim, nextTim)] ∧
      Serving s' tim nextTim rest := by
  rw [haside.managing]
  refine h.imp_right ?_
  rintro ⟨tim, nextTim, rest, hmanaging, hserving⟩
  exact ⟨tim, nextTim, rest, hmanaging, hserving.aside haside hpending hblocked⟩

omit [DecidableEq T] in
/-- The lists are as they were when the next callback is entered. -/
theorem Kept.nextCallback (h : Kept s L height) (next : Option T) :
    Kept (nextCallback s next) L height := by
  cases next <;>
    exact ⟨h.listed.congr rfl (fun _ _ => rfl) rfl, h.first, h.pending, h.expire_pos, h.expire_lt⟩

omit [DecidableEq T] in
/-- **The call waits for the callback** of the first of the timers it has to run. -/
theorem nextCallback_serving (hjoined : Joined (s.slNext 0) (tim :: rest))
    (hrunning : ∀ t ∈ tim :: rest, s.state t = .running) (hnodup : (tim :: rest).Nodup) :
    Serving (nextCallback s (some tim)) tim (s.slNext 0 (some tim)) rest := by
  rw [joined_cons] at hjoined
  exact
    { next_eq := hjoined.head?_eq
      joined := hjoined.joined
      running := fun t ht => hrunning t (mem_cons_of_mem tim ht)
      nodup := hnodup
      runningTim := rfl
      state_tim := fun _ => hrunning tim mem_cons_self }

omit [DecidableEq T] in
/-- The next callback is entered, or the call ends. -/
theorem nextCallback_managing (rest : List T) (hmanaging : s.managing = [])
    (hjoined : Joined (s.slNext 0) rest) (hrunning : ∀ t ∈ rest, s.state t = .running)
    (hnodup : rest.Nodup) :
    (nextCallback s rest.head?).managing = [] ∨ ∃ tim nextTim rest',
      (nextCallback s rest.head?).managing = [(tim, nextTim)] ∧
      Serving (nextCallback s rest.head?) tim nextTim rest' := by
  cases rest with
  | nil => exact Or.inl hmanaging
  | cons tim rest =>
    exact Or.inr ⟨tim, _, rest, by simp [nextCallback, hmanaging],
      nextCallback_serving hjoined hrunning hnodup⟩

omit [DecidableEq T] in
/-- What is so between the steps is so when the next callback is entered. -/
theorem nextCallback_between (rest : List T) (h : Kept s L height) (hn : L.length ≤ n)
    (hmanaging : s.managing = []) (hjoined : Joined (s.slNext 0) rest)
    (hrunning : ∀ t ∈ rest, s.state t = .running) (hnodup : rest.Nodup) :
    Between (nextCallback s rest.head?) n :=
  ⟨L, height, h.nextCallback _, hn, nextCallback_managing rest hmanaging hjoined hrunning hnodup⟩

/-! ## Taking the expired timers off -/

theorem countdown_cutLevel (prev : ℕ → Option T) (d : ℕ)
    (c : (ℕ → Option T → Option T) × ℕ) (i : ℕ) :
    (Loop.countdown d (cutLevel prev) c).1 i
      = if i < d ∧ prev i ≠ none then cutAfter (c.1 i) (prev i) else c.1 i := by
  induction d generalizing c with
  | zero => simp [Loop.countdown]
  | succ d ih =>
    rw [Loop.countdown, ih, cutLevel]
    by_cases hd : prev d = none
    · have hiff : (i < d + 1 ∧ prev i ≠ none) ↔ (i < d ∧ prev i ≠ none) :=
        and_congr_left (fun hi => by
          rw [Nat.lt_succ_iff_lt_or_eq]
          exact or_iff_left (fun e => hi (e ▸ hd)))
      simp only [hd, if_true, hiff]
    · by_cases hi : i = d
      · subst hi
        simp [hd]
      · have hiff : i < d + 1 ↔ i < d := by omega
        simp [hd, hi, hiff]

/-- A level is not changed when another one is broken. -/
theorem cutLevel_of_ne (prev : ℕ → Option T) {d i : ℕ} (h : i ≠ d)
    (c : (ℕ → Option T → Option T) × ℕ) : (cutLevel prev d c).1 i = c.1 i := by
  by_cases hd : prev d = none
  · rw [cutLevel, if_pos hd]
  · rw [cutLevel, if_neg hd]
    exact update_of_ne h _ _

/-- Nothing is taken from the depth when no level is emptied. -/
theorem countdown_cutLevel_depth (prev : ℕ → Option T) (d : ℕ)
    (c : (ℕ → Option T → Option T) × ℕ)
    (hleft : ∀ i < d, prev i ≠ none → c.1 i (prev i) ≠ none) :
    (Loop.countdown d (cutLevel prev) c).2 = c.2 := by
  induction d generalizing c with
  | zero => rfl
  | succ d ih =>
    have hsnd : (cutLevel prev d c).2 = c.2 := by
      rw [cutLevel]
      split_ifs with hd hempty
      · rfl
      · exact absurd hempty (hleft d (lt_succ_self d) hd)
      · rfl
    rw [Loop.countdown, ih, hsnd]
    intro i hi hne
    rw [cutLevel_of_ne prev (Nat.ne_of_lt hi)]
    exact hleft i (lt_succ_of_lt hi) hne

/-- **The depth that is left** counts the levels that are not emptied, as long
as those above an emptied one are emptied too. -/
theorem lt_countdown_cutLevel (prev : ℕ → Option T) (d : ℕ)
    (c : (ℕ → Option T → Option T) × ℕ) (hc : c.2 = d)
    (hup : ∀ i, i + 1 < d → prev i ≠ none ∧ c.1 i (prev i) = none →
      prev (i + 1) ≠ none ∧ c.1 (i + 1) (prev (i + 1)) = none) (i : ℕ) :
    i < (Loop.countdown d (cutLevel prev) c).2
      ↔ i < d ∧ ¬ (prev i ≠ none ∧ c.1 i (prev i) = none) := by
  induction d generalizing c with
  | zero => simp [Loop.countdown, hc]
  | succ d ih =>
    by_cases hd : prev d ≠ none ∧ c.1 d (prev d) = none
    · have hsnd : (cutLevel prev d c).2 = d := by
        rw [cutLevel, if_neg hd.1, if_pos hd.2, hc, Nat.add_sub_cancel]
      have hfst : ∀ k < d, (cutLevel prev d c).1 k = c.1 k :=
        fun k hk => cutLevel_of_ne prev (Nat.ne_of_lt hk) c
      rw [Loop.countdown, ih _ hsnd (by
        intro k hk
        rw [hfst k (by omega), hfst (k + 1) hk]
        exact hup k (by omega))]
      rcases lt_trichotomy i d with hlt | rfl | hgt
      · simp [hfst i hlt, hlt, lt_succ_of_lt hlt]
      · simp [hd.1, hd.2]
      · simp [not_lt.mpr (le_of_lt hgt), not_lt.mpr (succ_le_of_lt hgt)]
    · -- no level below one that is left is emptied
      have hnone : ∀ k ≤ d, ¬ (prev k ≠ none ∧ c.1 k (prev k) = none) := by
        intro k hk
        refine decreasingInduction' (fun m hm _ hleft hgone => ?_) hk hd
        exact hleft (hup m (succ_lt_succ hm) hgone)
      rw [countdown_cutLevel_depth prev (d + 1) c
        (fun k hk hne hempty => hnone k (le_of_lt_succ hk) ⟨hne, hempty⟩), hc]
      exact (and_iff_left_of_imp (fun hi => hnone i (le_of_lt_succ hi))).symm

/-- **The timers that have not expired** are left in the lists when they are
broken. -/
theorem Listed.cut {prev : ℕ → Option T} {A B : List T} (h : Listed s (A ++ B) height)
    (hprev : ∀ i ≤ s.currSkiplistDepth, prev i = endNode none (lane A height i))
    (hexpire : s'.expire = s.expire)
    (hnext : s'.slNext = (Loop.countdown s.currSkiplistDepth (cutLevel prev)
      (s.slNext, s.currSkiplistDepth)).1)
    (hdepth : s'.currSkiplistDepth = (Loop.countdown s.currSkiplistDepth (cutLevel prev)
      (s.slNext, s.currSkiplistDepth)).2) : Listed s' B height := by
  have hnil : ∀ i, lane (A ++ B) height i = [] → lane B height i = [] := by
    intro i hi
    rw [lane_append] at hi
    exact (append_eq_nil_iff.mp hi).2
  -- a level is emptied when none of its timers is left
  have hgone : ∀ i < s.currSkiplistDepth,
      (prev i ≠ none ∧ s.slNext i (prev i) = none) ↔ lane B height i = [] := by
    intro i hi
    have hused := (h.lt_depth i).mp hi
    have hall := h.leads i
    rw [lane_append] at hused hall
    rw [hprev i (le_of_lt hi), (leads_append.mp hall).2.head?_eq, head?_eq_none_iff, ne_eq,
      endNode_none_eq_none]
    exact and_iff_right_of_imp (fun hB hA => hused (by rw [hA, hB, append_nil]))
  have hlt : ∀ i, i < s'.currSkiplistDepth
      ↔ i < s.currSkiplistDepth ∧ ¬ (prev i ≠ none ∧ s.slNext i (prev i) = none) := by
    intro i
    rw [hdepth]
    refine lt_countdown_cutLevel prev _ (s.slNext, s.currSkiplistDepth) rfl (fun k hk hand => ?_) i
    refine (hgone (k + 1) hk).mpr (sublist_nil.mp ?_)
    rw [← (hgone k (lt_of_succ_lt hk)).mp hand]
    exact lane_succ_sublist k
  exact
    { leads := by
        intro i
        have hall := h.leads i
        rw [hnext, countdown_cutLevel]
        by_cases hi : i < s.currSkiplistDepth
        · rw [hprev i (le_of_lt hi)]
          by_cases hA : lane A height i = []
          · rw [lane_append, hA, nil_append] at hall
            simpa [hA] using hall
          · have hne : endNode none (lane A height i) ≠ none :=
              fun e => hA (endNode_none_eq_none.mp e)
            have hnodup := h.nodup.sublist (lane_sublist i : (lane _ height i).Sublist _)
            rw [lane_append] at hall hnodup
            rw [if_pos ⟨hi, hne⟩]
            exact hall.cut hA hnodup
        · have hempty := h.lane_eq_nil (Nat.le_of_not_lt hi)
          rw [hempty] at hall
          rw [if_neg (fun hand => hi hand.1), hnil i hempty]
          exact hall
      sorted := by
        rw [hexpire]
        exact (pairwise_append.mp h.sorted).2.1
      nodup := (nodup_append.mp h.nodup).2.1
      height_pos := fun t ht => h.height_pos t (mem_append_right A ht)
      lt_depth := by
        intro i
        rw [hlt]
        refine ⟨fun hi hB => hi.2 ((hgone i hi.1).mpr hB), fun hB => ?_⟩
        have hi : i < s.currSkiplistDepth := (h.lt_depth i).mpr (fun hi => hB (hnil i hi))
        exact ⟨hi, fun hand => hB ((hgone i hi).mp hand)⟩
      depth_le := by
        have hle : s'.currSkiplistDepth ≤ s.currSkiplistDepth :=
          Nat.le_of_not_lt (fun hgt => lt_irrefl _ ((hlt _).mp hgt).1)
        exact le_trans hle h.depth_le }

/-- The expired timers are marked, all of them: each is pending. -/
theorem markRunning_eq (l : List T) (pprev runFirstTim : Option T) (fuel : ℕ) (s : PrivTimer T)
    (hjoined : Joined (s.slNext 0) l) (hpending : ∀ t ∈ l, s.state t = .pending)
    (hnodup : l.Nodup) (hfuel : l.length < fuel) :
    markRunning fuel s pprev runFirstTim l.head?
      = some ({ s with state := fun t => if t ∈ l then .running else s.state t }, runFirstTim) := by
  induction l generalizing pprev fuel s with
  | nil =>
    obtain ⟨fuel, rfl⟩ := Nat.exists_eq_succ_of_ne_zero (Nat.ne_zero_of_lt hfuel)
    simp [markRunning]
  | cons tim l ih =>
    obtain ⟨fuel, rfl⟩ := Nat.exists_eq_succ_of_ne_zero (Nat.ne_zero_of_lt hfuel)
    rw [joined_cons] at hjoined
    rw [nodup_cons] at hnodup
    have hset : timerSetRunningState s tim
        = some { s with state := update s.state tim .running } :=
      if_pos (hpending tim mem_cons_self)
    have hnext : s.slNext 0 (some tim) = l.head? := hjoined.head?_eq
    simp only [head?_cons, markRunning, hset, hnext]
    refine (ih (some tim) fuel { s with state := update s.state tim .running }
      hjoined.joined (fun t ht => ?_) hnodup.2 (lt_of_succ_lt_succ hfuel)).trans ?_
    · have hne : t ≠ tim := ne_of_mem_of_not_mem ht hnodup.1
      exact (update_of_ne hne _ _).trans (hpending t (mem_cons_of_mem tim ht))
    · congr 3
      funext t
      by_cases ht : t = tim
      · simp [ht]
      · simp [ht]

/-- No timer that is listed has expired. -/
def NothingDue (s : PrivTimer T) (curTime : ℕ) : Prop :=
  ∀ tim ∈ s.slNext 0 none, curTime < s.expire tim

theorem rteTimerManage_of_nothingDue {curTime : ℕ} (h : NothingDue s curTime) :
    rteTimerManage fuel s curTime = some s := by
  rw [rteTimerManage]
  cases hfirst : s.slNext 0 none with
  | none => rfl
  | some tim => simp [h tim hfirst]

/-- **The expired timers are a list of their own** and running, and the others
are still listed. -/
structure Broken (s s' : PrivTimer T) (L : List T) (height : T → ℕ) (curTime : ℕ) : Prop where
  kept : Kept s' (dueAfter s curTime L) height
  joined : Joined (s'.slNext 0) (dueBy s curTime L)
  state : ∀ t, s'.state t = if t ∈ dueBy s curTime L then .running else s.state t
  expire : s'.expire = s.expire
  period : s'.period = s.period
  managing : s'.managing = s.managing

section

variable (h : Kept s L height) (hfuel : L.length < fuel)

include h hfuel

/-- **`rte_timer_manage`** takes the expired timers off the lists, and calls the
callback of the first. -/
theorem rteTimerManage_broken {curTime : ℕ} (hdue : ¬ NothingDue s curTime) :
    ∃ s', rteTimerManage fuel s curTime = some (nextCallback s' (dueBy s curTime L).head?) ∧
      Broken s s' L height curTime := by
  have hlow : lane L height 0 = L := lane_zero h.listed.height_pos
  have hleads : Leads (s.slNext 0) none L := hlow ▸ h.listed.leads 0
  obtain ⟨tim, hfirst, hexpired⟩ : ∃ tim, s.slNext 0 none = some tim ∧ s.expire tim ≤ curTime := by
    simpa [NothingDue] using hdue
  obtain ⟨L', rfl⟩ := head?_eq_some_iff.mp (hleads.head?_eq.symm.trans hfirst)
  obtain ⟨prev, heq, hprev⟩ := timerGetPrevEntries_eq h.listed hfuel curTime
  -- the list is the expired timers, with the first one in front, and the others
  have hA : dueBy s curTime (tim :: L') = tim :: dueBy s curTime L' := by
    simp [dueBy, hexpired]
  have hsplit := dueBy_append_dueAfter h.listed.sorted curTime
  set A := dueBy s curTime L' with hAdef
  set B := dueAfter s curTime (tim :: L') with hBdef
  rw [hA] at hsplit hprev
  have hlisted : Listed s (tim :: A ++ B) height := hsplit.symm ▸ h.listed
  let cut := Loop.countdown s.currSkiplistDepth (cutLevel prev) (s.slNext, s.currSkiplistDepth)
  let s₁ : PrivTimer T := { s with slNext := cut.1, currSkiplistDepth := cut.2 }
  have hlisted₁ : Listed s₁ B height := hlisted.cut hprev rfl rfl rfl
  have hzero : 0 < s.currSkiplistDepth := (h.listed.lt_depth 0).mpr (by rw [hlow]; simp)
  have hlowA : lane (tim :: A) height 0 = tim :: A :=
    lane_zero (fun t ht => hlisted.height_pos t (mem_append_left B ht))
  have hrun : Leads (s₁.slNext 0) (some tim) A := by
    have hne : prev 0 ≠ none := by
      rw [hprev 0 (zero_le _), hlowA]
      exact fun e => cons_ne_nil tim A (endNode_none_eq_none.mp e)
    have hnext : s₁.slNext 0 = cutAfter (s.slNext 0) (endNode none (tim :: A)) := by
      rw [← hlowA, ← hprev 0 (zero_le _)]
      exact (countdown_cutLevel prev _ _ 0).trans (if_pos ⟨hzero, hne⟩)
    rw [hnext]
    exact Leads.cut_front (hsplit.symm ▸ hleads) hlisted.nodup
  have hmarked := markRunning_eq (tim :: A) none (some tim) fuel s₁ (joined_cons.mpr hrun)
    (fun t ht => (h.pending t).mp (hsplit ▸ mem_append_left B ht))
    (nodup_append.mp hlisted.nodup).1 (by
      have hlength := congrArg length hsplit
      rw [length_append] at hlength
      omega)
  let s₂ : PrivTimer T := { s₁ with
    state := fun t => if t ∈ tim :: A then .running else s₁.state t
    headExpire := ((s₁.slNext 0 none).map s₁.expire).getD 0 }
  have hkept : Kept s₂ B height :=
    { listed := hlisted₁.congr rfl (fun _ _ => rfl) rfl
      first := by
        have hhead := (hlisted₁.leads 0).head?_eq
        rw [lane_zero hlisted₁.height_pos] at hhead
        simp only [s₂, firstExpire, hhead]
      pending := by
        intro t
        have hmem : t ∈ tim :: L' ↔ t ∈ tim :: A ∨ t ∈ B := by rw [← hsplit, mem_append]
        have hnot : t ∈ tim :: A → t ∉ B := fun ht hB =>
          (nodup_append.mp hlisted.nodup).2.2 t ht t hB rfl
        have hold := h.pending t
        rw [hmem] at hold
        by_cases ht : t ∈ tim :: A
        · simp [s₂, ht, hnot ht]
        · simp only [s₂, ht, if_false, s₁, ← hold, false_or]
      expire_pos := fun t ht => h.expire_pos t (hsplit ▸ mem_append_right _ ht)
      expire_lt := fun t ht => h.expire_lt t (hsplit ▸ mem_append_right _ ht) }
  refine ⟨s₂, ?_, ?_⟩
  · have hhead : ¬ curTime < s.headExpire := not_lt.mpr (h.first ▸ hexpired)
    rw [head?_cons] at hmarked
    rw [rteTimerManage, hfirst]
    simp only [hhead, not_lt.mpr hexpired, if_false, heq, Option.bind_some]
    rw [hmarked, hA]
    rfl
  · exact
      { kept := hkept
        joined := hA.symm ▸ joined_cons.mpr hrun
        state := fun t => by rw [hA]
        expire := rfl
        period := rfl
        managing := rfl }

/-- What `rte_timer_manage` does is so between the steps again. -/
theorem rteTimerManage_between (hn : L.length ≤ n) (hmanaging : s.managing = []) {curTime : ℕ}
    (hdue : ¬ NothingDue s curTime) :
    ∃ s', rteTimerManage fuel s curTime = some s' ∧ Between s' n := by
  obtain ⟨s', heq, hbroken⟩ := rteTimerManage_broken h hfuel hdue
  refine ⟨_, heq, nextCallback_between _ hbroken.kept ?_ (hbroken.managing.trans hmanaging)
    hbroken.joined (fun t ht => ?_) (h.listed.nodup.filter _)⟩
  · exact le_trans (length_filter_le _ _) hn
  · rw [hbroken.state, if_pos ht]

/-- **What is so when a callback has returned**, and its timer is stopped or listed again:
`rest` is still to be run. -/
structure Returned (s s' : PrivTimer T) (L : List T) (tim : T) (rest : List T) (height : T → ℕ) :
    Prop where
  kept : Kept s' (if s.updated = false ∧ s.period tim ≠ 0 then relisted s' L tim else L) height
  length_le :
    (if s.updated = false ∧ s.period tim ≠ 0 then relisted s' L tim else L).length ≤ L.length + 1
  managing : s'.managing = []
  joined : Joined (s'.slNext 0) rest
  running : ∀ t ∈ rest, s'.state t = .running

/-- **The return of a callback** leaves a timer that the callback has reset or
stopped alone, stops a single one, and lists a periodical one again. -/
theorem callbackReturns_returned {tim : T} (hmanaging : s.managing = [(tim, nextTim)])
    (hserving : Serving s tim nextTim rest)
    (hwrap : s.updated = false → s.period tim ≠ 0 → s.expire tim + s.period tim < uint64Size)
    (random : ℕ) :
    ∃ s' height', Timer.callbackReturns fuel s random = some (nextCallback s' rest.head?) ∧
      Returned s s' L tim rest height' := by
  have hnodup := nodup_cons.mp hserving.nodup
  rw [Timer.callbackReturns, hmanaging, hserving.next_eq]
  by_cases hupdated : s.updated = true
  · have hlist : (if s.updated = false ∧ s.period tim ≠ 0 then
        relisted { s with managing := [] } L tim else L) = L := if_neg (by simp [hupdated])
    refine ⟨{ s with managing := [] }, height, if_pos hupdated, ?_⟩
    exact
      { kept := by
          rw [hlist]
          exact ⟨h.listed.congr rfl (fun _ _ => rfl) rfl, h.first, h.pending, h.expire_pos,
            h.expire_lt⟩
        length_le := by rw [hlist]; exact le_succ _
        managing := rfl
        joined := hserving.joined
        running := hserving.running }
  have hfalse : s.updated = false := Bool.not_eq_true _ ▸ hupdated
  have hrunning := hserving.state_tim hfalse
  have hnot : tim ∉ L := by
    rw [h.pending, hrunning]
    simp
  by_cases hperiod : s.period tim = 0
  · let s₁ : PrivTimer T := { s with
      managing := []
      state := update s.state tim .stop }
    have hlist : (if s.updated = false ∧ s.period tim ≠ 0 then relisted s₁ L tim else L) = L :=
      if_neg fun hand => hand.2 hperiod
    have hkept : Kept s₁ L height := by
      refine ⟨h.listed.congr rfl (fun _ _ => rfl) rfl, h.first, fun t => ?_, h.expire_pos,
        h.expire_lt⟩
      by_cases ht : t = tim
      · simp [s₁, ht, hnot]
      · simp [s₁, ht, h.pending]
    refine ⟨s₁, height, (if_neg hupdated).trans (if_pos hperiod), ?_⟩
    exact
      { kept := by rw [hlist]; exact hkept
        length_le := by rw [hlist]; exact le_succ _
        managing := rfl
        joined := hserving.joined
        running := fun t ht =>
          (update_of_ne (ne_of_mem_of_not_mem ht hnodup.1) _ _).trans
            (hserving.running t ht) }
  · have hwrap := hwrap hfalse hperiod
    let s₁ : PrivTimer T := { s with
      managing := []
      state := update s.state tim .pending }
    have hexpire : (s.expire tim + s.period tim) % uint64Size = s.expire tim + s.period tim :=
      mod_eq_of_lt hwrap
    have hpos : 0 < s.expire tim + s.period tim := by omega
    rcases rteTimerResetAt_spec tim (h.listed.congr rfl (fun _ _ => rfl) rfl : Listed s₁ L height)
        h.first (fun t ht => by simp [s₁, ht, h.pending]) (fun hL => absurd hL hnot) h.expire_pos
        h.expire_lt hfuel hpos hwrap (s.period tim) random with
      ⟨hblocked, -⟩ | ⟨-, s', height', heq, hkept, hlength, haside⟩
    · simp [Blocked, s₁] at hblocked
    · rw [← hexpire] at heq
      have hlist : (if s.updated = false ∧ s.period tim ≠ 0 then relisted s' L tim else L)
          = relisted s' L tim := if_pos ⟨hfalse, hperiod⟩
      refine ⟨s', height', (if_neg hupdated).trans ((if_neg hperiod).trans
        (congrArg (Option.map fun r => nextCallback r.2 rest.head?) heq)), ?_⟩
      have hother : ∀ t ∈ rest, t ∉ L ∧ t ≠ tim := by
        intro t ht
        refine ⟨fun hL => ?_, ne_of_mem_of_not_mem ht hnodup.1⟩
        have hstate := (hserving.running t ht).symm.trans ((h.pending t).mp hL)
        simp at hstate
      exact
        { kept := by rw [hlist]; exact hkept
          length_le := by rw [hlist]; exact hlength
          managing := haside.managing
          joined := hserving.joined.congr
            (fun a ha => haside.slNext a (hother a ha).1 (hother a ha).2 0)
          running := by
            intro t ht
            rw [haside.state t (hother t ht).2]
            exact (update_of_ne (hother t ht).2 _ _).trans (hserving.running t ht) }

/-- The return of a callback keeps what is so between the steps. -/
theorem callbackReturns_between {tim : T} (hn : L.length ≤ n)
    (hmanaging : s.managing = [(tim, nextTim)]) (hserving : Serving s tim nextTim rest)
    (hwrap : s.updated = false → s.period tim ≠ 0 → s.expire tim + s.period tim < uint64Size)
    (random : ℕ) :
    ∃ s', Timer.callbackReturns fuel s random = some s' ∧ Between s' (n + 1) := by
  obtain ⟨s', height', heq, hreturned⟩ :=
    callbackReturns_returned h hfuel hmanaging hserving hwrap random
  exact ⟨_, heq, nextCallback_between rest hreturned.kept
    (le_trans hreturned.length_le (succ_le_succ hn)) hreturned.managing hreturned.joined
    hreturned.running (nodup_cons.mp hserving.nodup).2⟩

end

/-! ## Runs -/

/-- **The levels of a skip list**: what the links of each level lead through is
in the order of expiry and a part of the level below, the levels up to the
depth are those that are not empty, the lowest has the pending timers, each
once, and the head has the expiry of the first. -/
structure SkipList (s : PrivTimer T) (levels : ℕ → List T) : Prop where
  leads : ∀ i, Leads (s.slNext i) none (levels i)
  sorted : ∀ i, (levels i).Pairwise (fun a b => s.expire a ≤ s.expire b)
  sublist : ∀ i, (levels (i + 1)).Sublist (levels i)
  lt_depth : ∀ i, i < s.currSkiplistDepth ↔ levels i ≠ []
  depth_le : s.currSkiplistDepth ≤ maxSkiplistDepth
  pending : ∀ t, t ∈ levels 0 ↔ s.state t = .pending
  nodup : (levels 0).Nodup
  headExpire : s.headExpire = ((levels 0).head?.map s.expire).getD 0

omit [DecidableEq T] in
/-- What is kept between the steps is a skip list. -/
theorem Kept.skipList (h : Kept s L height) : SkipList s (lane L height) where
  leads := h.listed.leads
  sorted i := h.listed.sorted.sublist (lane_sublist i)
  sublist := lane_succ_sublist
  lt_depth := h.listed.lt_depth
  depth_le := h.listed.depth_le
  pending t := by rw [lane_zero h.listed.height_pos, h.pending]
  nodup := h.listed.nodup.sublist (lane_sublist 0)
  headExpire := by rw [lane_zero h.listed.height_pos, h.first, firstExpire]

/-- No expiry that a step computes is too large for 64 bits. -/
def NoWrap (s : PrivTimer T) : Event T → Prop
  | .reset _ curTime ticks _ _ => curTime + ticks < uint64Size
  | .stop _ => True
  | .manage _ => True
  | .callbackReturns _ => ∀ f ∈ s.managing.head?, s.updated = false → s.period f.1 ≠ 0 →
      s.expire f.1 + s.period f.1 < uint64Size

/-- **No timer is set to expire at 0**, and a call to `rte_timer_manage` that a
callback makes finds no expired timer. -/
def Sound (s : PrivTimer T) : Event T → Prop
  | .reset _ curTime ticks _ _ => 0 < curTime + ticks
  | .stop _ => True
  | .manage curTime => s.managing = [] ∨ NothingDue s curTime
  | .callbackReturns _ => True

/-- A step ends, and keeps what is so between the steps. -/
theorem step_between {e : Event T} (h : Between s n) (hfuel : n < fuel) (hwrap : NoWrap s e)
    (hsound : Sound s e) : ∃ s', step fuel s e = some s' ∧ Between s' (n + 1) := by
  obtain ⟨L, height, hkept, hlength, hmanaging⟩ := h
  have hfuel' : L.length < fuel := lt_of_le_of_lt hlength hfuel
  have hn : L.length ≤ n + 1 := le_succ_of_le hlength
  have hpending : ∀ t ∈ L, s.state t = .pending := fun t => (hkept.pending t).mp
  cases e with
  | reset tim curTime ticks periodical random =>
    simp only [NoWrap, Sound] at hwrap hsound
    rcases rteTimerResetAt_spec tim hkept.listed hkept.first (fun t _ => hkept.pending t)
        (hkept.pending tim).mp hkept.expire_pos hkept.expire_lt hfuel' hsound hwrap
        (if periodical then ticks else 0) random with
      ⟨-, heq⟩ | ⟨hblocked, s', height', heq, hkept', hlength', haside⟩
    · exact ⟨s, by simp [step, rteTimerReset, mod_eq_of_lt hwrap, heq], L, height, hkept, hn,
        hmanaging⟩
    · exact ⟨s', by simp [step, rteTimerReset, mod_eq_of_lt hwrap, heq], _, height', hkept',
        by omega, managing_aside haside hpending hblocked hmanaging⟩
  | stop tim =>
    rcases rteTimerStop_spec hkept hfuel' tim with ⟨-, heq⟩ | ⟨hblocked, s', heq, hkept', haside⟩
    · exact ⟨s, by simp [step, heq], L, height, hkept, hn, hmanaging⟩
    · exact ⟨s', by simp [step, heq], L.erase tim, height, hkept',
        le_trans erase_sublist.length_le hn,
        managing_aside haside hpending hblocked hmanaging⟩
  | manage curTime =>
    by_cases hdue : NothingDue s curTime
    · exact ⟨s, rteTimerManage_of_nothingDue hdue, L, height, hkept, hn, hmanaging⟩
    · exact rteTimerManage_between hkept hfuel' hn (hsound.resolve_right hdue) hdue
  | callbackReturns random =>
    rcases hmanaging with hnone | ⟨tim, nextTim, rest, hsome, hserving⟩
    · exact ⟨s, by simp [step, Timer.callbackReturns, hnone], L, height, hkept, hn, Or.inl hnone⟩
    · exact callbackReturns_between hkept hfuel' hlength hsome hserving
        (hwrap (tim, nextTim) (by simp [hsome])) random

/-- A run ends, and keeps what is so between the steps. -/
theorem run_between (es : List (Event T)) (h : Between s n) (hfuel : n + es.length < fuel)
    (hwrap : AlongOption (step fuel) NoWrap s es) (hsound : AlongOption (step fuel) Sound s es) :
    ∃ s', runOption (step fuel) s es = some s' ∧ Between s' (n + es.length) := by
  induction es generalizing s n with
  | nil => exact ⟨s, rfl, h⟩
  | cons e es ih =>
    rw [length_cons] at hfuel ⊢
    have hlt : n < fuel := by omega
    have hrest : n + 1 + es.length < fuel := by omega
    obtain ⟨s₁, hstep, h₁⟩ := step_between h hlt hwrap.1 hsound.1
    obtain ⟨s', hrun, h'⟩ := ih h₁ hrest (hwrap.2 s₁ hstep) (hsound.2 s₁ hstep)
    refine ⟨s', by rw [runOption, hstep, Option.bind_some, hrun], ?_⟩
    rwa [Nat.add_right_comm, Nat.add_assoc] at h'

omit [DecidableEq T] in
theorem start_between (slNext : ℕ → T → Option T) (expire period : T → ℕ) :
    Between (start slNext expire period) 0 := by
  refine ⟨[], fun _ => 0, ?_, le_refl 0, Or.inl rfl⟩
  exact
    { listed :=
        { leads := fun i => by simp [lane, start]
          sorted := List.Pairwise.nil
          nodup := nodup_nil
          height_pos := by simp
          lt_depth := fun i => by simp [lane, start]
          depth_le := zero_le _ }
      first := rfl
      pending := fun t => by simp [start]
      expire_pos := by simp
      expire_lt := by simp }

instance decidableNoWrap (s : PrivTimer T) : (e : Event T) → Decidable (NoWrap s e)
  | .reset _ curTime ticks _ _ => inferInstanceAs (Decidable (curTime + ticks < uint64Size))
  | .stop _ => isTrue trivial
  | .manage _ => isTrue trivial
  | .callbackReturns _ => inferInstanceAs (Decidable (∀ f ∈ s.managing.head?,
      s.updated = false → s.period f.1 ≠ 0 → s.expire f.1 + s.period f.1 < uint64Size))

instance decidableSound (s : PrivTimer T) : (e : Event T) → Decidable (Sound s e)
  | .reset _ curTime ticks _ _ => inferInstanceAs (Decidable (0 < curTime + ticks))
  | .stop _ => isTrue trivial
  | .manage curTime => inferInstanceAs (Decidable (s.managing = [] ∨
      ∀ tim ∈ s.slNext 0 none, curTime < s.expire tim))
  | .callbackReturns _ => isTrue trivial

/-- **The lists are a skip list after every call**, whatever the calls are and
whichever levels are drawn, as long as no timer is set to expire at 0 and no
callback runs expired timers itself. No loop takes more rounds than there are
events in the run. -/
theorem skip_list_kept (slNext : ℕ → T → Option T) (expire period : T → ℕ) (es : List (Event T))
    (fuel : ℕ) (hfuel : es.length < fuel)
    (hwrap : AlongOption (step fuel) NoWrap (start slNext expire period) es)
    (hsound : AlongOption (step fuel) Sound (start slNext expire period) es) :
    ∃ s, runOption (step fuel) (start slNext expire period) es = some s ∧
      ∃ levels, SkipList s levels := by
  obtain ⟨s, hrun, L, height, hkept, -, -⟩ := run_between es
    (start_between slNext expire period) (by omega) hwrap hsound
  exact ⟨s, hrun, _, hkept.skipList⟩

/-- A run in which the callback of a periodical timer resets the next one. -/
def periodicalRun : List (Event Bool) :=
  [.reset true 5 10 true 2, .reset false 5 3 false 16, .manage 20, .reset false 20 5 false 2,
    .callbackReturns 2, .callbackReturns 16, .stop false]

/-- `skip_list_kept` for two timers, one of them periodical. -/
theorem skip_list_kept_periodical :
    ∃ s, runOption (step 8) (start (fun _ _ => some true) (fun _ => 7) (fun _ => 9)) periodicalRun
        = some s ∧
      ∃ levels, SkipList s levels :=
  skip_list_kept _ _ _ periodicalRun 8 (by decide) (by decide +kernel) (by decide +kernel)

omit [DecidableEq T] in
theorem not_skipList (hfirst : s.slNext 0 none = some t) (hstate : s.state t ≠ .pending) :
    ¬ ∃ levels, SkipList s levels := by
  rintro ⟨levels, h⟩
  refine hstate ((h.pending t).mp (mem_of_head? ?_))
  rw [← (h.leads 0).head?_eq, hfirst]

/-- The timer is set at the time 0 to expire at once, and stopped. -/
def zeroRun : List (Event Bool) := [.reset true 0 0 false 0, .stop true]

/-- The callback of the first timer sets it again, and runs the second one. -/
def nestedRun : List (Event Bool) :=
  [.reset true 1 4 false 0, .reset false 1 9 false 0, .manage 5, .reset true 5 20 false 0,
    .manage 10, .callbackReturns 0, .callbackReturns 0]

/-- **Two runs that leave a stopped timer in the lists**: `timer_del` does not
find one that expires at 0, and `rte_timer_manage` stops one that its callback
has set again, since the call that the callback makes resets `updated`. -/
theorem stopped_timer_listed :
    (AlongOption (step 3) NoWrap (start (fun _ _ => none) (fun _ => 0) (fun _ => 0)) zeroRun ∧
      ∃ s, runOption (step 3) (start (fun _ _ => none) (fun _ => 0) (fun _ => 0)) zeroRun = some s ∧
        ¬ ∃ levels, SkipList s levels) ∧
    (AlongOption (step 8) NoWrap (start (fun _ _ => none) (fun _ => 0) (fun _ => 0)) nestedRun ∧
      ∃ s, runOption (step 8) (start (fun _ _ => none) (fun _ => 0) (fun _ => 0)) nestedRun
          = some s ∧
        ¬ ∃ levels, SkipList s levels) :=
  ⟨⟨by decide +kernel, _, rfl, not_skipList (t := true) (by decide +kernel) (by decide +kernel)⟩,
    by decide +kernel, _, rfl, not_skipList (t := true) (by decide +kernel) (by decide +kernel)⟩

end Timer
