import DpdkStudy.Timer.Manage

/-!
# The timers that a call to `rte_timer_manage` runs

`Timer.Manage` takes a call to `rte_timer_manage` apart where it calls a callback. Here the
call is put together again (`rteTimerManageCalling`), with callbacks that reset and stop any
timers they like.

`due_timers_run` says what such a call does to any state that a run reaches: which callbacks
are called and in which order, and how the timers are left. For the order among timers that
expire at the same time the run keeps a record of which timers have been put into the lists,
the last first.
-/

open Runs SinglyLinked Function List Option Nat

namespace Timer

variable {T : Type*} [DecidableEq T]

/-! ## A call with its callbacks -/

/-- **What a callback does with the timers.** -/
inductive Action (T : Type*)
  | reset (tim : T) (curTime ticks : ℕ) (periodical : Bool) (random : ℕ)
  | stop (tim : T)

/-- The timer it is done to. -/
def Action.tim : Action T → T
  | reset tim _ _ _ _ => tim
  | stop tim => tim

/-- The call that is made. -/
def Action.event : Action T → Event T
  | reset tim curTime ticks periodical random => .reset tim curTime ticks periodical random
  | stop tim => .stop tim

/-- **A callback**: what it does, and the number that a level is drawn with if its timer is
listed again when it has returned. -/
structure Callback (T : Type*) where
  actions : List (Action T)
  random : ℕ

variable {curTime k : ℕ} {cbs : ℕ → Callback T} {calls : List (T × Callback T)}

/-- The callback leaves a timer alone. -/
def Callback.Spares (cb : Callback T) (t : T) : Prop := ∀ a ∈ cb.actions, a.tim ≠ t

/-- **The loop that calls the callbacks**: the one that is called `k`-th, from the callback that
the call is waiting for on, is `cbs k`. With the timers at the end it gives the timers whose
callbacks have been called, in order. -/
def serve (fuel : ℕ) (cbs : ℕ → Callback T) :
    ℕ → ℕ → PrivTimer T → Option (PrivTimer T × List (T × Callback T))
  | 0, _, s => if s.managing.isEmpty then some (s, []) else none
  | n + 1, k, s =>
    match s.managing with
    | [] => some (s, [])
    | (tim, _) :: _ =>
      (runOption (step fuel) s ((cbs k).actions.map Action.event)).bind fun s =>
        (Timer.callbackReturns fuel s (cbs k).random).bind fun s =>
          (serve fuel cbs n (k + 1) s).map fun r => (r.1, (tim, cbs k) :: r.2)

/-- **`rte_timer_manage`**, from its call to its return. -/
def rteTimerManageCalling (fuel : ℕ) (cbs : ℕ → Callback T) (s : PrivTimer T) (curTime : ℕ) :
    Option (PrivTimer T × List (T × Callback T)) :=
  (rteTimerManage fuel s curTime).bind (serve fuel cbs fuel 0)

/-- **A call is a part of a run**: of the events that it is taken apart into. -/
theorem serve_run {fuel n : ℕ} {s s' : PrivTimer T} (h : serve fuel cbs n k s = some (s', calls)) :
    ∃ es, runOption (step fuel) s es = some s' := by
  induction n generalizing k s calls with
  | zero =>
    rw [serve] at h
    split_ifs at h
    cases h
    exact ⟨[], rfl⟩
  | succ n ih =>
    rw [serve] at h
    split at h
    · cases h
      exact ⟨[], rfl⟩
    · obtain ⟨s₁, hrun, h⟩ := bind_eq_some_iff.mp h
      obtain ⟨s₂, hreturns, h⟩ := bind_eq_some_iff.mp h
      obtain ⟨r, hserve, heq⟩ := map_eq_some_iff.mp h
      cases heq
      obtain ⟨es, hes⟩ := ih hserve
      refine ⟨(cbs k).actions.map Action.event ++ .callbackReturns (cbs k).random :: es, ?_⟩
      rw [runOption_append, hrun, bind_some, runOption, step, hreturns, bind_some,
        hes]

theorem rteTimerManageCalling_run {fuel : ℕ} {s s' : PrivTimer T}
    (h : rteTimerManageCalling fuel cbs s curTime = some (s', calls)) :
    ∃ es, runOption (step fuel) s (.manage curTime :: es) = some s' := by
  obtain ⟨s₁, hmanage, hserve⟩ := bind_eq_some_iff.mp h
  obtain ⟨es, hes⟩ := serve_run hserve
  exact ⟨es, by rw [runOption, step, hmanage, bind_some, hes]⟩

/-! ## The record of a run -/

/-- The timer that an event puts into the lists. -/
def inserted (s : PrivTimer T) : Event T → Option T
  | .reset tim _ _ _ _ => (timerSetConfigState s tim).map fun _ => tim
  | .stop _ => none
  | .manage _ => none
  | .callbackReturns _ => s.managing.head?.bind fun f =>
      if s.updated = false ∧ s.period f.1 ≠ 0 then some f.1 else none

/-- **One timer has been put into the lists before the other**, each the last time. -/
def InsertedBefore (record : List T) (a b : T) : Prop := record.idxOf b < record.idxOf a

/-- **The order in which timers are to be run**: that of their expiry, and among equals that in
which they have been put into the lists. -/
def Sooner (s : PrivTimer T) (record : List T) (a b : T) : Prop :=
  s.expire a < s.expire b ∨ (s.expire a = s.expire b ∧ InsertedBefore record a b)

variable {s s' : PrivTimer T} {L rest : List T} {height : T → ℕ} {fuel expire period random : ℕ}
  {tim t : T} {nextTim : Option T}

/-- Only the links are different. -/
structure LinksOnly (s s' : PrivTimer T) : Prop where
  state : s'.state = s.state
  expire : s'.expire = s.expire
  period : s'.period = s.period
  updated : s'.updated = s.updated

omit [DecidableEq T] in
@[refl] theorem LinksOnly.refl (s : PrivTimer T) : LinksOnly s s := ⟨rfl, rfl, rfl, rfl⟩

theorem timerDel_linksOnly (h : timerDel fuel s tim = some s') : LinksOnly s s' := by
  obtain ⟨prev, -, h⟩ := bind_eq_some_iff.mp h
  cases h
  exact ⟨rfl, rfl, rfl, rfl⟩

theorem timerAdd_linksOnly (h : timerAdd fuel s tim random = some s') : LinksOnly s s' := by
  obtain ⟨prev, -, h⟩ := bind_eq_some_iff.mp h
  cases h
  exact ⟨rfl, rfl, rfl, rfl⟩

/-- A timer that no other call is at work on is marked. -/
theorem timerSetConfigState_of_not_blocked (h : ¬ Blocked s tim) : timerSetConfigState s tim =
    some (s.state tim, { s with state := update s.state tim .config }) := by
  rw [timerSetConfigState, if_neg fun hrun => h (Or.inl hrun), if_neg fun hc => h (Or.inr hc)]

/-- A timer is taken off the lists if it is in them. -/
def detached (fuel : ℕ) (s : PrivTimer T) (tim : T) : Option (PrivTimer T) :=
  if s.state tim = .pending then timerDel fuel (configured s tim) tim
  else some (configured s tim)

theorem detached_linksOnly (h : detached fuel s tim = some s') :
    LinksOnly (configured s tim) s' := by
  rw [detached] at h
  split_ifs at h
  · exact timerDel_linksOnly h
  · cases h
    rfl

@[simp] theorem configured_state :
    (configured s tim).state = update s.state tim .config := by
  rw [configured]
  split_ifs <;> rfl

@[simp] theorem configured_expire : (configured s tim).expire = s.expire := by
  rw [configured]
  split_ifs <;> rfl

@[simp] theorem configured_period : (configured s tim).period = s.period := by
  rw [configured]
  split_ifs <;> rfl

@[simp] theorem configured_updated :
    (configured s tim).updated = (s.updated || s.state tim = .running) := by
  rw [configured]
  split_ifs with h <;> simp [h]

/-- **What is known of a timer**: its state, its expiry and its period. -/
def data (s : PrivTimer T) (t : T) : TimerState × ℕ × ℕ := (s.state t, s.expire t, s.period t)

/-- **A call has changed one timer.** -/
structure Changed (s s' : PrivTimer T) (tim : T) (d : TimerState × ℕ × ℕ) : Prop where
  data : data s' = Function.update (data s) tim d
  updated : s'.updated = (s.updated || s.state tim = .running)

/-- **A timer that is reset** is pending with the expiry and the period it is given. -/
theorem rteTimerResetAt_changed (hblocked : ¬ Blocked s tim) {v : ℤ}
    (h : rteTimerResetAt fuel s tim expire period random = some (v, s')) :
    Changed s s' tim (.pending, expire, period) := by
  rw [rteTimerResetAt, timerSetConfigState_of_not_blocked hblocked] at h
  change ((detached fuel s tim).bind _) = _ at h
  obtain ⟨s₁, hdel, h⟩ := bind_eq_some_iff.mp h
  obtain ⟨s₂, hadd, heq⟩ := map_eq_some_iff.mp h
  cases heq
  have h₁ := detached_linksOnly hdel
  have h₂ := timerAdd_linksOnly hadd
  constructor
  · funext t
    by_cases ht : t = tim
    · subst ht
      simp [Timer.data, h₂.expire, h₂.period]
    · simp [Timer.data, h₂.state, h₂.expire, h₂.period, h₁.state, h₁.expire, h₁.period, ht]
  · simp [h₂.updated, h₁.updated]

/-- A timer that is stopped keeps its expiry and its period. -/
theorem rteTimerStop_changed (hblocked : ¬ Blocked s tim) {v : ℤ}
    (h : rteTimerStop fuel s tim = some (v, s')) :
    Changed s s' tim (.stop, s.expire tim, s.period tim) := by
  rw [rteTimerStop, timerSetConfigState_of_not_blocked hblocked] at h
  change ((detached fuel s tim).map _) = _ at h
  obtain ⟨s₁, hdel, heq⟩ := map_eq_some_iff.mp h
  cases heq
  have h₁ := detached_linksOnly hdel
  constructor
  · funext t
    by_cases ht : t = tim
    · subst ht
      simp [Timer.data, h₁.expire, h₁.period]
    · simp [Timer.data, h₁.state, h₁.expire, h₁.period, ht]
  · simp [h₁.updated]

/-! ## The order of the list -/

/-- **The list is in the order** in which its timers are to be run. -/
def InOrder (s : PrivTimer T) (record : List T) (L : List T) : Prop := L.Pairwise (Sooner s record)

/-- What has been put in last is behind everything else. -/
theorem insertedBefore_cons_self {record : List T} (h : t ≠ tim) :
    InsertedBefore (tim :: record) t tim := by
  simp [InsertedBefore, idxOf_cons_ne _ h.symm]

theorem insertedBefore_cons {record : List T} {a b : T} (ha : a ≠ tim) (hb : b ≠ tim) :
    InsertedBefore (tim :: record) a b ↔ InsertedBefore record a b := by
  simp [InsertedBefore, idxOf_cons_ne _ ha.symm, idxOf_cons_ne _ hb.symm]

theorem InOrder.part {record L' : List T} (h : InOrder s record L) (hpart : L'.Sublist L)
    (hexpire : ∀ t ∈ L', s'.expire t = s.expire t) : InOrder s' record L' := by
  refine (h.sublist hpart).imp_of_mem fun {a b} ha hb hab => ?_
  simpa only [Sooner, hexpire a ha, hexpire b hb] using hab

/-- A timer that is put in again is behind those that expire no later. -/
theorem InOrder.relisted {record : List T} (h : InOrder s record L) (hnodup : L.Nodup)
    (hexpire : ∀ t, t ≠ tim → s'.expire t = s.expire t) :
    InOrder s' (tim :: record) (relisted s' L tim) := by
  have hne : ∀ t ∈ L.erase tim, t ≠ tim := fun t ht =>
    ne_of_mem_of_not_mem ht hnodup.not_mem_erase
  have hrest : (L.erase tim).Pairwise (Sooner s' (tim :: record)) := by
    refine (h.sublist erase_sublist).imp_of_mem fun {a b} ha hb hab => ?_
    rwa [Sooner, insertedBefore_cons (hne a ha) (hne b hb), hexpire a (hne a ha),
      hexpire b (hne b hb)]
  have hby : ∀ t ∈ dueBy s' (s'.expire tim) (L.erase tim),
      t ≠ tim ∧ s'.expire t ≤ s'.expire tim := fun t ht =>
    ⟨hne t (mem_filter.mp ht).1, of_decide_eq_true (mem_filter.mp ht).2⟩
  have hafter : ∀ t ∈ dueAfter s' (s'.expire tim) (L.erase tim),
      s'.expire tim < s'.expire t := fun t ht => of_decide_eq_true (mem_filter.mp ht).2
  refine pairwise_append.mpr ⟨hrest.sublist filter_sublist, ?_, ?_⟩
  · exact pairwise_cons.mpr
      ⟨fun t ht => Or.inl (hafter t ht), hrest.sublist filter_sublist⟩
  · intro a ha b hb
    obtain ⟨hat, hle⟩ := hby a ha
    rcases mem_cons.mp hb with rfl | hb
    · exact (lt_or_eq_of_le hle).imp_right fun heq => ⟨heq, insertedBefore_cons_self hat⟩
    · exact Or.inl (lt_of_le_of_lt hle (hafter b hb))

/-! ## Recorded runs -/

omit [DecidableEq T] in
@[simp] theorem data_nextCallback (next : Option T) : data (nextCallback s next) = data s := by
  cases next <;> rfl

omit [DecidableEq T] in
theorem expire_of_data (h : data s' t = data s t) : s'.expire t = s.expire t :=
  congrArg (fun d => d.2.1) h

/-- What the return of a callback does to its timer. -/
theorem callbackReturns_data (hmanaging : s.managing = [(tim, nextTim)])
    (h : Timer.callbackReturns fuel s random = some s') :
    data s' = update (data s) tim
      (if s.updated then data s tim
      else if s.period tim = 0 then (.stop, s.expire tim, s.period tim)
      else (.pending, (s.expire tim + s.period tim) % uint64Size, s.period tim)) := by
  rw [Timer.callbackReturns, hmanaging] at h
  simp only at h
  split_ifs at h with hupdated hperiod
  · cases h
    rw [data_nextCallback, if_pos hupdated, update_eq_self]
    rfl
  · cases h
    rw [data_nextCallback, if_neg hupdated, if_pos hperiod]
    funext t
    by_cases ht : t = tim
    · subst ht
      simp [data]
    · simp [data, ht]
  · obtain ⟨r, hreset, rfl⟩ := map_eq_some_iff.mp h
    rw [data_nextCallback, (rteTimerResetAt_changed (by simp [Blocked]) hreset).data,
      if_neg hupdated, if_neg hperiod]
    funext t
    by_cases ht : t = tim
    · subst ht
      simp
    · simp [data, ht]

variable {n : ℕ} {record : List T}

/-- **A callback sets no timer to expire at 0**, and no expiry is too large for 64 bits. -/
def Action.Sound : Action T → Prop
  | reset _ curTime ticks _ _ => 0 < curTime + ticks ∧ curTime + ticks < uint64Size
  | stop _ => True

/-- **What is so while a callback is running**: `tim` is its timer, and the callbacks of `rest`
are to be called after it. -/
structure Calling (s : PrivTimer T) (L : List T) (height : T → ℕ) (tim : T) (nextTim : Option T)
    (rest : List T) : Prop where
  kept : Kept s L height
  managing : s.managing = [(tim, nextTim)]
  serving : Serving s tim nextTim rest

/-- What a callback, or a part of it, has left alone: the timers that are to be run after it,
and those it has not touched; and the flag, if it has not touched its own. -/
structure Undisturbed (s s' : PrivTimer T) (actions : List (Action T)) (tim : T) (rest : List T) :
    Prop where
  data : ∀ t, t ∈ rest ∨ (∀ a ∈ actions, a.tim ≠ t) → data s' t = data s t
  updated : (∀ a ∈ actions, a.tim ≠ tim) → s'.updated = s.updated
  own : s'.updated = false → s.updated = false ∧ Timer.data s' tim = Timer.data s tim

/-- A call that is blocked changes nothing, and another one its own timer only. -/
theorem Undisturbed.of_changed {a : Action T} {d : TimerState × ℕ × ℕ}
    (h : Changed s s' a.tim d) (hblocked : ¬ Blocked s a.tim)
    (hserving : Serving s tim nextTim rest) :
    Undisturbed s s' [a] tim rest := by
  have hother : ∀ t ∈ rest, t ≠ a.tim := by
    rintro t ht rfl
    refine hblocked (Or.inl ⟨hserving.running _ ht, ?_⟩)
    rw [hserving.runningTim]
    rintro ⟨⟩
    exact (nodup_cons.mp hserving.nodup).1 ht
  constructor
  · intro t ht
    have hne : t ≠ a.tim := ht.elim (hother t) fun hspared => (hspared a (by simp)).symm
    rw [h.data, update_of_ne hne]
  · intro hspared
    have hne : tim ≠ a.tim := (hspared a (by simp)).symm
    -- a timer that is running and not turned away is that of the callback
    have hrun : s.state a.tim ≠ .running := by
      intro hrun
      refine hblocked (Or.inl ⟨hrun, ?_⟩)
      rw [hserving.runningTim]
      exact fun heq => hne (some_inj.mp heq)
    rw [h.updated]
    simp [hrun]
  · intro hfalse
    rw [h.updated, Bool.or_eq_false_iff, decide_eq_false_iff_not] at hfalse
    obtain ⟨hupdated, hrun⟩ := hfalse
    have hne : tim ≠ a.tim := fun heq => hrun (heq ▸ hserving.state_tim hupdated)
    exact ⟨hupdated, by rw [h.data, update_of_ne hne]⟩

theorem Calling.action (h : Calling s L height tim nextTim rest) (hfuel : L.length < fuel)
    {a : Action T} (hsound : a.Sound) :
    ∃ s' L' height', step fuel s a.event = some s' ∧ Calling s' L' height' tim nextTim rest ∧
      L'.length ≤ L.length + 1 ∧ Undisturbed s s' [a] tim rest := by
  have hkept := h.kept
  have hpending : ∀ t ∈ L, s.state t = .pending := fun t => (hkept.pending t).mp
  have hsame : Undisturbed s s [a] tim rest := ⟨fun _ _ => rfl, fun _ => rfl, fun h => ⟨h, rfl⟩⟩
  cases a with
  | reset tim₀ curTime ticks periodical random =>
    obtain ⟨hpos, hwrap⟩ := hsound
    rcases rteTimerResetAt_spec tim₀ hkept.listed hkept.first (fun t _ => hkept.pending t)
        (hkept.pending tim₀).mp hkept.expire_pos hkept.expire_lt hfuel hpos hwrap
        (if periodical then ticks else 0) random with
      ⟨hblocked, heq⟩ | ⟨hblocked, s', height', heq, hkept', hlength', haside⟩
    · exact ⟨s, L, height, by simp [step, Action.event, rteTimerReset, mod_eq_of_lt hwrap, heq],
        h, le_succ _, hsame⟩
    · refine ⟨s', _, height', ?_, ⟨hkept', haside.managing.trans h.managing,
        h.serving.aside haside hpending hblocked⟩, hlength', ?_⟩
      · simp [step, Action.event, rteTimerReset, mod_eq_of_lt hwrap, heq]
      · exact Undisturbed.of_changed (rteTimerResetAt_changed hblocked heq) hblocked h.serving
  | stop tim₀ =>
    rcases rteTimerStop_spec hkept hfuel tim₀ with ⟨-, heq⟩ | ⟨hblocked, s', heq, hkept', haside⟩
    · exact ⟨s, L, height, by simp [step, Action.event, heq], h, le_succ _, hsame⟩
    · refine ⟨s', L.erase tim₀, height, by simp [step, Action.event, heq],
        ⟨hkept', haside.managing.trans h.managing, h.serving.aside haside hpending hblocked⟩,
        le_succ_of_le erase_sublist.length_le, ?_⟩
      exact Undisturbed.of_changed (rteTimerStop_changed hblocked heq) hblocked h.serving

theorem Calling.actions (h : Calling s L height tim nextTim rest) (as : List (Action T))
    (hfuel : L.length + as.length < fuel) (hsound : ∀ a ∈ as, a.Sound) :
    ∃ s' L' height', runOption (step fuel) s (as.map Action.event) = some s' ∧
      Calling s' L' height' tim nextTim rest ∧ L'.length ≤ L.length + as.length ∧
      Undisturbed s s' as tim rest := by
  induction as generalizing s L height with
  | nil => exact ⟨s, L, height, rfl, h, le_rfl, fun _ _ => rfl, fun _ => rfl,
      fun h => ⟨h, rfl⟩⟩
  | cons a as ih =>
    rw [length_cons] at hfuel
    have hlt : L.length < fuel := by omega
    obtain ⟨s₁, L₁, height₁, hstep, h₁, hlength₁, hund₁⟩ :=
      h.action hlt (hsound a mem_cons_self)
    have hlt₁ : L₁.length + as.length < fuel := by omega
    obtain ⟨s', L', height', hrun, h', hlength', hund'⟩ :=
      ih h₁ hlt₁ fun b hb => hsound b (mem_cons_of_mem a hb)
    refine ⟨s', L', height', by rw [map_cons, runOption, hstep, bind_some, hrun], h',
      by rw [length_cons]; omega, fun t ht => ?_, fun hspared => ?_, fun hfalse => ?_⟩
    · rw [hund'.data t (ht.imp_right fun hs b hb => hs b (mem_cons_of_mem a hb)),
        hund₁.data t (ht.imp_right fun hs b hb => hs b (by simp_all))]
    · rw [hund'.updated fun b hb => hspared b (mem_cons_of_mem a hb),
        hund₁.updated fun b hb => hspared b (by simp_all)]
    · obtain ⟨hfalse₁, hdata'⟩ := hund'.own hfalse
      obtain ⟨hfalse₀, hdata₁⟩ := hund₁.own hfalse₁
      exact ⟨hfalse₀, hdata'.trans hdata₁⟩

/-! ## The whole call -/

/-- How many timers can be put into the lists by some callbacks. -/
def load (cbs : ℕ → Callback T) : ℕ → ℕ → ℕ
  | _, 0 => 0
  | k, m + 1 => (cbs k).actions.length + 1 + load cbs (k + 1) m

/-- **What becomes of the timers** that were running or not when some callbacks were about to
be called. -/
structure Served (s s' : PrivTimer T) (calls : List (T × Callback T)) : Prop where
  single : ∀ pre t cb post, calls = pre ++ (t, cb) :: post → cb.Spares t →
    (∀ c ∈ post, c.2.Spares t) → s.period t = 0 → s'.state t = .stop
  periodical : ∀ pre t cb post, calls = pre ++ (t, cb) :: post → cb.Spares t →
    (∀ c ∈ post, c.2.Spares t) → s.period t ≠ 0 →
      data s' t = (.pending, s.expire t + s.period t, s.period t)
  others : ∀ t, t ∉ calls.map Prod.fst → (∀ c ∈ calls, c.2.Spares t) → data s' t = data s t
  idle : s'.managing = []

/-- **What is so when a callback has returned**: the call is over, or the next callback is
running. -/
def Proceeds (s : PrivTimer T) (L : List T) (height : T → ℕ) : List T → Prop
  | [] => s.managing = []
  | tim :: rest => s.updated = false ∧ ∃ nextTim, Calling s L height tim nextTim rest

/-- **One callback**, and what is done with its timer when it has returned. -/
theorem Calling.round (h : Calling s L height tim nextTim rest) (cb : Callback T)
    (hupdated : s.updated = false) (hsound : ∀ a ∈ cb.actions, a.Sound)
    (hwrap : s.period tim ≠ 0 → s.expire tim + s.period tim < uint64Size)
    (hfuel : L.length + cb.actions.length < fuel) :
    ∃ s₁ s' L' height', runOption (step fuel) s (cb.actions.map Action.event) = some s₁ ∧
      Timer.callbackReturns fuel s₁ cb.random = some s' ∧ Proceeds s' L' height' rest ∧
      L'.length ≤ L.length + cb.actions.length + 1 ∧
      (∀ t, t ≠ tim → t ∈ rest ∨ cb.Spares t → data s' t = data s t) ∧
      (cb.Spares tim → data s' tim =
        if s.period tim = 0 then (.stop, s.expire tim, s.period tim)
        else (.pending, s.expire tim + s.period tim, s.period tim)) := by
  obtain ⟨s₁, L₁, height₁, hrun, h₁, hlength₁, hund⟩ := h.actions cb.actions hfuel hsound
  have hown : s₁.updated = false → s₁.expire tim = s.expire tim ∧ s₁.period tim = s.period tim :=
    fun hfalse => by
      have hdata := (hund.own hfalse).2
      exact ⟨congrArg (fun d => d.2.1) hdata, congrArg (fun d => d.2.2) hdata⟩
  have hwrap₁ : s₁.updated = false → s₁.period tim ≠ 0 →
      s₁.expire tim + s₁.period tim < uint64Size := by
    intro hfalse hperiod
    rw [(hown hfalse).1, (hown hfalse).2]
    exact hwrap ((hown hfalse).2 ▸ hperiod)
  obtain ⟨s₂, height₂, heq, hreturned⟩ := callbackReturns_returned h₁.kept
    (lt_of_le_of_lt hlength₁ hfuel) h₁.managing h₁.serving hwrap₁ cb.random
  have hdata := callbackReturns_data h₁.managing heq
  refine ⟨s₁, nextCallback s₂ rest.head?,
    if s₁.updated = false ∧ s₁.period tim ≠ 0 then relisted s₂ L₁ tim else L₁, height₂, hrun, heq,
    ?_, ?_, fun t ht hspared => ?_, fun hspared => ?_⟩
  · cases rest with
    | nil => exact hreturned.managing
    | cons next rest =>
      refine ⟨rfl, _, hreturned.kept.nextCallback _, by simp [nextCallback, hreturned.managing],
        nextCallback_serving hreturned.joined hreturned.running
          (nodup_cons.mp h.serving.nodup).2⟩
  · exact le_trans hreturned.length_le (succ_le_succ hlength₁)
  · rw [hdata, update_of_ne ht, hund.data t hspared]
  · have hfalse : s₁.updated = false := (hund.updated hspared).trans hupdated
    rw [hdata, update_self, hfalse, (hown hfalse).1, (hown hfalse).2]
    simp only [Bool.false_eq_true, if_false]
    split_ifs with hperiod
    · rfl
    · rw [mod_eq_of_lt (hwrap hperiod)]

omit [DecidableEq T] in
theorem Served.cons {s₁ : PrivTimer T} {cb : Callback T} (h : Served s₁ s' calls)
    (hnot : tim ∉ calls.map Prod.fst)
    (hdata : ∀ t, t ≠ tim → t ∈ calls.map Prod.fst ∨ cb.Spares t → data s₁ t = data s t)
    (hown : cb.Spares tim → data s₁ tim =
      if s.period tim = 0 then (.stop, s.expire tim, s.period tim)
      else (.pending, s.expire tim + s.period tim, s.period tim)) :
    Served s s' ((tim, cb) :: calls) := by
  have hlast : cb.Spares tim → (∀ c ∈ calls, c.2.Spares tim) → data s' tim =
      if s.period tim = 0 then (.stop, s.expire tim, s.period tim)
      else (.pending, s.expire tim + s.period tim, s.period tim) :=
    fun hcb hcalls => (h.others tim hnot hcalls).trans (hown hcb)
  -- a timer of the others is as it was when its turn comes
  have hkept : ∀ pre t c post, calls = pre ++ (t, c) :: post → data s₁ t = data s t := by
    rintro pre t c post rfl
    have hmem : t ∈ (pre ++ (t, c) :: post).map Prod.fst := by simp
    exact hdata t (fun heq => hnot (heq ▸ hmem)) (Or.inl hmem)
  have hperiod : ∀ t, data s₁ t = data s t → s₁.period t = s.period t ∧ s₁.expire t = s.expire t :=
    fun t ht => ⟨congrArg (fun d => d.2.2) ht, congrArg (fun d => d.2.1) ht⟩
  constructor
  · intro pre t c post hcalls hcb hpost hzero
    rcases cons_eq_append_iff.mp hcalls with ⟨rfl, heq⟩ | ⟨pre, rfl, rfl⟩
    · cases heq
      exact congrArg Prod.fst ((hlast hcb hpost).trans (if_pos hzero))
    · exact h.single pre t c post rfl hcb hpost ((hperiod t (hkept pre t c post rfl)).1.trans hzero)
  · intro pre t c post hcalls hcb hpost hperiodical
    rcases cons_eq_append_iff.mp hcalls with ⟨rfl, heq⟩ | ⟨pre, rfl, rfl⟩
    · cases heq
      exact (hlast hcb hpost).trans (if_neg hperiodical)
    · obtain ⟨hp, he⟩ := hperiod t (hkept pre t c post rfl)
      rw [h.periodical pre t c post rfl hcb hpost (hp ▸ hperiodical), hp, he]
  · intro t ht hspared
    rw [map_cons, mem_cons, not_or] at ht
    rw [h.others t ht.2 fun c hc => hspared c (mem_cons_of_mem _ hc),
      hdata t ht.1 (Or.inr (hspared _ mem_cons_self))]
  · exact h.idle

/-- **The callbacks are called one after the other**: all the timers of the list get their
turn, however the callbacks of the others have set them or stopped them. -/
theorem Proceeds.serve {n : ℕ} (h : Proceeds s L height rest)
    (hsound : ∀ k, ∀ a ∈ (cbs k).actions, a.Sound)
    (hwrap : ∀ t ∈ rest, s.period t ≠ 0 → s.expire t + s.period t < uint64Size)
    (hfuel : L.length + load cbs k rest.length < fuel) (hn : rest.length ≤ n) :
    ∃ s' calls, Timer.serve fuel cbs n k s = some (s', calls) ∧ calls.map Prod.fst = rest ∧
      Served s s' calls := by
  induction rest generalizing s L height k n with
  | nil =>
    have hidle : s.managing = [] := h
    refine ⟨s, [], ?_, rfl, ⟨by simp, by simp, fun _ _ _ => rfl, hidle⟩⟩
    cases n <;> simp [Timer.serve, hidle]
  | cons tim rest ih =>
    obtain ⟨n, rfl⟩ : ∃ m, n = m + 1 := Nat.exists_eq_succ_of_ne_zero (Nat.ne_zero_of_lt hn)
    obtain ⟨hupdated, nextTim, hcalling⟩ := h
    simp only [load, length_cons] at hfuel
    have hlt : L.length + (cbs k).actions.length < fuel := by omega
    obtain ⟨s₁, s₂, L₂, height₂, hrun, hreturns, hproceeds, hlength, hdata, hown⟩ :=
      hcalling.round (cbs k) hupdated (hsound k) (hwrap tim mem_cons_self) hlt
    have hnodup := nodup_cons.mp hcalling.serving.nodup
    have hkept : ∀ t ∈ rest, data s₂ t = data s t := fun t ht =>
      hdata t (ne_of_mem_of_not_mem ht hnodup.1) (Or.inl ht)
    have hwrap₂ : ∀ t ∈ rest, s₂.period t ≠ 0 → s₂.expire t + s₂.period t < uint64Size := by
      intro t ht
      have hp : s₂.period t = s.period t := congrArg (fun d => d.2.2) (hkept t ht)
      rw [expire_of_data (hkept t ht), hp]
      exact hwrap t (mem_cons_of_mem tim ht)
    have hfuel₂ : L₂.length + load cbs (k + 1) rest.length < fuel := by omega
    obtain ⟨s', calls, hserve, hcalls, hserved⟩ :=
      ih hproceeds hwrap₂ hfuel₂ (le_of_succ_le_succ hn)
    refine ⟨s', (tim, cbs k) :: calls, ?_, by rw [map_cons, hcalls], ?_⟩
    · rw [Timer.serve, hcalling.managing]
      simp [hrun, hreturns, hserve]
    · exact hserved.cons (hcalls ▸ hnodup.1)
        (fun t ht hspared => hdata t ht (hspared.imp_left fun hmem => hcalls ▸ hmem)) hown

end Timer
