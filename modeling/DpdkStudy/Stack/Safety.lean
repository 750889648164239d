import DpdkStudy.Stack.Steps

/-!
# The lock-free stack is a stack

What holds in every state that the threads of a stack reach, in whatever order they
make their accesses (`run_safe`). No element is in two places. The objects are a
stack: each push and pop takes effect at one CAS of the used list, and what it has
returned is what it has done then. A call gives up only if the list that it takes
from is shorter than it needs when it looks. A call about no objects returns zero as
well, whatever the length is (`gives_up_on_nothing`).
-/

open List Option

namespace Stack

open Function Links Runs

variable {T α : Type*} [DecidableEq T]

variable {count : ℕ} {sys : System T α} {L : Place T → List ℕ}

/-! ## In the beginning -/

theorem stackLfInit_free (next : ℕ → Option ℕ) (data : ℕ → α) (hcount : count < word64) :
    (stackLfInit next data count).list .used = ⟨⟨none, 0⟩, 0⟩ ∧
    ((stackLfInit next data count).list .free).len = count ∧
    Path (stackLfInit next data count).next ((stackLfInit next data count).list .free).head.top
      (range count).reverse none := by
  induction count with
  | zero => exact ⟨rfl, rfl, rfl⟩
  | succ k ih =>
    obtain ⟨hused, hlen, hpath⟩ := ih (Nat.lt_of_succ_lt hcount)
    have hsucc : stackLfInit next data (k + 1) =
        (stackLfInit next data k).pushElems .free k k 1 := by
      simp [stackLfInit, range_succ]
    rw [hsucc, StackLf.pushElems]
    refine ⟨?_, ?_, ?_⟩
    · simpa using hused
    · simp [hlen, Nat.mod_eq_of_lt hcount]
    · rw [range_succ, reverse_append, reverse_singleton, singleton_append]
      refine ⟨by simp, ?_⟩
      simp only [update_self]
      refine hpath.congr (fun a ha => update_of_ne ?_ _ _)
      exact (mem_range.mp (mem_reverse.mp ha)).ne

variable [Fintype T]

theorem Inv.init (next : ℕ → Option ℕ) (data : ℕ → α) (hcount : count < word64) :
    Inv count (System.init next data count : System T α)
      (update (fun _ => []) (.list .free) (range count).reverse) := by
  obtain ⟨hused, hlen, hpath⟩ := stackLfInit_free next data hcount
  refine ⟨⟨fun p => ?_, fun p q hpq e he => ?_, fun e => ?_⟩, fun which => ?_, fun which => ?_,
    fun t => ?_, ?_, fun t => rfl, fun t r hr => absurd hr not_mem_nil⟩
  · by_cases h : p = .list .free
    · rw [h, update_self, nodup_reverse]
      exact nodup_range
    · simp [h]
  · by_cases h : p = .list .free
    · simp [h ▸ hpq.symm]
    · simp [h] at he
  · constructor
    · exact fun he => ⟨.list .free, by simpa using he⟩
    · rintro ⟨p, he⟩
      by_cases h : p = .list .free
      · simpa [h] using he
      · simp [h] at he
  · cases which with
    | used => simp [System.init, hused, Links.Path]
    | free => simpa [System.init] using hpath
  · cases which with
    | used => simp [System.init, hused, Pc.reserved]
    | free => simp [System.init, hlen, Pc.reserved]
  · simp [System.init, Local]
  · simp [System.init, Replays]

/-- The invariant holds in every state that is reached. -/
theorem Inv.run {c11 : Bool} {next : ℕ → Option ℕ} {data : ℕ → α} {es : List (T × Act α)}
    (hcount : count < 2 ^ 32)
    (hes : AlongOption (Stack.step c11) NoWrap (System.init next data count) es)
    (hrun : runOption (Stack.step c11) (System.init next data count) es = some sys) :
    ∃ L, Inv count sys L := by
  have hword : count < word64 := hcount.trans (by decide)
  refine hes.invariant (P := fun sys => ∃ L, Inv count sys L) ?_ hrun
    ⟨_, Inv.init next data hword⟩
  rintro sys e sys' ⟨L, hi⟩ hwrap hstep
  exact hi.step hword hstep hwrap

/-! ## The objects -/

/-- The objects of all pushes. -/
def pushed : List (T × Op α) → List α
  | [] => []
  | (_, .push objs) :: log => objs ++ pushed log
  | (_, .pop _) :: log => pushed log

/-- The objects of all pops. -/
def popped : List (T × Op α) → List α
  | [] => []
  | (_, .push _) :: log => popped log
  | (_, .pop objs) :: log => objs ++ popped log

omit [DecidableEq T] [Fintype T] in
/-- What has been pushed has been popped once or is on the stack. -/
theorem Replays.perm {log : List (T × Op α)} {objs : List α} (h : Replays log objs) :
    (pushed log).Perm (popped log ++ objs) := by
  induction log generalizing objs with
  | nil =>
    obtain rfl : objs = [] := h
    exact List.Perm.refl _
  | cons e log ih =>
    obtain ⟨t, op⟩ := e
    cases op with
    | push new =>
      obtain ⟨rest, rfl, hrest⟩ := h
      have hnew : (new ++ pushed log).Perm (new.reverse ++ (popped log ++ rest)) :=
        (reverse_perm new).symm.append (ih hrest)
      refine hnew.trans ?_
      rw [← append_assoc, ← append_assoc]
      exact perm_append_comm.append_right rest
    | pop old =>
      have hold : (pushed log).Perm (popped log ++ (old ++ objs)) := ih h
      refine hold.trans ?_
      rw [← append_assoc]
      exact perm_append_comm.append_right objs

/-! ## The statement -/

/-- **What a thread has taken**: a piece of a list, or nothing. -/
def Owns (s : StackLf α) (es : List ℕ) : Pc α → Prop
  | .fill c b _ _ => BatchOk s es c b
  | .fillNext c b _ _ => BatchOk s es c b
  | .pushHead c b _ => BatchOk s es c b
  | .link c b _ => BatchOk s es c b
  | .pushCas c b _ => BatchOk s es c b
  | _ => es = []

/-- **A call gives up** only if its list is too short at this moment. -/
def GivesUpShort (c11 : Bool) (sys : System T α) : Prop :=
  ∀ e sys' r, NoWrap sys e → step c11 sys e = some sys' →
    sys'.results e.1 = r :: sys.results e.1 → r.ret = 0 →
      (sys.s.list r.call.src).len < r.call.num

/-- A call about something gives up only if its list is too short at this moment. -/
def GivesUpShortOrNothing (c11 : Bool) (sys : System T α) : Prop :=
  ∀ e sys' r, NoWrap sys e → step c11 sys e = some sys' →
    sys'.results e.1 = r :: sys.results e.1 → r.ret = 0 →
      r.call.num = 0 ∨ (sys.s.list r.call.src).len < r.call.num

/-- **A stack between threads**, with its elements where they are. -/
structure Safe (count : ℕ) (sys : System T α) (L : Place T → List ℕ) : Prop where
  /-- Every element is in one list or with one thread. -/
  placed : Placed count L
  linked : ∀ which, Path sys.s.next (sys.s.list which).head.top (L (.list which)) none
  owns : ∀ t, Owns sys.s (L (.call t)) (sys.pc t)
  /-- The objects in use are a stack. -/
  lifo : Replays sys.log ((L (.list .used)).map sys.s.data)
  once : (pushed sys.log).Perm (popped sys.log ++ (L (.list .used)).map sys.s.data)
  /-- What a thread has done to the stack is what its calls have returned. -/
  history : ∀ t, opsOf sys.log t =
    (sys.pc t).current.toList ++ (sys.results t).filterMap Result.op
  returned : ∀ t, ∀ r ∈ sys.results t, r.ret = 0 ∨ r.ret = r.call.num ∧
    ∀ n, r.call = .pop n → r.objs.length = n
  /-- Without calls the lengths are right. -/
  len : (∀ t, sys.pc t = .idle) →
    (∀ which, (sys.s.list which).len = (L (.list which)).length) ∧
      (sys.s.list .used).len + (sys.s.list .free).len = count
  /-- A CAS that takes elements takes those that the walk has seen. -/
  walks : ∀ t c w, sys.pc t = .popCas c w →
    (sys.s.list c.src).head.cnt < w.old.cnt + word64 →
    System.Matches (sys.s.list c.src).head w.old → w.old = (sys.s.list c.src).head ∧
      c.num ≤ (L (.list c.src)).length ∧
      Path sys.s.next (sys.s.list c.src).head.top ((L (.list c.src)).take c.num) w.tmp ∧
      w.last = ((L (.list c.src)).take c.num).getLast? ∧
      w.objs = c.reads sys.s.data ((L (.list c.src)).take c.num)

theorem Inv.owns (hi : Inv count sys L) (t : T) : Owns sys.s (L (.call t)) (sys.pc t) := by
  have hhere := hi.here t
  cases hpc : sys.pc t with
  | idle =>
    rw [hpc] at hhere
    exact hhere
  | addLen c b =>
    rw [hpc] at hhere
    exact hhere.2.1
  | _ =>
    rw [hpc] at hhere
    first
    | exact hhere.2
    | exact hhere.2.1

theorem Inv.len_idle (hi : Inv count sys L) (hidle : ∀ t, sys.pc t = .idle) :
    (∀ which, (sys.s.list which).len = (L (.list which)).length) ∧
      (sys.s.list .used).len + (sys.s.list .free).len = count := by
  have hlen : ∀ which, (sys.s.list which).len = (L (.list which)).length := by
    intro which
    simp [hi.len which, hidle, Pc.reserved]
  have hcall : ∀ t, L (.call t) = [] := by
    intro t
    have hhere := hi.here t
    rwa [hidle t] at hhere
  have hnodup : (L (.list .used) ++ L (.list .free)).Nodup :=
    nodup_append.mpr ⟨hi.placed.nodup _, hi.placed.nodup _,
      fun a ha b hb hab => hi.placed.apart (.list .used) (.list .free) (by simp) a ha (hab ▸ hb)⟩
  have hperm : (L (.list .used) ++ L (.list .free)).Perm (range count) := by
    refine (perm_ext_iff_of_nodup hnodup nodup_range).mpr (fun e => ?_)
    rw [mem_range, hi.placed.covered, mem_append]
    constructor
    · exact fun h => h.elim (fun h => ⟨_, h⟩) (fun h => ⟨_, h⟩)
    · rintro ⟨p, hp⟩
      cases p with
      | list l =>
        cases l with
        | used => exact Or.inl hp
        | free => exact Or.inr hp
      | call t => simp [hcall t] at hp
  refine ⟨hlen, ?_⟩
  rw [hlen, hlen, ← length_append, hperm.length_eq, length_range]

theorem Inv.safe (hi : Inv count sys L) :
    Safe count sys L where
  placed := hi.placed
  linked := hi.linked
  owns := hi.owns
  lifo := hi.replays
  once := hi.replays.perm
  history := hi.history
  returned := hi.objs
  len := hi.len_idle
  walks := by
    intro t c w hpc hwrap hmatches
    have hhere := hi.here t
    rw [hpc] at hhere
    obtain ⟨hnum, -, hw, hwi⟩ := hhere
    have hold := head_eq_old hmatches hw.cnt_le hwrap
    obtain ⟨hle, hpath, hlast, hobjs⟩ := hw.right hold
    rw [hwi] at hle hpath hlast hobjs
    exact ⟨hold, hle, hold ▸ hpath, hlast, hobjs⟩

/-! ## Giving up -/

omit [Fintype T] in
/-- The check of the length returns zero only if there is too little. -/
theorem checkLen_short {t : T} {c : Call α} {len : ℕ} {r : Result α}
    (hr : (sys.checkLen t c len).results t = r :: sys.results t) :
    r.call = c ∧ len < c.num := by
  rw [System.checkLen] at hr
  split_ifs at hr with hlt
  · simp only [System.finish, update_self, cons.injEq, and_true] at hr
    rw [← hr]
    exact ⟨rfl, hlt⟩
  · exact absurd hr.symm (cons_ne_self _ _)

omit [Fintype T] in
theorem fill_results {sys' : System T α} {t : T} {c : Call α} {b : Batch α} {i : ℕ} {tmp : Option ℕ}
    (h : sys.fill t c b i tmp = some sys') : sys'.results = sys.results := by
  cases c with
  | pop n =>
    simp only [System.fill] at h
    split_ifs at h
    exact some.inj h ▸ rfl
  | push objs =>
    cases tmp with
    | none =>
      simp only [System.fill] at h
      split_ifs at h
      exact some.inj h ▸ rfl
    | some e =>
      simp only [System.fill] at h
      split_ifs at h
      · obtain ⟨obj, -, rfl⟩ := map_eq_some_iff.mp h
        rfl
      · exact some.inj h ▸ rfl

/-- A call returns zero at the check of the length. -/
theorem Inv.gives_up (hi : Inv count sys L) (c11 : Bool) : GivesUpShortOrNothing c11 sys := by
  rintro ⟨t, act⟩ sys' r hwrap hstep hr hret
  have hkeep : ∀ {rs : List (Result α)}, rs = r :: rs → False := fun h =>
    cons_ne_self _ _ h.symm
  rw [NoWrap] at hwrap
  rw [Stack.step] at hstep
  cases act with
  | begin c =>
    cases hpc : sys.pc t with
    | idle =>
      simp only [hpc] at hstep
      obtain rfl := some.inj hstep
      rw [System.enter] at hr
      split_ifs at hr with hnum
      · simp only [System.finish, update_self, cons.injEq, and_true] at hr
        rw [← hr]
        exact Or.inl hnum
      · exact (hkeep hr).elim
    | _ => simp [hpc] at hstep
  | go flag =>
    cases hpc : sys.pc t with
    | idle => simp [hpc] at hstep
    | loadLen c =>
      simp only [hpc] at hstep
      obtain rfl := some.inj hstep
      obtain ⟨rfl, hlt⟩ := checkLen_short hr
      exact Or.inr hlt
    | casLen c len =>
      simp only [hpc] at hstep
      obtain rfl := some.inj hstep
      rw [System.casLen] at hr
      split_ifs at hr with hcas hc11
      · exact (hkeep hr).elim
      · obtain ⟨rfl, hlt⟩ := checkLen_short hr
        exact Or.inr hlt
      · exact (hkeep hr).elim
    | popHead c part =>
      simp only [hpc] at hstep
      obtain rfl := some.inj hstep
      cases part <;> exact (hkeep hr).elim
    | walk c w =>
      simp only [hpc] at hstep
      obtain rfl := some.inj hstep
      rw [System.walk] at hr
      split_ifs at hr with hlt
      · cases htmp : w.tmp <;> rw [htmp] at hr <;> exact (hkeep hr).elim
      · exact (hkeep hr).elim
    | walkNext c w tmp =>
      simp only [hpc] at hstep
      obtain rfl := some.inj hstep
      exact (hkeep hr).elim
    | popCas c w =>
      simp only [hpc] at hstep hwrap
      obtain rfl := some.inj hstep
      have hhere := hi.here t
      rw [hpc] at hhere
      obtain ⟨hnum, -, hw, hwi⟩ := hhere
      rw [System.popCas] at hr
      split_ifs at hr with hcas
      · have hold := head_eq_old hcas.1 hw.cnt_le hwrap
        obtain ⟨first, last, htop, hlast, -⟩ := hw.taken hnum hwi hold
        simp only [htop, hlast] at hr
        cases c <;> exact (hkeep hr).elim
      · exact (hkeep hr).elim
    | fill c b i tmp =>
      simp only [hpc] at hstep
      exact (hkeep ((congrFun (fill_results hstep) t).symm.trans hr)).elim
    | fillNext c b i tmp =>
      simp only [hpc] at hstep
      obtain rfl := some.inj hstep
      exact (hkeep hr).elim
    | pushHead c b part =>
      simp only [hpc] at hstep
      obtain rfl := some.inj hstep
      cases part <;> exact (hkeep hr).elim
    | link c b old =>
      simp only [hpc] at hstep
      obtain rfl := some.inj hstep
      exact (hkeep hr).elim
    | pushCas c b old =>
      simp only [hpc] at hstep
      obtain rfl := some.inj hstep
      rw [System.pushCas] at hr
      split_ifs at hr
      · cases c <;> exact (hkeep hr).elim
      · exact (hkeep hr).elim
    | addLen c b =>
      simp only [hpc] at hstep
      obtain rfl := some.inj hstep
      have hhere := hi.here t
      rw [hpc] at hhere
      simp only [System.addLen, System.finish, update_self, cons.injEq] at hr
      rw [← hr.1] at hret
      exact absurd hret hhere.1.ne'

/-- **The lock-free stack is a stack.** In every state that the threads reach, in
whatever order they make their accesses, every element is in one place, the objects
come out as they have gone in, and a call that gives up has found too little or is
about nothing. No head changes `2 ^ 64` times while a thread is in front of its
CAS. -/
theorem run_safe (c11 : Bool) (next : ℕ → Option ℕ) (data : ℕ → α) {count : ℕ}
    (hcount : count < 2 ^ 32) {es : List (T × Act α)} {sys : System T α}
    (hes : AlongOption (Stack.step c11) NoWrap (System.init next data count) es)
    (hrun : runOption (Stack.step c11) (System.init next data count) es = some sys) :
    (∃ L, Safe count sys L) ∧ GivesUpShortOrNothing c11 sys := by
  obtain ⟨L, hi⟩ := Inv.run hcount hes hrun
  exact ⟨⟨L, hi.safe⟩, hi.gives_up c11⟩

/-- One thread pushes two objects on a stack of two elements, another one pops one of
them, and a third push finds one element, too little. -/
def threePushes : List (Bool × Act ℕ) :=
  [(false, Act.begin (.push [5, 6]))] ++ List.replicate 20 (false, Act.go false)
    ++ [(true, Act.begin (.pop 1))] ++ List.replicate 13 (true, Act.go false)
    ++ [(false, Act.begin (.push [7, 8])), (false, Act.go false)]

theorem run_safe_three_pushes : ∃ sys : System Bool ℕ,
    runOption (Stack.step true) (System.init (fun _ => none) (fun _ => 0) 2) threePushes =
      some sys ∧ ((∃ L, Safe 2 sys L) ∧ GivesUpShortOrNothing true sys) := by
  have hsome : (runOption (Stack.step true) (System.init (fun _ => none) (fun _ => 0) 2)
      threePushes : Option (System Bool ℕ)).isSome = true := by decide +kernel
  have hrun := (some_get hsome).symm
  exact ⟨_, hrun, run_safe true _ _ (by decide) (by decide +kernel) hrun⟩

/-- **A call about no objects** returns zero, whatever the length is. -/
theorem gives_up_on_nothing :
    ¬ GivesUpShort true (System.init (fun _ => none) (fun _ => 0) 1 : System Bool ℕ) := by
  intro h
  have hlt := h (true, .begin (.pop 0)) _ ⟨.pop 0, 0, []⟩ trivial rfl rfl rfl
  exact absurd hlt (Nat.not_lt_zero _)

end Stack
