import DpdkStudy.Stack.Invariant
import Mathlib.Algebra.Order.BigOperators.Group.Finset

/-!
# The accesses of a stack keep its invariant

One lemma for each kind of access. Most of them only move the thread on
(`Inv.setPc`). The others are put together by `Inv.next`, which asks what the access
does to the lists, to the elements of other threads, and to the history.
-/

open List Option

namespace Stack

open Function Links

variable {T α : Type*} [DecidableEq T] [Fintype T] {count : ℕ} {sys : System T α}
  {L : Place T → List ℕ} {t : T} {c : Call α}

variable {old : Head} {w : Walk α} {b : Batch α}

/-! ## Putting an access together -/

theorem sum_reserved (pc : T → Pc α) (t : T) (pc' : Pc α) (which : Which) :
    ∑ u, (update pc t pc' u).reserved which + (pc t).reserved which =
      ∑ u, (pc u).reserved which + pc'.reserved which := by
  rw [← Finset.add_sum_erase _ _ (Finset.mem_univ t),
    ← Finset.add_sum_erase _ (fun u => (pc u).reserved which) (Finset.mem_univ t), update_self]
  have hrest : ∑ u ∈ Finset.univ.erase t, (update pc t pc' u).reserved which =
      ∑ u ∈ Finset.univ.erase t, (pc u).reserved which :=
    Finset.sum_congr rfl (fun u hu => by rw [update_of_ne (Finset.ne_of_mem_erase hu)])
  rw [hrest]
  omega

variable {pc pc' : Pc α} {s' : StackLf α} {results' : T → List (Result α)}
  {log' : List (T × Op α)} {L' : Place T → List ℕ}

section

variable (hi : Inv count sys L)

include hi

theorem Inv.located (hpc : sys.pc t = pc) : Local sys.s L t pc :=
  hpc ▸ hi.here t

theorem Inv.next (hpc : sys.pc t = pc) (hplaced : Placed count L')
    (hlinked : ∀ which, Path s'.next (s'.list which).head.top (L' (.list which)) none)
    (hlen : ∀ which, (L' (.list which)).length + pc.reserved which + (sys.s.list which).len =
      (L (.list which)).length + pc'.reserved which + (s'.list which).len)
    (hcall : ∀ u, u ≠ t → L' (.call u) = L (.call u)) (hkept : ∀ which, Kept sys.s s' L L' which)
    (hsame : ∀ u, u ≠ t → Same sys.s s' (L (.call u))) (hlocal : Local s' L' t pc')
    (hreplays : Replays log' ((L' (.list .used)).map s'.data))
    (hothers : ∀ u, u ≠ t → opsOf log' u = opsOf sys.log u ∧ results' u = sys.results u)
    (hhistory : opsOf sys.log t = pc.current.toList ++ (sys.results t).filterMap Result.op →
      opsOf log' t = pc'.current.toList ++ (results' t).filterMap Result.op)
    (hobjs : ∀ r ∈ results' t, r.ret = 0 ∨ r.ret = r.call.num ∧
      ∀ n, r.call = .pop n → r.objs.length = n) :
    Inv count ⟨s', update sys.pc t pc', results', log'⟩ L' := by
  subst hpc
  refine ⟨hplaced, hlinked, fun which => ?_, fun u => ?_, hreplays, fun u => ?_, fun u => ?_⟩
  · have hsum := sum_reserved sys.pc t pc' which
    have hlen := hlen which
    have hold := hi.len which
    simp only at hsum ⊢
    omega
  · by_cases hu : u = t
    · subst hu
      simpa using hlocal
    · simpa [hu] using (hi.here u).congr hkept (hcall u hu) (hsame u hu)
  · by_cases hu : u = t
    · subst hu
      simpa using hhistory (hi.history u)
    · obtain ⟨hlog, hres⟩ := hothers u hu
      simpa [hu, hlog, hres] using hi.history u
  · by_cases hu : u = t
    · subst hu
      exact hobjs
    · simp only [(hothers u hu).2]
      exact hi.objs u

/-- **After an access that moves no element**: it may change the length of a list. -/
theorem Inv.stay (hpc : sys.pc t = pc) {list' : Which → LfList}
    (hhead : ∀ which, (list' which).head = (sys.s.list which).head)
    (hlen : ∀ which, pc.reserved which + (sys.s.list which).len =
      pc'.reserved which + (list' which).len)
    (hlocal : Local { sys.s with list := list' } L t pc')
    (hothers : ∀ u, u ≠ t → results' u = sys.results u)
    (hhistory : opsOf sys.log t = pc.current.toList ++ (sys.results t).filterMap Result.op →
      opsOf sys.log t = pc'.current.toList ++ (results' t).filterMap Result.op)
    (hobjs : ∀ r ∈ results' t, r.ret = 0 ∨ r.ret = r.call.num ∧
      ∀ n, r.call = .pop n → r.objs.length = n) :
    Inv count ⟨{ sys.s with list := list' }, update sys.pc t pc', results', sys.log⟩ L := by
  refine hi.next hpc hi.placed (fun which => ?_) (fun which => ?_) (fun _ _ => rfl)
    (fun which => Or.inl ⟨hhead which, rfl, fun _ _ => ⟨rfl, rfl⟩⟩) (fun _ _ _ _ => ⟨rfl, rfl⟩)
    hlocal hi.replays (fun u hu => ⟨rfl, hothers u hu⟩) hhistory hobjs
  · simp only [hhead]
    exact hi.linked which
  · rw [Nat.add_assoc, hlen, Nat.add_assoc]

theorem Inv.setPc (hpc : sys.pc t = pc) (hlocal : Local sys.s L t pc')
    (hres : ∀ which, pc.reserved which = pc'.reserved which)
    (hcur : pc.current = pc'.current) : Inv count (sys.setPc t pc') L :=
  hi.stay hpc (fun _ => rfl) (fun which => by rw [hres]) hlocal (fun _ _ => rfl)
    (fun h => hcur ▸ h) (hi.objs t)

theorem Inv.objs_update {r : Result α}
    (hr : r.ret = 0 ∨ r.ret = r.call.num ∧ ∀ n, r.call = .pop n → r.objs.length = n) :
    ∀ r' ∈ update sys.results t (r :: sys.results t) t, r'.ret = 0 ∨ r'.ret = r'.call.num ∧
      ∀ n, r'.call = .pop n → r'.objs.length = n := by
  intro r' hr'
  rw [update_self] at hr'
  rcases mem_cons.mp hr' with rfl | hr'
  · exact hr
  · exact hi.objs t r' hr'

theorem Inv.finish_zero (hpc : sys.pc t = pc) (hL : L (.call t) = [])
    (hres : ∀ which, pc.reserved which = 0) (hcur : pc.current = none) :
    Inv count (sys.finish t c 0 []) L := by
  refine hi.stay hpc (fun _ => rfl) (fun which => by rw [hres]; rfl) hL
    (fun u hu => update_of_ne hu _ _) (fun h => ?_) (hi.objs_update (Or.inl rfl))
  rw [update_self, h, hcur]
  simp [Pc.current, Result.op]

/-! ## Reserving -/

theorem Inv.enter (hpc : sys.pc t = .idle) :
    Inv count (sys.enter t c) L := by
  have hL := hi.located hpc
  rw [System.enter]
  split_ifs with hnum
  · exact hi.finish_zero hpc hL (fun _ => rfl) rfl
  · exact hi.setPc hpc ⟨Nat.pos_of_ne_zero hnum, hL⟩ (fun _ => rfl) rfl

theorem Inv.checkLen (hpc : sys.pc t = pc) (hnum : 0 < c.num) (hL : L (.call t) = []) (len : ℕ)
    (hres : ∀ which, pc.reserved which = 0) (hcur : pc.current = none) :
    Inv count (sys.checkLen t c len) L := by
  rw [System.checkLen]
  split_ifs with hlt
  · exact hi.finish_zero hpc hL hres hcur
  · exact hi.setPc hpc ⟨hnum, hL, not_lt.mp hlt⟩ hres hcur

end

omit [Fintype T] [DecidableEq T] in
theorem update_head (list : Which → LfList) (which which' : Which) (len : ℕ) :
    (update list which { list which with len := len } which').head = (list which').head := by
  by_cases h : which' = which
  · subst h
    rw [update_self]
  · rw [update_of_ne h]

theorem Inv.casLen (hi : Inv count sys L) {len : ℕ} (hpc : sys.pc t = .casLen c len)
    (c11 weak : Bool) : Inv count (sys.casLen t c11 weak c len) L := by
  obtain ⟨hnum, hL, hlen⟩ := hi.located hpc
  rw [System.casLen]
  split_ifs with hcas hc11
  · refine hi.stay hpc (update_head _ _ · _) (fun which => ?_) ⟨hnum, hL, trivial⟩
      (fun _ _ => rfl) id (hi.objs t)
    by_cases h : which = c.src
    · subst h
      simp only [update_self, Pc.reserved, if_true, hcas.1]
      omega
    · simp [Pc.reserved, h, Ne.symm h]
  · exact hi.checkLen hpc hnum hL _ (fun _ => rfl) rfl
  · exact hi.setPc hpc ⟨hnum, hL⟩ (fun _ => rfl) rfl

/-! ## Walking -/

/-- A walk starts from a head that is not from the future. -/
theorem Inv.startWalk (hi : Inv count sys L) (hpc : sys.pc t = pc) (hnum : 0 < c.num)
    (hL : L (.call t) = []) (hold : old.cnt ≤ (sys.s.list c.src).head.cnt)
    (hres : ∀ which, pc.reserved which = if c.src = which then c.num else 0)
    (hcur : pc.current = none) : Inv count (sys.startWalk t c old) L := by
  refine hi.setPc hpc ⟨hnum, hL, hold, Nat.zero_le _, fun _ => ⟨Nat.zero_le _, rfl, rfl, ?_⟩⟩
    hres hcur
  cases c <;> rfl

theorem Inv.popHead (hi : Inv count sys L) {part : Part} (hpc : sys.pc t = .popHead c part)
    (cntFirst : Bool) : Inv count (sys.popHead t cntFirst c part) L := by
  obtain ⟨hnum, hL, hpart⟩ := hi.located hpc
  cases part with
  | none =>
    refine hi.setPc hpc ⟨hnum, hL, ?_⟩ (fun _ => rfl) rfl
    cases cntFirst
    · exact trivial
    · exact le_rfl
  | top top => exact hi.startWalk hpc hnum hL le_rfl (fun _ => rfl) rfl
  | cnt cnt => exact hi.startWalk hpc hnum hL hpart (fun _ => rfl) rfl

theorem Inv.walk (hi : Inv count sys L) (hpc : sys.pc t = .walk c w) :
    Inv count (sys.walk t c w) L := by
  obtain ⟨hnum, hL, hw⟩ := hi.located hpc
  rw [System.walk]
  split_ifs with hlt
  · cases htmp : w.tmp with
    | none =>
      exact hi.setPc hpc ⟨hnum, hL, trivial⟩ (fun _ => rfl) rfl
    | some e =>
      refine hi.setPc hpc ⟨hnum, hL, hw.cnt_le, hlt, fun hold => ?_⟩ (fun _ => rfl) rfl
      obtain ⟨-, hpath, -, hobjs⟩ := hw.right hold
      rw [htmp] at hpath
      have hlinked := hi.linked c.src
      rw [← hold] at hlinked
      have hin := hlinked.lt_length hpath
      refine ⟨hin, hpath, ?_, ?_⟩
      · rw [hlinked.take_succ hpath hin, getLast?_concat]
      · rw [hlinked.take_succ hpath hin]
        cases c with
        | push objs => exact hobjs
        | pop n =>
          simp only [hobjs, Call.reads, map_append, map_cons, map_nil]
  · exact hi.setPc hpc ⟨hnum, hL, hw, le_antisymm hw.i_le (not_lt.mp hlt)⟩ (fun _ => rfl) rfl

theorem Inv.walkNext (hi : Inv count sys L) {tmp : ℕ} (hpc : sys.pc t = .walkNext c w tmp) :
    Inv count (sys.walkNext t c w tmp) L := by
  obtain ⟨hnum, hL, hw⟩ := hi.located hpc
  refine hi.setPc hpc ⟨hnum, hL, hw.cnt_le, hw.i_lt, fun hold => ?_⟩ (fun _ => rfl) rfl
  obtain ⟨hin, hpath, hlast, hobjs⟩ := hw.right hold
  have hlinked := hi.linked c.src
  rw [← hold] at hlinked
  refine ⟨hin, ?_, hlast, hobjs⟩
  rw [hlinked.take_succ hpath hin]
  exact hpath.snoc

/-! ## Taking -/

/-- **A head that matches** is the head that has been read, if no count has wrapped. -/
theorem head_eq_old {head : Head} (hm : System.Matches head old) (hle : old.cnt ≤ head.cnt)
    (hwrap : head.cnt < old.cnt + word64) : old = head := by
  obtain ⟨htop, hcnt⟩ := hm
  have h : old.cnt = head.cnt := by
    rw [word64] at hcnt hwrap
    omega
  cases old
  cases head
  simp_all

/-- A CAS that takes elements takes the first elements of the list. -/
theorem WalkOk.taken {s : StackLf α} {es : List ℕ} (hw : WalkOk s es c w) (hnum : 0 < c.num)
    (hi : w.i = c.num) (hold : w.old = (s.list c.src).head) :
    ∃ first last, w.old.top = some first ∧ w.last = some last ∧ c.num ≤ es.length ∧
      Path s.next (s.list c.src).head.top (es.take c.num) w.tmp ∧
      BatchOk s (es.take c.num) c ⟨first, last, w.objs⟩ ∧
      w.objs = c.reads s.data (es.take c.num) := by
  obtain ⟨hlen, hpath, hlast, hobjs⟩ := hw.right hold
  rw [hi] at hlen hpath hlast hobjs
  have hlength : (es.take c.num).length = c.num := by
    rw [length_take, min_eq_left hlen]
  have hne : es.take c.num ≠ [] := ne_nil_of_length_pos (by rwa [hlength])
  obtain ⟨first, hfirst⟩ : ∃ first, w.old.top = some first := by
    rw [hpath.head hne, head?_eq_some_head hne]
    exact ⟨_, rfl⟩
  obtain ⟨last, hgetLast⟩ : ∃ last, (es.take c.num).getLast? = some last :=
    ⟨_, getLast?_eq_some_getLast hne⟩
  refine ⟨first, last, hfirst, hlast.trans hgetLast, hlen, hold ▸ hpath,
    ⟨hlength, ⟨w.tmp, hfirst ▸ hpath⟩, hgetLast, fun n hn => ?_⟩, hobjs⟩
  subst hn
  change w.objs.length = n
  rw [hobjs, Call.reads, length_map, hlength, Call.num]

/-- Elements go from the front of a list to a thread. -/
def takeFrom (L : Place T → List ℕ) (which : Which) (t : T) (n : ℕ) : Place T → List ℕ :=
  update (update L (.list which) ((L (.list which)).drop n)) (.call t)
    ((L (.list which)).take n)

omit [Fintype T] in
@[simp]
theorem takeFrom_list (which : Which) (n : ℕ) :
    takeFrom L which t n (.list which) = (L (.list which)).drop n := by
  simp [takeFrom]

omit [Fintype T] in
theorem takeFrom_list_ne {which which' : Which} (h : which' ≠ which) (n : ℕ) :
    takeFrom L which t n (.list which') = L (.list which') := by
  simp [takeFrom, h]

omit [Fintype T] in
@[simp]
theorem takeFrom_call (which : Which) (n : ℕ) :
    takeFrom L which t n (.call t) = (L (.list which)).take n := by
  simp [takeFrom]

omit [Fintype T] in
theorem takeFrom_call_ne {u : T} (h : u ≠ t) (which : Which) (n : ℕ) :
    takeFrom L which t n (.call u) = L (.call u) := by
  simp [takeFrom, h]

/-- The stack with another top of a list, as a CAS leaves it. -/
def StackLf.swing (s : StackLf α) (which : Which) (top : Option ℕ) : StackLf α :=
  let list := s.list which
  { s with list := update s.list which ⟨⟨top, list.head.cnt + 1⟩, list.len⟩ }

/-- **A CAS changes the top of a list**, and elements go between it and the thread. -/
theorem Inv.swing (hi : Inv count sys L) (hpc : sys.pc t = pc) {which : Which} {top : Option ℕ}
    (hplaced : Placed count L') (hpath : Path sys.s.next top (L' (.list which)) none)
    (hlen : (L' (.list which)).length + pc.reserved which =
      (L (.list which)).length + pc'.reserved which)
    (hother : ∀ which', which' ≠ which → L' (.list which') = L (.list which') ∧
      pc.reserved which' = pc'.reserved which')
    (hcall : ∀ u, u ≠ t → L' (.call u) = L (.call u))
    (hlocal : Local (sys.s.swing which top) L' t pc')
    (hreplays : Replays log' ((L' (.list .used)).map sys.s.data))
    (hlog : ∀ u, u ≠ t → opsOf log' u = opsOf sys.log u)
    (hhistory : opsOf sys.log t = pc.current.toList ++ (sys.results t).filterMap Result.op →
      opsOf log' t = pc'.current.toList ++ (sys.results t).filterMap Result.op) :
    Inv count ⟨sys.s.swing which top, update sys.pc t pc', sys.results, log'⟩ L' := by
  refine hi.next hpc hplaced (fun w => ?_) (fun w => ?_) hcall (fun w => ?_)
    (fun _ _ _ _ => ⟨rfl, rfl⟩) hlocal hreplays (fun u hu => ⟨hlog u hu, rfl⟩) hhistory
    (hi.objs t) <;> by_cases h : w = which
  · subst h
    simpa [StackLf.swing] using hpath
  · simpa [StackLf.swing, h, (hother w h).1] using hi.linked w
  · subst h
    simpa [StackLf.swing] using hlen
  · simp [StackLf.swing, h, hother w h]
  · subst h
    exact Or.inr (by simp [StackLf.swing])
  · exact Or.inl ⟨by simp [StackLf.swing, h], (hother w h).1, fun _ _ => ⟨rfl, rfl⟩⟩

theorem Inv.popCas (hi : Inv count sys L) (hpc : sys.pc t = .popCas c w)
    (hwrap : (sys.s.list c.src).head.cnt < w.old.cnt + word64) (c11 weak : Bool) :
    ∃ L', Inv count (sys.popCas t c11 weak c w) L' := by
  obtain ⟨hnum, hL, hw, hwi⟩ := hi.located hpc
  rw [System.popCas]
  split_ifs with hcas
  · have hold := head_eq_old hcas.1 hw.cnt_le hwrap
    obtain ⟨first, last, htop, hlast, hlen, hpath, hbatch, hobjs⟩ := hw.taken hnum hwi hold
    have hplaced : Placed count (takeFrom L c.src t c.num) := by
      refine hi.placed.move (by simp) ?_
      rw [hL, append_nil]
      exact perm_append_comm.trans (by rw [take_append_drop])
    have hlinked : Path sys.s.next w.tmp (takeFrom L c.src t c.num (.list c.src)) none := by
      rw [takeFrom_list]
      exact (hi.linked c.src).drop hpath
    have hlens : (takeFrom L c.src t c.num (.list c.src)).length + c.num =
        (L (.list c.src)).length := by
      rw [takeFrom_list, length_drop, Nat.sub_add_cancel hlen]
    have hother : ∀ which, which ≠ c.src → takeFrom L c.src t c.num (.list which) =
        L (.list which) ∧ (if c.src = which then c.num else 0) = 0 :=
      fun which h => ⟨takeFrom_list_ne h _, if_neg (Ne.symm h)⟩
    have hcall : ∀ u, u ≠ t → takeFrom L c.src t c.num (.call u) = L (.call u) :=
      fun u hu => takeFrom_call_ne hu _ _
    refine ⟨takeFrom L c.src t c.num, ?_⟩
    simp only [htop, hlast]
    cases c with
    | push objs =>
      refine hi.swing hpc hplaced hlinked hlens hother hcall ?_ hi.replays (fun _ _ => rfl) id
      rw [Local, takeFrom_call]
      exact ⟨hnum, hbatch.congr (fun _ _ => ⟨rfl, rfl⟩), rfl, Nat.zero_le _, rfl, fun _ _ => rfl⟩
    | pop n =>
      refine hi.swing hpc hplaced hlinked hlens hother hcall ?_ ?_
        (fun u hu => opsOf_cons_ne hu _ _) fun hhist => ?_
      · rw [Local, takeFrom_call]
        exact ⟨hnum, hbatch.congr (fun _ _ => ⟨rfl, rfl⟩), (fun _ h => by cases h), trivial⟩
      · change Replays sys.log (w.objs ++ _)
        rw [hobjs]
        change Replays sys.log (((L (.list .used)).take n).map sys.s.data ++
          (takeFrom L .used t n (.list .used)).map sys.s.data)
        rw [takeFrom_list, ← map_append, take_append_drop]
        exact hi.replays
      · change opsOf ((t, Op.pop w.objs) :: sys.log) t = _
        rw [opsOf_cons_self, hhist]
        rfl
  · exact ⟨L, hi.startWalk hpc hnum hL le_rfl (fun _ => rfl) rfl⟩

/-! ## Filling -/

omit [DecidableEq T] [Fintype T] in
theorem Placed.ne {p q : Place T} (h : Placed count L) (hpq : p ≠ q) {e e' : ℕ}
    (he : e ∈ L p) (he' : e' ∈ L q) : e' ≠ e := by
  rintro rfl
  exact h.apart p q hpq _ he he'

theorem Filled.succ {s : StackLf α} {es : List ℕ} {objs : List α} {i e : ℕ} {obj : α}
    (hf : Filled s es (.push objs) i) (hnodup : es.Nodup) (he : es.take (i + 1) = es.take i ++ [e])
    (hobj : objs[objs.length - i - 1]? = some obj) (hlt : i < objs.length) :
    Filled { s with data := update s.data e obj } es (.push objs) (i + 1) := by
  intro objs' hobjs
  obtain rfl := Call.push.inj hobjs
  have hnot : e ∉ es.take i := by
    have h := hnodup.sublist (take_sublist (i + 1) es)
    rw [he] at h
    exact fun hin => (nodup_append.mp h).2.2 e hin e mem_cons_self rfl
  have hmap : (es.take i).map (update s.data e obj) = (es.take i).map s.data :=
    map_congr_left (fun a ha => update_of_ne (fun h : a = e => hnot (h ▸ ha)) _ _)
  have hget : objs.reverse[i]? = some obj := by
    rw [getElem?_reverse hlt, Nat.sub_right_comm]
    exact hobj
  rw [he, map_append, hmap, hf objs rfl, take_add_one, hget]
  simp

theorem Inv.fill (hi : Inv count sys L) {i : ℕ} {tmp : Option ℕ} (hpc : sys.pc t = .fill c b i tmp)
    :
    ∃ sys', sys.fill t c b i tmp = some sys' ∧ Inv count sys' L := by
  obtain ⟨hnum, hbatch, hdst, hle, hpath, hfilled⟩ := hi.located hpc
  cases c with
  | pop n => exact absurd hdst nofun
  | push objs =>
    by_cases hlt : i < (Call.push objs).num
    · have hin : i < (L (.call t)).length := hbatch.length ▸ hlt
      obtain ⟨stop, hwhole⟩ := hbatch.path
      obtain ⟨e, rfl⟩ : ∃ e, tmp = some e := by
        have hne := ne_nil_of_length_pos
          ((length_drop (i := i) (l := L (.call t))).symm ▸ Nat.sub_pos_of_lt hin)
        rw [(hwhole.drop hpath).head hne, head?_drop, getElem?_eq_getElem hin]
        exact ⟨_, rfl⟩
      obtain ⟨obj, hobj⟩ : ∃ obj, objs[objs.length - i - 1]? = some obj :=
        ⟨_, getElem?_eq_getElem (by rw [Call.num] at hlt; omega)⟩
      have hsucc := hwhole.take_succ hpath hin
      have hmem : e ∈ L (.call t) := by
        refine mem_of_mem_take (i := i + 1) ?_
        simp [hsucc]
      refine ⟨_, by rw [System.fill, if_pos hlt, hobj]; rfl, ?_⟩
      have hsame : ∀ p, .call t ≠ p → ∀ obj, Same sys.s
          { sys.s with data := update sys.s.data e obj } (L p) := fun p hp obj e' he' =>
        ⟨rfl, update_of_ne (hi.placed.ne hp hmem he') _ _⟩
      refine hi.next hpc hi.placed hi.linked (fun _ => rfl) (fun _ _ => rfl)
        (fun which => Or.inl ⟨rfl, rfl, hsame _ (by simp) _⟩)
        (fun u hu => hsame _ (by simpa using Ne.symm hu) _)
        ⟨hnum, ⟨hbatch.length, hbatch.path, hbatch.last, hbatch.objs⟩, hdst, hlt, hpath,
          hfilled.succ (hi.placed.nodup _) hsucc hobj hlt⟩ ?_ (fun _ _ => ⟨rfl, rfl⟩) id (hi.objs t)
      change Replays sys.log _
      rw [(hsame (.list .used) (by simp) _).map]
      exact hi.replays
    · obtain rfl := le_antisymm hle (not_lt.mp hlt)
      exact ⟨_, if_neg hlt,
        hi.setPc hpc ⟨hnum, hbatch, hfilled, trivial⟩ (fun _ => rfl) rfl⟩

theorem Inv.fillNext (hi : Inv count sys L) {i tmp : ℕ} (hpc : sys.pc t = .fillNext c b i tmp) :
    Inv count (sys.fillNext t c b i tmp) L := by
  obtain ⟨hnum, hbatch, hdst, hlt, hpath, hfilled⟩ := hi.located hpc
  obtain ⟨stop, hwhole⟩ := hbatch.path
  refine hi.setPc hpc ⟨hnum, hbatch, hdst, hlt, ?_, hfilled⟩ (fun _ => rfl) rfl
  rw [hwhole.take_succ hpath (hbatch.length ▸ hlt)]
  exact hpath.snoc

/-! ## Putting back -/

/-- What a call has done to the used list before it has put its elements back. -/
def Call.taken (c : Call α) (b : Batch α) : Option (Op α) :=
  match c with
  | .push _ => none
  | .pop _ => some (.pop b.objs)

omit [DecidableEq T] [Fintype T] in
@[simp]
theorem current_pushHead (b : Batch α) (part : Part) :
    (Pc.pushHead c b part).current = c.taken b := by
  cases c <;> rfl

omit [DecidableEq T] [Fintype T] in
@[simp]
theorem current_link (b : Batch α) (old : Head) : (Pc.link c b old).current = c.taken b := by
  cases c <;> rfl

omit [DecidableEq T] [Fintype T] in
@[simp]
theorem current_pushCas (b : Batch α) (old : Head) :
    (Pc.pushCas c b old).current = c.taken b := by
  cases c <;> rfl

theorem Inv.pushHead (hi : Inv count sys L) {part : Part} (hpc : sys.pc t = .pushHead c b part)
    (cntFirst : Bool) :
    Inv count (sys.pushHead t cntFirst c b part) L := by
  obtain ⟨hnum, hbatch, hfilled, hpart⟩ := hi.located hpc
  have hlink : ∀ old : Head, old.cnt ≤ (sys.s.list c.dst).head.cnt →
      Inv count (sys.setPc t (.link c b old)) L := fun old hold =>
    hi.setPc hpc ⟨hnum, hbatch, hfilled, hold⟩ (fun _ => rfl) (by simp)
  cases part with
  | none =>
    refine hi.setPc hpc ⟨hnum, hbatch, hfilled, ?_⟩ (fun _ => rfl) (by simp)
    cases cntFirst
    · exact trivial
    · exact le_rfl
  | top top => exact hlink _ le_rfl
  | cnt cnt => exact hlink _ hpart

theorem Inv.link (hi : Inv count sys L) (hpc : sys.pc t = .link c b old) :
    Inv count (sys.link t c b old) L := by
  obtain ⟨hnum, hbatch, hfilled, hold⟩ := hi.located hpc
  obtain ⟨stop, hwhole⟩ := hbatch.path
  have hmem : b.last ∈ L (.call t) := mem_of_getLast? hbatch.last
  have hsame : ∀ p, .call t ≠ p → Same sys.s
      { sys.s with next := update sys.s.next b.last old.top } (L p) := fun p hp e he =>
    ⟨update_of_ne (hi.placed.ne hp hmem he) _ _, rfl⟩
  have hrelink := hwhole.relink hbatch.last (hi.placed.nodup _) old.top
  exact hi.next hpc hi.placed (fun which => (hsame _ (by simp)).path (hi.linked which))
    (fun _ => rfl) (fun _ _ => rfl)
    (fun which => Or.inl ⟨rfl, rfl, hsame _ (by simp)⟩)
    (fun u hu => hsame _ (by simpa using Ne.symm hu))
    ⟨hnum, ⟨hbatch.length, ⟨_, hrelink⟩, hbatch.last, hbatch.objs⟩, hfilled, hold, hrelink⟩
    hi.replays (fun _ _ => ⟨rfl, rfl⟩) (by simp) (hi.objs t)

/-- Elements go from a thread to the front of a list. -/
def putTo (L : Place T → List ℕ) (which : Which) (t : T) : Place T → List ℕ :=
  update (update L (.call t) []) (.list which) (L (.call t) ++ L (.list which))

omit [Fintype T] in
@[simp]
theorem putTo_list (which : Which) :
    putTo L which t (.list which) = L (.call t) ++ L (.list which) := by
  simp [putTo]

omit [Fintype T] in
theorem putTo_list_ne {which which' : Which} (h : which' ≠ which) :
    putTo L which t (.list which') = L (.list which') := by
  simp [putTo, h]

omit [Fintype T] in
@[simp]
theorem putTo_call (which : Which) : putTo L which t (.call t) = [] := by
  simp [putTo]

omit [Fintype T] in
theorem putTo_call_ne {u : T} (h : u ≠ t) (which : Which) :
    putTo L which t (.call u) = L (.call u) := by
  simp [putTo, h]

theorem Inv.pushCas (hi : Inv count sys L) (hpc : sys.pc t = .pushCas c b old)
    (hwrap : (sys.s.list c.dst).head.cnt < old.cnt + word64) (weak : Bool) :
    ∃ L', Inv count (sys.pushCas t weak c b old) L' := by
  obtain ⟨hnum, hbatch, hfilled, hle, hpath⟩ := hi.located hpc
  rw [System.pushCas]
  split_ifs with hcas
  · have hold := head_eq_old hcas.1 hle hwrap
    have hplaced : Placed count (putTo L c.dst t) :=
      hi.placed.move (by simp) (List.Perm.refl _)
    have hlinked : Path sys.s.next (some b.first) (putTo L c.dst t (.list c.dst)) none := by
      rw [putTo_list]
      exact path_append.mpr ⟨old.top, hpath, hold ▸ hi.linked c.dst⟩
    have hlens : (putTo L c.dst t (.list c.dst)).length + 0 =
        (L (.list c.dst)).length + if c.dst = c.dst then c.num else 0 := by
      rw [putTo_list, length_append, if_pos rfl, hbatch.length]
      omega
    have hother : ∀ which, which ≠ c.dst → putTo L c.dst t (.list which) = L (.list which) ∧
        0 = if c.dst = which then c.num else 0 :=
      fun which h => ⟨putTo_list_ne h, (if_neg (Ne.symm h)).symm⟩
    have hcall : ∀ u, u ≠ t → putTo L c.dst t (.call u) = L (.call u) :=
      fun u hu => putTo_call_ne hu _
    refine ⟨putTo L c.dst t, ?_⟩
    cases c with
    | push objs =>
      refine hi.swing hpc hplaced hlinked hlens hother hcall ⟨hnum, putTo_call _, nofun⟩ ?_
        (fun u hu => opsOf_cons_ne hu _ _) fun hhist => ?_
      · refine ⟨(L (.list .used)).map sys.s.data, ?_, hi.replays⟩
        have hobjs := hfilled objs rfl
        have hlength : objs.reverse.length = objs.length := length_reverse
        rw [← hbatch.length, take_length, hbatch.length, Call.num, ← hlength,
          take_length] at hobjs
        change (putTo L .used t (.list .used)).map sys.s.data = _
        rw [putTo_list, map_append, hobjs]
      · change opsOf ((t, Op.push objs) :: sys.log) t = _
        rw [opsOf_cons_self, hhist]
        rfl
    | pop n =>
      refine hi.swing hpc hplaced hlinked hlens hother hcall ⟨hnum, putTo_call _, hbatch.objs⟩ ?_
        (fun _ _ => rfl) id
      change Replays sys.log ((putTo L .free t (.list .used)).map sys.s.data)
      rw [putTo_list_ne (by decide)]
      exact hi.replays
  · exact ⟨L, hi.setPc hpc ⟨hnum, hbatch, hfilled, le_rfl⟩ (fun _ => rfl) (by simp)⟩

omit [DecidableEq T] [Fintype T] in
/-- There is no more in a place than there are elements. -/
theorem Placed.length_le (h : Placed count L) (p : Place T) : (L p).length ≤ count := by
  have hsub : L p ⊆ range count := fun e he =>
    mem_range.mpr ((h.covered e).mpr ⟨p, he⟩)
  simpa using ((h.nodup p).subperm hsub).length_le

/-- The length of a list and what is reserved of it do not overflow. -/
theorem Inv.len_add_le (hi : Inv count sys L) (t : T) (which : Which) :
    (sys.s.list which).len + (sys.pc t).reserved which ≤ count := by
  have hlen := hi.len which
  have hle := hi.placed.length_le (.list which)
  have hsingle : (sys.pc t).reserved which ≤ ∑ u, (sys.pc u).reserved which :=
    Finset.single_le_sum (f := fun u => (sys.pc u).reserved which) (fun _ _ => Nat.zero_le _)
      (Finset.mem_univ t)
  omega

theorem Inv.addLen (hi : Inv count sys L) (hpc : sys.pc t = .addLen c b) (hcount : count < word64) :
    Inv count (sys.addLen t c b) L := by
  obtain ⟨hnum, hL, hobjs⟩ := hi.located hpc
  have hwrap : (sys.s.list c.dst).len + c.num < word64 := by
    have hle := hi.len_add_le t c.dst
    rw [hpc, Pc.reserved, if_pos rfl] at hle
    exact hle.trans_lt hcount
  rw [System.addLen, Nat.mod_eq_of_lt hwrap]
  refine hi.stay hpc (update_head _ _ · _) (fun which => ?_) hL (fun u hu => update_of_ne hu _ _)
    (fun hhist => ?_) (hi.objs_update (Or.inr ⟨rfl, hobjs⟩))
  · by_cases h : which = c.dst
    · subst h
      simp only [update_self, Pc.reserved, if_true]
      omega
    · simp [Pc.reserved, h, Ne.symm h]
  · rw [update_self, hhist]
    cases c <;> simp [System.setList, Pc.current, Result.op, hnum.ne']

/-! ## Runs -/

/-- An access keeps the invariant. -/
theorem Inv.step (hi : Inv count sys L) (hcount : count < word64) {c11 : Bool}
    {e : T × Act α} {sys' : System T α} (hstep : step c11 sys e = some sys')
    (hwrap : NoWrap sys e) : ∃ L', Inv count sys' L' := by
  obtain ⟨t, act⟩ := e
  rw [Stack.step] at hstep
  rw [NoWrap] at hwrap
  cases act with
  | begin c =>
    cases hpc : sys.pc t with
    | idle =>
      simp only [hpc] at hstep
      exact some.inj hstep ▸ ⟨L, hi.enter hpc⟩
    | _ => simp [hpc] at hstep
  | go flag =>
    cases hpc : sys.pc t with
    | idle => simp [hpc] at hstep
    | loadLen c =>
      simp only [hpc] at hstep
      obtain ⟨hnum, hL⟩ := hi.located hpc
      exact some.inj hstep ▸ ⟨L, hi.checkLen hpc hnum hL _ (fun _ => rfl) rfl⟩
    | casLen c len =>
      simp only [hpc] at hstep
      exact some.inj hstep ▸ ⟨L, hi.casLen hpc _ _⟩
    | popHead c part =>
      simp only [hpc] at hstep
      exact some.inj hstep ▸ ⟨L, hi.popHead hpc _⟩
    | walk c w =>
      simp only [hpc] at hstep
      exact some.inj hstep ▸ ⟨L, hi.walk hpc⟩
    | walkNext c w tmp =>
      simp only [hpc] at hstep
      exact some.inj hstep ▸ ⟨L, hi.walkNext hpc⟩
    | popCas c w =>
      simp only [hpc] at hstep hwrap
      exact some.inj hstep ▸ hi.popCas hpc hwrap _ _
    | fill c b i tmp =>
      simp only [hpc] at hstep
      obtain ⟨sys'', hfill, hi'⟩ := hi.fill hpc
      obtain rfl := some.inj (hfill.symm.trans hstep)
      exact ⟨L, hi'⟩
    | fillNext c b i tmp =>
      simp only [hpc] at hstep
      exact some.inj hstep ▸ ⟨L, hi.fillNext hpc⟩
    | pushHead c b part =>
      simp only [hpc] at hstep
      exact some.inj hstep ▸ ⟨L, hi.pushHead hpc _⟩
    | link c b old =>
      simp only [hpc] at hstep
      exact some.inj hstep ▸ ⟨L, hi.link hpc⟩
    | pushCas c b old =>
      simp only [hpc] at hstep hwrap
      exact some.inj hstep ▸ hi.pushCas hpc hwrap _
    | addLen c b =>
      simp only [hpc] at hstep
      exact some.inj hstep ▸ ⟨L, hi.addLen hpc hcount⟩

end Stack
