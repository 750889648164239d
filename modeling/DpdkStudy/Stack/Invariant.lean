import Mathlib.Algebra.BigOperators.Group.Finset.Basic
import Mathlib.Data.Fintype.Defs
import DpdkStudy.Lib.Links
import DpdkStudy.Stack.Stack

/-!
# What is true of a stack between threads

Every element is in one place: in one of the lists, or with a thread that has taken it
(`Placed`). The length of a list and what is reserved of it are together as many as its
elements. A walk from a head that is still the head of its list has seen the first
elements of the list; if the head has changed, its count is higher, and the CAS at the
end of the walk is going to fail (`WalkOk`). So what other threads do, who write only
to elements of their own, leaves that of a thread as it is (`Local.congr`).
-/

namespace Stack

open Function Links

variable {T α : Type*}

/-! ## Places -/

/-- **Where an element can be**: in a list, or with a thread. -/
inductive Place (T : Type*)
  | list (which : Which)
  | call (t : T)
deriving DecidableEq

/-- **Every element is in one place.** -/
structure Placed (count : ℕ) (L : Place T → List ℕ) : Prop where
  nodup : ∀ p, (L p).Nodup
  apart : ∀ p q, p ≠ q → ∀ e ∈ L p, e ∉ L q
  covered : ∀ e, e < count ↔ ∃ p, e ∈ L p

theorem Placed.move [DecidableEq T] {count : ℕ} {L : Place T → List ℕ} (h : Placed count L)
    {p q : Place T} (hpq : p ≠ q) {lp lq : List ℕ} (hperm : (lp ++ lq).Perm (L p ++ L q)) :
    Placed count (update (update L p lp) q lq) := by
  have hnodup : (L p ++ L q).Nodup :=
    List.nodup_append.mpr ⟨h.nodup p, h.nodup q, fun a ha b hb hab =>
      h.apart p q hpq a ha (hab ▸ hb)⟩
  obtain ⟨hp, hq, hdisj⟩ := List.nodup_append.mp (hperm.nodup_iff.mpr hnodup)
  have hmem : ∀ e, e ∈ lp ∨ e ∈ lq ↔ e ∈ L p ∨ e ∈ L q := by
    intro e
    rw [← List.mem_append, ← List.mem_append]
    exact hperm.mem_iff
  -- an element of a place is an element of the same place, or came from the other one
  have hfrom : ∀ r, ∀ e ∈ update (update L p lp) q lq r,
      ∃ r₀, e ∈ L r₀ ∧ (r₀ = r ∨ (r₀ = p ∨ r₀ = q) ∧ (r = p ∨ r = q)) := by
    intro r e he
    rw [update_apply, update_apply] at he
    split_ifs at he with hrq hrp
    · rcases (hmem e).mp (Or.inr he) with he | he
      · exact ⟨p, he, Or.inr ⟨Or.inl rfl, Or.inr hrq⟩⟩
      · exact ⟨q, he, Or.inl hrq.symm⟩
    · rcases (hmem e).mp (Or.inl he) with he | he
      · exact ⟨p, he, Or.inl hrp.symm⟩
      · exact ⟨q, he, Or.inr ⟨Or.inr rfl, Or.inl hrp⟩⟩
    · exact ⟨r, he, Or.inl rfl⟩
  refine ⟨fun r => ?_, fun r r' hrr e he he' => ?_, fun e => ?_⟩
  · rw [update_apply, update_apply]
    split_ifs
    · exact hq
    · exact hp
    · exact h.nodup r
  · obtain ⟨r₀, h₀, hr⟩ := hfrom r e he
    obtain ⟨r₁, h₁, hr'⟩ := hfrom r' e he'
    obtain rfl : r₀ = r₁ := by_contra fun hne => h.apart r₀ r₁ hne e h₀ h₁
    -- two places that got the element from one place are the two that it can go between
    have hpair : (r = p ∨ r = q) ∧ (r' = p ∨ r' = q) := by
      rcases hr with rfl | ⟨h₀, hr⟩ <;> rcases hr' with rfl | ⟨h₁, hr'⟩
      · exact absurd rfl hrr
      · exact ⟨h₁, hr'⟩
      · exact ⟨hr, h₀⟩
      · exact ⟨hr, hr'⟩
    obtain ⟨rfl | rfl, rfl | rfl⟩ := hpair
    · exact hrr rfl
    · rw [update_of_ne hpq, update_self] at he
      rw [update_self] at he'
      exact hdisj e he e he' rfl
    · rw [update_of_ne hpq, update_self] at he'
      rw [update_self] at he
      exact hdisj e he' e he rfl
    · exact hrr rfl
  · rw [h.covered]
    constructor
    · rintro ⟨r, he⟩
      by_cases hr : r = p ∨ r = q
      · have hin : e ∈ L p ∨ e ∈ L q := by
          rcases hr with rfl | rfl
          · exact Or.inl he
          · exact Or.inr he
        rcases (hmem e).mpr hin with he | he
        · exact ⟨p, by rwa [update_of_ne hpq, update_self]⟩
        · exact ⟨q, by rwa [update_self]⟩
      · rw [not_or] at hr
        exact ⟨r, by rwa [update_of_ne hr.2, update_of_ne hr.1]⟩
    · rintro ⟨r, he⟩
      exact (hfrom r e he).imp fun _ h => h.1

/-! ## Where a thread is -/

/-- What a call finds in elements. -/
def Call.reads (c : Call α) (data : ℕ → α) (es : List ℕ) : List α :=
  match c with
  | .push _ => []
  | .pop _ => es.map data

/-- A count that has been read is not from the future. -/
def Part.Bounded (part : Part) (cnt : ℕ) : Prop :=
  match part with
  | .cnt c => c ≤ cnt
  | _ => True

/-- **A walk that is still right** has seen the first elements of its list. -/
structure WalkOk (s : StackLf α) (es : List ℕ) (c : Call α) (w : Walk α) : Prop where
  cnt_le : w.old.cnt ≤ (s.list c.src).head.cnt
  i_le : w.i ≤ c.num
  right : w.old = (s.list c.src).head → w.i ≤ es.length ∧
    Path s.next w.old.top (es.take w.i) w.tmp ∧ w.last = (es.take w.i).getLast? ∧
    w.objs = c.reads s.data (es.take w.i)

/-- A walk in the middle of a pass. -/
structure PassOk (s : StackLf α) (es : List ℕ) (c : Call α) (w : Walk α) (tmp : ℕ) : Prop where
  cnt_le : w.old.cnt ≤ (s.list c.src).head.cnt
  i_lt : w.i < c.num
  right : w.old = (s.list c.src).head → w.i < es.length ∧
    Path s.next w.old.top (es.take w.i) (some tmp) ∧ w.last = (es.take (w.i + 1)).getLast? ∧
    w.objs = c.reads s.data (es.take (w.i + 1))

/-- **What a call has taken**: a piece of a list, from its first element to its last. -/
structure BatchOk (s : StackLf α) (es : List ℕ) (c : Call α) (b : Batch α) : Prop where
  length : es.length = c.num
  path : ∃ e, Path s.next (some b.first) es e
  last : es.getLast? = some b.last
  objs : ∀ n, c = .pop n → b.objs.length = n

/-- The first elements of a push have their objects, the last object first. -/
def Filled (s : StackLf α) (es : List ℕ) (c : Call α) (i : ℕ) : Prop :=
  ∀ objs, c = .push objs → (es.take i).map s.data = objs.reverse.take i

/-- **What is true where a thread is.** -/
def Local (s : StackLf α) (L : Place T → List ℕ) (t : T) : Pc α → Prop
  | .idle => L (.call t) = []
  | .loadLen c => 0 < c.num ∧ L (.call t) = []
  | .casLen c len => 0 < c.num ∧ L (.call t) = [] ∧ c.num ≤ len
  | .popHead c part =>
    0 < c.num ∧ L (.call t) = [] ∧ part.Bounded (s.list c.src).head.cnt
  | .walk c w => 0 < c.num ∧ L (.call t) = [] ∧ WalkOk s (L (.list c.src)) c w
  | .walkNext c w tmp => 0 < c.num ∧ L (.call t) = [] ∧ PassOk s (L (.list c.src)) c w tmp
  | .popCas c w =>
    0 < c.num ∧ L (.call t) = [] ∧ WalkOk s (L (.list c.src)) c w ∧ w.i = c.num
  | .fill c b i tmp => 0 < c.num ∧ BatchOk s (L (.call t)) c b ∧ c.dst = .used ∧ i ≤ c.num ∧
    Path s.next (some b.first) ((L (.call t)).take i) tmp ∧ Filled s (L (.call t)) c i
  | .fillNext c b i tmp => 0 < c.num ∧ BatchOk s (L (.call t)) c b ∧ c.dst = .used ∧
    i < c.num ∧ Path s.next (some b.first) ((L (.call t)).take i) (some tmp) ∧
    Filled s (L (.call t)) c (i + 1)
  | .pushHead c b part => 0 < c.num ∧ BatchOk s (L (.call t)) c b ∧
    Filled s (L (.call t)) c c.num ∧ part.Bounded (s.list c.dst).head.cnt
  | .link c b old => 0 < c.num ∧ BatchOk s (L (.call t)) c b ∧ Filled s (L (.call t)) c c.num ∧
    old.cnt ≤ (s.list c.dst).head.cnt
  | .pushCas c b old => 0 < c.num ∧ BatchOk s (L (.call t)) c b ∧
    Filled s (L (.call t)) c c.num ∧ old.cnt ≤ (s.list c.dst).head.cnt ∧
    Path s.next (some b.first) (L (.call t)) old.top
  | .addLen c b => 0 < c.num ∧ L (.call t) = [] ∧ ∀ n, c = .pop n → b.objs.length = n

/-! ## What others do -/

/-- Links and objects of some elements are as they were. -/
def Same (s s' : StackLf α) (es : List ℕ) : Prop :=
  ∀ e ∈ es, s'.next e = s.next e ∧ s'.data e = s.data e

theorem Same.take {s s' : StackLf α} {es : List ℕ} (h : Same s s' es) (i : ℕ) :
    Same s s' (es.take i) :=
  fun e he => h e (List.mem_of_mem_take he)

theorem Same.path {s s' : StackLf α} {es : List ℕ} (h : Same s s' es) {a b : Option ℕ}
    (hp : Path s.next a es b) : Path s'.next a es b :=
  hp.congr (fun e he => (h e he).1)

theorem Same.map {s s' : StackLf α} {es : List ℕ} (h : Same s s' es) :
    es.map s'.data = es.map s.data :=
  List.map_congr_left (fun e he => (h e he).2)

theorem Same.reads {s s' : StackLf α} {es : List ℕ} (h : Same s s' es) (c : Call α) :
    c.reads s'.data es = c.reads s.data es := by
  cases c with
  | push objs => rfl
  | pop n => exact h.map

/-- **A list is as it was**, or its head has a higher count. -/
def Kept (s s' : StackLf α) (L L' : Place T → List ℕ) (which : Which) : Prop :=
  ((s'.list which).head = (s.list which).head ∧ L' (.list which) = L (.list which) ∧
    Same s s' (L (.list which))) ∨
  (s.list which).head.cnt < (s'.list which).head.cnt

variable {s s' : StackLf α} {L L' : Place T → List ℕ} {c : Call α} {t : T}

theorem Kept.cnt_le {which : Which} (h : Kept s s' L L' which) {n : ℕ}
    (hn : n ≤ (s.list which).head.cnt) : n ≤ (s'.list which).head.cnt := by
  rcases h with ⟨hhead, -⟩ | hlt
  · rwa [hhead]
  · exact hn.trans hlt.le

theorem Kept.bounded {which : Which} (h : Kept s s' L L' which) {part : Part}
    (hb : part.Bounded (s.list which).head.cnt) : part.Bounded (s'.list which).head.cnt := by
  cases part with
  | cnt n => exact h.cnt_le hb
  | _ => exact trivial

theorem WalkOk.congr {w : Walk α} (hw : WalkOk s (L (.list c.src)) c w)
    (h : Kept s s' L L' c.src) : WalkOk s' (L' (.list c.src)) c w := by
  refine ⟨h.cnt_le hw.cnt_le, hw.i_le, fun hold => ?_⟩
  rcases h with ⟨hhead, hL, hsame⟩ | hlt
  · obtain ⟨hi, hpath, hlast, hobjs⟩ := hw.right (hold.trans hhead)
    rw [hL, (hsame.take _).reads]
    exact ⟨hi, (hsame.take _).path hpath, hlast, hobjs⟩
  · have hle := hw.cnt_le
    rw [hold] at hle
    exact absurd hle (not_le.mpr hlt)

theorem PassOk.congr {w : Walk α} {tmp : ℕ} (hw : PassOk s (L (.list c.src)) c w tmp)
    (h : Kept s s' L L' c.src) : PassOk s' (L' (.list c.src)) c w tmp := by
  refine ⟨h.cnt_le hw.cnt_le, hw.i_lt, fun hold => ?_⟩
  rcases h with ⟨hhead, hL, hsame⟩ | hlt
  · obtain ⟨hi, hpath, hlast, hobjs⟩ := hw.right (hold.trans hhead)
    rw [hL, (hsame.take _).reads]
    exact ⟨hi, (hsame.take _).path hpath, hlast, hobjs⟩
  · have hle := hw.cnt_le
    rw [hold] at hle
    exact absurd hle (not_le.mpr hlt)

theorem BatchOk.congr {es : List ℕ} {b : Batch α} (hb : BatchOk s es c b) (h : Same s s' es) :
    BatchOk s' es c b :=
  ⟨hb.length, hb.path.imp (fun _ hp => h.path hp), hb.last, hb.objs⟩

theorem Filled.congr {es : List ℕ} {i : ℕ} (hf : Filled s es c i) (h : Same s s' es) :
    Filled s' es c i := by
  intro objs hc
  rw [(h.take i).map]
  exact hf objs hc

/-- What others do leaves that of a thread as it is. -/
theorem Local.congr {pc : Pc α} (hl : Local s L t pc) (hkept : ∀ which, Kept s s' L L' which)
    (hcall : L' (.call t) = L (.call t)) (hsame : Same s s' (L (.call t))) : Local s' L' t pc := by
  cases pc with
  | idle => exact hcall.trans hl
  | loadLen c => exact ⟨hl.1, hcall.trans hl.2⟩
  | casLen c len => exact ⟨hl.1, hcall.trans hl.2.1, hl.2.2⟩
  | popHead c part => exact ⟨hl.1, hcall.trans hl.2.1, (hkept _).bounded hl.2.2⟩
  | walk c w => exact ⟨hl.1, hcall.trans hl.2.1, hl.2.2.congr (hkept _)⟩
  | walkNext c w tmp => exact ⟨hl.1, hcall.trans hl.2.1, hl.2.2.congr (hkept _)⟩
  | popCas c w => exact ⟨hl.1, hcall.trans hl.2.1, hl.2.2.1.congr (hkept _), hl.2.2.2⟩
  | fill c b i tmp =>
    obtain ⟨hnum, hbatch, hdst, hi, hpath, hfilled⟩ := hl
    rw [Local, hcall]
    exact ⟨hnum, hbatch.congr hsame, hdst, hi, (hsame.take i).path hpath, hfilled.congr hsame⟩
  | fillNext c b i tmp =>
    obtain ⟨hnum, hbatch, hdst, hi, hpath, hfilled⟩ := hl
    rw [Local, hcall]
    exact ⟨hnum, hbatch.congr hsame, hdst, hi, (hsame.take i).path hpath, hfilled.congr hsame⟩
  | pushHead c b part =>
    obtain ⟨hnum, hbatch, hfilled, hpart⟩ := hl
    rw [Local, hcall]
    exact ⟨hnum, hbatch.congr hsame, hfilled.congr hsame, (hkept _).bounded hpart⟩
  | link c b old =>
    obtain ⟨hnum, hbatch, hfilled, hold⟩ := hl
    rw [Local, hcall]
    exact ⟨hnum, hbatch.congr hsame, hfilled.congr hsame, (hkept _).cnt_le hold⟩
  | pushCas c b old =>
    obtain ⟨hnum, hbatch, hfilled, hold, hpath⟩ := hl
    rw [Local, hcall]
    exact ⟨hnum, hbatch.congr hsame, hfilled.congr hsame, (hkept _).cnt_le hold, hsame.path hpath⟩
  | addLen c b => exact ⟨hl.1, hcall.trans hl.2.1, hl.2.2⟩

/-! ## The invariant -/

/-- **How many elements a thread has reserved** of a list or not added to its length
yet. -/
def Pc.reserved (pc : Pc α) (which : Which) : ℕ :=
  match pc with
  | .popHead c _ => if c.src = which then c.num else 0
  | .walk c _ => if c.src = which then c.num else 0
  | .walkNext c _ _ => if c.src = which then c.num else 0
  | .popCas c _ => if c.src = which then c.num else 0
  | .addLen c _ => if c.dst = which then c.num else 0
  | _ => 0

/-- What the call of a thread has done to the used list. -/
def Pc.current : Pc α → Option (Op α)
  | .pushHead (.pop _) b _ => some (.pop b.objs)
  | .link (.pop _) b _ => some (.pop b.objs)
  | .pushCas (.pop _) b _ => some (.pop b.objs)
  | .addLen (.push objs) _ => some (.push objs)
  | .addLen (.pop _) b => some (.pop b.objs)
  | _ => none

/-- What a call that has returned has done to the used list. -/
def Result.op (r : Result α) : Option (Op α) :=
  if r.ret = 0 then none
  else match r.call with
    | .push objs => some (.push objs)
    | .pop _ => some (.pop r.objs)

/-- **A stack of objects** is what pushes and pops lead to, the last one first. A push
puts the last of its objects on top, a pop takes the objects on top. -/
def Replays : List (T × Op α) → List α → Prop
  | [], objs => objs = []
  | (_, .push new) :: log, objs => ∃ rest, objs = new.reverse ++ rest ∧ Replays log rest
  | (_, .pop old) :: log, objs => Replays log (old ++ objs)

/-- What a thread has done to the used list. -/
def opsOf [DecidableEq T] (log : List (T × Op α)) (t : T) : List (Op α) :=
  (log.filter (fun e => e.1 = t)).map Prod.snd

@[simp]
theorem opsOf_cons_self [DecidableEq T] (t : T) (op : Op α) (log : List (T × Op α)) :
    opsOf ((t, op) :: log) t = op :: opsOf log t := by
  simp [opsOf]

theorem opsOf_cons_ne [DecidableEq T] {t u : T} (h : u ≠ t) (op : Op α) (log : List (T × Op α)) :
    opsOf ((t, op) :: log) u = opsOf log u := by
  simp [opsOf, Ne.symm h]

variable [DecidableEq T] [Fintype T]

/-- **What is true of a stack between threads**, with its elements where they are. -/
structure Inv (count : ℕ) (sys : System T α) (L : Place T → List ℕ) : Prop where
  placed : Placed count L
  linked : ∀ which, Path sys.s.next (sys.s.list which).head.top (L (.list which)) none
  len : ∀ which, (L (.list which)).length =
    (sys.s.list which).len + ∑ t, (sys.pc t).reserved which
  here : ∀ t, Local sys.s L t (sys.pc t)
  replays : Replays sys.log ((L (.list .used)).map sys.s.data)
  history : ∀ t, opsOf sys.log t =
    (sys.pc t).current.toList ++ (sys.results t).filterMap Result.op
  objs : ∀ t, ∀ r ∈ sys.results t, r.ret = 0 ∨ r.ret = r.call.num ∧
    ∀ n, r.call = .pop n → r.objs.length = n

end Stack
