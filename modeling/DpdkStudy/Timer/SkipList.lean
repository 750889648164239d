import DpdkStudy.Lib.Loop
import DpdkStudy.Lib.SinglyLinked
import Mathlib.Data.List.Pairwise
import Mathlib.Data.List.Basic
import Mathlib.Data.Nat.Basic

/-!
# The skip list of an lcore's timers

The timers pending on an lcore are linked in ten lists, one above the other,
each in the order of expiry. A timer is in the lists below the height that was
drawn for it, so the lowest list has every timer and each list is a part of
the one below. `Listed` says what the links are for a list of timers and their
heights; this module proves that `timerAdd` puts a timer behind those that
expire no later, and that `timerDel` takes one out, or changes nothing when
the timer is in no list.

Upper entries of `sl_next` are never cleared: those of a timer at and above
its height hold whatever an earlier use has left there, and `Listed` says
nothing about them.
-/

open SinglyLinked Function List

namespace Timer

/-- `MAX_SKIPLIST_DEPTH`. -/
def maxSkiplistDepth : ℕ := 10

/-- `UINT64_MAX + 1`. -/
def uint64Size : ℕ := 2 ^ 64

/-- The state of a timer. The owner that the source keeps beside it is the
lcore itself for each state but the first, which has none. -/
inductive TimerState
  | stop
  | pending
  | running
  | config
  deriving DecidableEq

/-- **The timers of an lcore**: `struct priv_timer`, and the fields of the
timers themselves. A node of the lists is a timer or `pending_head`, which is
`none`. -/
structure PrivTimer (T : Type*) where
  /-- `sl_next[lvl]` of a node. -/
  slNext : ℕ → Option T → Option T
  expire : T → ℕ
  period : T → ℕ
  state : T → TimerState
  /-- `pending_head.expire`. -/
  headExpire : ℕ
  currSkiplistDepth : ℕ
  updated : Bool
  runningTim : Option T
  /-- The calls to `rte_timer_manage` that are waiting for a callback, the
  innermost first: the timer whose callback it is, and `next_tim`. -/
  managing : List (T × Option T)

variable {T : Type*}

/-! ## The code -/

/-- The lowest bit that is set. -/
def rteBsf32 (v : ℕ) : ℕ := ((List.range 32).find? (fun i => v.testBit i)).getD 0

/-- `timer_get_skiplist_level`, for the number drawn. -/
def timerGetSkiplistLevel (random currDepth : ℕ) : ℕ :=
  let rand := random &&& 0xFFFFFFFE
  let level := if rand = 0 then maxSkiplistDepth else (rteBsf32 rand - 1) / 2
  let level := if currDepth < level then currDepth else level
  if maxSkiplistDepth ≤ level then maxSkiplistDepth - 1 else level

/-- The loop of `timer_get_prev_entries` over the levels below `lvl`. -/
def prevEntriesBelow (fuel : ℕ) (s : PrivTimer T) (timeVal : ℕ) :
    ℕ → (ℕ → Option T) → Option (ℕ → Option T)
  | 0, prev => some prev
  | lvl + 1, prev =>
    (walk (s.slNext lvl) (fun t => s.expire t ≤ timeVal) fuel (prev (lvl + 1))).bind fun p =>
      prevEntriesBelow fuel s timeVal lvl (Function.update prev lvl p)

/-- `timer_get_prev_entries`: on each level, the last entry that expires by
`timeVal`. The entries of `prev` that are not set are not read. -/
def timerGetPrevEntries (fuel : ℕ) (s : PrivTimer T) (timeVal : ℕ) : Option (ℕ → Option T) :=
  prevEntriesBelow fuel s timeVal s.currSkiplistDepth (fun _ => none)

section Code

variable [DecidableEq T]

/-- The loop of `timer_get_prev_entries_for_node` over the levels below `i`. -/
def advanceBelow (fuel : ℕ) (s : PrivTimer T) (tim : T) :
    ℕ → (ℕ → Option T) → Option (ℕ → Option T)
  | 0, prev => some prev
  | i + 1, prev =>
    (walk (s.slNext i) (fun t => t ≠ tim ∧ s.expire t ≤ s.expire tim) fuel (prev i)).bind fun p =>
      advanceBelow fuel s tim i (Function.update prev i p)

/-- `expire - 1`, in 64 bits. -/
def justBefore (expire : ℕ) : ℕ := (expire + (uint64Size - 1)) % uint64Size

/-- `timer_get_prev_entries_for_node`. -/
def timerGetPrevEntriesForNode (fuel : ℕ) (s : PrivTimer T) (tim : T) :
    Option (ℕ → Option T) :=
  (timerGetPrevEntries fuel s (justBefore (s.expire tim))).bind fun prev =>
    advanceBelow fuel s tim s.currSkiplistDepth prev

/-- `timer_add`, for the number its level is drawn with. -/
def timerAdd (fuel : ℕ) (s : PrivTimer T) (tim : T) (random : ℕ) : Option (PrivTimer T) :=
  (timerGetPrevEntries fuel s (s.expire tim)).bind fun prev =>
    let timLevel := timerGetSkiplistLevel random s.currSkiplistDepth
    let slNext := Loop.countdown (timLevel + 1)
      (fun lvl next => Function.update next lvl (insertAfter (next lvl) (prev lvl) tim)) s.slNext
    some { s with
      slNext
      currSkiplistDepth :=
        if timLevel = s.currSkiplistDepth then s.currSkiplistDepth + 1 else s.currSkiplistDepth
      headExpire := ((slNext 0 none).map s.expire).getD s.headExpire }

/-- The loop that adjusts the depth: levels that are empty go, from the top. -/
def trimDepth (slNext : ℕ → Option T → Option T) : ℕ → ℕ
  | 0 => 0
  | d + 1 => if slNext d none = none then trimDepth slNext d else d + 1

/-- `timer_del`. -/
def timerDel (fuel : ℕ) (s : PrivTimer T) (tim : T) : Option (PrivTimer T) :=
  let headExpire :=
    if s.slNext 0 none = some tim then ((s.slNext 0 (some tim)).map s.expire).getD 0
    else s.headExpire
  (timerGetPrevEntriesForNode fuel s tim).bind fun prev =>
    let slNext := Loop.countdown s.currSkiplistDepth
      (fun i (next : ℕ → Option T → Option T) => Function.update next i
        (if next i (prev i) = some tim then bypass (next i) (prev i) tim else next i)) s.slNext
    some { s with
      slNext
      headExpire
      currSkiplistDepth := trimDepth slNext s.currSkiplistDepth }

end Code

/-! ## What the links are -/

/-- The timers of a list that are high enough for a level. -/
def lane (L : List T) (height : T → ℕ) (i : ℕ) : List T := L.filter (fun t => i < height t)

/-- **The levels hold the timers of a list**, each below its height. -/
structure Listed (s : PrivTimer T) (L : List T) (height : T → ℕ) : Prop where
  leads : ∀ i, Leads (s.slNext i) none (lane L height i)
  sorted : L.Pairwise (fun a b => s.expire a ≤ s.expire b)
  nodup : L.Nodup
  height_pos : ∀ t ∈ L, 0 < height t
  lt_depth : ∀ i, i < s.currSkiplistDepth ↔ lane L height i ≠ []
  depth_le : s.currSkiplistDepth ≤ maxSkiplistDepth

/-- The expiry of the first timer, 0 when there is none. -/
def firstExpire (s : PrivTimer T) (L : List T) : ℕ := (L.head?.map s.expire).getD 0

/-- The timers that expire by a time. -/
def dueBy (s : PrivTimer T) (v : ℕ) (L : List T) : List T := L.filter (fun t => s.expire t ≤ v)

/-- The timers that expire after a time. -/
def dueAfter (s : PrivTimer T) (v : ℕ) (L : List T) : List T := L.filter (fun t => v < s.expire t)

variable {s : PrivTimer T} {L : List T} {height : T → ℕ} {fuel v : ℕ} {tim : T}

@[simp] theorem lane_append (A B : List T) (i : ℕ) :
    lane (A ++ B) height i = lane A height i ++ lane B height i := filter_append ..

theorem mem_lane {i : ℕ} {t : T} : t ∈ lane L height i ↔ t ∈ L ∧ i < height t := by
  simp [lane]

theorem lane_sublist (i : ℕ) : (lane L height i).Sublist L := filter_sublist

theorem lane_succ_sublist (i : ℕ) : (lane L height (i + 1)).Sublist (lane L height i) := by
  refine monotone_filter_right L (fun t ht => ?_)
  simp only [decide_eq_true_eq] at ht ⊢
  exact Nat.lt_of_succ_lt ht

theorem lane_zero (hpos : ∀ t ∈ L, 0 < height t) : lane L height 0 = L := by
  simpa [lane, filter_eq_self] using hpos

/-- **A sorted list is what is due by a time, and then what is due after.** -/
theorem dueBy_append_dueAfter (h : L.Pairwise (fun a b => s.expire a ≤ s.expire b)) (v : ℕ) :
    dueBy s v L ++ dueAfter s v L = L := by
  induction L with
  | nil => rfl
  | cons a L ih =>
    obtain ⟨ha, hL⟩ := pairwise_cons.mp h
    by_cases hav : s.expire a ≤ v
    · simpa [dueBy, dueAfter, hav] using ih hL
    · -- what comes after the first is due even later
      have hby : dueBy s v (a :: L) = [] := by
        simp only [dueBy, filter_eq_nil_iff, decide_eq_true_eq, not_le]
        intro t ht
        rcases mem_cons.mp ht with rfl | ht
        · exact not_le.mp hav
        · exact lt_of_lt_of_le (not_le.mp hav) (ha t ht)
      have hafter : dueAfter s v (a :: L) = a :: L := by
        simp only [dueAfter, filter_eq_self, decide_eq_true_eq]
        intro t ht
        rcases mem_cons.mp ht with rfl | ht
        · exact not_le.mp hav
        · exact lt_of_lt_of_le (not_le.mp hav) (ha t ht)
      rw [hby, hafter, nil_append]

/-- The levels hold the timers of a list whatever is kept beside the links. -/
theorem Listed.congr {s' : PrivTimer T} (h : Listed s L height) (hnext : s'.slNext = s.slNext)
    (hexpire : ∀ t ∈ L, s'.expire t = s.expire t)
    (hdepth : s'.currSkiplistDepth = s.currSkiplistDepth) : Listed s' L height where
  leads := by rw [hnext]; exact h.leads
  sorted := h.sorted.imp_of_mem (fun ha hb hab => by rwa [hexpire _ ha, hexpire _ hb])
  nodup := h.nodup
  height_pos := h.height_pos
  lt_depth := by rw [hdepth]; exact h.lt_depth
  depth_le := by rw [hdepth]; exact h.depth_le

/-- A list is no longer than the timers are many. -/
theorem length_lane_le (i : ℕ) : (lane L height i).length ≤ L.length :=
  (lane_sublist i).length_le

/-- There is nothing on a level that is not in use. -/
theorem Listed.lane_eq_nil (h : Listed s L height) {i : ℕ} (hi : s.currSkiplistDepth ≤ i) :
    lane L height i = [] := by
  by_contra hne
  exact absurd ((h.lt_depth i).mpr hne) (not_lt.mpr hi)

/-- The head links to the first timer of a level. -/
theorem Listed.slNext_none (h : Listed s L height) (i : ℕ) :
    s.slNext i none = (lane L height i).head? := (h.leads i).head?_eq

/-! ## Where the walks stop -/

/-- On the levels below `lvl`, the loop stops at the last entries that are
due. -/
theorem prevEntriesBelow_eq (h : Listed s L height) (hfuel : L.length < fuel) (v : ℕ) (lvl : ℕ)
    (prev : ℕ → Option T) (hprev : prev lvl = endNode none (lane (dueBy s v L) height lvl)) :
    ∃ prev', prevEntriesBelow fuel s v lvl prev = some prev' ∧
      (∀ i < lvl, prev' i = endNode none (lane (dueBy s v L) height i)) ∧
      ∀ i, lvl ≤ i → prev' i = prev i := by
  induction lvl generalizing prev with
  | zero => exact ⟨prev, rfl, by simp, fun _ _ => rfl⟩
  | succ lvl ih =>
    -- the walk sets out from a node of the level above
    obtain ⟨X, Y, hXY, hX⟩ := exists_append_of_sublist
      (lane_succ_sublist lvl : (lane (dueBy s v L) height (lvl + 1)).Sublist _) none
    have hleads :
        Leads (s.slNext lvl) (prev (lvl + 1)) (Y ++ lane (dueAfter s v L) height lvl) := by
      have hall := h.leads lvl
      rw [← dueBy_append_dueAfter h.sorted v, lane_append, hXY, append_assoc] at hall
      rw [hprev, ← hX]
      exact (leads_append.mp hall).2
    have hY : ∀ a ∈ Y, decide (s.expire a ≤ v) = true := by
      intro a ha
      have hmem : a ∈ lane (dueBy s v L) height lvl := hXY ▸ mem_append_right X ha
      have hdue := (mem_lane.mp hmem).1
      exact (mem_filter.mp hdue).2
    have hafter : ∀ b, (lane (dueAfter s v L) height lvl).head? = some b →
        decide (s.expire b ≤ v) = false := by
      intro b hb
      have hdue := (mem_lane.mp (mem_of_head? hb)).1
      simpa [dueAfter] using (mem_filter.mp hdue).2
    have hlength : Y.length < fuel := by
      have hle := le_trans (length_lane_le lvl : (lane (dueBy s v L) height lvl).length ≤ _)
        (length_filter_le _ L)
      rw [hXY, length_append] at hle
      omega
    have hwalk := hleads.walk_eq hY hafter hlength
    have hend : endNode (prev (lvl + 1)) Y = endNode none (lane (dueBy s v L) height lvl) := by
      rw [hXY, endNode_append, hX, hprev]
    obtain ⟨prev', heq, hbelow, habove⟩ :=
      ih (update prev lvl (endNode (prev (lvl + 1)) Y))
        (by rw [update_self, hend])
    refine ⟨prev', by rw [prevEntriesBelow, hwalk, Option.bind_some, heq], ?_, ?_⟩
    · intro i hi
      rcases Nat.lt_succ_iff_lt_or_eq.mp hi with hlt | rfl
      · exact hbelow i hlt
      · rw [habove i (le_refl i), update_self, hend]
    · intro i hi
      rw [habove i (by omega), update_of_ne (by omega)]

/-- **`timer_get_prev_entries`** finds the last entry that is due on each
level. -/
theorem timerGetPrevEntries_eq (h : Listed s L height) (hfuel : L.length < fuel) (v : ℕ) :
    ∃ prev, timerGetPrevEntries fuel s v = some prev ∧
      ∀ i ≤ s.currSkiplistDepth, prev i = endNode none (lane (dueBy s v L) height i) := by
  have hdue : lane (dueBy s v L) height s.currSkiplistDepth = [] := by
    have hnil := h.lane_eq_nil (le_refl _)
    rw [← dueBy_append_dueAfter h.sorted v, lane_append] at hnil
    exact (append_eq_nil_iff.mp hnil).1
  obtain ⟨prev, heq, hbelow, habove⟩ := prevEntriesBelow_eq h hfuel v s.currSkiplistDepth
    (fun _ => none) (by rw [hdue, endNode_nil])
  refine ⟨prev, heq, fun i hi => ?_⟩
  rcases Nat.lt_or_eq_of_le hi with hlt | rfl
  · exact hbelow i hlt
  · rw [habove _ (le_refl _), hdue, endNode_nil]

variable [DecidableEq T]

omit [DecidableEq T] in
/-- Nothing that expires at some time is due just before it, unless that time
is 0. -/
theorem justBefore_lt {expire : ℕ} (hpos : 0 < expire) (hlt : expire < uint64Size) :
    justBefore expire < expire := by
  rw [justBefore, show expire + (uint64Size - 1) = expire - 1 + uint64Size by omega,
    Nat.add_mod_right, Nat.mod_eq_of_lt (by omega)]
  omega

/-- **The second walk of `timer_get_prev_entries_for_node`**: where it stops
on a level, a timer that is on it comes next. -/
theorem walk_to_node (h : Listed s L height) (hfuel : L.length < fuel) (i : ℕ) {P R : List T}
    (hPR : lane L height i = P ++ R) (hnot : tim ∉ P) :
    ∃ P' Q, lane L height i = P' ++ Q ∧
      walk (s.slNext i) (fun t => t ≠ tim ∧ s.expire t ≤ s.expire tim) fuel (endNode none P)
        = some (endNode none P') ∧
      (tim ∈ lane L height i → Q.head? = some tim) := by
  let go : T → Bool := fun t => t ≠ tim ∧ s.expire t ≤ s.expire tim
  have hsplit : R = R.takeWhile go ++ R.dropWhile go := takeWhile_append_dropWhile.symm
  have hleads : Leads (s.slNext i) (endNode none P) (R.takeWhile go ++ R.dropWhile go) := by
    have hall := h.leads i
    rw [hPR] at hall
    rw [← hsplit]
    exact (leads_append.mp hall).2
  have hstop : ∀ b, (R.dropWhile go).head? = some b → go b = false := by
    intro b hb
    have hnotgo := head?_dropWhile_not go R
    simpa [hb] using hnotgo
  have hlength : (R.takeWhile go).length < fuel := by
    have hle : (lane L height i).length ≤ L.length := length_lane_le i
    have htake : (R.takeWhile go).length ≤ R.length := (takeWhile_sublist go).length_le
    rw [hPR, length_append] at hle
    omega
  have hwalk := hleads.walk_eq (all_eq_true.mp all_takeWhile) hstop hlength
  refine ⟨P ++ R.takeWhile go, R.dropWhile go, ?_, ?_, ?_⟩
  · rw [append_assoc, ← hsplit, hPR]
  · rw [endNode_append]
    exact hwalk
  · intro htim
    have hR : tim ∈ R := (mem_append.mp (hPR ▸ htim)).resolve_left hnot
    obtain ⟨R₁, R₂, rfl⟩ := append_of_mem hR
    have hsub : (R₁ ++ tim :: R₂).Sublist L :=
      (hPR ▸ sublist_append_right P _ : (R₁ ++ tim :: R₂).Sublist (lane L height i)).trans
        (lane_sublist i)
    -- the timers in front are other ones, and expire no later
    have hfront : ∀ a ∈ R₁, go a = true := by
      intro a ha
      have hle := (pairwise_append.mp (h.sorted.sublist hsub)).2.2 a ha tim mem_cons_self
      have hne := (nodup_append.mp (h.nodup.sublist hsub)).2.2 a ha tim mem_cons_self
      simp [go, hle, hne]
    rw [dropWhile_append_of_pos hfront, dropWhile_cons_of_neg (by simp [go])]
    rfl

/-- On the levels below `i`, the second loop stops in front of the timer. -/
theorem advanceBelow_eq (tim : T) (h : Listed s L height) (hfuel : L.length < fuel) (i : ℕ)
    (prev : ℕ → Option T)
    (hprev : ∀ k < i, ∃ P R, lane L height k = P ++ R ∧ prev k = endNode none P ∧ tim ∉ P) :
    ∃ prev', advanceBelow fuel s tim i prev = some prev' ∧
      (∀ k < i, ∃ P Q, lane L height k = P ++ Q ∧ prev' k = endNode none P ∧
        (tim ∈ lane L height k → Q.head? = some tim)) ∧
      ∀ k, i ≤ k → prev' k = prev k := by
  induction i generalizing prev with
  | zero => exact ⟨prev, rfl, by simp, fun _ _ => rfl⟩
  | succ i ih =>
    obtain ⟨P, R, hPR, hP, hnot⟩ := hprev i (Nat.lt_succ_self i)
    obtain ⟨P', Q, hPQ, hwalk, hhead⟩ := walk_to_node h hfuel i hPR hnot
    obtain ⟨prev', heq, hbelow, habove⟩ := ih (update prev i (endNode none P')) (by
      intro k hk
      rw [update_of_ne (Nat.ne_of_lt hk)]
      exact hprev k (Nat.lt_succ_of_lt hk))
    refine ⟨prev', by rw [advanceBelow, hP, hwalk, Option.bind_some, heq], ?_, ?_⟩
    · intro k hk
      rcases Nat.lt_succ_iff_lt_or_eq.mp hk with hlt | rfl
      · exact hbelow k hlt
      · exact ⟨P', Q, hPQ, by rw [habove k (le_refl k), update_self], hhead⟩
    · intro k hk
      rw [habove k (by omega), update_of_ne (by omega)]

/-- **`timer_get_prev_entries_for_node`** stops in front of a timer that is in
the lists, on each level it is on. For that its expiry must not be 0: the time
just before it is none then. -/
theorem timerGetPrevEntriesForNode_eq (h : Listed s L height) (hfuel : L.length < fuel)
    (hpos : tim ∈ L → 0 < s.expire tim) (hlt : tim ∈ L → s.expire tim < uint64Size) :
    ∃ prev, timerGetPrevEntriesForNode fuel s tim = some prev ∧
      ∀ k < s.currSkiplistDepth, ∃ P Q, lane L height k = P ++ Q ∧ prev k = endNode none P ∧
        (tim ∈ lane L height k → Q.head? = some tim) := by
  obtain ⟨prev, heq, hprev⟩ := timerGetPrevEntries_eq h hfuel (justBefore (s.expire tim))
  obtain ⟨prev', heq', hprev', -⟩ := advanceBelow_eq tim h hfuel s.currSkiplistDepth prev (by
    intro k hk
    refine ⟨_, lane (dueAfter s (justBefore (s.expire tim)) L) height k, ?_,
      hprev k (Nat.le_of_lt hk), ?_⟩
    · rw [← lane_append, dueBy_append_dueAfter h.sorted]
    · intro hmem
      obtain ⟨hL, hdue⟩ := mem_filter.mp (mem_lane.mp hmem).1
      have hbefore := justBefore_lt (hpos hL) (hlt hL)
      simp only [decide_eq_true_eq] at hdue
      omega)
  exact ⟨prev', by rw [timerGetPrevEntriesForNode, heq, Option.bind_some, heq'], hprev'⟩

/-! ## Putting a timer in -/

omit [DecidableEq T] in
/-- The level of a timer is at most one that is not in use, and one there is. -/
theorem timerGetSkiplistLevel_le (random depth : ℕ) :
    timerGetSkiplistLevel random depth ≤ depth ∧
      timerGetSkiplistLevel random depth < maxSkiplistDepth := by
  simp only [timerGetSkiplistLevel, maxSkiplistDepth]
  split_ifs <;> omega

/-- The levels of a list after a timer is put into it, with the levels up to
`lvl`. -/
theorem lane_insert {A B : List T} (htim : tim ∉ A ++ B) (lvl i : ℕ) :
    lane (A ++ tim :: B) (update height tim (lvl + 1)) i
      = if i ≤ lvl then lane A height i ++ tim :: lane B height i else lane (A ++ B) height i := by
  have hother : ∀ l : List T, tim ∉ l →
      lane l (update height tim (lvl + 1)) i = lane l height i := by
    intro l hl
    refine filter_congr (fun a ha => ?_)
    rw [update_of_ne (ne_of_mem_of_not_mem ha hl)]
  have hA : tim ∉ A := fun h => htim (mem_append_left B h)
  have hB : tim ∉ B := fun h => htim (mem_append_right A h)
  have htop : lane (tim :: B) (update height tim (lvl + 1)) i
      = if i ≤ lvl then tim :: lane B height i else lane B height i := by
    rw [← hother B hB]
    by_cases hi : i ≤ lvl
    · simp [lane, hi, Nat.lt_succ_of_le hi]
    · have hlt : ¬ i < lvl + 1 := by omega
      simp [lane, hi, hlt]
  rw [lane_append, lane_append, hother A hA, htop]
  split_ifs <;> rfl

/-- **A timer that is put in** is found on the levels up to its own, behind
those that expire no later. -/
theorem Listed.insert {A B : List T} {lvl : ℕ} (h : Listed s (A ++ B) height) (s' : PrivTimer T)
    (htim : tim ∉ A ++ B) (hA : ∀ a ∈ A, s.expire a ≤ s.expire tim)
    (hB : ∀ b ∈ B, s.expire tim ≤ s.expire b) (hlvl : lvl ≤ s.currSkiplistDepth)
    (hmax : lvl < maxSkiplistDepth) (hexpire : s'.expire = s.expire)
    (hdepth : s'.currSkiplistDepth
      = if lvl = s.currSkiplistDepth then s.currSkiplistDepth + 1 else s.currSkiplistDepth)
    (hnext : ∀ i, s'.slNext i
      = if i ≤ lvl then insertAfter (s.slNext i) (endNode none (lane A height i)) tim
        else s.slNext i) :
    Listed s' (A ++ tim :: B) (update height tim (lvl + 1)) where
  leads := by
    intro i
    have hall := h.leads i
    have hnodup : (tim :: (A ++ B)).Nodup := nodup_cons.mpr ⟨htim, h.nodup⟩
    rw [lane_insert htim, hnext]
    by_cases hi : i ≤ lvl
    · rw [if_pos hi, if_pos hi]
      rw [lane_append] at hall
      refine hall.insert (by simp) (hnodup.sublist (List.Sublist.cons_cons tim ?_))
      rw [← lane_append]
      exact lane_sublist i
    · rw [if_neg hi, if_neg hi]
      exact hall
  sorted := by
    obtain ⟨hsA, hsB, hsAB⟩ := pairwise_append.mp h.sorted
    rw [hexpire]
    refine pairwise_append.mpr ⟨hsA, pairwise_cons.mpr ⟨hB, hsB⟩, fun a ha b hb => ?_⟩
    rcases mem_cons.mp hb with rfl | hb
    · exact hA a ha
    · exact hsAB a ha b hb
  nodup := nodup_middle.mpr (nodup_cons.mpr ⟨htim, h.nodup⟩)
  height_pos := by
    intro t ht
    by_cases ht' : t = tim
    · simp [ht']
    · rw [update_of_ne ht']
      exact h.height_pos t (by simpa [ht'] using ht)
  lt_depth := by
    intro i
    rw [hdepth, lane_insert htim]
    by_cases hi : i ≤ lvl
    · simp only [hi, if_true, ne_eq, append_eq_nil_iff, reduceCtorEq, and_false,
        not_false_eq_true, iff_true]
      split_ifs <;> omega
    · rw [if_neg hi, ← h.lt_depth i]
      split_ifs <;> omega
  depth_le := by
    have hle := h.depth_le
    rw [hdepth]
    split_ifs <;> omega

/-- **`timer_add`** puts a timer behind those that expire no later. Beside the
links of the timers in the list and its own, it leaves the links alone. -/
theorem timerAdd_spec (h : Listed s L height) (hfuel : L.length < fuel) (htim : tim ∉ L)
    (random : ℕ) :
    ∃ s' height', timerAdd fuel s tim random = some s' ∧
      Listed s' (dueBy s (s.expire tim) L ++ tim :: dueAfter s (s.expire tim) L) height' ∧
      s'.headExpire =
        firstExpire s' (dueBy s (s.expire tim) L ++ tim :: dueAfter s (s.expire tim) L) ∧
      s' = { s with
        slNext := s'.slNext
        currSkiplistDepth := s'.currSkiplistDepth
        headExpire := s'.headExpire } ∧
      ∀ a, a ∉ L → a ≠ tim → ∀ i, s'.slNext i (some a) = s.slNext i (some a) := by
  obtain ⟨prev, heq, hprev⟩ := timerGetPrevEntries_eq h hfuel (s.expire tim)
  obtain ⟨hlvl, hmax⟩ := timerGetSkiplistLevel_le random s.currSkiplistDepth
  have hAB := dueBy_append_dueAfter h.sorted (s.expire tim)
  obtain ⟨s', hs'⟩ : ∃ s', timerAdd fuel s tim random = some s' := by
    rw [timerAdd, heq, Option.bind_some]
    exact ⟨_, rfl⟩
  have hfields := hs'
  rw [timerAdd, heq, Option.bind_some, Option.some_inj] at hfields
  have hnext : ∀ i, s'.slNext i
      = if i ≤ timerGetSkiplistLevel random s.currSkiplistDepth then
          insertAfter (s.slNext i) (endNode none (lane (dueBy s (s.expire tim) L) height i)) tim
        else s.slNext i := by
    intro i
    rw [← hfields]
    refine (Loop.countdown_update _ (fun i f => insertAfter f (prev i) tim) _ i).trans ?_
    by_cases hi : i ≤ timerGetSkiplistLevel random s.currSkiplistDepth
    · rw [if_pos (Nat.lt_succ_of_le hi), if_pos hi, hprev i (le_trans hi hlvl)]
    · rw [if_neg (by omega), if_neg hi]
  have hlisted := (hAB.symm ▸ h : Listed s (dueBy s (s.expire tim) L ++ _) height).insert
    s' (hAB.symm ▸ htim) (fun a ha => of_decide_eq_true (mem_filter.mp ha).2)
    (fun b hb => le_of_lt (of_decide_eq_true (mem_filter.mp hb).2)) hlvl hmax
    (by rw [← hfields]) (by rw [← hfields]) hnext
  refine ⟨s', _, hs', hlisted, ?_, by rw [← hfields], ?_⟩
  · have hhead := hlisted.slNext_none 0
    rw [lane_zero hlisted.height_pos] at hhead
    have hexpire : s'.headExpire = ((s'.slNext 0 none).map s'.expire).getD s.headExpire := by
      rw [← hfields]
    rw [hexpire, hhead, firstExpire]
    cases dueBy s (s.expire tim) L <;> rfl
  · intro a ha hatim i
    rw [hnext]
    by_cases hi : i ≤ timerGetSkiplistLevel random s.currSkiplistDepth
    · have hend : some a ≠ endNode none (lane (dueBy s (s.expire tim) L) height i) :=
        Ne.symm (endNode_ne (fun hmem => ha (mem_filter.mp (mem_lane.mp hmem).1).1))
      simp [hi, insertAfter, hend, hatim]
    · rw [if_neg hi]

/-! ## Taking a timer out -/

/-- The levels of a list after a timer is taken out of it. -/
theorem lane_erase (hnodup : L.Nodup) (tim : T) (i : ℕ) :
    lane (L.erase tim) height i = (lane L height i).erase tim := by
  rw [lane, lane, hnodup.erase_eq_filter, (hnodup.filter _).erase_eq_filter, filter_filter,
    filter_filter]
  exact filter_congr (fun a _ => Bool.and_comm _ _)

omit [DecidableEq T] in
/-- The depth that is left counts the levels that are not empty. -/
theorem lt_trimDepth {slNext : ℕ → Option T → Option T}
    (hanti : ∀ i, slNext (i + 1) none ≠ none → slNext i none ≠ none) (d i : ℕ) :
    i < trimDepth slNext d ↔ i < d ∧ slNext i none ≠ none := by
  induction d with
  | zero => simp [trimDepth]
  | succ d ih =>
    rw [trimDepth]
    by_cases hd : slNext d none = none
    · rw [if_pos hd, ih, Nat.lt_succ_iff_lt_or_eq]
      refine and_congr_left (fun hi => ?_)
      exact ⟨Or.inl, fun h => h.resolve_right (fun e => hi (e ▸ hd))⟩
    · rw [if_neg hd]
      refine ⟨fun hi => ⟨hi, ?_⟩, fun hi => hi.1⟩
      -- a level below one that is in use is in use
      exact Nat.decreasingInduction' (fun k _ _ hk => hanti k hk) (Nat.le_of_lt_succ hi) hd

omit [DecidableEq T] in
theorem trimDepth_le (slNext : ℕ → Option T → Option T) (d : ℕ) : trimDepth slNext d ≤ d := by
  induction d with
  | zero => exact le_refl 0
  | succ d ih =>
    rw [trimDepth]
    split_ifs
    · exact Nat.le_succ_of_le ih
    · exact le_refl _

theorem Listed.erase {prev : ℕ → Option T} (h : Listed s L height) (s' : PrivTimer T)
    (hprev : ∀ k < s.currSkiplistDepth, ∃ P Q, lane L height k = P ++ Q ∧
      prev k = endNode none P ∧ (tim ∈ lane L height k → Q.head? = some tim))
    (hexpire : s'.expire = s.expire)
    (hnext : ∀ i, s'.slNext i
      = if i < s.currSkiplistDepth then
          if s.slNext i (prev i) = some tim then bypass (s.slNext i) (prev i) tim else s.slNext i
        else s.slNext i)
    (hdepth : s'.currSkiplistDepth = trimDepth s'.slNext s.currSkiplistDepth) :
    Listed s' (L.erase tim) height := by
  have hleads : ∀ i, Leads (s'.slNext i) none (lane (L.erase tim) height i) := by
    intro i
    rw [hnext, lane_erase h.nodup]
    by_cases hi : i < s.currSkiplistDepth
    · obtain ⟨P, Q, hPQ, hP, htim⟩ := hprev i hi
      have hall := h.leads i
      rw [hPQ] at hall
      have hhead : s.slNext i (prev i) = Q.head? := by
        rw [hP]
        exact (leads_append.mp hall).2.head?_eq
      rw [if_pos hi, hhead]
      by_cases hmem : tim ∈ lane L height i
      · obtain ⟨Q', rfl⟩ := head?_eq_some_iff.mp (htim hmem)
        have hnodup : (P ++ tim :: Q').Nodup := hPQ ▸ h.nodup.sublist (lane_sublist i)
        have hnot : tim ∉ P := fun hP =>
          (nodup_append.mp hnodup).2.2 tim hP tim mem_cons_self rfl
        rw [if_pos (htim hmem), hPQ, hP, erase_append_right _ hnot, erase_cons_head]
        exact hall.bypass (by simp) hnodup
      · have hother : Q.head? ≠ some tim := fun hQ =>
          hmem (hPQ ▸ mem_append_right P (mem_of_head? hQ))
        rw [if_neg hother, erase_of_not_mem hmem, hPQ]
        exact hall
    · have hall := h.leads i
      rw [h.lane_eq_nil (Nat.le_of_not_lt hi)] at hall ⊢
      rw [if_neg hi]
      exact hall
  have hused : ∀ i, s'.slNext i none ≠ none ↔ lane (L.erase tim) height i ≠ [] := by
    intro i
    rw [(hleads i).head?_eq, ne_eq, head?_eq_none_iff]
  have hpart : (L.erase tim).Sublist L := erase_sublist
  exact
    { leads := hleads
      sorted := by
        rw [hexpire]
        exact h.sorted.sublist hpart
      nodup := h.nodup.sublist hpart
      height_pos := fun t ht => h.height_pos t (hpart.subset ht)
      lt_depth := by
        intro i
        have hanti : ∀ k, s'.slNext (k + 1) none ≠ none → s'.slNext k none ≠ none := by
          intro k hk
          rw [hused] at hk ⊢
          exact fun hnil => hk (sublist_nil.mp (hnil ▸ lane_succ_sublist k))
        rw [hdepth, lt_trimDepth hanti, hused]
        refine and_iff_right_of_imp (fun hne => (h.lt_depth i).mpr (fun hnil => hne ?_))
        rw [lane_erase h.nodup, hnil, erase_nil]
      depth_le := by
        rw [hdepth]
        exact le_trans (trimDepth_le _ _) h.depth_le }

/-- **`timer_del`** takes a timer out of the lists it is in; one that is in
none is left out of them. Beside the links of the timers in the list, it
leaves the links alone. -/
theorem timerDel_spec (tim : T) (h : Listed s L height) (hfuel : L.length < fuel)
    (hfirst : s.headExpire = firstExpire s L) (hpos : tim ∈ L → 0 < s.expire tim)
    (hlt : tim ∈ L → s.expire tim < uint64Size) :
    ∃ s', timerDel fuel s tim = some s' ∧ Listed s' (L.erase tim) height ∧
      s'.headExpire = firstExpire s' (L.erase tim) ∧
      s' = { s with
        slNext := s'.slNext
        currSkiplistDepth := s'.currSkiplistDepth
        headExpire := s'.headExpire } ∧
      ∀ a, a ∉ L → ∀ i, s'.slNext i (some a) = s.slNext i (some a) := by
  obtain ⟨prev, heq, hprev⟩ := timerGetPrevEntriesForNode_eq h hfuel hpos hlt
  obtain ⟨s', hs'⟩ : ∃ s', timerDel fuel s tim = some s' := by
    rw [timerDel, heq, Option.bind_some]
    exact ⟨_, rfl⟩
  have hfields := hs'
  rw [timerDel, heq, Option.bind_some, Option.some_inj] at hfields
  have hnext : ∀ i, s'.slNext i
      = if i < s.currSkiplistDepth then
          if s.slNext i (prev i) = some tim then bypass (s.slNext i) (prev i) tim else s.slNext i
        else s.slNext i := by
    intro i
    rw [← hfields]
    exact Loop.countdown_update _
      (fun i f => if f (prev i) = some tim then bypass f (prev i) tim else f) _ i
  have hlisted := h.erase s' hprev (by rw [← hfields]) hnext (by rw [← hfields])
  refine ⟨s', hs', hlisted, ?_, by rw [← hfields], ?_⟩
  · have hexpire : s'.headExpire
        = if s.slNext 0 none = some tim then ((s.slNext 0 (some tim)).map s.expire).getD 0
          else s.headExpire := by rw [← hfields]
    have hleads := h.leads 0
    rw [lane_zero h.height_pos] at hleads
    rw [hexpire, firstExpire, show s'.expire = s.expire by rw [← hfields], hfirst, firstExpire,
      hleads.head?_eq]
    cases L with
    | nil => simp
    | cons a L =>
      by_cases ha : a = tim
      · subst ha
        simp [(leads_cons.mp hleads).2.head?_eq]
      · simp [ha, erase_cons_tail]
  · intro a ha i
    rw [hnext]
    by_cases hi : i < s.currSkiplistDepth
    · obtain ⟨P, Q, hPQ, hP, -⟩ := hprev i hi
      have hend : some a ≠ prev i := by
        rw [hP]
        refine Ne.symm (endNode_ne (fun hmem => ha ?_))
        exact (lane_sublist i).subset (hPQ ▸ mem_append_left Q hmem)
      rw [if_pos hi]
      split_ifs
      · exact update_of_ne hend _ _
      · rfl
    · rw [if_neg hi]

end Timer
