import DpdkStudy.IpFrag.Collecting
import Mathlib.Tactic.Abel

/-!
# The table

The entries in use are those with a key, and they are listed by their age
(`Tabled`). Each is in one of the two buckets of its key, where a lookup finds
it, and so no two have the same key.
-/

open List Option

namespace IpFrag

open Function Mbuf

/-- **What never changes of a table.** -/
structure SameShape (tbl tbl' : Tbl) : Prop where
  max_cycles : tbl'.max_cycles = tbl.max_cycles
  entry_mask : tbl'.entry_mask = tbl.entry_mask
  max_entries : tbl'.max_entries = tbl.max_entries
  bucket_entries : tbl'.bucket_entries = tbl.bucket_entries
  nb_entries : tbl'.nb_entries = tbl.nb_entries

theorem SameShape.refl (tbl : Tbl) : SameShape tbl tbl := ⟨rfl, rfl, rfl, rfl, rfl⟩

theorem SameShape.trans {t t' t'' : Tbl} (h : SameShape t t') (h' : SameShape t' t'') :
    SameShape t t'' :=
  ⟨h'.max_cycles.trans h.max_cycles, h'.entry_mask.trans h.entry_mask,
    h'.max_entries.trans h.max_entries, h'.bucket_entries.trans h.bucket_entries,
    h'.nb_entries.trans h.nb_entries⟩

/-- **The table is in order.** -/
structure Tabled (crc : FragKey → UInt32) (P : Mbuf → Prop) (tbl : Tbl) : Prop where
  lru_nodup : tbl.lru.Nodup
  mem_lru : ∀ p, p ∈ tbl.lru ↔ (tbl.pkt p).key ≠ none
  use_entries : tbl.use_entries = tbl.lru.length
  placed : ∀ p k, (tbl.pkt p).key = some k → p ∈ candidates crc tbl k
  unique : ∀ p q k, (tbl.pkt p).key = some k → (tbl.pkt q).key = some k → p = q
  collecting : ∀ p k, (tbl.pkt p).key = some k → Collecting P k (tbl.pkt p)
  idle : ∀ p, (tbl.pkt p).key = none → Idle (tbl.pkt p)
  inside : ∀ k, ∀ p ∈ candidates crc tbl k, p < tbl.nb_entries

/-- **The mbufs in a table.** -/
def Tbl.held (tbl : Tbl) : Multiset ℕ := (tbl.lru.map (fun p => idsOf (tbl.pkt p).freed)).sum

variable {crc : FragKey → UInt32} {P : Mbuf → Prop} {tbl : Tbl} {p : ℕ} {k : FragKey}

theorem Tabled.mono {Q : Mbuf → Prop} (ht : Tabled crc P tbl) (h : ∀ m, P m → Q m) :
    Tabled crc Q tbl :=
  { ht with collecting := fun p k hk => (ht.collecting p k hk).mono h }

/-- The last entry that was found does not matter. -/
theorem Tabled.setLast (ht : Tabled crc P tbl) (last : Option ℕ) :
    Tabled crc P { tbl with last := last } :=
  ⟨ht.lru_nodup, ht.mem_lru, ht.use_entries, ht.placed, ht.unique, ht.collecting, ht.idle,
    ht.inside⟩

/-! ## The mbufs of one entry -/

/-- The mbufs of some entries, of which one is looked at. -/
theorem held_eq (pkt : ℕ → FragPkt) {lru : List ℕ} (hp : p ∈ lru) :
    (lru.map (fun q => idsOf (pkt q).freed)).sum =
      idsOf (pkt p).freed + ((lru.erase p).map (fun q => idsOf (pkt q).freed)).sum := by
  rw [((perm_cons_erase hp).map _).sum_eq, map_cons, sum_cons]

/-- The mbufs of the other entries do not depend on one. -/
theorem sum_update_of_notMem (pkt : ℕ → FragPkt) (fp : FragPkt) {lru : List ℕ} (hp : p ∉ lru) :
    (lru.map (fun q => idsOf (update pkt p fp q).freed)).sum =
      (lru.map (fun q => idsOf (pkt q).freed)).sum := by
  congr 1
  refine map_congr_left (fun q hq => ?_)
  have hqp : q ≠ p := by
    rintro rfl
    exact hp hq
  rw [update_of_ne hqp]

namespace Tabled

theorem put (ht : Tabled crc P tbl) (hk : (tbl.pkt p).key = some k) {fp : FragPkt}
    (hc : Collecting P k fp) :
    Tabled crc P { tbl with pkt := update tbl.pkt p fp } ∧
      ({ tbl with pkt := update tbl.pkt p fp } : Tbl).held + idsOf (tbl.pkt p).freed =
        tbl.held + idsOf fp.freed := by
  have hkeys : ∀ q, (update tbl.pkt p fp q).key = (tbl.pkt q).key := by
    intro q
    by_cases hq : q = p
    · rw [hq, update_self, hc.key, hk]
    · rw [update_of_ne hq]
  constructor
  · exact
      { lru_nodup := ht.lru_nodup
        mem_lru := fun q => by rw [hkeys]; exact ht.mem_lru q
        use_entries := ht.use_entries
        placed := fun q k' hq => ht.placed q k' (by rwa [hkeys] at hq)
        unique := fun q q' k' hq hq' =>
          ht.unique q q' k' (by rwa [hkeys] at hq) (by rwa [hkeys] at hq')
        collecting := fun q k' hq => by
          rw [hkeys] at hq
          by_cases hqp : q = p
          · subst hqp
            obtain rfl := some.inj (hq.symm.trans hk)
            simp only [update_self]
            exact hc
          · simp only [update_of_ne hqp]
            exact ht.collecting q k' hq
        idle := fun q hq => by
          rw [hkeys] at hq
          have hqp : q ≠ p := fun h => by rw [h, hk] at hq; exact absurd hq (by simp)
          simp only [update_of_ne hqp]
          exact ht.idle q hq
        inside := ht.inside }
  · have hp : p ∈ tbl.lru := (ht.mem_lru p).mpr (by rw [hk]; simp)
    have hnotMem : p ∉ tbl.lru.erase p := ht.lru_nodup.not_mem_erase
    show (tbl.lru.map (fun q => idsOf (update tbl.pkt p fp q).freed)).sum + _ = tbl.held + _
    rw [Tbl.held, held_eq _ hp, held_eq tbl.pkt hp, sum_update_of_notMem _ _ hnotMem, update_self]
    abel

theorem drop (ht : Tabled crc P tbl) (hk : (tbl.pkt p).key ≠ none) {fp : FragPkt}
    (hi : Idle fp) :
    Tabled crc P
        { tbl with
          pkt := update tbl.pkt p fp
          lru := tbl.lru.erase p
          use_entries := tbl.use_entries - 1 } ∧
      ({ tbl with
          pkt := update tbl.pkt p fp
          lru := tbl.lru.erase p
          use_entries := tbl.use_entries - 1 } : Tbl).held + idsOf (tbl.pkt p).freed =
        tbl.held := by
  have hp : p ∈ tbl.lru := (ht.mem_lru p).mpr hk
  have hold : ∀ q k', (update tbl.pkt p fp q).key = some k' →
      q ≠ p ∧ (tbl.pkt q).key = some k' := by
    intro q k' hq
    have hqp : q ≠ p := by
      rintro rfl
      rw [update_self, hi.key] at hq
      simp at hq
    rw [update_of_ne hqp] at hq
    exact ⟨hqp, hq⟩
  constructor
  · exact
      { lru_nodup := ht.lru_nodup.erase p
        mem_lru := fun q => by
          by_cases hqp : q = p
          · subst hqp
            simp only [update_self, hi.key, ne_eq, not_true_eq_false, iff_false]
            exact ht.lru_nodup.not_mem_erase
          · simp only [update_of_ne hqp]
            rw [mem_erase_of_ne hqp]
            exact ht.mem_lru q
        use_entries := by
          rw [length_erase_of_mem hp]
          exact congrArg (· - 1) ht.use_entries
        placed := fun q k' hq => ht.placed q k' (hold q k' hq).2
        unique := fun q q' k' hq hq' => ht.unique q q' k' (hold q k' hq).2 (hold q' k' hq').2
        collecting := fun q k' hq => by
          obtain ⟨hqp, hq⟩ := hold q k' hq
          simp only [update_of_ne hqp]
          exact ht.collecting q k' hq
        idle := fun q hq => by
          by_cases hqp : q = p
          · subst hqp
            simp only [update_self]
            exact hi
          · simp only [update_of_ne hqp] at hq ⊢
            exact ht.idle q hq
        inside := ht.inside }
  · show ((tbl.lru.erase p).map (fun q => idsOf (update tbl.pkt p fp q).freed)).sum + _ = tbl.held
    rw [Tbl.held, held_eq tbl.pkt hp, sum_update_of_notMem _ _ ht.lru_nodup.not_mem_erase,
      add_comm]

theorem add (ht : Tabled crc P tbl) (hidle : (tbl.pkt p).key = none)
    (hplaced : p ∈ candidates crc tbl k) (hnew : ∀ q, (tbl.pkt q).key ≠ some k) (tms : UInt64) :
    Tabled crc P (tbl.add p k tms) ∧ (tbl.add p k tms).held = tbl.held ∧
      ((tbl.add p k tms).pkt p).key = some k ∧ ((tbl.add p k tms).pkt p).freed = [] ∧
      ((tbl.add p k tms).pkt p).start = tms := by
  have hempty := (ht.idle p hidle).empty
  obtain ⟨hc, hnil⟩ := collecting_reset (P := P) { tbl.pkt p with key := some k } rfl hempty tms
  have hpkt : (tbl.add p k tms).pkt p = ({ tbl.pkt p with key := some k } : FragPkt).reset tms :=
    update_self _ _ _
  have hother : ∀ q, q ≠ p → (tbl.add p k tms).pkt q = tbl.pkt q := fun q hq =>
    update_of_ne hq _ _
  have hfreed : ((tbl.add p k tms).pkt p).freed = [] := by rw [hpkt, hnil]
  have hnotMem : p ∉ tbl.lru := fun h => (ht.mem_lru p).mp h hidle
  have hold : ∀ q k', ((tbl.add p k tms).pkt q).key = some k' →
      q = p ∧ k' = k ∨ q ≠ p ∧ (tbl.pkt q).key = some k' := by
    intro q k' hq
    by_cases hqp : q = p
    · subst hqp
      rw [hpkt] at hq
      exact Or.inl ⟨rfl, (some.inj hq).symm⟩
    · rw [hother q hqp] at hq
      exact Or.inr ⟨hqp, hq⟩
  refine ⟨?_, ?_, by rw [hpkt]; rfl, hfreed, by rw [hpkt]; rfl⟩
  · exact
      { lru_nodup := nodup_append.mpr ⟨ht.lru_nodup, nodup_singleton _, fun q hq q' hq' => by
          rw [mem_singleton] at hq'
          rintro rfl
          exact hnotMem (hq' ▸ hq)⟩
        mem_lru := fun q => by
          show q ∈ tbl.lru ++ [p] ↔ _
          rw [mem_append, mem_singleton]
          by_cases hqp : q = p
          · subst hqp
            rw [hpkt]
            exact iff_of_true (Or.inr rfl) (by simp [FragPkt.reset])
          · rw [hother q hqp, or_iff_left hqp]
            exact ht.mem_lru q
        use_entries := by
          show tbl.use_entries + 1 = (tbl.lru ++ [p]).length
          rw [length_append, length_singleton, ht.use_entries]
        placed := fun q k' hq => by
          rcases hold q k' hq with ⟨rfl, rfl⟩ | ⟨-, hq⟩
          · exact hplaced
          · exact ht.placed q k' hq
        unique := fun q q' k' hq hq' => by
          rcases hold q k' hq with ⟨rfl, rfl⟩ | ⟨-, hq⟩
          · rcases hold q' k' hq' with ⟨rfl, -⟩ | ⟨-, hq'⟩
            · rfl
            · exact absurd hq' (hnew q')
          · rcases hold q' k' hq' with ⟨-, hkk⟩ | ⟨-, hq'⟩
            · exact absurd (hkk ▸ hq) (hnew q)
            · exact ht.unique q q' k' hq hq'
        collecting := fun q k' hq => by
          rcases hold q k' hq with ⟨rfl, rfl⟩ | ⟨hqp, hq⟩
          · rw [hpkt]
            exact hc
          · rw [hother q hqp]
            exact ht.collecting q k' hq
        idle := fun q hq => by
          by_cases hqp : q = p
          · subst hqp
            rw [hpkt] at hq
            simp [FragPkt.reset] at hq
          · rw [hother q hqp] at hq ⊢
            exact ht.idle q hq
        inside := ht.inside }
  · show ((tbl.lru ++ [p]).map (fun q => idsOf ((tbl.add p k tms).pkt q).freed)).sum = _
    rw [map_append, sum_append, map_singleton, sum_singleton, hfreed,
      idsOf_nil, add_zero]
    exact sum_update_of_notMem _ _ hnotMem

/-- An entry that is timed out is used again, for the same key. -/
theorem reuse (ht : Tabled crc P tbl) (hk : (tbl.pkt p).key = some k) (tms : UInt64) :
    Tabled crc P (tbl.reuse p tms) ∧
      (tbl.reuse p tms).held + idsOf (tbl.pkt p).freed = tbl.held ∧
      ((tbl.reuse p tms).pkt p).key = some k ∧ ((tbl.reuse p tms).pkt p).freed = [] ∧
      ((tbl.reuse p tms).pkt p).start = tms := by
  have hp : p ∈ tbl.lru := (ht.mem_lru p).mpr (by rw [hk]; simp)
  have hempty := (idle_free (ht.collecting p k hk).beyond).empty
  obtain ⟨hc, hfreed⟩ := collecting_reset (P := P) (tbl.pkt p).free hk hempty tms
  have hpkt : (tbl.reuse p tms).pkt p = (tbl.pkt p).free.reset tms := update_self _ _ _
  obtain ⟨hput, hheld⟩ := ht.put hk hc
  have hperm : (tbl.lru.erase p ++ [p]).Perm tbl.lru :=
    (perm_append_singleton p _).trans (perm_cons_erase hp).symm
  refine ⟨?_, ?_, ?_, ?_, by rw [hpkt]; rfl⟩
  · exact
      { lru_nodup := hperm.nodup_iff.mpr ht.lru_nodup
        mem_lru := fun q => hperm.mem_iff.trans (hput.mem_lru q)
        use_entries := ht.use_entries.trans hperm.length_eq.symm
        placed := hput.placed
        unique := hput.unique
        collecting := hput.collecting
        idle := hput.idle
        inside := hput.inside }
  · rw [hfreed, idsOf_nil, add_zero] at hheld
    rw [← hheld, Tbl.held, Tbl.held]
    congr 1
    exact (hperm.map _).sum_eq
  · rw [hpkt]
    exact hk
  · rw [hpkt]
    exact hfreed

end Tabled

/-! ## Lookups -/

/-- **What a lookup among some entries says.** -/
inductive Looked (tbl : Tbl) (key : FragKey) (tms : UInt64) (ps : List ℕ) : Lookup → Prop
  | found {p : ℕ} (key_eq : (tbl.pkt p).key = some key) : Looked tbl key tms ps (.found p)
  | missing {free stale : Option ℕ} (absent : ∀ p ∈ ps, (tbl.pkt p).key ≠ some key)
      (free_of : ∀ p, free = some p → p ∈ ps ∧ (tbl.pkt p).key = none)
      (stale_of : ∀ p, stale = some p → p ∈ ps ∧ (tbl.pkt p).key ≠ none ∧
        (tbl.pkt p).timedOut tbl.max_cycles tms = true) :
      Looked tbl key tms ps (.missing free stale)

/-- The loop over the entries of two buckets. -/
theorem probe_spec {key : FragKey} {tms : UInt64} {all ps : List ℕ} {empty old : Option ℕ}
    (hsub : ∀ p ∈ ps, p ∈ all) (hpassed : ∀ p ∈ all, p ∉ ps → (tbl.pkt p).key ≠ some key)
    (hempty : ∀ p, empty = some p → p ∈ all ∧ (tbl.pkt p).key = none)
    (hold : ∀ p, old = some p → p ∈ all ∧ (tbl.pkt p).key ≠ none ∧
      (tbl.pkt p).timedOut tbl.max_cycles tms = true) :
    Looked tbl key tms all (probe tbl key tms ps empty old) := by
  induction ps generalizing empty old with
  | nil => exact Looked.missing (fun p hp => hpassed p hp not_mem_nil) hempty hold
  | cons p ps ih =>
    have hp := hsub p mem_cons_self
    have hsub' : ∀ q ∈ ps, q ∈ all := fun q hq => hsub q (mem_cons_of_mem p hq)
    rw [probe]
    by_cases hkey : (tbl.pkt p).key = some key
    · rw [if_pos hkey]
      exact Looked.found hkey
    have hpassed' : ∀ q ∈ all, q ∉ ps → (tbl.pkt q).key ≠ some key := by
      intro q hq hqps
      by_cases hqp : q = p
      · rw [hqp]
        exact hkey
      · exact hpassed q hq (by simp [hqp, hqps])
    rw [if_neg hkey]
    by_cases hnone : (tbl.pkt p).key = none
    · rw [if_pos hnone]
      refine ih hsub' hpassed' (fun q hq => ?_) hold
      cases empty with
      | none => exact some.inj hq ▸ ⟨hp, hnone⟩
      | some e => exact hempty q hq
    rw [if_neg hnone]
    by_cases hstale : (tbl.pkt p).timedOut tbl.max_cycles tms = true
    · rw [if_pos hstale]
      refine ih hsub' hpassed' hempty (fun q hq => ?_)
      cases old with
      | none => exact some.inj hq ▸ ⟨hp, hnone, hstale⟩
      | some o => exact hold q hq
    · rw [if_neg hstale]
      exact ih hsub' hpassed' hempty hold

/-- A lookup finds the entry of a key, or there is none. -/
theorem ipFragLookup_spec (crc : FragKey → UInt32) (tbl : Tbl) (key : FragKey) (tms : UInt64) :
    Looked tbl key tms (candidates crc tbl key) (ipFragLookup crc tbl key tms) := by
  have hprobe : Looked tbl key tms (candidates crc tbl key)
      (probe tbl key tms (candidates crc tbl key) none none) :=
    probe_spec (fun _ h => h) (fun p hp h => absurd hp h) (fun p h => by simp at h)
      (fun p h => by simp at h)
  rw [ipFragLookup]
  cases tbl.last with
  | none => exact hprobe
  | some p =>
    by_cases hkey : (tbl.pkt p).key = some key
    · simp only [if_pos hkey]
      exact Looked.found hkey
    · simp only [if_neg hkey]
      exact hprobe

/-- No entry has a key that a lookup does not find. -/
theorem Tabled.absent (ht : Tabled crc P tbl) {key : FragKey}
    (habsent : ∀ p ∈ candidates crc tbl key, (tbl.pkt p).key ≠ some key) (q : ℕ) :
    (tbl.pkt q).key ≠ some key := fun hq => habsent q (ht.placed q key hq) hq

/-! ## Finding an entry -/

/-- **What finding an entry for a key does.** The entry is the one the key had,
or it is new. Those that are timed out may be given up on the way. -/
structure Found (crc : FragKey → UInt32) (P : Mbuf → Prop) (key : FragKey) (tms : UInt64)
    (tbl tbl' : Tbl) (dr : List Mbuf) (found : Option ℕ) : Prop where
  tabled : Tabled crc P tbl'
  shape : SameShape tbl tbl'
  held : tbl'.held + idsOf dr = tbl.held
  missed : found = none → dr = []
  key_eq : ∀ p, found = some p → (tbl'.pkt p).key = some key
  entry : ∀ p, found = some p →
    tbl'.pkt p = tbl.pkt p ∧ (tbl.pkt p).timedOut tbl.max_cycles tms = false ∨
      (tbl'.pkt p).freed = [] ∧ (tbl'.pkt p).start = tms
  others : ∀ q, (tbl.pkt q).key ≠ none →
    (tbl.pkt q).timedOut tbl.max_cycles tms = false → tbl'.pkt q = tbl.pkt q
  keys : ∀ q k, (tbl'.pkt q).key = some k → k ≠ key → (tbl.pkt q).key = some k

/-- The table that finding starts from, with another last entry. -/
theorem Found.same (ht : Tabled crc P tbl) (key : FragKey) (tms : UInt64) :
    Found crc P key tms tbl { tbl with last := none } [] none where
  tabled := ht.setLast none
  shape := ⟨rfl, rfl, rfl, rfl, rfl⟩
  held := add_zero _
  missed _ := rfl
  key_eq p h := by simp at h
  entry p h := by simp at h
  others q _ _ := rfl
  keys q k h _ := h

/-- **An entry that is not in use** is taken for the key, where another was
given up before, or none. -/
theorem Found.added {key : FragKey} {tms : UInt64} {tbl₁ : Tbl} {dr : List Mbuf}
    (ht : Tabled crc P tbl₁) (hshape : SameShape tbl tbl₁) (hheld : tbl₁.held + idsOf dr = tbl.held)
    (hothers : ∀ q, (tbl.pkt q).key ≠ none →
      (tbl.pkt q).timedOut tbl.max_cycles tms = false → tbl₁.pkt q = tbl.pkt q)
    (hkeys : ∀ q k, (tbl₁.pkt q).key = some k → (tbl.pkt q).key = some k)
    (hidle : (tbl₁.pkt p).key = none) (hplaced : p ∈ candidates crc tbl₁ key)
    (habsent : ∀ q, (tbl₁.pkt q).key ≠ some key) :
    Found crc P key tms tbl { tbl₁.add p key tms with last := some p } dr (some p) := by
  obtain ⟨ht', hheld', hkey, hfreed, hstart⟩ := ht.add hidle hplaced habsent tms
  exact
    { tabled := ht'.setLast _
      shape := hshape.trans ⟨rfl, rfl, rfl, rfl, rfl⟩
      held := (congrArg (· + idsOf dr) hheld').trans hheld
      missed := fun h => by simp at h
      key_eq := fun q hq => by
        obtain rfl := some.inj hq
        exact hkey
      entry := fun q hq => by
        obtain rfl := some.inj hq
        exact Or.inr ⟨hfreed, hstart⟩
      keys := fun q k hq hk => by
        have hqp : q ≠ p := by
          rintro rfl
          exact hk (some.inj (hq.symm.trans hkey))
        exact hkeys q k ((congrArg FragPkt.key (update_of_ne hqp _ _)).symm.trans hq)
      others := fun q hq hstale => by
        have hsame := hothers q hq hstale
        have hqp : q ≠ p := by
          rintro rfl
          rw [hsame] at hidle
          exact hq hidle
        exact (update_of_ne hqp _ _).trans hsame }

/-- **`ip_frag_find` finds an entry**, unless there is no room. In a table for
no entries, it looks for the oldest one. -/
theorem ipFragFind_spec (ht : Tabled crc P tbl) (key : FragKey) (tms : UInt64) :
    ipFragFind crc tbl key tms = none ∧ tbl.max_entries = 0 ∨
      ∃ tbl' dr found, ipFragFind crc tbl key tms = some (tbl', dr, found) ∧
        Found crc P key tms tbl tbl' dr found := by
  have hlook := ipFragLookup_spec crc tbl key tms
  rw [ipFragFind]
  cases hlookup : ipFragLookup crc tbl key tms with
  | found p =>
    rw [hlookup] at hlook
    obtain @⟨_, hkey⟩ := hlook
    by_cases hstale : (tbl.pkt p).timedOut tbl.max_cycles tms = true
    · obtain ⟨ht', hheld, hkey', hfreed, hstart⟩ := ht.reuse hkey tms
      refine Or.inr ⟨_, _, _, by simp only [if_pos hstale]; rfl, ?_⟩
      exact
        { tabled := ht'.setLast _
          shape := ⟨rfl, rfl, rfl, rfl, rfl⟩
          held := hheld
          missed := fun h => by simp at h
          key_eq := fun q hq => by
            obtain rfl := some.inj hq
            exact hkey'
          entry := fun q hq => by
            obtain rfl := some.inj hq
            exact Or.inr ⟨hfreed, hstart⟩
          keys := fun q k hq hk => by
            have hqp : q ≠ p := by
              rintro rfl
              exact hk (some.inj (hq.symm.trans hkey'))
            exact (congrArg FragPkt.key (update_of_ne hqp _ _)).symm.trans hq
          others := fun q hq hq' => by
            have hqp : q ≠ p := by
              rintro rfl
              rw [hstale] at hq'
              simp at hq'
            exact update_of_ne hqp _ _ }
    · refine Or.inr ⟨_, _, _, by simp only [if_neg hstale]; rfl, ?_⟩
      exact
        { tabled := ht.setLast _
          shape := ⟨rfl, rfl, rfl, rfl, rfl⟩
          held := add_zero _
          missed := fun h => by simp at h
          key_eq := fun q hq => by
            obtain rfl := some.inj hq
            exact hkey
          entry := fun q hq => by
            obtain rfl := some.inj hq
            exact Or.inl ⟨rfl, by simpa using hstale⟩
          keys := fun q k hq _ => hq
          others := fun q _ _ => rfl }
  | missing free stale =>
    rw [hlookup] at hlook
    obtain @⟨_⟩ | @⟨_, _, habsent, hfree, hstale⟩ := hlook
    have hnew := ht.absent habsent
    -- an entry that is given up makes room for another one
    have hdrop : ∀ q, (tbl.pkt q).key ≠ none →
        (tbl.pkt q).timedOut tbl.max_cycles tms = true → ∀ p, p ∈ candidates crc tbl key →
        (q = p ∨ (tbl.pkt p).key = none) →
        Found crc P key tms tbl { (tbl.del q).add p key tms with last := some p }
          (tbl.pkt q).freed (some p) := by
      intro q hq hqstale p hplaced hp
      obtain ⟨k, hk⟩ := ne_none_iff_exists'.mp hq
      have hi := idle_free (ht.collecting q k hk).beyond
      obtain ⟨ht', hheld⟩ := ht.drop hq hi
      have hkeys : ∀ q', ((tbl.del q).pkt q').key = if q' = q then none else (tbl.pkt q').key := by
        intro q'
        by_cases hqq : q' = q
        · rw [hqq, if_pos rfl]
          exact (congrArg FragPkt.key (update_self q _ tbl.pkt)).trans hi.key
        · rw [if_neg hqq]
          exact congrArg FragPkt.key (update_of_ne hqq _ tbl.pkt)
      refine Found.added ht' ⟨rfl, rfl, rfl, rfl, rfl⟩ hheld (fun q' hq' hq'stale => ?_)
        (fun q' k' hq' => ?_) ?_ hplaced (fun q' => ?_)
      · have hne : q' ≠ q := by
          rintro rfl
          rw [hqstale] at hq'stale
          simp at hq'stale
        exact update_of_ne hne _ _
      · have hkey := (hkeys q').symm.trans hq'
        split_ifs at hkey
        exact hkey
      · refine (hkeys p).trans ?_
        split
        · rfl
        · rename_i hne
          exact hp.resolve_left (fun h => hne h.symm)
      · intro hq'
        have hkey := (hkeys q').symm.trans hq'
        split_ifs at hkey
        exact hnew q' hkey
    cases stale with
    | some stale =>
      obtain ⟨hplaced, hkey, htimed⟩ := hstale stale rfl
      exact Or.inr ⟨_, _, _, rfl, hdrop stale hkey htimed stale hplaced (Or.inl rfl)⟩
    | none =>
      cases free with
      | none => exact Or.inr ⟨_, _, _, rfl, Found.same ht key tms⟩
      | some free =>
        obtain ⟨hplaced, hkey⟩ := hfree free rfl
        by_cases hfull : tbl.max_entries ≤ tbl.use_entries
        · simp only [if_pos hfull]
          cases hlru : tbl.lru.head? with
          | none =>
            have hlength := ht.use_entries
            rw [head?_eq_none_iff.mp hlru, length_nil] at hlength
            exact Or.inl ⟨rfl, by omega⟩
          | some lru =>
            have hlrukey : (tbl.pkt lru).key ≠ none :=
              (ht.mem_lru lru).mp (mem_of_mem_head? hlru)
            refine Or.inr ?_
            simp only [map_some]
            by_cases htimed : (tbl.pkt lru).timedOut tbl.max_cycles tms = true
            · simp only [if_pos htimed]
              exact ⟨_, _, _, rfl, hdrop lru hlrukey htimed free hplaced (Or.inr hkey)⟩
            · simp only [if_neg htimed]
              exact ⟨_, _, _, rfl, Found.same ht key tms⟩
        · simp only [if_neg hfull]
          exact Or.inr ⟨_, _, _, rfl, Found.added ht (SameShape.refl tbl) (add_zero _)
            (fun _ _ _ => rfl) (fun _ _ h => h) hkey hplaced hnew⟩

/-! ## A packet that comes in -/

namespace Mbuf

theorem map_mbuf_trimLast (len : ℕ) (l : List Seg) :
    (trimLast len l).map Seg.mbuf = l.map Seg.mbuf := by
  induction l using trimLast.induct with
  | case1 => rfl
  | case2 s => rfl
  | case3 s t rest ih => rw [trimLast, map_cons, map_cons, ih]

theorem trimLast_ne_nil (len : ℕ) {l : List Seg} (hl : l ≠ []) : trimLast len l ≠ [] := by
  intro h
  have hmap := map_mbuf_trimLast len l
  rw [h, map_nil] at hmap
  exact hl (map_eq_nil_iff.mp hmap.symm)

theorem segs_trim {m : Mbuf} {len : ℕ} (h : len ≤ m.lastseg.dataLen) :
    (m.trim len).segs = trimLast len m.segs := by
  rw [trim, if_neg (by omega), segs]
  have hne : trimLast len m.segs ≠ [] := trimLast_ne_nil len (cons_ne_nil _ _)
  obtain ⟨s, rest, heq⟩ := exists_cons_of_ne_nil hne
  simp only [heq, headD_cons, tail_cons]

@[simp]
theorem trim_ids (m : Mbuf) (len : ℕ) : (m.trim len).ids = m.ids := by
  by_cases h : len ≤ m.lastseg.dataLen
  · rw [ids, segs_trim h, map_mbuf_trimLast, ids]
  · rw [trim, if_pos (by omega)]

@[simp]
theorem trimmed_ids (m : Mbuf) : m.trimmed.ids = m.ids := by
  rw [trimmed]
  split
  · exact m.trim_ids _
  · rfl

@[simp]
theorem trimmed_ip (m : Mbuf) : m.trimmed.ip = m.ip := by
  simp only [trimmed, trim]
  split_ifs <;> rfl

@[simp]
theorem trimmed_l2_len (m : Mbuf) : m.trimmed.l2_len = m.l2_len := by
  simp only [trimmed, trim]
  split_ifs <;> rfl

@[simp]
theorem trimmed_l3_len (m : Mbuf) : m.trimmed.l3_len = m.l3_len := by
  simp only [trimmed, trim]
  split_ifs <;> rfl

@[simp]
theorem trimmed_fragLen (m : Mbuf) : m.trimmed.fragLen = m.fragLen := by
  rw [fragLen, fragLen, trimmed_ip, trimmed_l3_len]

end Mbuf

/-- **A fragment makes a datagram complete** that is not timed out, with those
that are stored. -/
def Completes (tbl : Tbl) (mb : Mbuf) (tms : UInt64) (ms : List Mbuf) : Prop :=
  ∃ p, (tbl.pkt p).key = some mb.ip.key ∧ (tbl.pkt p).timedOut tbl.max_cycles tms = false ∧
    ms = mb.trimmed :: (tbl.pkt p).freed ∧ Complete ms

theorem not_complete_singleton (m : Mbuf) : ¬ Complete [m] := by
  rintro ⟨⟨a, ha, hofs⟩, m', hm', hne, -⟩
  rw [mem_singleton] at ha hm'
  exact hne (hm' ▸ ha ▸ hofs)

/-- **What a packet that comes in does to a table.** A packet that is returned
is made of the fragments stored for its key and the one that came in. -/
structure Received (crc : FragKey → UInt32) (P : Mbuf → Prop) (tbl : Tbl) (mb : Mbuf)
    (tms : UInt64) (tbl' : Tbl) (dr : List Mbuf) (out : Option Mbuf) : Prop where
  tabled : Tabled crc P tbl'
  shape : SameShape tbl tbl'
  ids : (∀ ms, Completes tbl mb tms ms → nbSegsOf ms ≤ maxNbSegs) →
    tbl'.held + idsOf out.toList + idsOf dr = tbl.held + mb.ids
  whole : ∀ m, out = some m → ∃ ms a bs total, Completes tbl mb tms ms ∧ (a :: bs).Perm ms ∧
    Tiles total a bs ∧ m = { glue a bs with ip := wholeHdr a total }
  others : ∀ q k, (tbl.pkt q).key = some k → k ≠ mb.ip.key →
    (tbl.pkt q).timedOut tbl.max_cycles tms = false → tbl'.pkt q = tbl.pkt q
  keys : ∀ q k, (tbl'.pkt q).key = some k → k ≠ mb.ip.key → (tbl.pkt q).key = some k
  outcome : ∀ tbl₁ dr₁ p, ipFragFind crc tbl mb.ip.key tms = some (tbl₁, dr₁, some p) →
    0 < mb.fragLen → ∃ dr', Outcome P mb.ip.key (tbl₁.pkt p) mb.trimmed (tbl'.pkt p, dr', out)

/-- **`rte_ipv4_frag_reassemble_packet` keeps the table in order**, unless that
is one for no entries. -/
theorem rteIpv4FragReassemblePacket_spec (ht : Tabled crc P tbl) {mb : Mbuf}
    (hP : 0 < mb.fragLen → P mb.trimmed) (tms : UInt64) :
    rteIpv4FragReassemblePacket crc tbl mb tms = none ∧ tbl.max_entries = 0 ∨
      ∃ tbl' dr out, rteIpv4FragReassemblePacket crc tbl mb tms = some (tbl', dr, out) ∧
        Received crc P tbl mb tms tbl' dr out := by
  rw [rteIpv4FragReassemblePacket]
  by_cases hlen : mb.ip.total_length.toNat ≤ mb.l3_len
  · rw [if_pos hlen]
    refine Or.inr ⟨_, _, _, rfl, ht, SameShape.refl tbl, fun _ => ?_, fun m h => by simp at h,
      fun _ _ _ _ _ => rfl, fun _ _ h _ => h, fun _ _ _ _ hpos => ?_⟩
    · simp
    · rw [fragLen] at hpos
      omega
  rw [if_neg hlen]
  have hpos : 0 < mb.fragLen := by
    rw [fragLen]
    omega
  obtain ⟨hnone, hmax⟩ | ⟨tbl₁, dr₁, found, hfind, hf⟩ :=
    ipFragFind_spec ht mb.trimmed.ip.key tms
  · exact Or.inl ⟨by simp only [hnone]; rfl, hmax⟩
  refine Or.inr ?_
  simp only [hfind, bind_some]
  cases found with
  | none =>
    rw [trimmed_ip] at hfind hf
    refine ⟨_, _, _, rfl, hf.tabled, hf.shape, fun _ => ?_, fun m h => by simp at h,
      fun q k hq _ hfresh => hf.others q (by rw [hq]; simp) hfresh, hf.keys,
      fun tbl₂ dr₂ p h => by rw [hfind] at h; simp at h⟩
    have hheld := hf.held
    rw [hf.missed rfl, idsOf_nil, add_zero] at hheld
    rw [hf.missed rfl, hheld]
    simp
  | some p =>
    have hkey := hf.key_eq p rfl
    have hc := hf.tabled.collecting p _ hkey
    have hlen' : 0 < mb.trimmed.fragLen := by rwa [trimmed_fragLen]
    obtain ⟨r, hprocess, hout⟩ := ipFragProcess_spec hc (hP hpos) rfl hlen'
    rw [show mb.ip.total_length.toNat - mb.l3_len = mb.trimmed.fragLen from
      (trimmed_fragLen mb).symm]
    -- a datagram is complete with what was stored before
    have hcompletes : Complete (mb.trimmed :: (tbl₁.pkt p).freed) →
        Completes tbl mb tms (mb.trimmed :: (tbl₁.pkt p).freed) := by
      intro hcomplete
      rcases hf.entry p rfl with ⟨heq, hfresh⟩ | hnil
      · refine ⟨p, ?_, hfresh, by rw [heq], hcomplete⟩
        rw [← heq, hkey, trimmed_ip]
      · rw [hnil.1] at hcomplete
        exact absurd hcomplete (not_complete_singleton _)
    have hheld := hf.held
    simp only [hprocess, map_some]
    -- an entry that is given up is not in use any more
    have hinuse : ∀ fp : FragPkt, Idle fp →
        ({ tbl₁ with pkt := update tbl₁.pkt p fp } : Tbl).inuse p =
          { tbl₁ with
            pkt := update tbl₁.pkt p fp
            lru := tbl₁.lru.erase p
            use_entries := tbl₁.use_entries - 1 } := by
      intro fp hi
      rw [Tbl.inuse, if_pos]
      simp [hi.key]
    have hne : (tbl₁.pkt p).key ≠ none := by rw [hkey]; simp
    -- only the entry of the key and those that are timed out are changed
    have hothers : ∀ (fp : FragPkt) (tbl' : Tbl), tbl'.pkt = update tbl₁.pkt p fp →
        ∀ q k, (tbl.pkt q).key = some k → k ≠ mb.ip.key →
          (tbl.pkt q).timedOut tbl.max_cycles tms = false → tbl'.pkt q = tbl.pkt q := by
      intro fp tbl' heq q k hq hk hfresh
      have hsame := hf.others q (by rw [hq]; simp) hfresh
      have hqp : q ≠ p := by
        rintro rfl
        rw [hsame, hq, trimmed_ip] at hkey
        exact hk (some.inj hkey)
      rw [heq, update_of_ne hqp, hsame]
    have hkeys : ∀ (fp : FragPkt) (tbl' : Tbl), tbl'.pkt = update tbl₁.pkt p fp →
        (∀ k, fp.key = some k → k = mb.ip.key) →
        ∀ q k, (tbl'.pkt q).key = some k → k ≠ mb.ip.key → (tbl.pkt q).key = some k := by
      intro fp tbl' heq hfp q k hq hk
      have hqp : q ≠ p := by
        rintro rfl
        rw [heq, update_self] at hq
        exact hk (hfp k hq)
      rw [heq, update_of_ne hqp] at hq
      exact hf.keys q k hq (by rwa [trimmed_ip])
    have houtcome : ∀ (tbl' : Tbl), tbl'.pkt = update tbl₁.pkt p r.1 → ∀ tbl₂ dr₂ q,
        ipFragFind crc tbl mb.ip.key tms = some (tbl₂, dr₂, some q) → 0 < mb.fragLen →
        ∃ dr', Outcome P mb.ip.key (tbl₂.pkt q) mb.trimmed (tbl'.pkt q, dr', r.2.2) := by
      intro tbl' heq tbl₂ dr₂ q hfind' _
      rw [trimmed_ip, hfind', some.injEq, Prod.mk.injEq, Prod.mk.injEq,
        some.injEq] at hfind
      obtain ⟨rfl, -, rfl⟩ := hfind
      rw [heq, update_self, ← trimmed_ip]
      exact ⟨r.2.1, hout⟩
    cases hout with
    | stored hcollecting hperm hstart =>
      rename_i fp'
      obtain ⟨ht', hheld'⟩ := hf.tabled.put hkey hcollecting
      have hkeep : ({ tbl₁ with pkt := update tbl₁.pkt p fp' } : Tbl).inuse p =
          { tbl₁ with pkt := update tbl₁.pkt p fp' } := by
        rw [Tbl.inuse, if_neg]
        simp [hcollecting.key]
      refine ⟨_, _, _, rfl, ?_, ?_, fun _ => ?_, fun m h => by simp at h,
        by rw [hkeep]; exact hothers fp' _ rfl,
        by rw [hkeep]; exact hkeys fp' _ rfl (fun k hk => by
          rw [hcollecting.key, trimmed_ip] at hk
          exact (some.inj hk).symm),
        by rw [hkeep]; exact houtcome _ rfl⟩
      · rw [hkeep]
        exact ht'
      · rw [hkeep]
        exact hf.shape.trans ⟨rfl, rfl, rfl, rfl, rfl⟩
      · rw [hkeep, append_nil, ← hheld]
        rw [idsOf_perm hperm, idsOf_cons, trimmed_ids] at hheld'
        have hheld'' : ({ tbl₁ with pkt := update tbl₁.pkt p fp' } : Tbl).held =
            tbl₁.held + mb.ids := by
          refine add_right_cancel (b := idsOf (tbl₁.pkt p).freed) (hheld'.trans ?_)
          abel
        rw [hheld'', toList_none, idsOf_nil]
        abel
    | dropped hidle hrefused hids =>
      rename_i fp' dr'
      obtain ⟨ht', hheld'⟩ := hf.tabled.drop hne hidle
      refine ⟨_, _, _, rfl, ?_, ?_, fun hsegs => ?_, fun m h => by simp at h,
        by rw [hinuse _ hidle]; exact hothers fp' _ rfl,
        by rw [hinuse _ hidle]; exact hkeys fp' _ rfl (fun k hk => by
          rw [hidle.key] at hk
          simp at hk),
        by rw [hinuse _ hidle]; exact houtcome _ rfl⟩
      · rw [hinuse _ hidle]
        exact ht'
      · rw [hinuse _ hidle]
        exact hf.shape.trans ⟨rfl, rfl, rfl, rfl, rfl⟩
      · rw [hinuse _ hidle, idsOf_append, hids (fun h => hsegs _ (hcompletes h)), ← hheld, ← hheld',
          idsOf_cons, trimmed_ids, toList_none, idsOf_nil]
        abel
    | whole hidle hperm hcomplete htiles =>
      rename_i fp' a bs total
      obtain ⟨ht', hheld'⟩ := hf.tabled.drop hne hidle
      refine ⟨_, _, _, rfl, ?_, ?_, fun hsegs => ?_, fun m h => ?_,
        by rw [hinuse _ hidle]; exact hothers fp' _ rfl,
        by rw [hinuse _ hidle]; exact hkeys fp' _ rfl (fun k hk => by
          rw [hidle.key] at hk
          simp at hk),
        by rw [hinuse _ hidle]; exact houtcome _ rfl⟩
      · rw [hinuse _ hidle]
        exact ht'
      · rw [hinuse _ hidle]
        exact hf.shape.trans ⟨rfl, rfl, rfl, rfl, rfl⟩
      · have hnb := hsegs _ (hcompletes hcomplete)
        rw [← nbSegsOf_perm hperm] at hnb
        have hglue : ({ glue a bs with ip := wholeHdr a total } : Mbuf).ids = idsOf (a :: bs) :=
          glue_ids hnb
        rw [hinuse _ hidle, toList_some, idsOf_cons, hglue, idsOf_nil, idsOf_perm hperm,
          append_nil, ← hheld, ← hheld', idsOf_cons, trimmed_ids]
        abel
      · obtain rfl := some.inj h
        exact ⟨_, a, bs, total, hcompletes hcomplete, hperm, htiles, rfl⟩

end IpFrag
