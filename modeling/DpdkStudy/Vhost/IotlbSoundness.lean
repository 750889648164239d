import DpdkStudy.Vhost.IotlbConsistent
import DpdkStudy.Vhost.IotlbLookup

/-!
# The IOTLB over whole runs

Beside a device runs a list of the entries that are valid: those that have been inserted and
not removed since (`Sys`). An entry in the cache should always be one of them, and what a
lookup returns should be their host addresses (`Right`). This is so in every run whose steps
meet three conditions (`Meets`):

* a removal names no entry that starts right behind its range, no empty entry in it, and no
  range that wraps in a way that its comparisons do not see (`Agrees`);
* the host addresses go on along the route of a lookup (`VirtioNet.Contiguous`);
* a translation that finds a part of its range finds not all of what it looks for in the
  retry, which starts behind that part.

The lists stay as they should in every run (`ConsistentBut.call`).
-/

open Option

namespace Vhost.Iotlb

open VhostIotlbEntry Runs

/-! ## Removals -/

namespace VhostIotlbEntry

/-- **An entry intersects a range**: a byte lies in both. -/
def Intersects (e : VhostIotlbEntry) (iova size : BitVec 64) : Prop :=
  ∃ b, e.Covers b ∧ iova.toNat ≤ b ∧ b < iova.toNat + size.toNat

/-- The comparisons of `vhost_user_iotlb_cache_remove`. -/
def Taken (e : VhostIotlbEntry) (iova size : BitVec 64) : Prop :=
  ¬ iova + size < e.iova ∧ iova < e.iova + e.size

/-- **Where the comparisons agree with the range.** Without a wrap: no entry starts right behind
the range, or is empty and starts behind the first byte of the range. If the end of the range
wraps, an entry that the range meets starts at the wrapped end or before. If the end of the
entry wraps, the entry starts before the end of the range exactly if its wrapped end lies
behind the start of the range. It is never so if both ends wrap. -/
def Agrees (e : VhostIotlbEntry) (iova size : BitVec 64) : Prop :=
  if iova.toNat + size.toNat < 2 ^ 64 then
    if e.endOf < 2 ^ 64 then
      e.iova.toNat ≠ iova.toNat + size.toNat ∧
        (e.size = 0 → iova < e.iova → iova.toNat + size.toNat < e.iova.toNat)
    else
      (e.iova.toNat < iova.toNat + size.toNat → iova.toNat + 2 ^ 64 < e.endOf) ∧
        (e.iova.toNat = iova.toNat + size.toNat → e.endOf ≤ iova.toNat + 2 ^ 64)
  else
    e.endOf < 2 ^ 64 ∧
      (e.size ≠ 0 → iova.toNat < e.endOf → e.iova.toNat + 2 ^ 64 ≤ iova.toNat + size.toNat)

instance (e : VhostIotlbEntry) (iova size : BitVec 64) : Decidable (e.Agrees iova size) :=
  inferInstanceAs (Decidable (ite _ _ _))

theorem intersects_iff (e : VhostIotlbEntry) (iova size : BitVec 64) :
    e.Intersects iova size ↔ 0 < e.size.toNat ∧ 0 < size.toNat ∧
      e.iova.toNat < iova.toNat + size.toNat ∧ iova.toNat < e.endOf := by
  unfold Intersects Covers endOf
  constructor
  · rintro ⟨b, ⟨h1, h2⟩, h3, h4⟩
    omega
  · rintro ⟨h1, h2, h3, h4⟩
    exact ⟨max e.iova.toNat iova.toNat, by omega⟩

instance (e : VhostIotlbEntry) (iova size : BitVec 64) : Decidable (e.Intersects iova size) :=
  decidable_of_iff _ (e.intersects_iff iova size).symm

theorem toNat_add_cases (a b : BitVec 64) :
    (a.toNat + b.toNat < 2 ^ 64 ∧ (a + b).toNat = a.toNat + b.toNat) ∨
    (2 ^ 64 ≤ a.toNat + b.toNat ∧ (a + b).toNat + 2 ^ 64 = a.toNat + b.toNat) := by
  have ha := a.isLt
  have hb := b.isLt
  rw [BitVec.toNat_add]
  omega

theorem agrees_iff (e : VhostIotlbEntry) {iova size : BitVec 64} (hsize : size ≠ 0) :
    e.Agrees iova size ↔ (e.Taken iova size ↔ e.Intersects iova size) := by
  have hpos : 0 < size.toNat := Nat.pos_of_ne_zero fun h => hsize (BitVec.eq_of_toNat_eq h)
  have hzero : e.size = 0 ↔ e.size.toNat = 0 :=
    ⟨fun h => by rw [h]; rfl, fun h => BitVec.eq_of_toNat_eq h⟩
  have h1 := e.iova.isLt
  have h2 := iova.isLt
  rw [intersects_iff]
  unfold Agrees Taken endOf
  simp only [ne_eq, hzero, BitVec.lt_def]
  rcases toNat_add_cases iova size with ⟨hr, hr'⟩ | ⟨hr, hr'⟩ <;>
  rcases toNat_add_cases e.iova e.size with ⟨he, he'⟩ | ⟨he, he'⟩
  · rw [if_pos hr, if_pos he]
    omega
  · rw [if_pos hr, if_neg (Nat.not_lt.mpr he)]
    omega
  · rw [if_neg (Nat.not_lt.mpr hr)]
    omega
  · rw [if_neg (Nat.not_lt.mpr hr)]
    omega

end VhostIotlbEntry

variable {dev dev' : VirtioNet} {iova size : BitVec 64} {perm : BitVec 8}

theorem mem_cacheRemove (h : Consistent dev) (hsize : size ≠ 0) (n : ℕ) :
    n ∈ (dev.cacheRemove iova size).iotlb_list ↔
      n ∈ dev.iotlb_list ∧ ¬ (dev.iotlb_pool n).Taken iova size := by
  rw [VirtioNet.cacheRemove, if_neg hsize, mem_foreachCached h.list_nodup ?_ dev h.list_nodup]
  · unfold VhostIotlbEntry.Taken
    simp only [decide_eq_false_iff_not, decide_eq_true_eq]
    refine and_congr_right fun hn => not_congr ?_
    simp only [hn, true_and]
  · refine h.sorted.imp fun hlt hstop => ?_
    simp only [decide_eq_true_eq] at *
    exact BitVec.lt_trans hstop hlt

/-- **A removal takes out exactly the entries that intersect its range** where its comparisons
agree with the range. -/
theorem cacheRemove_exact (h : Consistent dev)
    (hagrees : size ≠ 0 → ∀ n ∈ dev.iotlb_list, (dev.iotlb_pool n).Agrees iova size) (n : ℕ) :
    n ∈ (dev.cacheRemove iova size).iotlb_list ↔
      n ∈ dev.iotlb_list ∧ ¬ (dev.iotlb_pool n).Intersects iova size := by
  by_cases hsize : size = 0
  · rw [VirtioNet.cacheRemove, if_pos hsize, intersects_iff, hsize]
    simp
  · rw [mem_cacheRemove h hsize]
    exact and_congr_right fun hn => not_congr ((agrees_iff _ hsize).mp (hagrees hsize n hn))

/-! ## Runs -/

/-- **A device, and the entries that are valid**: inserted, and not removed since. -/
structure Sys where
  dev : VirtioNet
  valid : List VhostIotlbEntry

/-- **The entries that are valid after a call.** -/
def Call.valid (valid : List VhostIotlbEntry) : Call → List VhostIotlbEntry
  | .cacheInsert entry _ => entry :: valid
  | .cacheRemove iova size => valid.filter fun e => ¬ e.Intersects iova size
  | .pendingInsert _ _ _ => valid
  | .pendingRemove _ _ _ => valid
  | .flushAll => []

/-- A call. -/
def Sys.call (s : Sys) (c : Call) : Option Sys :=
  (s.dev.call c).map fun dev => ⟨dev, c.valid s.valid⟩

/-- **What happens to a device.** -/
inductive Event
  | call (c : Call)
  | find (iova size : BitVec 64) (perm : BitVec 8)
  | translate (iova size : BitVec 64) (perm : BitVec 8) (miss : Miss)

/-- The calls that a translation makes, and lets others make. -/
def VirtioNet.translateCalls (dev : VirtioNet) (iova size : BitVec 64) (perm : BitVec 8)
    (miss : Miss) : List Call :=
  if size = 0 ∨ (dev.cacheFind iova size perm).2 = size then []
  else dev.missCalls (iova + (dev.cacheFind iova size perm).2) perm miss

/-- **One step.** -/
def Sys.step (s : Sys) : Event → Option Sys
  | .call c => s.call c
  | .find _ _ _ => some s
  | .translate iova size perm miss =>
    runOption Sys.call s (s.dev.translateCalls iova size perm miss)

/-- The start. -/
def Sys.init : Sys := ⟨vhostUserIotlbInit, []⟩

/-- **What a call should do**: a removal takes out exactly the entries that intersect its
range. -/
def RightCall (s : Sys) : Call → Prop
  | .cacheRemove iova size => ∀ n, n ∈ (s.dev.cacheRemove iova size).iotlb_list ↔
      n ∈ s.dev.iotlb_list ∧ ¬ (s.dev.iotlb_pool n).Intersects iova size
  | _ => True

/-- **What a step should do**: what is returned are the host addresses of valid entries. -/
def Right (s : Sys) : Event → Prop
  | .call c => RightCall s c
  | .find iova size perm => SoundAnswer s.valid iova perm (s.dev.cacheFind iova size perm).1
      (s.dev.cacheFind iova size perm).2.toNat
  | .translate iova size perm miss =>
    AlongOption Sys.call (fun s c => Consistent s.dev ∧ RightCall s c) s
      (s.dev.translateCalls iova size perm miss) ∧
    ∃ s' vva, s.step (.translate iova size perm miss) = some s' ∧
      s.dev.vhostIovaToVva iova size perm miss = some (vva, s'.dev) ∧
      SoundAnswer s'.valid iova perm vva size.toNat

/-- **The condition on a call**: the comparisons of a removal agree with its range. -/
def MeetsCall (s : Sys) : Call → Prop
  | .cacheRemove iova size =>
    size ≠ 0 → ∀ n ∈ s.dev.iotlb_list, (s.dev.iotlb_pool n).Agrees iova size
  | _ => True

/-- **The condition on a step.** -/
def Meets (s : Sys) : Event → Prop
  | .call c => MeetsCall s c
  | .find iova size perm => s.dev.Contiguous iova size perm
  | .translate iova size perm miss =>
    let len := s.dev.mappedLen iova size perm
    if len = size.toNat then s.dev.Contiguous iova size perm
    else
      let calls := s.dev.missCalls (iova + BitVec.ofNat 64 len) perm miss
      AlongOption Sys.call MeetsCall s calls ∧
        ∀ s' ∈ runOption Sys.call s calls,
          s'.dev.mappedLen (iova + BitVec.ofNat 64 len) size perm = size.toNat →
            len = 0 ∧ s'.dev.Contiguous iova size perm

/-- The entries in the cache are valid. -/
def Backed (s : Sys) : Prop := ∀ n ∈ s.dev.iotlb_list, s.dev.iotlb_pool n ∈ s.valid

variable {s s' : Sys}

theorem Sys.exists_call (h : Consistent s.dev) (c : Call) :
    ∃ s', s.call c = some s' ∧ Consistent s'.dev := by
  obtain ⟨dev', hcall, hc⟩ := h.call c
  exact ⟨⟨dev', c.valid s.valid⟩, by rw [Sys.call, hcall, map_some], hc⟩

theorem Sys.call_consistent (h : Consistent s.dev) {c : Call} (hcall : s.call c = some s') :
    Consistent s'.dev := by
  obtain ⟨t, ht, hc⟩ := Sys.exists_call h c
  rwa [← some.inj (hcall.symm.trans ht)] at hc

theorem Sys.exists_calls (h : Consistent s.dev) (calls : List Call) :
    ∃ s', runOption Sys.call s calls = some s' ∧ Consistent s'.dev := by
  induction calls generalizing s with
  | nil => exact ⟨s, rfl, h⟩
  | cons c rest ih =>
    obtain ⟨t, ht, hc⟩ := Sys.exists_call h c
    obtain ⟨s', hrest, hc'⟩ := ih hc
    exact ⟨s', by rw [runOption, ht, bind_some, hrest], hc'⟩

/-- Each step has a result, and keeps the lists. -/
theorem Sys.exists_step (h : Consistent s.dev) (e : Event) :
    ∃ s', s.step e = some s' ∧ Consistent s'.dev := by
  cases e with
  | call c => exact Sys.exists_call h c
  | find iova size perm => exact ⟨s, rfl, h⟩
  | translate iova size perm miss => exact Sys.exists_calls h _

theorem Backed.call (hb : Backed s) (h : Consistent s.dev) {c : Call} (hmeets : MeetsCall s c)
    (hcall : s.call c = some s') : Backed s' := by
  obtain ⟨dev', hdev, rfl⟩ := map_eq_some_iff.mp hcall
  cases c with
  | cacheInsert entry rand =>
    obtain ⟨d, hd, -, hgrown⟩ := h.cacheInsert entry rand
    obtain rfl := some.inj (hdev.symm.trans hd)
    intro n hn
    rcases hgrown n hn with ⟨hmem, hpool⟩ | heq
    · exact List.mem_cons_of_mem _ (hpool ▸ hb n hmem)
    · exact heq ▸ List.mem_cons_self
  | cacheRemove iova size =>
    obtain rfl := some.inj hdev
    intro n hn
    obtain ⟨hmem, hnot⟩ := (cacheRemove_exact h hmeets n).mp hn
    have hpool := (h.cacheRemove iova size).2.2 n hn
    refine List.mem_filter.mpr ⟨?_, ?_⟩
    · rw [hpool]
      exact hb n hmem
    · rw [hpool]
      exact decide_eq_true hnot
  | pendingInsert iova perm rand =>
    obtain ⟨d, hd, -, hshrunk⟩ := h.pendingInsert iova perm rand
    obtain rfl := some.inj (hdev.symm.trans hd)
    intro n hn
    exact hshrunk.2 n hn ▸ hb n (hshrunk.1 hn)
  | pendingRemove iova size perm =>
    obtain rfl := some.inj hdev
    obtain ⟨-, hshrunk⟩ := h.pendingRemove iova size perm
    intro n hn
    exact hshrunk.2 n hn ▸ hb n (hshrunk.1 hn)
  | flushAll =>
    obtain rfl := some.inj hdev
    intro n hn
    rw [h.flushAll.2] at hn
    exact absurd hn (List.not_mem_nil)

/-- Calls in a row keep the cache valid, and do what they should. -/
theorem Backed.calls {calls : List Call} (hb : Backed s) (h : Consistent s.dev)
    (hmeets : AlongOption Sys.call MeetsCall s calls) :
    AlongOption Sys.call (fun s c => Consistent s.dev ∧ RightCall s c) s calls ∧
      ∀ s', runOption Sys.call s calls = some s' → Backed s' := by
  induction calls generalizing s with
  | nil => exact ⟨trivial, fun s' hs' => some.inj hs' ▸ hb⟩
  | cons c rest ih =>
    obtain ⟨hc, hrest⟩ := hmeets
    have hright : RightCall s c := by
      cases c with
      | cacheRemove iova size => exact cacheRemove_exact h hc
      | _ => trivial
    refine ⟨⟨⟨h, hright⟩, fun t ht => ?_⟩, fun s' hs' => ?_⟩
    · exact (ih (hb.call h hc ht) (Sys.call_consistent h ht) (hrest t ht)).1
    · obtain ⟨t, ht, hs'⟩ := bind_eq_some_iff.mp hs'
      exact (ih (hb.call h hc ht) (Sys.call_consistent h ht) (hrest t ht)).2 s' hs'

/-- The device goes its way without the list of valid entries. -/
theorem runOption_dev (s : Sys) (calls : List Call) :
    runOption VirtioNet.call s.dev calls = (runOption Sys.call s calls).map Sys.dev := by
  induction calls generalizing s with
  | nil => rfl
  | cons c rest ih =>
    rw [runOption, runOption, Sys.call]
    cases s.dev.call c with
    | none => rfl
    | some dev' => exact ih ⟨dev', c.valid s.valid⟩

theorem SoundAnswer.of_backed (hb : Backed s) {vva : BitVec 64} {len : ℕ}
    (h : SoundAnswer (s.dev.iotlb_list.map s.dev.iotlb_pool) iova perm vva len) :
    SoundAnswer s.valid iova perm vva len := by
  intro hvva k hk
  obtain ⟨e, he, hsound⟩ := h hvva k hk
  obtain ⟨n, hn, rfl⟩ := List.mem_map.mp he
  exact ⟨_, hb n hn, hsound⟩

/-- A lookup that returns the whole size is one of a range that is mapped. -/
theorem cacheFind_full (dev : VirtioNet) (iova : BitVec 64) (perm : BitVec 8)
    (hsize : size ≠ 0) :
    (dev.cacheFind iova size perm).2 = size ↔ dev.mappedLen iova size perm = size.toNat := by
  rw [cacheFind_eq hsize]
  show BitVec.ofNat 64 _ = size ↔ _
  rw [← BitVec.toNat_inj, mappedLen_toNat]

/-- A lookup is right in a state that meets its condition. -/
theorem find_sound (hb : Backed s) (h : s.dev.Contiguous iova size perm) :
    SoundAnswer s.valid iova perm (s.dev.cacheFind iova size perm).1
      (s.dev.cacheFind iova size perm).2.toNat :=
  (cacheFind_sound h).of_backed hb

theorem soundAnswer_zero (valid : List VhostIotlbEntry) (len : ℕ) :
    SoundAnswer valid iova perm 0 len := fun h => absurd rfl h

/-- **What a translation returns** when the first lookup has not found all. -/
theorem vhostIovaToVva_miss {miss : Miss} (hsize : size ≠ 0)
    (hpart : (dev.cacheFind iova size perm).2 ≠ size)
    (hrun : runOption VirtioNet.call dev (dev.missCalls
      (iova + (dev.cacheFind iova size perm).2) perm miss) = some dev') :
    dev.vhostIovaToVva iova size perm miss =
      some (if (dev'.cacheFind (iova + (dev.cacheFind iova size perm).2) size perm).2 = size
        then (dev'.cacheFind (iova + (dev.cacheFind iova size perm).2) size perm).1 else 0,
        dev') := by
  rw [VirtioNet.vhostIovaToVva, if_neg hsize]
  generalize dev.cacheFind iova size perm = first at *
  obtain ⟨vva, tmp_size⟩ := first
  dsimp only at *
  rw [if_neg hpart, hrun]
  show (if _ then _ else _) = _
  split <;> rfl

/-- **A translation is right** in a state that meets its condition, and the cache stays
valid. -/
theorem Backed.translate {miss : Miss} (hb : Backed s) (h : Consistent s.dev)
    (hmeets : Meets s (.translate iova size perm miss)) :
    Right s (.translate iova size perm miss) ∧
      ∀ s', s.step (.translate iova size perm miss) = some s' → Backed s' := by
  by_cases hsize : size = 0
  · subst hsize
    have hcalls : s.dev.translateCalls iova 0 perm miss = [] := if_pos (Or.inl rfl)
    refine ⟨⟨hcalls ▸ trivial, s, 0, ?_, ?_, soundAnswer_zero _ _⟩, fun s' hs' => ?_⟩
    · rw [Sys.step, hcalls]
      rfl
    · rfl
    · rw [Sys.step, hcalls] at hs'
      exact some.inj hs' ▸ hb
  have hfull := cacheFind_full s.dev iova perm hsize
  by_cases hhit : (s.dev.cacheFind iova size perm).2 = size
  · -- all is found at once
    have hcalls : s.dev.translateCalls iova size perm miss = [] := if_pos (Or.inr hhit)
    have hcont : s.dev.Contiguous iova size perm := by
      simpa only [Meets, if_pos (hfull.mp hhit)] using hmeets
    have hsound := find_sound hb hcont
    rw [hhit] at hsound
    refine ⟨⟨hcalls ▸ trivial, s, _, ?_, ?_, hsound⟩, fun s' hs' => ?_⟩
    · rw [Sys.step, hcalls]
      rfl
    · rw [VirtioNet.vhostIovaToVva, if_neg hsize]
      exact if_pos hhit
    · rw [Sys.step, hcalls] at hs'
      exact some.inj hs' ▸ hb
  · -- a part is found, and the rest is asked for
    obtain ⟨s', hrun, -⟩ := Sys.exists_calls h (s.dev.translateCalls iova size perm miss)
    have hpart : (s.dev.cacheFind iova size perm).2 =
        BitVec.ofNat 64 (s.dev.mappedLen iova size perm) := by
      rw [cacheFind_eq hsize]
    have hcalls : s.dev.translateCalls iova size perm miss =
        s.dev.missCalls (iova + (s.dev.cacheFind iova size perm).2) perm miss :=
      if_neg fun hor => hor.elim hsize hhit
    simp only [Meets, if_neg (mt hfull.mpr hhit), ← hpart, ← hcalls] at hmeets
    obtain ⟨halong, hretry⟩ := hmeets
    have hkept := hb.calls h halong
    have hdev : runOption VirtioNet.call s.dev (s.dev.missCalls
        (iova + (s.dev.cacheFind iova size perm).2) perm miss) = some s'.dev := by
      rw [← hcalls, runOption_dev, hrun, map_some]
    have hanswer := vhostIovaToVva_miss hsize hhit hdev
    refine ⟨⟨hkept.1, s', _, hrun, hanswer, ?_⟩, fun t ht => hkept.2 t ht⟩
    split
    · -- all is found in the retry, which then starts where the first lookup has
      rename_i hfound
      obtain ⟨hzero, hcont⟩ := hretry s' hrun
        ((cacheFind_full s'.dev _ perm hsize).mp hfound)
      have hstart : iova + (s.dev.cacheFind iova size perm).2 = iova := by
        rw [hpart, hzero]
        exact BitVec.add_zero iova
      rw [hstart] at hfound ⊢
      have hsound := find_sound (hkept.2 s' hrun) hcont
      rwa [hfound] at hsound
    · exact soundAnswer_zero _ _

/-! ## The result -/

/-- **A step is right** in a state that meets its condition, and the cache stays valid. -/
theorem Backed.step (hb : Backed s) (h : Consistent s.dev) {e : Event} (hmeets : Meets s e) :
    Right s e ∧ ∀ s', s.step e = some s' → Backed s' := by
  cases e with
  | call c =>
    refine ⟨?_, fun s' hs' => hb.call h hmeets hs'⟩
    cases c with
    | cacheRemove iova size => exact cacheRemove_exact h hmeets
    | _ => trivial
  | find iova size perm =>
    exact ⟨find_sound hb hmeets, fun s' hs' => some.inj hs' ▸ hb⟩
  | translate iova size perm miss => exact hb.translate h hmeets

/-- **Each run keeps the lists**: the nodes are free, cached or pending, the cache is sorted and
counted. -/
theorem Sys.exists_run (h : Consistent s.dev) (es : List Event) :
    AlongOption Sys.step (fun s _ => Consistent s.dev) s es ∧
      ∃ s', runOption Sys.step s es = some s' ∧ Consistent s'.dev := by
  induction es generalizing s with
  | nil => exact ⟨trivial, s, rfl, h⟩
  | cons e es ih =>
    obtain ⟨t, ht, hc⟩ := Sys.exists_step h e
    obtain ⟨-, s', hrun, hc'⟩ := ih hc
    refine ⟨⟨h, fun u hu => ?_⟩, s', ?_, hc'⟩
    · rw [← some.inj (ht.symm.trans hu)]
      exact (ih hc).1
    · rw [runOption, ht, bind_some, hrun]

/-- Steps that meet their conditions are right. -/
theorem Backed.run (hb : Backed s) (h : Consistent s.dev) {es : List Event}
    (hmeets : AlongOption Sys.step Meets s es) : AlongOption Sys.step Right s es := by
  induction es generalizing s with
  | nil => trivial
  | cons e es ih =>
    obtain ⟨hright, hkept⟩ := hb.step h hmeets.1
    refine ⟨hright, fun t ht => ih (hkept t ht) ?_ (hmeets.2 t ht)⟩
    obtain ⟨u, hu, hc⟩ := Sys.exists_step h e
    obtain rfl := some.inj (hu.symm.trans ht)
    exact hc

/-- **The IOTLB over whole runs.** The lists are as they should be at all times, and each step
has a result. In a run whose steps meet their conditions, what is returned are host addresses
of entries that are valid, and removals take out exactly what they name. -/
theorem iotlb_sound (es : List Event) :
    AlongOption Sys.step (fun s _ => Consistent s.dev) Sys.init es ∧
    (∃ s, runOption Sys.step Sys.init es = some s ∧ Consistent s.dev) ∧
    (AlongOption Sys.step Meets Sys.init es → AlongOption Sys.step Right Sys.init es) := by
  have hinit : Consistent Sys.init.dev := by
    simpa only [Sys.init] using vhostUserIotlbInit_consistent
  have hbacked : Backed Sys.init := by
    intro n hn
    simp only [Sys.init, vhostUserIotlbInit_list] at hn
    exact absurd hn List.not_mem_nil
  obtain ⟨halong, hrun⟩ := Sys.exists_run hinit es
  exact ⟨halong, hrun, hbacked.run hinit⟩

/-! ## Runs on fixed entries -/

instance (dev : VirtioNet) (iova size : BitVec 64) (perm : BitVec 8) :
    Decidable (dev.Contiguous iova size perm) :=
  inferInstanceAs (Decidable (_ → List.IsChain _ _ ∧ _))

instance MeetsCall.decidable : ∀ (s : Sys) (c : Call), Decidable (MeetsCall s c)
  | s, .cacheRemove iova size => inferInstanceAs (Decidable (size ≠ 0 → ∀ n ∈ s.dev.iotlb_list,
      (s.dev.iotlb_pool n).Agrees iova size))
  | _, .cacheInsert _ _ => isTrue trivial
  | _, .pendingInsert _ _ _ => isTrue trivial
  | _, .pendingRemove _ _ _ => isTrue trivial
  | _, .flushAll => isTrue trivial

instance Meets.decidable : ∀ (s : Sys) (e : Event), Decidable (Meets s e)
  | s, .call c => MeetsCall.decidable s c
  | s, .find iova size perm => inferInstanceAs (Decidable (s.dev.Contiguous iova size perm))
  | s, .translate iova size perm miss => by
    unfold Meets
    infer_instance

/-- A page of 4096 bytes is inserted. -/
def insertPage (iova uaddr : BitVec 64) : Call := .cacheInsert ⟨iova, uaddr, 0, 0x1000, 3⟩ 0

/-- Two pages, one looked up while the other is missing, and a part of the first removed. -/
theorem iotlb_sound_two_pages :
    AlongOption Sys.step Right Sys.init
      [.call (insertPage 0x1000 0x7f0000000000), .find 0x1000 0x2000 1,
       .translate 0x2000 0x1000 1 ⟨[], 0, [insertPage 0x2000 0x7f0000001000], false, []⟩,
       .find 0x1000 0x2000 3, .call (.cacheRemove 0x1000 0x800), .find 0x1800 0x800 1] :=
  (iotlb_sound _).2.2 (by decide +kernel)

/-- Two pages are inserted during a miss. -/
def twoPages : Miss :=
  ⟨[], 0, [insertPage 0x2000 0x7f0000001000, insertPage 0x3000 0x7f0000002000], false, []⟩

theorem not_along {pre : List Event} {e : Event} {P : Sys → Prop} (hP : ∀ t, Right t e → P t)
    (hnot : ¬ ∀ t ∈ runOption Sys.step Sys.init pre, P t) :
    ¬ AlongOption Sys.step Right Sys.init (pre ++ [e]) :=
  fun h => hnot fun t ht => hP t (h.last ht)

/-- **Four runs that are not right.** The second of two pages lies elsewhere in the host. A
removal takes out the page behind its range. A removal whose range ends at $2^{64}$ leaves the
page that it names, which is found then. A translation finds the second page in its retry, and
returns its address for the first. -/
theorem iotlb_unsound :
    ¬ AlongOption Sys.step Right Sys.init
      ([.call (insertPage 0x1000 0x7f0000000000), .call (insertPage 0x2000 0x7e0000000000)] ++
        [.find 0x1000 0x2000 1]) ∧
    ¬ AlongOption Sys.step Right Sys.init
      ([.call (insertPage 0x1000 0x7f0000000000), .call (insertPage 0x2000 0x7f0000001000)] ++
        [.call (.cacheRemove 0x1000 0x1000)]) ∧
    ¬ AlongOption Sys.step Right Sys.init
      ([.call (insertPage 0xffffffffffffe000 0x7f0000000000),
        .call (.cacheRemove 0xffffffffffffe000 0x2000)] ++ [.find 0xffffffffffffe000 0x1000 1]) ∧
    ¬ AlongOption Sys.step Right Sys.init
      ([.call (insertPage 0x1000 0x7f0000000000)] ++
        [.translate 0x1000 0x2000 1 twoPages]) := by
  refine ⟨not_along (P := fun t => (t.dev.cacheFind 0x1000 0x2000 1).1 ≠ 0 →
      0x1000 < (t.dev.cacheFind 0x1000 0x2000 1).2.toNat → ∃ e ∈ t.valid, e.Covers 0x2000 ∧
        e.hostOf 0x2000 = (t.dev.cacheFind 0x1000 0x2000 1).1 + 0x1000) ?_ (by decide +kernel),
    not_along (P := fun t => 2046 ∈ (t.dev.cacheRemove 0x1000 0x1000).iotlb_list ↔
      2046 ∈ t.dev.iotlb_list ∧ ¬ (t.dev.iotlb_pool 2046).Intersects 0x1000 0x1000) ?_
      (by decide +kernel),
    not_along (P := fun t => (t.dev.cacheFind 0xffffffffffffe000 0x1000 1).1 ≠ 0 →
      0 < (t.dev.cacheFind 0xffffffffffffe000 0x1000 1).2.toNat →
        ∃ e ∈ t.valid, e.Covers 0xffffffffffffe000) ?_ (by decide +kernel),
    not_along (P := fun t => ∀ s' ∈ t.step (.translate 0x1000 0x2000 1 twoPages),
      ∀ ans ∈ t.dev.vhostIovaToVva 0x1000 0x2000 1 twoPages,
      ans.1 ≠ 0 → ∃ e ∈ s'.valid, e.Covers 0x1000 ∧ e.hostOf 0x1000 = ans.1) ?_
      (by decide +kernel)⟩
  · intro t h hvva hlen
    obtain ⟨e, he, hcovers, -, hhost⟩ := h hvva 0x1000 hlen
    exact ⟨e, he, hcovers, hhost⟩
  · exact fun t h => h 2046
  · intro t h hvva hlen
    obtain ⟨e, he, hcovers, -⟩ := h hvva 0 hlen
    exact ⟨e, he, hcovers⟩
  · rintro t ⟨-, s', vva, hstep, hanswer, hsound⟩ s₁ hs₁ ans hans hvva
    obtain rfl := some.inj (hstep.symm.trans hs₁)
    obtain rfl := some.inj (hanswer.symm.trans hans)
    obtain ⟨e, he, hcovers, -, hhost⟩ := hsound hvva 0 (by decide)
    exact ⟨e, he, hcovers, hhost.trans (BitVec.add_zero _)⟩

end Vhost.Iotlb
