import Mathlib.Algebra.BigOperators.Group.List.Basic
import Mathlib.Algebra.GroupWithZero.Nat
import Mathlib.Order.Basic
import Mathlib.Tactic.Basic
import DpdkStudy.Ipsec.Sqn

/-!
# No outbound sequence number twice

The calls of `esn_outb_update_sqn` take numbers from one counter. A call that
has moved the counter on holds the numbers in between (`OutbCall.span`), and
these spans never meet (`OutbInv`). Of its span a call grants the part below
the mask (`toNat_granted`), so the numbers that are granted never meet and
never pass the mask, and once a call was granted less than it asked for, the
counter is past the mask for good (`outbound_unique`).

The counter has 64 bits and wraps. All of this holds as long as it does not.
-/

open Function Option

namespace Ipsec

/-! ## Spans -/

/-- The numbers that a call has taken from the counter: from where, and up to
where. -/
def OutbCall.span : OutbCall → Option (ℕ × ℕ)
  | .loaded _ _ => none
  | .updated num sqn => some (sqn.toNat - num.toNat, sqn.toNat)
  | .returned num start _ => some (start.toNat, start.toNat + num.toNat)

/-- The numbers an event asks for. -/
def OutbEvent.requested : OutbEvent → ℕ
  | .call _ num => num.toNat
  | .fetchAdd _ num => num.toNat
  | .load _ num => num.toNat
  | .store _ => 0
  | .ret _ => 0

/-- **A run without races**: the SA has an atomic counter, or its calls run
one after the other. -/
def Serial (sa : RteIpsecSa) (es : List OutbEvent) : Prop :=
  sa.sqnAtom = true ∨ ∀ e ∈ es, ∃ i num, e = .call i num

/-- What is granted of a span is the part of it below the mask. -/
theorem toNat_granted {sa : RteIpsecSa} {sqn : UInt64} {num : UInt32}
    (h : num.toNat ≤ sqn.toNat) :
    (granted sa sqn num).toNat = min num.toNat (sa.sqnMask.toNat - (sqn.toNat - num.toNat)) := by
  have hn : num.toUInt64.toNat = num.toNat := UInt32.toNat_toUInt64 num
  have hlt := num.toNat_lt
  unfold granted
  dsimp only
  by_cases hover : sqn > sa.sqnMask
  · rw [if_pos hover]
    have hgt : sa.sqnMask.toNat < sqn.toNat := hover
    have hs : (sqn - sa.sqnMask).toNat = sqn.toNat - sa.sqnMask.toNat :=
      UInt64.toNat_sub_of_le _ _ (UInt64.le_of_lt hover)
    by_cases hless : sqn - sa.sqnMask < num.toUInt64
    · rw [if_pos hless]
      have hlt' : sqn.toNat - sa.sqnMask.toNat < num.toNat := by
        rw [← hs, ← hn]
        exact hless
      rw [UInt64.toNat_toUInt32, UInt64.toNat_sub_of_le _ _ (UInt64.le_of_lt hless), hs, hn,
        Nat.mod_eq_of_lt (by omega)]
      omega
    · rw [if_neg hless]
      have hge : num.toNat ≤ sqn.toNat - sa.sqnMask.toNat := by
        rw [← hs, ← hn]
        exact UInt64.not_lt.mp hless
      show 0 = _
      omega
  · rw [if_neg hover]
    have hle : sqn.toNat ≤ sa.sqnMask.toNat := UInt64.not_lt.mp hover
    omega

/-- **A call of a run without races**: it holds a span, and if it has
returned, it was granted the part of it below the mask. -/
def OutbCall.Valid (sa : RteIpsecSa) : OutbCall → Prop
  | .loaded _ _ => False
  | .updated num sqn => num.toNat ≤ sqn.toNat
  | .returned num start num' =>
    num'.toNat = min num.toNat (sa.sqnMask.toNat - start.toNat)

/-- **What a step does**: a new call takes the next numbers, or a call
returns. -/
theorem outbStep_cases {sa : RteIpsecSa} {s s' : OutbState} {e : OutbEvent}
    (hvalid : ∀ i c, s.calls i = some c → c.Valid sa)
    (hserial : sa.sqnAtom = true ∨ ∃ i num, e = .call i num)
    (hroom : s.outb.toNat + e.requested < 2 ^ 64) (hstep : outbStep sa s e = some s') :
    (∃ i c, s.calls i = none ∧ s'.calls = update s.calls i (some c)
        ∧ s'.outb.toNat = s.outb.toNat + e.requested ∧ c.Valid sa
        ∧ c.span = some (s.outb.toNat, s.outb.toNat + e.requested))
      ∨ (∃ i num sqn, s.calls i = some (.updated num sqn) ∧ e.requested = 0
        ∧ s' = s.setCall i (.returned num (sqn - num.toUInt64) (granted sa sqn num))) := by
  -- the counter does not wrap
  have hadd : ∀ num : UInt32, s.outb.toNat + num.toNat < 2 ^ 64 →
      (s.outb + num.toUInt64).toNat = s.outb.toNat + num.toNat := by
    intro num h
    rw [UInt64.toNat_add, UInt32.toNat_toUInt64, Nat.mod_eq_of_lt h]
  cases e with
  | call i num =>
    unfold outbStep at hstep
    dsimp only at hstep
    cases hi : s.calls i with
    | some c =>
      rw [hi] at hstep
      cases hstep
    | none =>
      rw [hi] at hstep
      obtain rfl := some.inj hstep
      have hend := hadd num hroom
      have hstart : s.outb + num.toUInt64 - num.toUInt64 = s.outb := UInt64.add_sub_cancel _ _
      refine Or.inl ⟨i, .returned num (s.outb + num.toUInt64 - num.toUInt64)
        (granted sa (s.outb + num.toUInt64) num), hi, rfl, hend, ?_, ?_⟩
      · show UInt32.toNat _ = _
        rw [toNat_granted (by omega), hend, Nat.add_sub_cancel, hstart]
      · show some (UInt64.toNat _, UInt64.toNat _ + num.toNat) = _
        rw [hstart]
        rfl
  | fetchAdd i num =>
    unfold outbStep at hstep
    dsimp only at hstep
    cases hi : s.calls i with
    | some c =>
      rw [hi] at hstep
      cases hstep
    | none =>
      rw [hi] at hstep
      cases hatom : sa.sqnAtom with
      | false =>
        rw [hatom] at hstep
        cases hstep
      | true =>
        rw [hatom] at hstep
        obtain rfl := some.inj hstep
        have hend := hadd num hroom
        refine Or.inl ⟨i, .updated num (s.outb + num.toUInt64), hi, rfl, hend, ?_, ?_⟩
        · show num.toNat ≤ UInt64.toNat _
          omega
        · show some (UInt64.toNat _ - num.toNat, UInt64.toNat _) = _
          rw [hend, Nat.add_sub_cancel]
          rfl
  | load i num =>
    unfold outbStep at hstep
    dsimp only at hstep
    cases hi : s.calls i with
    | some c =>
      rw [hi] at hstep
      cases hstep
    | none =>
      rw [hi] at hstep
      rcases hserial with hatom | ⟨j, m, hcall⟩
      · rw [hatom] at hstep
        cases hstep
      · cases hcall
  | store i =>
    unfold outbStep at hstep
    dsimp only at hstep
    split at hstep
    · next num outb hi => exact (hvalid i _ hi).elim
    · cases hstep
  | ret i =>
    unfold outbStep at hstep
    dsimp only at hstep
    split at hstep
    · next num sqn hi =>
      exact Or.inr ⟨i, num, sqn, hi, rfl, (some.inj hstep).symm⟩
    · cases hstep

/-! ## The invariant -/

/-- **The spans of the calls** are below the counter, and no two of them
meet. -/
structure OutbInv (sa : RteIpsecSa) (s : OutbState) : Prop where
  valid : ∀ i c, s.calls i = some c → c.Valid sa
  below : ∀ i c lo hi, s.calls i = some c → c.span = some (lo, hi) → hi ≤ s.outb.toNat
  apart : ∀ i j c d lo hi lo' hi', i ≠ j → s.calls i = some c → s.calls j = some d →
    c.span = some (lo, hi) → d.span = some (lo', hi') → hi ≤ lo' ∨ hi' ≤ lo

/-- **What has happened since**: the counter has moved on, and the calls made
since have their spans above where it was. -/
structure Since (s₀ s : OutbState) : Prop where
  le : s₀.outb.toNat ≤ s.outb.toNat
  above : ∀ i c lo hi, s₀.calls i = none → s.calls i = some c → c.span = some (lo, hi) →
    s₀.outb.toNat ≤ lo

theorem outbInit_inv (sa : RteIpsecSa) (outb : UInt64) : OutbInv sa (outbInit outb) where
  valid _ _ h := nomatch h
  below _ _ _ _ h := nomatch h
  apart _ _ _ _ _ _ _ _ _ h := nomatch h

theorem Since.refl (s : OutbState) : Since s s where
  le := Nat.le_refl _
  above i c lo hi h h' := by
    rw [h] at h'
    cases h'

theorem span_returned {num : UInt32} {sqn : UInt64} (h : num.toNat ≤ sqn.toNat)
    (num' : UInt32) :
    (OutbCall.returned num (sqn - num.toUInt64) num').span = (OutbCall.updated num sqn).span := by
  have hn : num.toUInt64.toNat = num.toNat := UInt32.toNat_toUInt64 num
  have hle : num.toUInt64 ≤ sqn := by
    rw [UInt64.le_iff_toNat_le, hn]
    exact h
  show some ((sqn - num.toUInt64).toNat, (sqn - num.toUInt64).toNat + num.toNat) = some (_, _)
  rw [UInt64.toNat_sub_of_le _ _ hle, hn, Nat.sub_add_cancel h]

theorem outbStep_inv {sa : RteIpsecSa} {s₀ s s' : OutbState} {e : OutbEvent}
    (hinv : OutbInv sa s) (hsince : Since s₀ s)
    (hserial : sa.sqnAtom = true ∨ ∃ i num, e = .call i num)
    (hroom : s.outb.toNat + e.requested < 2 ^ 64) (hstep : outbStep sa s e = some s') :
    OutbInv sa s' ∧ Since s₀ s' ∧ s'.outb.toNat = s.outb.toNat + e.requested := by
  rcases outbStep_cases hinv.valid hserial hroom hstep with
    ⟨i, c, hnew, hcalls, houtb, hvalid, hspan⟩ | ⟨i, num, sqn, hi, hreq, rfl⟩
  · -- a call is either the new one or as it was
    have hcases : ∀ j d, s'.calls j = some d → (j = i ∧ d = c) ∨ (j ≠ i ∧ s.calls j = some d) := by
      intro j d hd
      rw [hcalls] at hd
      by_cases hj : j = i
      · subst hj
        rw [update_self] at hd
        exact Or.inl ⟨rfl, (some.inj hd).symm⟩
      · rw [update_of_ne hj] at hd
        exact Or.inr ⟨hj, hd⟩
    refine ⟨⟨fun j d hd => ?_, fun j d lo hi hd hs => ?_,
      fun j k d d' lo hi lo' hi' hjk hd hd' hs hs' => ?_⟩, ⟨?_, fun j d lo hi hj hd hs => ?_⟩,
      houtb⟩
    · rcases hcases j d hd with ⟨-, rfl⟩ | ⟨-, hd⟩
      · exact hvalid
      · exact hinv.valid j d hd
    · rcases hcases j d hd with ⟨-, rfl⟩ | ⟨-, hd⟩
      · rw [hspan] at hs
        obtain ⟨rfl, rfl⟩ := Prod.mk.inj (some.inj hs)
        exact Nat.le_of_eq houtb.symm
      · have := hinv.below j d lo hi hd hs
        omega
    · rcases hcases j d hd with ⟨rfl, rfl⟩ | ⟨-, hd⟩
      · rcases hcases k d' hd' with ⟨rfl, -⟩ | ⟨-, hd'⟩
        · exact absurd rfl hjk
        · rw [hspan] at hs
          obtain ⟨rfl, rfl⟩ := Prod.mk.inj (some.inj hs)
          exact Or.inr (hinv.below k d' lo' hi' hd' hs')
      · rcases hcases k d' hd' with ⟨rfl, rfl⟩ | ⟨-, hd'⟩
        · rw [hspan] at hs'
          obtain ⟨rfl, rfl⟩ := Prod.mk.inj (some.inj hs')
          exact Or.inl (hinv.below j d lo hi hd hs)
        · exact hinv.apart j k d d' lo hi lo' hi' hjk hd hd' hs hs'
    · have := hsince.le
      omega
    · rcases hcases j d hd with ⟨rfl, rfl⟩ | ⟨-, hd⟩
      · rw [hspan] at hs
        obtain ⟨rfl, rfl⟩ := Prod.mk.inj (some.inj hs)
        exact hsince.le
      · exact hsince.above j d lo hi hj hd hs
  · -- the call that returns keeps its span
    have hfits : num.toNat ≤ sqn.toNat := hinv.valid i _ hi
    have hspans : ∀ j d, (s.setCall i (.returned num (sqn - num.toUInt64)
        (granted sa sqn num))).calls j = some d → ∃ d', s.calls j = some d' ∧ d.span = d'.span := by
      intro j d hd
      by_cases hj : j = i
      · subst hj
        rw [show (s.setCall j _).calls j = _ from update_self j _ s.calls] at hd
        obtain rfl := some.inj hd
        exact ⟨_, hi, span_returned hfits _⟩
      · rw [show (s.setCall i _).calls j = _ from update_of_ne hj _ s.calls] at hd
        exact ⟨d, hd, rfl⟩
    refine ⟨⟨fun j d hd => ?_, fun j d lo hi' hd hs => ?_,
      fun j k d d' lo hi' lo' hi'' hjk hd hd' hs hs' => ?_⟩,
      ⟨hsince.le, fun j d lo hi' hj hd hs => ?_⟩, by rw [hreq]; rfl⟩
    · by_cases hj : j = i
      · subst hj
        rw [show (s.setCall j _).calls j = _ from update_self j _ s.calls] at hd
        obtain rfl := some.inj hd
        have hn : num.toUInt64.toNat = num.toNat := UInt32.toNat_toUInt64 num
        have hle : num.toUInt64 ≤ sqn := by
          rw [UInt64.le_iff_toNat_le, hn]
          exact hfits
        show UInt32.toNat _ = _
        rw [toNat_granted hfits, UInt64.toNat_sub_of_le _ _ hle, hn]
      · rw [show (s.setCall i _).calls j = _ from update_of_ne hj _ s.calls] at hd
        exact hinv.valid j d hd
    · obtain ⟨d₀, hd₀, heq⟩ := hspans j d hd
      exact hinv.below j d₀ lo hi' hd₀ (heq ▸ hs)
    · obtain ⟨d₀, hd₀, heq⟩ := hspans j d hd
      obtain ⟨d₁, hd₁, heq'⟩ := hspans k d' hd'
      exact hinv.apart j k d₀ d₁ lo hi' lo' hi'' hjk hd₀ hd₁ (heq ▸ hs) (heq' ▸ hs')
    · obtain ⟨d₀, hd₀, heq⟩ := hspans j d hd
      exact hsince.above j d₀ lo hi' hj hd₀ (heq ▸ hs)

/-- The numbers that a run asks for. -/
def requestedBy (es : List OutbEvent) : ℕ := (es.map OutbEvent.requested).sum

theorem outbRun_inv {sa : RteIpsecSa} {s₀ s s' : OutbState} {es : List OutbEvent}
    (hinv : OutbInv sa s) (hsince : Since s₀ s) (hserial : Serial sa es)
    (hroom : s.outb.toNat + requestedBy es < 2 ^ 64) (hrun : outbRun sa s es = some s') :
    OutbInv sa s' ∧ Since s₀ s' ∧ s'.outb.toNat = s.outb.toNat + requestedBy es := by
  induction es generalizing s with
  | nil =>
    obtain rfl := some.inj hrun
    exact ⟨hinv, hsince, rfl⟩
  | cons e es ih =>
    have hsum : requestedBy (e :: es) = e.requested + requestedBy es := by
      unfold requestedBy
      rw [List.map_cons, List.sum_cons]
    unfold outbRun at hrun
    cases hstep : outbStep sa s e with
    | none =>
      rw [hstep] at hrun
      cases hrun
    | some t =>
      rw [hstep] at hrun
      have hserial' : sa.sqnAtom = true ∨ ∃ i num, e = .call i num :=
        hserial.imp_right (fun h => h e List.mem_cons_self)
      obtain ⟨hinv', hsince', houtb⟩ := outbStep_inv hinv hsince hserial' (by omega) hstep
      obtain ⟨hinv'', hsince'', houtb'⟩ := ih hinv' hsince'
        (hserial.imp_right (fun h e' he' => h e' (List.mem_cons_of_mem e he'))) (by omega) hrun
      exact ⟨hinv'', hsince'', by omega⟩

/-! ## The numbers are unique -/

/-- **Outbound sequence numbers are never handed out twice**, in any run
without races in which the counter does not wrap. -/
theorem outbound_unique {sa : RteIpsecSa} {outb : UInt64}
    {es es' : List OutbEvent} (hserial : Serial sa (es ++ es'))
    (hroom : outb.toNat + requestedBy (es ++ es') < 2 ^ 64) {s s' : OutbState}
    (hrun : outbRun sa (outbInit outb) es = some s) (hrun' : outbRun sa s es' = some s') :
    -- no number is granted to two calls
    (∀ i j num start num' m begin' m' a b, i ≠ j →
        s.calls i = some (.returned num start num') → s.calls j = some (.returned m begin' m') →
        a < num'.toNat → b < m'.toNat → start.toNat + a ≠ begin'.toNat + b)
      -- a call is granted no number above the mask, and less than it asked for
      -- exactly if what it asked for passes the mask
      ∧ (∀ i num start num', s.calls i = some (.returned num start num') →
        (∀ a < num'.toNat, start.toNat + a ≤ sa.sqnMask.toNat)
          ∧ num' ≤ num
          ∧ (0 < num → (num' < num ↔ sa.sqnMask.toNat < start.toNat + num.toNat)))
      -- and from then on, no later call is granted anything
      ∧ (∀ i num start num' j m begin' m', s.calls i = some (.returned num start num') →
        num' < num → s.calls j = none → s'.calls j = some (.returned m begin' m') → m' = 0) := by
  have hsplit : requestedBy (es ++ es') = requestedBy es + requestedBy es' := by
    unfold requestedBy
    rw [List.map_append, List.sum_append]
  have hserials : Serial sa es ∧ Serial sa es' :=
    ⟨hserial.imp_right (fun h e he => h e (List.mem_append.mpr (Or.inl he))),
      hserial.imp_right (fun h e he => h e (List.mem_append.mpr (Or.inr he)))⟩
  have hinit : (outbInit outb).outb = outb := rfl
  obtain ⟨hinv, -, houtb⟩ := outbRun_inv (outbInit_inv sa outb) (Since.refl _) hserials.1
    (by rw [hinit]; omega) hrun
  rw [hinit] at houtb
  obtain ⟨hinv', hsince, -⟩ := outbRun_inv hinv (Since.refl s) hserials.2 (by omega) hrun'
  refine ⟨?_, ?_, ?_⟩
  · intro i j num start num' m begin' m' a b hij hi hj ha hb
    have hgrant := hinv.valid i _ hi
    have hgrant' := hinv.valid j _ hj
    unfold OutbCall.Valid at hgrant hgrant'
    rcases hinv.apart i j _ _ _ _ _ _ hij hi hj rfl rfl with h | h
    · omega
    · omega
  · intro i num start num' hi
    have hgrant := hinv.valid i _ hi
    unfold OutbCall.Valid at hgrant
    refine ⟨fun a ha => by omega, ?_, fun hpos => ?_⟩
    · rw [UInt32.le_iff_toNat_le]
      omega
    · have hpos' : 0 < num.toNat := hpos
      rw [UInt32.lt_iff_toNat_lt]
      omega
  · intro i num start num' j m begin' m' hi hless hj hj'
    have hgrant := hinv.valid i _ hi
    have hgrant' := hinv'.valid j _ hj'
    unfold OutbCall.Valid at hgrant hgrant'
    have hbelow := hinv.below i _ _ _ hi rfl
    have habove := hsince.above j _ _ _ hj hj' rfl
    have hlt : num'.toNat < num.toNat := hless
    refine UInt32.toNat_inj.mp ?_
    show m'.toNat = 0
    omega

/-- Two calls of an atomic counter that meet the mask: the second one asks for
three numbers, and is granted the last one below the mask. -/
theorem outbound_unique_two_calls :
    (∀ a < (1 : UInt32).toNat, (0xfffffffe : UInt64).toNat + a ≤ (0xffffffff : UInt64).toNat)
      ∧ (1 : UInt32) ≤ 3
      ∧ ((0 : UInt32) < 3 → ((1 : UInt32) < 3
        ↔ (0xffffffff : UInt64).toNat < (0xfffffffe : UInt64).toNat + (3 : UInt32).toNat)) :=
  (@outbound_unique ⟨0xffffffff, true, ⟨0, 0, 0⟩⟩ 0xfffffffc
    [.fetchAdd 0 2, .fetchAdd 1 3, .ret 1, .ret 0] [] (Or.inl rfl) (by decide) _ _ rfl rfl).2.1
    1 3 0xfffffffe 1 (by decide)

/-- **Where a number is handed out that must not be.** A counter at the end of
its 64 bits hands out a number above the mask; a call that asks for no number
past the mask is granted no less; and two calls of an SA without an atomic
counter that race with each other are granted the same number. -/
theorem outbound_unique_fails :
    ((outbRun ⟨0xffffffff, true, ⟨0, 0, 0⟩⟩ (outbInit 0xffffffffffffffff) [.call 0 1]).map
        (fun s => s.calls 0) = some (some (.returned 1 0xffffffffffffffff 1)))
      ∧ ((outbRun ⟨0xffffffff, true, ⟨0, 0, 0⟩⟩ (outbInit 0x100000000) [.call 0 0]).map
        (fun s => s.calls 0) = some (some (.returned 0 0x100000000 0)))
      ∧ ((outbRun ⟨0xffffffff, false, ⟨0, 0, 0⟩⟩ (outbInit 1)
          [.load 0 1, .load 1 1, .store 0, .store 1, .ret 0, .ret 1]).map
        (fun s => (s.calls 0, s.calls 1))
          = some (some (.returned 1 1 1), some (.returned 1 1 1))) := by
  decide

end Ipsec
