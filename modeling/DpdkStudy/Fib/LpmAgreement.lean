import DpdkStudy.Fib.LongestMatch
import DpdkStudy.Lpm.LongestMatch

/-!
# The FIB and the LPM library agree

Two libraries look up the longest match of an IPv4 address, each with tables
and with a copy of the routes of its own. They are given the same calls, and
as long as these succeed in both (`Succeeds`), a lookup has the same answer in
both.
-/

namespace Fib

open Runs (run Along)
open Lpm (RteLpm LpmOp lpmStep rteLpmLookup rteLpmCreate)
open Prefix

/-- The call of the LPM library for a call of the FIB. -/
def FibCall.lpmOp : FibCall → LpmOp
  | .add ip depth nextHop => .add ip (UInt8.ofNat depth) (UInt32.ofNat nextHop)
  | .delete ip depth => .delete ip (UInt8.ofNat depth)

/-- A call is made of both libraries. -/
def calledBoth (s : FibTrace × RteLpm) (call : FibCall) : FibTrace × RteLpm :=
  (s.1.called call, ((lpmStep s.2 call.lpmOp).map Prod.snd).getD s.2)

/-- **A call succeeds in both libraries**, and its next hop has 24 bits. -/
structure Succeeds (s : FibTrace × RteLpm) (call : FibCall) : Prop where
  sane : Sane s.1 call
  lpm : (lpmStep s.2 call.lpmOp).map Prod.fst = some 0
  hop : ∀ ip depth nextHop, call = .add ip depth nextHop → nextHop < 2 ^ 24

theorem Succeeds.ruleSet_eq {s : FibTrace × RteLpm} {call : FibCall} (h : Succeeds s call)
    (M : Table ℕ) : Lpm.ruleSet M call.lpmOp 0 = expected M call := by
  have hto : ∀ depth ≤ 32, (UInt8.ofNat depth).toNat = depth := fun depth hd =>
    UInt8.toNat_ofNat_of_lt' (lt_of_le_of_lt hd (by decide))
  cases call with
  | add ip depth nextHop =>
    have hhop := h.hop ip depth nextHop rfl
    show M.insert _ (trunc 32 _ _) _ = _
    rw [hto depth (dir24_8Modify_add h.sane.succeeds).1,
      UInt32.toNat_ofNat_of_lt' (lt_trans hhop (by decide))]
    rfl
  | delete ip depth =>
    show M.erase _ (trunc 32 _ _) = _
    rw [hto depth (dir24_8Modify_del h.sane.succeeds).1]
    rfl

/-- **Both libraries hold the same routes.** -/
def HoldSame (defNh : ℕ) (s : FibTrace × RteLpm) : Prop :=
  Agrees defNh s.1 ∧ Lpm.Consistent s.2 s.1.routes

theorem HoldSame.calledBoth {defNh : ℕ} {s : FibTrace × RteLpm} (h : HoldSame defNh s)
    {call : FibCall} (hok : Succeeds s call) : HoldSame defNh (calledBoth s call) := by
  refine ⟨h.1.called call hok.sane, ?_⟩
  obtain ⟨r, hstep, hr⟩ := Option.map_eq_some_iff.mp hok.lpm
  obtain ⟨hshows, -, hall⟩ := (Lpm.lpmStep_spec h.2.shows call.lpmOp).1 r hstep
  unfold Fib.calledBoth
  rw [hstep]
  rw [hr, hok.ruleSet_eq] at hshows
  refine hshows.consistent (hall ⟨h.2.tbl8Alloc, h.2.rulesAlloc⟩) (fun d p v hv => ?_)
  cases call with
  | add ip depth nextHop =>
    change (if _ then _ else _) = some v at hv
    split at hv
    · exact Option.some.inj hv ▸ hok.hop ip depth nextHop rfl
    · exact h.2.hops d p v hv
  | delete ip depth =>
    change (if _ then _ else _) = some v at hv
    split at hv
    · cases hv
    · exact h.2.hops d p v hv

/-- **The FIB and the LPM library agree**: after the same calls, all of which
succeed in both, a lookup has the same answer in both; where the LPM library
finds no route, the FIB answers with its default next hop. -/
theorem fib_eq_lpm {nhSz : NhSz} {numTbl8 maxRules numberTbl8s : UInt32} {defNh maxRoutes : ℕ}
    {dp : Dir24_8Tbl} {lpm : RteLpm} {zmalloc : UInt32 → Bool}
    (hfib : dir24_8Create nhSz numTbl8 defNh = .ok dp)
    (hplace : dp.numberTbl8s.toNat ≤ 2 ^ (24 - nhSz.val))
    (hlpm : rteLpmCreate zmalloc maxRules numberTbl8s = some lpm)
    (hsizes : 8 * maxRules.toNat < 2 ^ 32 ∧ 1024 * numberTbl8s.toNat < 2 ^ 32)
    {calls : List FibCall} (hrun : Along calledBoth Succeeds (FibTrace.fresh maxRoutes dp, lpm) calls)
    {s : FibTrace × RteLpm} (hs : run calledBoth (FibTrace.fresh maxRoutes dp, lpm) calls = s)
    (ip : UInt32) :
    dir24_8Lookup s.1.fib.dp ip
      = if (rteLpmLookup s.2 ip).1 = 0 then (rteLpmLookup s.2 ip).2 else defNh := by
  obtain ⟨halloc, hempty⟩ := Lpm.rteLpmCreate_spec hlpm
  have hstart : HoldSame defNh (FibTrace.fresh maxRoutes dp, lpm) :=
    ⟨fresh_agrees hfib hplace, hempty.consistent (halloc.mpr hsizes) (fun _ _ _ hv => by cases hv)⟩
  obtain ⟨hagrees, hcons⟩ : HoldSame defNh s :=
    hs ▸ hrun.invariant (fun t call ht hok => ht.calledBoth hok) hstart
  have hlookup := Lpm.rteLpmLookup_eq hcons ip
  rw [dir24_8Lookup_eq, hagrees.shows.answers ip.toNat ip.toNat_lt, hagrees.default, hopOf]
  cases hlong : longest 32 s.1.routes ip.toNat 33 with
  | none =>
    rw [hlong] at hlookup
    rw [if_neg (by rw [hlookup]; decide)]
    rfl
  | some r =>
    rw [hlong] at hlookup
    rw [show rteLpmLookup s.2 ip = (0, r.2) from hlookup, if_pos rfl]
    rfl

/-- A route of 24 bits, and one of 25 bits in it. -/
theorem fib_eq_lpm_two_routes :
    ∃ dp lpm s, dir24_8Create .b4 64 0 = .ok dp ∧ rteLpmCreate (fun _ => true) 16 2 = some lpm
      ∧ run calledBoth (FibTrace.fresh 8 dp, lpm)
          [.add 0x0a010200 24 1, .add 0x0a010280 25 2] = s
      ∧ dir24_8Lookup s.1.fib.dp 0x0a010281 = if (rteLpmLookup s.2 0x0a010281).1 = 0 then
          (rteLpmLookup s.2 0x0a010281).2 else 0 := by
  refine ⟨_, _, _, rfl, rfl, rfl, ?_⟩
  refine @fib_eq_lpm .b4 64 16 2 0 8 _ _ (fun _ => true) rfl (by decide) rfl (by decide) _ ?_ _ rfl _
  refine ⟨⟨⟨by decide, fun _ => ?_, fun h => h.1 rfl⟩, by decide +kernel, ?_⟩,
    ⟨⟨by decide, fun _ => ?_, fun h => h.1 (by decide)⟩, by decide +kernel, ?_⟩, trivial⟩
  · exact Tellable.of_none (fun _ _ _ => rfl)
  · intro _ _ _ h
    cases h
    decide
  · refine Tellable.of_none (fun e p he => ?_)
    exact if_neg (fun hc => absurd hc.1 (Nat.ne_of_gt (lt_trans (by decide) he)))
  · intro _ _ _ h
    cases h
    decide

end Fib
