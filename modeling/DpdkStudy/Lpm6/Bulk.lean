import DpdkStudy.Lpm6.LongestMatch

/-!
# A bulk deletion and deletions one by one

A bulk deletion leaves the tables in shape for the rules that are left, and so do
the deletions of its keys one by one: no lookup tells them apart
(`bulk_eq_deletes`). None of the rules that are added again on the way is
refused, in whatever order the hash table gives them back: they need as many
groups as there are blocks with a rule inside, and these had groups before.

All this is so as long as no deletion takes a group away that is in use (`Safe`).
-/

namespace Lpm6

open Net Prefix Levels Pool

variable {lpm : RteLpm6} {loc : ℕ → Option (ℕ × ℕ)} {M R : Table ℕ}

/-- **All rules are added**, and none of them is refused. -/
def AllAdded : RteLpm6 → List RteLpm6Rule → Prop
  | _, [] => True
  | lpm, r :: rules =>
    ∃ lpm', rteLpm6Add lpm r.ip r.depth r.nextHop = some (0, lpm') ∧ AllAdded lpm' rules

theorem Rebuilding.allAdded (rules : List RteLpm6Rule)
    (hrules : ∀ r ∈ rules, R r.depth.toNat r.ip.toNat = some r.nextHop.toNat)
    (h : Rebuilding lpm loc M R) : AllAdded lpm rules := by
  induction rules generalizing lpm loc M with
  | nil => trivial
  | cons r rules ih =>
    obtain ⟨lpm₁, loc₁, hadd, hadded⟩ := h.add (hrules r List.mem_cons_self)
    exact ⟨lpm₁, hadd, ih (fun r' hr' => hrules r' (List.mem_cons_of_mem r hr')) hadded⟩

/-- **`rte_lpm6_delete` of one key after the other.** -/
def deleteEach (lpm : RteLpm6) : List (RteIpv6Addr × UInt8) → Option RteLpm6
  | [] => some lpm
  | (ip, depth) :: keys => do
    let r ← rteLpm6Delete lpm ip depth
    deleteEach r.2 keys

/-- The calls that delete some keys. -/
def deletions (keys : List (RteIpv6Addr × UInt8)) : List Lpm6Op :=
  keys.map (fun key => .delete key.1 key.2)

theorem Stands.deleteEach (keys : List (RteIpv6Addr × UInt8)) (h : Stands lpm M)
    (hsafe : Throughout Safe (deletions keys) lpm) :
    ∃ lpm', Lpm6.deleteEach lpm keys = some lpm' ∧ Stands lpm' (eraseAll M keys) := by
  induction keys generalizing lpm M with
  | nil => exact ⟨lpm, rfl, h⟩
  | cons key keys ih =>
    obtain ⟨r, heq, hstands, -⟩ := h.delete hsafe.1
    obtain ⟨lpm', hrest, hstands'⟩ := ih hstands (hsafe.2 r heq)
    refine ⟨lpm', ?_, hstands'⟩
    rw [Lpm6.deleteEach, heq]
    exact hrest

/-- **A bulk deletion is as good as the deletions one by one**: none of the rules
that are left is refused, and all lookups have the same answer. -/
structure BulkAgrees (lpm : RteLpm6) (keys : List (RteIpv6Addr × UInt8)) (iteration : Iteration) :
    Prop where
  added : AllAdded (clearTables (ruleDeletes lpm keys))
    (iteration.order (ruleDeletes lpm keys).rulesTbl)
  same : ∃ lpm₁ lpm₂, rteLpm6DeleteBulkFunc lpm keys iteration = some (0, lpm₁) ∧
    deleteEach lpm keys = some lpm₂ ∧ ∀ ip, rteLpm6Lookup lpm₁ ip = rteLpm6Lookup lpm₂ ip

/-- One bulk deletion agrees, if the tables are in shape. -/
theorem Stands.bulkAgrees (h : Stands lpm M) (keys : List (RteIpv6Addr × UInt8))
    (iteration : Iteration) (hsafe : Throughout Safe (deletions keys) lpm) :
    BulkAgrees lpm keys iteration := by
  obtain ⟨loc, hshape⟩ := h.shape
  obtain ⟨lpm₁, loc₁, hbulk, hrules₁, hshape₁, -⟩ :=
    rteLpm6DeleteBulkFunc_spec h.rules hshape keys iteration
  obtain ⟨lpm₂, heach, hrules₂, loc₂, hshape₂⟩ := h.deleteEach keys hsafe
  refine ⟨(rebuilding_clearTables h.rules hshape keys).allAdded _
    (order_ruleDeletes h.rules keys iteration), lpm₁, lpm₂, hbulk, heach, fun ip => ?_⟩
  -- both are the longest match of the rules that are left
  rw [rteLpm6Lookup_eq hshape₁ hrules₁.keyed ip, rteLpm6Lookup_eq hshape₂ hrules₂.keyed ip]

/-- **A bulk deletion and deletions one by one** cannot be told apart in any state
that is reached without taking a group away that is in use, if these deletions do
not do so either. -/
theorem bulk_eq_deletes {maxRules numberTbl8s : UInt32} {pool : ℕ → ℕ} {hdrs : ℕ → RteLpmTbl8Hdr}
    {lpm : RteLpm6} (hcreate : rteLpm6Create maxRules numberTbl8s pool hdrs = some lpm)
    {ops : List Lpm6Op} (hsafe : Throughout Safe ops lpm) :
    ∃ s, lpm6Run ops (lpm, Table.empty) = some s ∧
      ∀ keys iteration, Throughout Safe (deletions keys) s.1 → BulkAgrees s.1 keys iteration := by
  obtain ⟨hrules, hshape⟩ := rteLpm6Create_spec hcreate
  have hstart : Stands lpm Table.empty := ⟨hrules, ⟨_, hshape⟩⟩
  obtain ⟨s, hs, hstands⟩ := lpm6Run_invariant
    (fun op (_ : op ∈ ops) lpm M h hok => h.step hok) hstart hsafe
  exact ⟨s, hs, fun keys iteration hkeys => hstands.bulkAgrees keys iteration hkeys⟩

/-- What is true of the state after some calls, for an object with four groups. -/
theorem of_lpm6Run {ops : List Lpm6Op} {lpm : RteLpm6} {s : RteLpm6 × Table ℕ}
    (hcreate : rteLpm6Create 8 4 (fun _ => 0) (fun _ => ⟨none, 0, 0⟩) = some lpm)
    (hs : lpm6Run ops (lpm, Table.empty) = some s) {α : Type} (f : RteLpm6 → α) {x : α}
    (h : ((rteLpm6Create 8 4 (fun _ => 0) (fun _ => ⟨none, 0, 0⟩)).bind fun lpm =>
      (lpm6Run ops (lpm, Table.empty)).map fun s => f s.1) = some x) : f s.1 = x := by
  rw [hcreate, Option.bind_some, hs] at h
  exact Option.some.inj h

/-- A rule that is left, and a key that is not there. -/
theorem bulk_eq_deletes_one_rule :
    ∃ lpm, rteLpm6Create 8 4 (fun _ => 0) (fun _ => ⟨none, 0, 0⟩) = some lpm ∧
      ∃ s, lpm6Run [.add documentation 32 1] (lpm, Table.empty) = some s ∧
        BulkAgrees s.1 [(neighbour, 32)] inOrder := by
  obtain ⟨lpm, hcreate⟩ :
      ∃ lpm, rteLpm6Create 8 4 (fun _ => 0) (fun _ => ⟨none, 0, 0⟩) = some lpm := ⟨_, rfl⟩
  obtain ⟨s, hs, hall⟩ := @bulk_eq_deletes _ _ _ _ _ hcreate [.add documentation 32 1]
    ⟨trivial, fun _ _ => trivial⟩
  have hnone : (ruleFind s.1 (rteIpv6AddrMask neighbour 32) 32).isSome = false :=
    of_lpm6Run hcreate hs (fun lpm => (ruleFind lpm (rteIpv6AddrMask neighbour 32) 32).isSome)
      (by decide +kernel)
  refine ⟨lpm, hcreate, s, hs, hall _ inOrder ⟨fun hsome => ?_, fun _ _ => trivial⟩⟩
  exact absurd (hnone.symm.trans hsome) Bool.false_ne_true

/-- **A group is taken away that is in use**: a rule that was added again is not
found after the deletion of its neighbour, but it is after a bulk deletion. -/
theorem bulk_eq_deletes_fails :
    ∃ lpm, rteLpm6Create 8 4 (fun _ => 0) (fun _ => ⟨none, 0, 0⟩) = some lpm ∧
      ∃ s, lpm6Run [.add documentation 32 1, .deleteBulk [] inOrder, .add neighbour 32 2]
          (lpm, Table.empty) = some s ∧
        ¬ BulkAgrees s.1 [(neighbour, 32)] inOrder := by
  obtain ⟨lpm, hcreate⟩ :
      ∃ lpm, rteLpm6Create 8 4 (fun _ => 0) (fun _ => ⟨none, 0, 0⟩) = some lpm := ⟨_, rfl⟩
  have hruns : ((rteLpm6Create 8 4 (fun _ => 0) (fun _ => ⟨none, 0, 0⟩)).bind fun lpm =>
      (lpm6Run [.add documentation 32 1, .deleteBulk [] inOrder, .add neighbour 32 2]
        (lpm, Table.empty)).map fun _ => ()) = some () := by decide +kernel
  rw [hcreate, Option.bind_some] at hruns
  obtain ⟨s, hs, -⟩ := Option.map_eq_some_iff.mp hruns
  refine ⟨lpm, hcreate, s, hs, fun hagrees => ?_⟩
  obtain ⟨lpm₁, lpm₂, hbulk, heach, hsame⟩ := hagrees.same
  have hfound : ((rteLpm6DeleteBulkFunc s.1 [(neighbour, 32)] inOrder).bind
      fun r => rteLpm6Lookup r.2 documentation).map Prod.fst = some 0 :=
    of_lpm6Run hcreate hs (fun lpm => ((rteLpm6DeleteBulkFunc lpm [(neighbour, 32)] inOrder).bind
      fun r => rteLpm6Lookup r.2 documentation).map Prod.fst) (by decide +kernel)
  have hlost : ((deleteEach s.1 [(neighbour, 32)]).bind
      fun lpm => rteLpm6Lookup lpm documentation).map Prod.fst = some (-enoent) :=
    of_lpm6Run hcreate hs (fun lpm => ((deleteEach lpm [(neighbour, 32)]).bind
      fun lpm => rteLpm6Lookup lpm documentation).map Prod.fst) (by decide +kernel)
  rw [hbulk, Option.bind_some, hsame] at hfound
  rw [heach, Option.bind_some, hfound] at hlost
  exact absurd hlost (by decide)

end Lpm6
