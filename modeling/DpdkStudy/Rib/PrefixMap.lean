import Mathlib.Data.Finset.Card
import Mathlib.Data.List.Nodup
import DpdkStudy.Lib.Runs
import DpdkStudy.Rib.Update

/-!
# The RIB is a prefix map

After any run of insertions, changes of next hops and removals, from an empty
RIB of any capacity, the lookups answer with the pairs that were inserted and
not removed since, the tree is compressed, and the counters count
(`prefix_map`). What is expected of a run is stated without the tree: a table
of the pairs, each with the next hop it was given, once it was given one.
-/

open List

namespace Rib

open Prefix
open Runs (run)

/-- A call that changes the RIB. The node for `rte_rib_set_nh` is looked up. -/
inductive RibCall
  | insert (ip : UInt32) (depth : ℕ)
  | setNh (ip : UInt32) (depth nh : ℕ)
  | remove (ip : UInt32) (depth : ℕ)
deriving DecidableEq, Repr

/-- **A RIB and what is expected of it**: the pairs that were inserted and not
removed, with the next hop that was set, if one was. -/
structure RibTrace where
  rib : RteRib
  pairs : Table (Option ℕ)

/-- An empty RIB. -/
def RibTrace.fresh (maxNodes : ℕ) : RibTrace := ⟨rteRibCreate maxNodes, Table.empty⟩

/-- The RIB after a call. -/
def RteRib.called (rib : RteRib) : RibCall → RteRib
  | .insert ip depth => (rteRibInsert rib ip depth).2
  | .setNh ip depth nh =>
    match rteRibLookupExact rib ip depth with
    | none => rib
    | some c => rib.at (rteRibSetNh c nh)
  | .remove ip depth => rteRibRemove rib ip depth

/-- The pairs after a call: an insertion adds one if it does not fail. -/
def RibTrace.expected (t : RibTrace) : RibCall → Table (Option ℕ)
  | .insert ip depth =>
    match (rteRibInsert t.rib ip depth).1 with
    | .error _ => t.pairs
    | .ok _ => t.pairs.insert depth (trunc 32 depth ip.toNat) none
  | .setNh ip depth nh =>
    if t.pairs depth (trunc 32 depth ip.toNat) = none then t.pairs
    else t.pairs.insert depth (trunc 32 depth ip.toNat) (some nh)
  | .remove ip depth => t.pairs.erase depth (trunc 32 depth ip.toNat)

/-- A call is made. -/
def RibTrace.called (t : RibTrace) (call : RibCall) : RibTrace :=
  ⟨t.rib.called call, t.expected call⟩

/-- **The next hops of nodes** are those of the pairs, as far as they were set. -/
def Agree (pairs : Table (Option ℕ)) (hops : Table ℕ) : Prop :=
  ∀ d p, (pairs d p = none ↔ hops d p = none) ∧ ∀ v, pairs d p = some (some v) → hops d p = some v

/-! ## The pairs of a tree -/

/-- The routes of a tree, in order. -/
def pairsOf : RteRibNode → List (ℕ × ℕ)
  | .null => []
  | .node ip d valid _ left right =>
    (if valid then [(d, ip.toNat)] else []) ++ pairsOf left ++ pairsOf right

theorem mem_pairsOf {t : RteRibNode} {d p : ℕ} : (d, p) ∈ pairsOf t ↔ ∃ v, Route t d p v := by
  induction t with
  | null => exact ⟨fun h => (nomatch h), fun ⟨v, h⟩ => h.elim⟩
  | node ip e valid nh left right ihl ihr =>
    rw [pairsOf, mem_append, mem_append, ihl, ihr]
    constructor
    · rintro ((hown | ⟨v, hv⟩) | ⟨v, hv⟩)
      · cases valid with
        | false => exact nomatch hown
        | true =>
          obtain ⟨rfl, rfl⟩ := Prod.mk.inj (mem_singleton.mp hown)
          exact ⟨nh, Or.inl ⟨rfl, rfl, rfl, rfl⟩⟩
      · exact ⟨v, Or.inr (Or.inl hv)⟩
      · exact ⟨v, Or.inr (Or.inr hv)⟩
    · rintro ⟨v, ⟨rfl, rfl, rfl, -⟩ | hv | hv⟩
      · exact Or.inl (Or.inl mem_cons_self)
      · exact Or.inl (Or.inr ⟨v, hv⟩)
      · exact Or.inr ⟨v, hv⟩

theorem length_pairsOf (t : RteRibNode) : (pairsOf t).length = routes t := by
  induction t with
  | null => rfl
  | node ip d valid nh left right ihl ihr =>
    rw [pairsOf, length_append, length_append, ihl, ihr]
    show _ = valid.toNat + routes left + routes right
    cases valid <;> rfl

theorem nodup_pairsOf {D P : ℕ} {t : RteRibNode} (h : Ordered D P t) : (pairsOf t).Nodup := by
  induction t generalizing D P with
  | null => exact nodup_nil
  | node ip d valid nh left right ihl ihr =>
    obtain ⟨-, -, -, hip, hl, hr⟩ := id h
    have hleft : ∀ {e p}, (e, p) ∈ pairsOf left → d < e ∧ trunc 32 (d + 1) p
        = child 32 d ip.toNat false := by
      intro e p hmem
      obtain ⟨v, hv⟩ := mem_pairsOf.mp hmem
      exact ⟨(hl.route hv).1, (hl.route hv).2.2.1⟩
    have hright : ∀ {e p}, (e, p) ∈ pairsOf right → d < e ∧ trunc 32 (d + 1) p
        = child 32 d ip.toNat true := by
      intro e p hmem
      obtain ⟨v, hv⟩ := mem_pairsOf.mp hmem
      exact ⟨(hr.route hv).1, (hr.route hv).2.2.1⟩
    have hown : ∀ {e p}, (e, p) ∈ (if valid then [(d, ip.toNat)] else []) → e = d := by
      intro e p hmem
      cases valid with
      | false => exact nomatch hmem
      | true => exact (Prod.mk.inj (mem_singleton.mp hmem)).1
    rw [pairsOf]
    refine nodup_append.mpr ⟨nodup_append.mpr ⟨?_, ihl hl, ?_⟩, ihr hr, ?_⟩
    · cases valid with
      | false => exact nodup_nil
      | true => exact nodup_singleton _
    · rintro ⟨e, p⟩ hmem ⟨e', p'⟩ hmem' heq
      obtain ⟨rfl, rfl⟩ := Prod.mk.inj heq
      have hlt := (hleft hmem').1
      rw [hown hmem] at hlt
      exact absurd hlt (Nat.lt_irrefl d)
    · rintro ⟨e, p⟩ hmem ⟨e', p'⟩ hmem' heq
      obtain ⟨rfl, rfl⟩ := Prod.mk.inj heq
      rcases mem_append.mp hmem with hmem | hmem
      · have hlt := (hright hmem').1
        rw [hown hmem] at hlt
        exact absurd hlt (Nat.lt_irrefl d)
      · exact nomatch child_inj ((hleft hmem).2.symm.trans (hright hmem').2)

/-- A full tree has less than two nodes for a route. -/
theorem Full.nodes_lt {t : RteRibNode} (h : Full t) (hnull : t.isNull = false) :
    nodes t + 1 ≤ 2 * routes t := by
  induction t with
  | null => cases hnull
  | node ip d valid nh left right ihl ihr =>
    obtain ⟨hv, hfl, hfr⟩ := h
    -- a subtree that is there has its share
    have hside : ∀ t : RteRibNode, Full t → (t.isNull = false → nodes t + 1 ≤ 2 * routes t) →
        nodes t ≤ 2 * routes t := by
      intro t _ ih
      cases t with
      | null => exact Nat.le_refl 0
      | node => exact Nat.le_of_succ_le (ih rfl)
    have hnodes : nodes (.node ip d valid nh left right) = 1 + nodes left + nodes right := rfl
    have hroutes : routes (.node ip d valid nh left right)
        = valid.toNat + routes left + routes right := rfl
    rw [hnodes, hroutes]
    rcases hv with rfl | ⟨hl, hr⟩
    · have hl := hside left hfl (ihl hfl)
      have hr := hside right hfr (ihr hfr)
      rw [Bool.toNat_true]
      omega
    · have hl := ihl hfl hl
      have hr := ihr hfr hr
      omega

/-! ## What a run leads to -/

/-- **The RIB is a map of prefixes**: for some next hops, which are those of the
pairs, the lookups find the pair of a prefix, the longest pair that covers an
address, and the longest shorter one that covers a node. Each node has a
longer prefix than its parent, on the side it hangs from, and one that is not
valid has two children. The counters are those of the pairs and the nodes. An
insertion that fails leaves the RIB as it was. -/
structure PrefixMap (t : RibTrace) (hops : Table ℕ) : Prop where
  agree : Agree t.pairs hops
  lookupExact : ∀ ip depth, depth ≤ 32 →
    Points t.rib.tree ip.toNat (rteRibLookupExact t.rib ip depth)
      ((hops depth (trunc 32 depth ip.toNat)).map (Prod.mk depth))
  lookup : ∀ ip, Points t.rib.tree ip.toNat (rteRibLookup t.rib ip) (longest 32 hops ip.toNat 33)
  lookupParent : ∀ (c : Cursor) depth p nh, c.At t.rib.tree depth p nh →
    Points t.rib.tree p (rteRibLookupParent c.node c.parents) (longest 32 hops p depth)
  ordered : Ordered 0 0 t.rib.tree
  full : Full t.rib.tree
  curRoutes : ∃ S : Finset (ℕ × ℕ), (∀ d p, (d, p) ∈ S ↔ t.pairs d p ≠ none)
    ∧ t.rib.curRoutes = S.card
  curNodes : t.rib.curNodes = nodes t.rib.tree
    ∧ (t.rib.curRoutes ≠ 0 → t.rib.curNodes ≤ 2 * t.rib.curRoutes - 1)
  insertFails : ∀ ip depth e, (rteRibInsert t.rib ip depth).1 = .error e →
    (rteRibInsert t.rib ip depth).2 = t.rib

/-- A RIB that shows a table is a map of prefixes. -/
theorem RibShows.prefixMap {t : RibTrace} {hops : Table ℕ} (h : RibShows t.rib hops)
    (hagree : Agree t.pairs hops) : PrefixMap t hops := by
  refine ⟨hagree, fun ip depth hd => ?_, rteRibLookup_spec h,
    fun c depth p nh hc => rteRibLookupParent_eq h.holds hc, h.ordered, h.full, ?_,
    ⟨h.curNodes_eq, fun hroutes => ?_⟩, fun ip depth e he => ?_⟩
  · obtain ⟨hsome, hnone⟩ := rteRibLookupExact_spec h ip hd
    cases hc : rteRibLookupExact t.rib ip depth with
    | none =>
      rw [hnone hc]
      trivial
    | some c =>
      obtain ⟨nh, hat, hnh⟩ := hsome c hc
      rw [hnh]
      exact hat
  · refine ⟨(pairsOf t.rib.tree).toFinset, fun d p => ?_, ?_⟩
    · rw [mem_toFinset, mem_pairsOf, ne_eq, (hagree d p).1, ← ne_eq,
        Option.ne_none_iff_exists']
      exact exists_congr (fun v => h.holds d p v)
    · rw [toFinset_card_of_nodup (nodup_pairsOf h.ordered), length_pairsOf, h.curRoutes_eq]
  · cases hnull : t.rib.tree.isNull with
    | true =>
      cases htree : t.rib.tree with
      | null =>
        rw [h.curRoutes_eq, htree] at hroutes
        exact absurd rfl hroutes
      | node =>
        rw [htree] at hnull
        cases hnull
    | false =>
      have hlt := h.full.nodes_lt hnull
      rw [← h.curNodes_eq, ← h.curRoutes_eq] at hlt
      exact Nat.le_sub_one_of_lt hlt
  · rcases rteRibInsert_spec h ip depth with ⟨e', heq⟩ | ⟨c, nh, hok, -⟩
    · rw [heq]
    · rw [hok] at he
      cases he

/-! ## Runs of calls -/

theorem RibShows.eq_none {rib : RteRib} {hops : Table ℕ} (h : RibShows rib hops) {d : ℕ}
    (hd : 32 < d) (p : ℕ) : hops d p = none := by
  cases hv : hops d p with
  | none => rfl
  | some v =>
    have hle := (h.ordered.route ((h.holds d p v).mpr hv)).2.1
    omega

theorem Agree.insert {pairs : Table (Option ℕ)} {hops : Table ℕ} (h : Agree pairs hops) (d p : ℕ)
    {o : Option ℕ} {nh : ℕ} (ho : ∀ v, o = some v → nh = v) :
    Agree (pairs.insert d p o) (hops.insert d p nh) := by
  intro e q
  unfold Table.insert
  by_cases heq : e = d ∧ q = p
  · rw [if_pos heq, if_pos heq]
    refine ⟨iff_of_false (fun hc => nomatch hc) (fun hc => nomatch hc), fun v hv => ?_⟩
    rw [ho v (Option.some.inj hv)]
  · rw [if_neg heq, if_neg heq]
    exact h e q

theorem Agree.erase {pairs : Table (Option ℕ)} {hops : Table ℕ} (h : Agree pairs hops)
    (d p : ℕ) : Agree (pairs.erase d p) (hops.erase d p) := by
  intro e q
  unfold Table.erase
  by_cases heq : e = d ∧ q = p
  · rw [if_pos heq, if_pos heq]
    exact ⟨iff_of_true rfl rfl, fun v hv => nomatch hv⟩
  · rw [if_neg heq, if_neg heq]
    exact h e q

/-- **A RIB with a route for each pair.** -/
def Shown (t : RibTrace) : Prop := ∃ hops, RibShows t.rib hops ∧ Agree t.pairs hops

theorem Shown.called {t : RibTrace} (h : Shown t) (call : RibCall) : Shown (t.called call) := by
  obtain ⟨hops, hshows, hagree⟩ := h
  cases call with
  | insert ip depth =>
    rcases rteRibInsert_spec hshows ip depth with ⟨e, heq⟩ | ⟨c, nh, hok, -, -, -, hshows'⟩
    · refine ⟨hops, ?_, ?_⟩
      · show RibShows (rteRibInsert t.rib ip depth).2 hops
        rw [heq]
        exact hshows
      · show Agree (t.expected (.insert ip depth)) hops
        rw [RibTrace.expected, heq]
        exact hagree
    · refine ⟨_, hshows', ?_⟩
      show Agree (t.expected (.insert ip depth)) _
      rw [RibTrace.expected, hok]
      exact hagree.insert _ _ (fun v hv => nomatch hv)
  | setNh ip depth nh =>
    have hpair := (hagree depth (trunc 32 depth ip.toNat)).1
    cases hc : rteRibLookupExact t.rib ip depth with
    | none =>
      have hnone : hops depth (trunc 32 depth ip.toNat) = none := by
        by_cases hd : depth ≤ 32
        · exact (rteRibLookupExact_spec hshows ip hd).2 hc
        · exact hshows.eq_none (Nat.lt_of_not_le hd) _
      refine ⟨hops, ?_, ?_⟩
      · show RibShows (t.rib.called (.setNh ip depth nh)) hops
        rw [RteRib.called, hc]
        exact hshows
      · show Agree (t.expected (.setNh ip depth nh)) hops
        rw [RibTrace.expected, if_pos (hpair.mpr hnone)]
        exact hagree
    | some c =>
      have hd : depth ≤ 32 := by
        by_contra hd
        unfold rteRibLookupExact at hc
        rw [if_pos (Nat.lt_of_not_le hd)] at hc
        cases hc
      obtain ⟨nh', hat, hsome⟩ := (rteRibLookupExact_spec hshows ip hd).1 c hc
      have hthere : ¬ t.pairs depth (trunc 32 depth ip.toNat) = none := by
        rw [hpair, hsome]
        exact Option.some_ne_none nh'
      refine ⟨hops.insert depth (trunc 32 depth ip.toNat) nh, ?_, ?_⟩
      · show RibShows (t.rib.called (.setNh ip depth nh)) _
        rw [RteRib.called, hc]
        exact (rteRibSetNh_spec hshows hat nh).1
      · show Agree (t.expected (.setNh ip depth nh)) _
        rw [RibTrace.expected, if_neg hthere]
        exact hagree.insert _ _ (fun v hv => Option.some.inj hv)
  | remove ip depth =>
    refine ⟨hops.erase depth (trunc 32 depth ip.toNat), ?_, hagree.erase _ _⟩
    show RibShows (rteRibRemove t.rib ip depth) _
    by_cases hd : depth ≤ 32
    · exact rteRibRemove_spec hshows ip hd
    · rw [Table.erase_eq_self (hshows.eq_none (Nat.lt_of_not_le hd) _), rteRibRemove,
        rteRibLookupExact, if_pos (Nat.lt_of_not_le hd)]
      exact hshows

/-- A RIB that calls lead to has a route for each pair. -/
theorem shown_run (maxNodes : ℕ) (calls : List RibCall) :
    Shown (run RibTrace.called (RibTrace.fresh maxNodes) calls) := by
  have hfresh : Shown (RibTrace.fresh maxNodes) :=
    ⟨Table.empty, rteRibCreate_shows maxNodes,
      fun d p => ⟨⟨fun _ => rfl, fun _ => rfl⟩, fun v hv => nomatch hv⟩⟩
  exact Runs.run_invariant (fun _ call ht => ht.called call) hfresh calls

/-- **The RIB is a prefix map**, after every run of calls. -/
theorem prefix_map (maxNodes : ℕ) (calls : List RibCall) :
    ∃ hops, PrefixMap (run RibTrace.called (RibTrace.fresh maxNodes) calls) hops := by
  obtain ⟨hops, hshows, hagree⟩ := shown_run maxNodes calls
  exact ⟨hops, hshows.prefixMap hagree⟩

end Rib
