import DpdkStudy.Rib.Tree

/-!
# Changing the routes

`RibShows` says that a RIB holds the routes of a table: its tree is in order,
no node stands there without need (`Full`), and its routes are those of the
table. An insertion, a removal and a new next hop keep it so, with the table
that has the route, lacks it, or has it with the new next hop
(`rteRibInsert_spec`, `rteRibRemove_spec`, `rteRibSetNh_spec`).
-/

namespace Rib

open Prefix

variable {left right t tree : RteRibNode} {parents : List Frame} {rib : RteRib} {M : Table ℕ}
  {D P a d depth nh p : ℕ} {c : Cursor} {ip : UInt32}

/-! ## Nodes that are needed -/

/-- **Every node is a route or holds two subtrees together.** -/
def Full : RteRibNode → Prop
  | .null => True
  | .node _ _ valid _ left right =>
    (valid = true ∨ (left.isNull = false ∧ right.isNull = false)) ∧ Full left ∧ Full right

/-- The same of the nodes above a cursor that points to a node. -/
def FullAbove : List Frame → Prop
  | [] => True
  | f :: parents =>
    (f.valid = true ∨ f.sibling.isNull = false) ∧ Full f.sibling ∧ FullAbove parents

theorem isNull_fill (f : Frame) (t : RteRibNode) : (f.fill t).isNull = false := by
  unfold Frame.fill
  split <;> rfl

theorem full_fill {f : Frame} (hf : f.valid = true ∨ f.sibling.isNull = false)
    (hsib : Full f.sibling) (ht : Full t) (hnull : t.isNull = false) : Full (f.fill t) := by
  unfold Frame.fill
  split
  · exact ⟨hf.imp_right (fun h => ⟨h, hnull⟩), hsib, ht⟩
  · exact ⟨hf.imp_right (fun h => ⟨hnull, h⟩), ht, hsib⟩

theorem full_plug (h : FullAbove parents) (ht : Full t) (hnull : t.isNull = false) :
    Full (plug t parents) := by
  induction parents generalizing t with
  | nil => exact ht
  | cons f parents ih =>
    obtain ⟨hf, hsib, habove⟩ := h
    exact ih habove (full_fill hf hsib ht hnull) (isNull_fill f t)

/-- Both sides of a cursor into a full tree are full. -/
theorem Full.of_plug (h : Full (plug t parents)) :
    Full t ∧ FullAbove parents := by
  induction parents generalizing t with
  | nil => exact ⟨h, trivial⟩
  | cons f parents ih =>
    obtain ⟨hfill, habove⟩ := ih h
    unfold Frame.fill at hfill
    split at hfill
    · obtain ⟨hv, hsib, ht⟩ := hfill
      exact ⟨ht, hv.imp_right And.left, hsib, habove⟩
    · obtain ⟨hv, ht, hsib⟩ := hfill
      exact ⟨ht, hv.imp_right And.right, hsib, habove⟩

/-! ## The RIB and its table -/

/-- **The RIB holds the routes of a table**, and counts its nodes and routes. -/
structure RibShows (rib : RteRib) (M : Table ℕ) : Prop where
  ordered : Ordered 0 0 rib.tree
  full : Full rib.tree
  holds : Holds rib.tree M
  curNodes_eq : rib.curNodes = nodes rib.tree
  curRoutes_eq : rib.curRoutes = routes rib.tree

theorem rteRibCreate_shows (maxNodes : ℕ) : RibShows (rteRibCreate maxNodes) Table.empty :=
  ⟨trivial, trivial, fun _ _ _ => ⟨fun h => h.elim, fun h => nomatch h⟩, rfl, rfl⟩

/-- `rte_rib_lookup_exact` finds the route of a prefix. -/
theorem rteRibLookupExact_spec (h : RibShows rib M) (ip : UInt32) (hd : depth ≤ 32) :
    (∀ c, rteRibLookupExact rib ip depth = some c → ∃ nh,
        c.At rib.tree depth (trunc 32 depth ip.toNat) nh
          ∧ M depth (trunc 32 depth ip.toNat) = some nh)
      ∧ (rteRibLookupExact rib ip depth = none → M depth (trunc 32 depth ip.toNat) = none) := by
  have hmask := toNat_and_rteRibDepthToMask ip hd
  have hip : trunc 32 depth (ip &&& rteRibDepthToMask depth).toNat
      = (ip &&& rteRibDepthToMask depth).toNat := by
    rw [hmask, trunc_idem]
  obtain ⟨hsome, hnone⟩ := lookupExactFrom_spec hip (cursor_root h.ordered)
  rw [hmask] at hsome hnone
  unfold rteRibLookupExact
  rw [if_neg (by omega)]
  refine ⟨fun c hc => ?_, fun hc => ?_⟩
  · obtain ⟨nh, hat, hr⟩ := hsome c hc
    exact ⟨nh, hat, (h.holds _ _ _).mp hr⟩
  · cases hM : M depth (trunc 32 depth ip.toNat) with
    | none => rfl
    | some v => exact absurd ((h.holds _ _ _).mpr hM) (hnone hc v)

/-- The routes above a cursor are the shorter ones. -/
theorem routeAbove_iff (h : c.At tree depth p nh) (e v : ℕ) :
    RouteAbove c.parents e (trunc 32 e p) v
      ↔ Route tree e (trunc 32 e p) v ∧ e < depth := by
  obtain ⟨hin, ip, left, right, hnode, rfl⟩ := h
  have hbelow := hin.below
  rw [← hin.plugged, route_plug, hnode]
  rw [hnode] at hbelow
  obtain ⟨hle, -, hP, -⟩ := id hbelow
  constructor
  · intro hr
    exact ⟨Or.inr hr, lt_of_lt_of_le (hr.lt_holeDepth hin.above hP) hle⟩
  · rintro ⟨hr | hr, hlt⟩
    · rcases hbelow.route_cases hr with ⟨-, rfl, -⟩ | ⟨b, -, hlt', -⟩
      · exact absurd hlt (lt_irrefl _)
      · omega
    · exact hr

/-- The best route is the longest match, and the cursor points to it. -/
theorem IsBest.at {R : ℕ → ℕ → ℕ → Prop} (h : IsBest R tree a (some c)) :
    ∃ d nh, c.At tree d (trunc 32 d a) nh ∧ R d (trunc 32 d a) nh
      ∧ ∀ e v, R e (trunc 32 e a) v → e ≤ d := by
  obtain ⟨hin, ip, d, nh, left, right, hnode, hroute, hcov, hbest⟩ := h
  rw [← hcov] at hroute
  exact ⟨d, nh, ⟨hin, ip, left, right, hnode, hcov.symm⟩, hroute, hbest⟩

/-- **A cursor at what was looked for**: nowhere, or at the route of a depth
that covers an address. -/
def Points (tree : RteRibNode) (a : ℕ) : Option Cursor → Option (ℕ × ℕ) → Prop
  | none, none => True
  | some c, some (d, nh) => c.At tree d (trunc 32 d a) nh
  | _, _ => False

theorem Points.get {o : Option Cursor} {r : Option (ℕ × ℕ)} (h : Points tree a o r) :
    o.map (fun c => (rteRibGetDepth c, rteRibGetNh c)) = r := by
  match o, r, h with
  | none, none, _ => rfl
  | some c, some (d, nh), h =>
    obtain ⟨hdepth, -, hnh⟩ := Cursor.At.get h
    rw [Option.map_some, hdepth, hnh]

/-- The best of the routes below a depth is the longest match below it. -/
theorem IsBest.points (hM : Holds tree M) {n : ℕ} {R : ℕ → ℕ → ℕ → Prop}
    (hR : ∀ e v, R e (trunc 32 e a) v ↔ Route tree e (trunc 32 e a) v ∧ e < n) {o : Option Cursor}
    (h : IsBest R tree a o) : Points tree a o (longest 32 M a n) := by
  cases o with
  | none =>
    have hnone : longest 32 M a n = none := by
      refine longest_eq_none.mpr (fun e he => ?_)
      cases hv : M e (trunc 32 e a) with
      | none => rfl
      | some v => exact absurd ((hR e v).mpr ⟨(hM _ _ _).mpr hv, he⟩) (h e v)
    rw [hnone]
    trivial
  | some c =>
    obtain ⟨d, nh, hat, hroute, hbest⟩ := h.at
    obtain ⟨hroute, hlt⟩ := (hR d nh).mp hroute
    have hlong : longest 32 M a n = some (d, nh) := by
      refine longest_eq_some.mpr ⟨hlt, (hM _ _ _).mp hroute, fun e he he' => ?_⟩
      cases hv : M e (trunc 32 e a) with
      | none => rfl
      | some v =>
        have hle := hbest e v ((hR e v).mpr ⟨(hM _ _ _).mpr hv, he'⟩)
        omega
    rw [hlong]
    exact hat

/-- `rte_rib_lookup` finds the longest match. -/
theorem rteRibLookup_spec (h : RibShows rib M) (ip : UInt32) :
    Points rib.tree ip.toNat (rteRibLookup rib ip) (longest 32 M ip.toNat 33) := by
  have hroot : trunc 32 0 ip.toNat = 0 := by
    unfold trunc
    rw [Nat.div_eq_of_lt ip.toNat_lt, Nat.zero_mul]
  refine IsBest.points h.holds (fun e v => ?_)
    (lookupFrom_spec (cursor_root h.ordered) hroot (fun e v hr => hr))
  exact (and_iff_left_of_imp (fun hr => Nat.lt_succ_of_le (h.ordered.route hr).2.1)).symm

/-- `rte_rib_lookup_parent` finds the longest match of smaller depth. -/
theorem rteRibLookupParent_eq (hM : Holds tree M) (h : c.At tree depth p nh) :
    Points tree p (rteRibLookupParent c.node c.parents) (longest 32 M p depth) := by
  have hiff := routeAbove_iff h
  obtain ⟨hin, ip, left, right, hnode, rfl⟩ := h
  have hbelow := hin.below
  rw [hnode] at hbelow
  exact IsBest.points hM hiff
    (rteRibLookupParent_spec (show Cursor.In ⟨c.node, c.parents⟩ tree from hin) hbelow.2.2.1)

/-! ## Replacing a subtree -/

/-- No route above a cursor has a prefix that belongs below it. -/
theorem not_routeAbove (h : OrderedAbove parents) (hle : holeDepth parents ≤ depth)
    (hP : trunc 32 (holeDepth parents) p = holePrefix parents) (hp : trunc 32 depth p = p) (v : ℕ) :
    ¬ RouteAbove parents depth p v := by
  intro hr
  rw [← hp] at hr
  exact absurd (hr.lt_holeDepth h hP) (by omega)

/-- A subtree with one route more, or with a new next hop for one. -/
theorem holds_insert {t' : RteRibNode} (hM : Holds (plug t parents) M)
    (habove : ∀ v, ¬ RouteAbove parents depth p v)
    (ht : ∀ d q v, Route t' d q v ↔ if d = depth ∧ q = p then v = nh else Route t d q v) :
    Holds (plug t' parents) (M.insert depth p nh) := by
  intro d q v
  rw [route_plug, ht]
  unfold Table.insert
  by_cases hdq : d = depth ∧ q = p
  · rw [if_pos hdq, if_pos hdq]
    obtain ⟨rfl, rfl⟩ := hdq
    constructor
    · rintro (rfl | hr)
      · rfl
      · exact absurd hr (habove v)
    · intro hv
      exact Or.inl (Option.some.inj hv).symm
  · rw [if_neg hdq, if_neg hdq, ← hM, route_plug]

/-- A cursor at a route, given a new next hop. -/
theorem rteRibSetNh_spec (h : RibShows rib M) (hc : c.At rib.tree depth p nh) (nh' : ℕ) :
    RibShows (rib.at (rteRibSetNh c nh')) (M.insert depth p nh')
      ∧ (rteRibSetNh c nh').At (rib.at (rteRibSetNh c nh')).tree depth p nh' := by
  obtain ⟨⟨hplug, habove, hbelow⟩, ip, left, right, hnode, rfl⟩ := hc
  obtain ⟨node, parents⟩ := c
  dsimp only at hplug habove hbelow hnode
  subst hnode
  have hfull := h.full
  have hholds := h.holds
  rw [← hplug] at hfull hholds
  obtain ⟨⟨hv, hfl, hfr⟩, hfabove⟩ := hfull.of_plug
  obtain ⟨hle, hd, hP, hip, hl, hr⟩ := hbelow
  have hcount : ∀ w, count w (plug (.node ip depth true nh' left right) parents)
      = count w rib.tree := by
    intro w
    rw [← hplug, count_plug, count_plug]
    rfl
  refine ⟨⟨ordered_plug habove ⟨hle, hd, hP, hip, hl, hr⟩,
    full_plug hfabove ⟨hv, hfl, hfr⟩ rfl,
    holds_insert hholds (not_routeAbove habove hle hP hip) (fun d q v => ?_),
    h.curNodes_eq.trans (hcount _).symm, h.curRoutes_eq.trans (hcount _).symm⟩,
    ⟨rfl, habove, hle, hd, hP, hip, hl, hr⟩, ip, left, right, rfl, rfl⟩
  by_cases hdq : d = depth ∧ q = ip.toNat
  · rw [if_pos hdq]
    obtain ⟨rfl, rfl⟩ := hdq
    constructor
    · rintro (⟨-, -, -, rfl⟩ | hroute | hroute)
      · rfl
      · exact absurd (hl.route hroute).1 (by omega)
      · exact absurd (hr.route hroute).1 (by omega)
    · rintro rfl
      exact Or.inl ⟨rfl, rfl, rfl, rfl⟩
  · rw [if_neg hdq]
    have hnot : ∀ u, ¬ (true = true ∧ d = depth ∧ q = ip.toNat ∧ v = u) :=
      fun u hc => hdq ⟨hc.2.1, hc.2.2.1⟩
    exact (or_iff_right (hnot nh')).trans (or_iff_right (hnot nh)).symm

/-! ## Removal -/

/-- A tree below a node is below everything above the node. -/
theorem Ordered.lift {b : Bool} (h : Ordered (d + 1) (child 32 d p b) t) (hle : D ≤ d)
    (hP : trunc 32 D p = P) (hp : trunc 32 d p = p) : Ordered D P t := by
  cases t with
  | null => trivial
  | node ip e valid nh left right =>
    obtain ⟨hlt, he, hside, hip, hl, hr⟩ := h
    have hd : d < 32 := by omega
    refine ⟨by omega, he, ?_, hip, hl, hr⟩
    rw [← trunc_trunc hle (le_of_lt hd), ← trunc_trunc (Nat.le_succ d) (show d + 1 ≤ 32 by omega),
      hside, trunc_child hd hp, hP]

/-- What is below a node is full, and the node itself is there. -/
def FullBelow : RteRibNode → Prop
  | .null => False
  | .node _ _ _ _ left right => Full left ∧ Full right

theorem fullBelow_fill {f : Frame} (hsib : Full f.sibling) (ht : Full t) :
    FullBelow (f.fill t) := by
  unfold Frame.fill
  split
  · exact ⟨hsib, ht⟩
  · exact ⟨ht, hsib⟩

/-- What a node that is not needed holds can stand in its place. -/
theorem unlinked_child (h : Ordered D P (.node ip d false nh left right)) (hfl : Full left)
    (hfr : Full right) (hone : ¬ (left.isNull = false ∧ right.isNull = false)) :
    Ordered D P (if left.isNull then right else left)
      ∧ Full (if left.isNull then right else left)
      ∧ (∀ e p v, Route (if left.isNull then right else left) e p v
        ↔ Route (.node ip d false nh left right) e p v)
      ∧ ∀ w, count w (.node ip d false nh left right)
        = w false + count w (if left.isNull then right else left) := by
  obtain ⟨hle, hd, hP, hip, hl, hr⟩ := h
  cases left with
  | null =>
    refine ⟨hr.lift hle hP hip, hfr, fun e p v => ?_, fun w => ?_⟩
    · show Route right e p v ↔ (false = true ∧ _) ∨ False ∨ Route right e p v
      simp
    · rfl
  | node =>
    have hright : right = .null := by
      cases right with
      | null => rfl
      | node => exact absurd ⟨rfl, rfl⟩ hone
    subst hright
    refine ⟨hl.lift hle hP hip, hfl, fun e p v => ?_, fun w => rfl⟩
    constructor
    · exact fun hroute => Or.inr (Or.inl hroute)
    · rintro (⟨hc, -⟩ | hroute | hroute)
      · cases hc
      · exact hroute
      · exact hroute.elim

/-- **What unlinking leads to**: a tree in order and full, with the routes of
the one before, and its nodes counted. -/
structure Unlinked (rib : RteRib) (tree : RteRibNode) (rib' : RteRib) : Prop where
  ordered : Ordered 0 0 rib'.tree
  full : Full rib'.tree
  route_iff : ∀ e p v, Route rib'.tree e p v ↔ Route tree e p v
  routes_eq : routes rib'.tree = routes tree
  curRoutes_eq : rib'.curRoutes = rib.curRoutes
  maxNodes_eq : rib'.maxNodes = rib.maxNodes
  curNodes_eq : rib.curNodes = nodes tree → rib'.curNodes = nodes rib'.tree

theorem unlinked_at (habove : OrderedAbove parents)
    (h : Ordered (holeDepth parents) (holePrefix parents) t) (hfabove : FullAbove parents)
    (hfull : Full t) (hnull : t.isNull = false) :
    Unlinked rib (plug t parents) (rib.at ⟨t, parents⟩) :=
  ⟨ordered_plug habove h, full_plug hfabove hfull hnull, fun _ _ _ => Iff.rfl, rfl, rfl, rfl, id⟩

/-- Unlinking what is not needed, from a node up, keeps the routes. -/
theorem unlink_spec (habove : OrderedAbove parents)
    (h : Ordered (holeDepth parents) (holePrefix parents) t) (hfabove : FullAbove parents)
    (hfull : FullBelow t) (rib : RteRib) :
    Unlinked rib (plug t parents) (unlink rib parents t) := by
  induction parents generalizing t rib with
  | nil =>
    cases t with
    | null => exact hfull.elim
    | node ip d valid nh left right =>
      obtain ⟨hfl, hfr⟩ := hfull
      unfold unlink
      by_cases hkeep : valid = true ∨ (¬ left.isNull = true ∧ ¬ right.isNull = true)
      · rw [if_pos hkeep]
        simp only [Bool.not_eq_true] at hkeep
        exact unlinked_at habove h hfabove ⟨hkeep, hfl, hfr⟩ rfl
      · rw [if_neg hkeep]
        simp only [Bool.not_eq_true, not_or] at hkeep
        obtain ⟨rfl, hone⟩ := hkeep
        obtain ⟨hord, hchild, hroutes, hcount⟩ := unlinked_child h hfl hfr hone
        refine ⟨hord, hchild, hroutes, ?_, rfl, rfl, fun hnodes => ?_⟩
        · exact ((hcount Bool.toNat).trans (Nat.zero_add _)).symm
        · have hone' := hcount (fun _ => 1)
          show rib.curNodes - 1 = count (fun _ => 1) (if left.isNull then right else left)
          rw [hnodes, plug, nodes, hone', Nat.add_sub_cancel_left]
  | cons f parents ih =>
    obtain ⟨hf, hsib, hfabove'⟩ := id hfabove
    cases t with
    | null => exact hfull.elim
    | node ip d valid nh left right =>
      obtain ⟨hfl, hfr⟩ := hfull
      unfold unlink
      by_cases hkeep : valid = true ∨ (¬ left.isNull = true ∧ ¬ right.isNull = true)
      · rw [if_pos hkeep]
        simp only [Bool.not_eq_true] at hkeep
        exact unlinked_at habove h hfabove ⟨hkeep, hfl, hfr⟩ rfl
      · rw [if_neg hkeep]
        simp only [Bool.not_eq_true, not_or] at hkeep
        obtain ⟨rfl, hone⟩ := hkeep
        obtain ⟨hord, hchild, hroutes, hcount⟩ := unlinked_child h hfl hfr hone
        -- the node above is the next to be looked at
        have hup := ih habove.2.2.2.2.2 (ordered_fill habove hord) hfabove'
          (fullBelow_fill hsib hchild) rib.nodeFree
        have hplug : ∀ w, count w (plug (.node ip d false nh left right) (f :: parents))
            = w false + count w (plug (f.fill (if left.isNull then right else left)) parents) := by
          intro w
          rw [plug, count_plug, count_plug, count_fill, count_fill, hcount]
          omega
        refine ⟨hup.ordered, hup.full, fun e p v => (hup.route_iff e p v).trans ?_, ?_,
          hup.curRoutes_eq, hup.maxNodes_eq, fun hnodes => hup.curNodes_eq ?_⟩
        · rw [plug, route_plug, route_plug, route_fill, route_fill, hroutes]
        · exact hup.routes_eq.trans ((hplug Bool.toNat).trans (Nat.zero_add _)).symm
        · show rib.curNodes - 1 = count _ _
          rw [hnodes, nodes, hplug, Nat.add_sub_cancel_left]

theorem holds_erase {t' : RteRibNode} (hM : Holds (plug t parents) M)
    (habove : ∀ v, ¬ RouteAbove parents depth p v)
    (ht : ∀ d q v, Route t' d q v ↔ ¬ (d = depth ∧ q = p) ∧ Route t d q v) :
    Holds (plug t' parents) (M.erase depth p) := by
  intro d q v
  rw [route_plug, ht]
  unfold Table.erase
  by_cases hdq : d = depth ∧ q = p
  · rw [if_pos hdq]
    obtain ⟨rfl, rfl⟩ := hdq
    refine iff_of_false ?_ (fun hv => nomatch hv)
    rintro (⟨hne, -⟩ | hr)
    · exact hne ⟨rfl, rfl⟩
    · exact habove v hr
  · rw [if_neg hdq, ← hM, route_plug]
    exact or_congr_left (and_iff_right hdq)

/-- `rte_rib_remove` takes the route of a prefix out, if there is one. -/
theorem rteRibRemove_spec (h : RibShows rib M) (ip : UInt32) (hd : depth ≤ 32) :
    RibShows (rteRibRemove rib ip depth) (M.erase depth (trunc 32 depth ip.toNat)) := by
  obtain ⟨hsome, hnone⟩ := rteRibLookupExact_spec h ip hd
  unfold rteRibRemove
  cases hc : rteRibLookupExact rib ip depth with
  | none =>
    rw [Table.erase_eq_self (hnone hc)]
    exact h
  | some c =>
    obtain ⟨nh, ⟨⟨hplug, habove, hbelow⟩, curIp, left, right, hnode, hp⟩, -⟩ := hsome c hc
    obtain ⟨node, parents⟩ := c
    dsimp only at hplug habove hbelow hnode
    subst hnode
    have hfull := h.full
    have hholds := h.holds
    rw [← hplug] at hfull hholds
    obtain ⟨⟨-, hfl, hfr⟩, hfabove⟩ := hfull.of_plug
    obtain ⟨hle, hd', hP, hip, hl, hr⟩ := hbelow
    have hun := unlink_spec habove
      (show Ordered _ _ (.node curIp depth false nh left right) from ⟨hle, hd', hP, hip, hl, hr⟩)
      hfabove ⟨hfl, hfr⟩ { rib with curRoutes := rib.curRoutes - 1 }
    have hcount : ∀ w, count w (plug (.node curIp depth false nh left right) parents) + w true
        = count w rib.tree + w false := by
      intro w
      rw [← hplug, count_plug, count_plug]
      show w false + _ + _ + _ + _ = w true + _ + _ + _ + _
      omega
    refine ⟨hun.ordered, hun.full, fun d q v => (hun.route_iff d q v).trans ?_,
      hun.curNodes_eq (h.curNodes_eq.trans ?_), hun.curRoutes_eq.trans ?_⟩
    rotate_left
    · exact (Nat.add_right_cancel (hcount (fun _ => 1))).symm
    · show rib.curRoutes - 1 = _
      rw [hun.routes_eq, h.curRoutes_eq, routes]
      exact Nat.sub_eq_of_eq_add (hcount Bool.toNat).symm
    rw [← hp]
    refine holds_erase hholds (not_routeAbove habove hle hP hip) (fun d q v => ?_) d q v
    constructor
    · rintro (⟨hc, -⟩ | hroute | hroute)
      · cases hc
      · refine ⟨fun hdq => ?_, Or.inr (Or.inl hroute)⟩
        exact absurd (hl.route hroute).1 (by omega)
      · refine ⟨fun hdq => ?_, Or.inr (Or.inr hroute)⟩
        exact absurd (hr.route hroute).1 (by omega)
    · rintro ⟨hne, ⟨-, hdd, hqq, -⟩ | hroute⟩
      · exact absurd ⟨hdd, hqq⟩ hne
      · exact Or.inr hroute

/-! ## Insertion -/

/-- A tree, put below a longer prefix than it needs. -/
theorem Ordered.sink {e q : ℕ} {valid : Bool} (h : Ordered D P (.node ip d valid nh left right))
    (he : e ≤ d) (hq : trunc 32 e ip.toNat = q) : Ordered e q (.node ip d valid nh left right) := by
  obtain ⟨-, hd, -, hip, hl, hr⟩ := h
  exact ⟨he, hd, hq, hip, hl, hr⟩

/-- **What an insertion leads to**: the new node is a route of the tree, which
has the routes it had and the new one. The RIB had a node more than its tree
before. -/
structure Inserted (rib : RteRib) (tree : RteRibNode) (depth p : ℕ)
    (r : Except Int Cursor × RteRib) (c : Cursor) : Prop where
  result : r.1 = .ok c
  plugged : r.2.tree = plug c.node c.parents
  above : OrderedAbove c.parents
  below : Ordered (holeDepth c.parents) (holePrefix c.parents) c.node
  isNode : ∃ ip nh left right, c.node = .node ip depth true nh left right ∧ ip.toNat = p
  full : Full tree → Full (plug c.node c.parents)
  route_iff : ∃ nh, ∀ d q v, Route (plug c.node c.parents) d q v
    ↔ (d = depth ∧ q = p ∧ v = nh) ∨ Route tree d q v
  routes_eq : routes r.2.tree = routes tree + 1
  curRoutes_eq : r.2.curRoutes = rib.curRoutes + 1
  curNodes_eq : rib.curNodes = nodes tree + 1 → r.2.curNodes = nodes r.2.tree

theorem inserted_parent (habove : OrderedAbove parents)
    (hbelow : Ordered (holeDepth parents) (holePrefix parents) (.node ip depth true 0 left right))
    (hsides : (left = .null ∧ right = t) ∨ (left = t ∧ right = .null)) :
    Inserted rib (plug t parents) depth ip.toNat
      (rib.addRoute ⟨.node ip depth true 0 left right, parents⟩)
      ⟨.node ip depth true 0 left right, parents⟩ := by
  have hcount : ∀ w, count w (plug (.node ip depth true 0 left right) parents)
      = count w (plug t parents) + w true := by
    intro w
    rw [count_plug, count_plug]
    rcases hsides with ⟨rfl, rfl⟩ | ⟨rfl, rfl⟩
    · show w true + 0 + _ + _ = _
      omega
    · show w true + _ + 0 + _ = _
      omega
  refine ⟨rfl, rfl, habove, hbelow, ⟨ip, 0, left, right, rfl, rfl⟩, fun hfull => ?_,
    ⟨0, fun d q v => ?_⟩, hcount _, rfl, fun hnodes => hnodes.trans (hcount _).symm⟩
  · obtain ⟨ht, hfabove⟩ := hfull.of_plug
    refine full_plug hfabove ⟨Or.inl rfl, ?_⟩ rfl
    rcases hsides with ⟨rfl, rfl⟩ | ⟨rfl, rfl⟩
    · exact ⟨trivial, ht⟩
    · exact ⟨ht, trivial⟩
  · rw [route_plug, route_plug, Route]
    have hboth : Route left d q v ∨ Route right d q v ↔ Route t d q v := by
      rcases hsides with ⟨rfl, rfl⟩ | ⟨rfl, rfl⟩
      · exact or_iff_right id
      · exact or_iff_left id
    tauto

/-- A new node beside a subtree, with a common parent. -/
theorem inserted_beside {rib' : RteRib} {commonIp : UInt32} {b : Bool} (hnull : t.isNull = false)
    (halloc : rib.nodeAlloc = some rib')
    (habove : OrderedAbove (⟨b, commonIp, d, false, 0, t⟩ :: parents))
    (hbelow : Ordered (d + 1) (child 32 d commonIp.toNat b) (.node ip depth true 0 .null .null)) :
    Inserted rib (plug t parents) depth ip.toNat
      (rib'.addRoute ⟨.node ip depth true 0 .null .null, ⟨b, commonIp, d, false, 0, t⟩ :: parents⟩)
      ⟨.node ip depth true 0 .null .null, ⟨b, commonIp, d, false, 0, t⟩ :: parents⟩ := by
  have hcount : ∀ w, count w (plug (.node ip depth true 0 .null .null)
      (⟨b, commonIp, d, false, 0, t⟩ :: parents)) = count w (plug t parents) + w true + w false := by
    intro w
    rw [plug, count_plug, count_plug, count_fill]
    show w false + count w t + (w true + 0 + 0) + _ = _
    omega
  have hrib : rib'.curNodes = rib.curNodes + 1 ∧ rib'.curRoutes = rib.curRoutes := by
    unfold RteRib.nodeAlloc at halloc
    split at halloc
    · obtain rfl := Option.some.inj halloc
      exact ⟨rfl, rfl⟩
    · cases halloc
  refine ⟨rfl, rfl, habove, hbelow, ⟨ip, 0, .null, .null, rfl, rfl⟩, fun hfull => ?_,
    ⟨0, fun e q v => ?_⟩, hcount _, ?_, fun hnodes => ?_⟩
  · obtain ⟨ht, hfabove⟩ := hfull.of_plug
    have hfabove' : FullAbove (⟨b, commonIp, d, false, 0, t⟩ :: parents) :=
      ⟨Or.inr hnull, ht, hfabove⟩
    exact full_plug hfabove' ⟨Or.inl rfl, trivial, trivial⟩ rfl
  · rw [plug, route_plug, route_plug, route_fill, Route]
    simp only [Bool.false_eq_true, false_and, false_or, Route, or_false, true_and]
    tauto
  · show rib'.curRoutes + 1 = _
    rw [hrib.2]
  · show rib'.curNodes = _
    rw [hrib.1, hnodes]
    exact (hcount _).symm

theorem inserted_valid (habove : OrderedAbove parents)
    (h : Ordered (holeDepth parents) (holePrefix parents) (.node ip depth false nh left right)) :
    Inserted rib (plug (.node ip depth false nh left right) parents) depth ip.toNat
      (rib.nodeFree.addRoute ⟨.node ip depth true nh left right, parents⟩)
      ⟨.node ip depth true nh left right, parents⟩ := by
  have hcount : ∀ w, count w (plug (.node ip depth true nh left right) parents) + w false
      = count w (plug (.node ip depth false nh left right) parents) + w true := by
    intro w
    rw [count_plug, count_plug]
    show w true + _ + _ + _ + _ = w false + _ + _ + _ + _
    omega
  refine ⟨rfl, rfl, habove, h, ⟨ip, nh, left, right, rfl, rfl⟩, fun hfull => ?_,
    ⟨nh, fun d q v => ?_⟩, hcount Bool.toNat, rfl, fun hnodes => ?_⟩
  · obtain ⟨⟨-, hfl, hfr⟩, hfabove⟩ := hfull.of_plug
    exact full_plug hfabove ⟨Or.inl rfl, hfl, hfr⟩ rfl
  · rw [route_plug, route_plug, Route, Route]
    simp only [Bool.false_eq_true, false_and, false_or, true_and]
    tauto
  · show rib.curNodes - 1 = _
    rw [hnodes, Nat.add_sub_cancel]
    exact (Nat.add_right_cancel (hcount (fun _ => 1))).symm

/-- The first bits two nodes share, where neither covers the other. -/
theorem common_spec {tmpIp : UInt32} {tmpDepth : ℕ} (hd : depth ≤ 32) (htd : tmpDepth ≤ 32)
    (hip : trunc 32 depth ip.toNat = ip.toNat)
    (hstop : tmpDepth ≥ depth ∨ ¬ isCovered ip tmpIp tmpDepth = true)
    (hdef : (if ip ^^^ tmpIp = 0 then 32 else rteClz32 (ip ^^^ tmpIp)) = d)
    (hnot : ¬ (ip &&& rteRibDepthToMask (min d (min depth tmpDepth)) = ip
      ∧ min d (min depth tmpDepth) = depth)) :
    d < depth ∧ d < tmpDepth ∧ trunc 32 d ip.toNat = trunc 32 d tmpIp.toNat
      ∧ nextBit ip d ≠ nextBit tmpIp d := by
  -- the new prefix is not as short as all that
  have hne : min d (min depth tmpDepth) ≠ depth := by
    intro heq
    refine hnot ⟨?_, heq⟩
    rw [heq, ← UInt32.toNat_inj, toNat_and_rteRibDepthToMask ip hd]
    exact hip
  -- and the closest node does not cover it
  have hcover : ∀ e, trunc 32 e ip.toNat = trunc 32 e tmpIp.toNat → e ≤ 32 →
      ¬ (tmpDepth ≤ e ∧ tmpDepth < depth) := by
    rintro e he hle ⟨hte, hlt⟩
    rcases hstop with hge | hcov
    · omega
    · exact hcov ((isCovered_iff htd).mpr (trunc_eq_of_le hte hle he))
  by_cases hxor : ip ^^^ tmpIp = 0
  · rw [if_pos hxor] at hdef
    have heq : ip.toNat = tmpIp.toNat := by
      refine xor_eq_zero_iff.mp ?_
      rw [← UInt32.toNat_xor, hxor]
      rfl
    have hc := hcover 32 (by rw [heq]) (le_refl _)
    omega
  · rw [if_neg hxor] at hdef
    have hneq : ip ≠ tmpIp := by
      rintro rfl
      exact hxor (UInt32.toNat_inj.mp (by rw [UInt32.toNat_xor, Nat.xor_self]; rfl))
    obtain ⟨hlt, hsame, hbit⟩ := rteClz32_spec hneq
    rw [hdef] at hlt hsame hbit
    have hc := hcover d hsame (by omega)
    exact ⟨by omega, by omega, hsame, hbit⟩

/-- **The end of `rte_rib_insert`**: the node takes its place above the
closest node, or beside it. -/
theorem insertAbove_spec {tmpIp : UInt32} {tmpDepth : ℕ} {valid : Bool}
    (habove : OrderedAbove parents) (h : Ordered (holeDepth parents) (holePrefix parents)
      (.node tmpIp tmpDepth valid nh left right)) (hip : trunc 32 depth ip.toNat = ip.toNat)
    (hd : depth ≤ 32) (hle : holeDepth parents ≤ depth)
    (hP : trunc 32 (holeDepth parents) ip.toNat = holePrefix parents)
    (hne : ¬ (ip = tmpIp ∧ depth = tmpDepth))
    (hstop : tmpDepth ≥ depth ∨ ¬ isCovered ip tmpIp tmpDepth = true) (rib : RteRib)
    {r : Except Int Cursor × RteRib}
    (hr : insertAbove ip depth rib (.node tmpIp tmpDepth valid nh left right) tmpIp tmpDepth
      parents = r) :
    r = (.error enomem, rib.nodeFree)
      ∨ ∃ c, Inserted rib (plug (.node tmpIp tmpDepth valid nh left right) parents) depth
        ip.toNat r c := by
  obtain ⟨htle, htd, htP, htip, -, -⟩ := id h
  unfold insertAbove at hr
  dsimp only at hr
  generalize hdef : (if ip ^^^ tmpIp = 0 then 32 else rteClz32 (ip ^^^ tmpIp)) = d at hr
  by_cases hparent : ip &&& rteRibDepthToMask (min d (min depth tmpDepth)) = ip
      ∧ min d (min depth tmpDepth) = depth
  · -- the new node covers the closest one
    rw [if_pos hparent] at hr
    have hmin := hparent.2
    have hsame : trunc 32 depth tmpIp.toNat = ip.toNat := by
      rw [← hip]
      by_cases hxor : ip ^^^ tmpIp = 0
      · have heq : ip.toNat = tmpIp.toNat := by
          refine xor_eq_zero_iff.mp ?_
          rw [← UInt32.toNat_xor, hxor]
          rfl
        rw [heq]
      · rw [if_neg hxor] at hdef
        have hneq : ip ≠ tmpIp := by
          rintro rfl
          exact hxor (UInt32.toNat_inj.mp (by rw [UInt32.toNat_xor, Nat.xor_self]; rfl))
        obtain ⟨hlt, hclz, -⟩ := rteClz32_spec hneq
        rw [hdef] at hlt hclz
        exact (trunc_eq_of_le (by omega) (by omega) hclz).symm
    have hdeeper : depth < tmpDepth := by
      by_contra hge
      have heq : depth = tmpDepth := by omega
      refine hne ⟨UInt32.toNat_inj.mp ?_, heq⟩
      rw [← hsame, heq, htip]
    have hside := trunc_succ_nextBit tmpIp (show depth < 32 by omega)
    rw [hsame] at hside
    have hsunk := h.sink (show depth + 1 ≤ tmpDepth from hdeeper) hside
    by_cases hbit : nextBit tmpIp depth = true
    · rw [if_pos hbit] at hr
      rw [hbit] at hsunk
      subst hr
      exact Or.inr ⟨_, inserted_parent habove ⟨hle, hd, hP, hip, trivial, hsunk⟩
        (Or.inl ⟨rfl, rfl⟩)⟩
    · rw [if_neg hbit] at hr
      rw [(Bool.not_eq_true _).mp hbit] at hsunk
      subst hr
      exact Or.inr ⟨_, inserted_parent habove ⟨hle, hd, hP, hip, hsunk, trivial⟩
        (Or.inr ⟨rfl, rfl⟩)⟩
  · -- the two get a common parent
    rw [if_neg hparent] at hr
    obtain ⟨hlt, hlt', hsame, hbit⟩ := common_spec hd htd hip hstop hdef hparent
    have hmin : min d (min depth tmpDepth) = d := by omega
    rw [hmin] at hr
    cases halloc : rib.nodeAlloc with
    | none =>
      rw [halloc] at hr
      exact Or.inl hr.symm
    | some rib' =>
      rw [halloc] at hr
      subst hr
      have hcommon : (ip &&& rteRibDepthToMask d).toNat = trunc 32 d ip.toNat :=
        toNat_and_rteRibDepthToMask ip (by omega)
      -- the two share the bits of their place
      have hhole : holeDepth parents ≤ d := by
        by_contra hgt
        have heq : trunc 32 (d + 1) ip.toNat = trunc 32 (d + 1) tmpIp.toNat :=
          trunc_eq_of_le (show d + 1 ≤ holeDepth parents by omega) (by omega)
            (hP.trans htP.symm)
        rw [trunc_succ_nextBit ip (by omega), trunc_succ_nextBit tmpIp (by omega), hsame] at heq
        exact hbit (child_inj heq)
      have hside := trunc_succ_nextBit ip (show d < 32 by omega)
      have hside' := trunc_succ_nextBit tmpIp (show d < 32 by omega)
      rw [← hcommon] at hside
      rw [← hsame, ← hcommon] at hside'
      have hother : nextBit tmpIp d = !nextBit ip d := by
        cases hb : nextBit ip d <;> cases hb' : nextBit tmpIp d <;> simp_all
      rw [hother] at hside'
      refine Or.inr ⟨_, inserted_beside rfl halloc ⟨hhole, show d < 32 by omega, ?_, ?_,
        h.sink (show d + 1 ≤ tmpDepth from hlt') hside', habove⟩
        ⟨hlt, hd, hside, hip, trivial, trivial⟩⟩
      · show trunc 32 _ (ip &&& rteRibDepthToMask d).toNat = _
        rw [hcommon, trunc_trunc hhole (by omega), hP]
      · show trunc 32 _ (ip &&& rteRibDepthToMask d).toNat = _
        rw [hcommon, trunc_idem]

/-- The loop of `rte_rib_insert`, where the prefix is not a route yet. -/
theorem insertFrom_spec (hip : trunc 32 depth ip.toNat = ip.toNat) (hd : depth ≤ 32) (rib : RteRib)
    (habove : OrderedAbove parents) (h : Ordered (holeDepth parents) (holePrefix parents) t)
    (hle : holeDepth parents ≤ depth)
    (hP : trunc 32 (holeDepth parents) ip.toNat = holePrefix parents)
    (hnew : ∀ v, ¬ Route t depth ip.toNat v) :
    insertFrom ip depth rib t parents = (.error enomem, rib.nodeFree)
      ∨ ∃ c, Inserted rib (plug t parents) depth ip.toNat (insertFrom ip depth rib t parents)
        c := by
  induction t generalizing parents with
  | null =>
    exact Or.inr ⟨_, inserted_parent habove ⟨hle, hd, hP, hip, trivial, trivial⟩
      (Or.inl ⟨rfl, rfl⟩)⟩
  | node tmpIp tmpDepth valid nh left right ihl ihr =>
    obtain ⟨htle, htd, htP, htip, hl, hrt⟩ := id h
    unfold insertFrom
    by_cases hself : ip = tmpIp ∧ depth = tmpDepth
    · -- the prefix has a node, which is no route yet
      rw [if_pos hself]
      obtain ⟨rfl, rfl⟩ := hself
      have hinvalid : valid = false := by
        cases valid with
        | false => rfl
        | true => exact absurd (Or.inl ⟨rfl, rfl, rfl, rfl⟩) (hnew nh)
      subst hinvalid
      exact Or.inr ⟨_, inserted_valid habove h⟩
    rw [if_neg hself]
    by_cases hstop : tmpDepth ≥ depth ∨ ¬ isCovered ip tmpIp tmpDepth = true
    · rw [if_pos hstop]
      exact insertAbove_spec habove h hip hd hle hP hself hstop rib rfl
    rw [if_neg hstop]
    have hlt : tmpDepth < depth := by
      by_contra hge
      exact hstop (Or.inl (by omega))
    have hcov : trunc 32 tmpDepth ip.toNat = tmpIp.toNat := by
      rw [← htip]
      refine (isCovered_iff htd).mp ?_
      by_contra hc
      exact hstop (Or.inr hc)
    have hside := trunc_succ_nextBit ip (show tmpDepth < 32 by omega)
    rw [hcov] at hside
    by_cases hbit : nextBit ip tmpDepth = true
    · rw [if_pos hbit]
      rw [hbit] at hside
      have habove' : OrderedAbove (⟨true, tmpIp, tmpDepth, valid, nh, left⟩ :: parents) :=
        ⟨htle, show tmpDepth < 32 by omega, htP, htip, hl, habove⟩
      exact ihr habove' hrt hlt hside (fun v hv => hnew v (Or.inr (Or.inr hv)))
    · rw [if_neg hbit]
      rw [(Bool.not_eq_true _).mp hbit] at hside
      have habove' : OrderedAbove (⟨false, tmpIp, tmpDepth, valid, nh, right⟩ :: parents) :=
        ⟨htle, show tmpDepth < 32 by omega, htP, htip, hrt, habove⟩
      exact ihl habove' hl hlt hside (fun v hv => hnew v (Or.inr (Or.inl hv)))

/-- **`rte_rib_insert`** adds a route to a RIB that does not have it; its next
hop is still to be set. Where it fails, it leaves the RIB as it was. -/
theorem rteRibInsert_spec (h : RibShows rib M) (ip : UInt32) (depth : ℕ) :
    (∃ e, rteRibInsert rib ip depth = (.error e, rib))
      ∨ ∃ c nh, (rteRibInsert rib ip depth).1 = .ok c ∧ depth ≤ 32
        ∧ M depth (trunc 32 depth ip.toNat) = none
        ∧ c.At (rteRibInsert rib ip depth).2.tree depth (trunc 32 depth ip.toNat) nh
        ∧ RibShows (rteRibInsert rib ip depth).2
          (M.insert depth (trunc 32 depth ip.toNat) nh) := by
  unfold rteRibInsert
  by_cases hd : depth > 32
  · rw [if_pos hd]
    exact Or.inl ⟨einval, rfl⟩
  rw [if_neg hd]
  have hdepth : depth ≤ 32 := Nat.le_of_not_gt hd
  have hmask := toNat_and_rteRibDepthToMask ip hdepth
  have hip : trunc 32 depth (ip &&& rteRibDepthToMask depth).toNat
      = (ip &&& rteRibDepthToMask depth).toNat := by
    rw [hmask, trunc_idem]
  have hnone := (lookupExactFrom_spec hip (cursor_root h.ordered)).2
  dsimp only
  cases hfind : lookupExactFrom (ip &&& rteRibDepthToMask depth) depth rib.tree [] with
  | some c' =>
    rw [if_pos (show (some c').isSome = true from rfl)]
    exact Or.inl ⟨eexist, rfl⟩
  | none =>
    rw [if_neg (show ¬ (none : Option Cursor).isSome = true from Bool.false_ne_true)]
    by_cases hpool : rib.curNodes < rib.maxNodes
    · rw [RteRib.nodeAlloc, if_pos hpool]
      dsimp only
      have hroot : trunc 32 0 (ip &&& rteRibDepthToMask depth).toNat = 0 := by
        unfold trunc
        rw [Nat.div_eq_of_lt (UInt32.toNat_lt _), Nat.zero_mul]
      rcases insertFrom_spec hip hdepth { rib with curNodes := rib.curNodes + 1 }
          (show OrderedAbove [] from trivial) h.ordered (Nat.zero_le depth) hroot (hnone hfind)
        with hfail | ⟨c, hins⟩
      · exact Or.inl ⟨enomem, hfail⟩
      · refine Or.inr ?_
        generalize insertFrom (ip &&& rteRibDepthToMask depth) depth
          { rib with curNodes := rib.curNodes + 1 } rib.tree [] = r at hins
        obtain ⟨ip', nh', left, right, hnode, hp⟩ := hins.isNode
        obtain ⟨nh, hroutes⟩ := hins.route_iff
        rw [hmask] at hp hroutes
        rw [← hins.plugged] at hroutes
        have hM : M depth (trunc 32 depth ip.toNat) = none := by
          cases hv : M depth (trunc 32 depth ip.toNat) with
          | none => rfl
          | some v =>
            refine absurd ((h.holds _ _ _).mpr hv) ?_
            rw [← hmask]
            exact hnone hfind v
        -- the next hop is the one the node has
        have hnh : nh' = nh := by
          have hown : Route r.2.tree depth (trunc 32 depth ip.toNat) nh' := by
            rw [hins.plugged, route_plug, hnode]
            exact Or.inl (Or.inl ⟨rfl, rfl, hp.symm, rfl⟩)
          rcases (hroutes _ _ _).mp hown with ⟨-, -, heq⟩ | hold
          · exact heq
          · have hsome : M depth (trunc 32 depth ip.toNat) = some nh' := (h.holds _ _ _).mp hold
            rw [hM] at hsome
            cases hsome
        subst hnh
        refine ⟨c, nh', hins.result, hdepth, hM,
          ⟨⟨hins.plugged.symm, hins.above, hins.below⟩, ip', left, right, hnode, hp⟩,
          ⟨?_, ?_, fun d q v => ?_, ?_, ?_⟩⟩
        · rw [hins.plugged]
          exact ordered_plug hins.above hins.below
        · rw [hins.plugged]
          exact hins.full h.full
        · rw [hroutes]
          show _ ∨ Route rib.tree d q v ↔ _
          rw [h.holds]
          unfold Table.insert
          by_cases hdq : d = depth ∧ q = trunc 32 depth ip.toNat
          · rw [if_pos hdq]
            obtain ⟨rfl, rfl⟩ := hdq
            constructor
            · rintro (⟨-, -, rfl⟩ | hold)
              · rfl
              · rw [hM] at hold
                cases hold
            · intro hv
              exact Or.inl ⟨rfl, rfl, (Option.some.inj hv).symm⟩
          · rw [if_neg hdq]
            exact or_iff_right (fun hc => hdq ⟨hc.1, hc.2.1⟩)
        · refine hins.curNodes_eq ?_
          show rib.curNodes + 1 = nodes rib.tree + 1
          rw [h.curNodes_eq]
        · rw [hins.curRoutes_eq, hins.routes_eq]
          show rib.curRoutes + 1 = routes rib.tree + 1
          rw [h.curRoutes_eq]
    · rw [RteRib.nodeAlloc, if_neg hpool]
      exact Or.inl ⟨enomem, rfl⟩

/-! ## Addresses that are masked already, and errors -/

theorem and_mask_idem (ip : UInt32) (depth : ℕ) :
    ip &&& rteRibDepthToMask depth &&& rteRibDepthToMask depth = ip &&& rteRibDepthToMask depth := by
  rw [UInt32.and_assoc, UInt32.and_self]

@[simp] theorem rteRibLookupExact_mask (rib : RteRib) (ip : UInt32) (depth : ℕ) :
    rteRibLookupExact rib (ip &&& rteRibDepthToMask depth) depth
      = rteRibLookupExact rib ip depth := by
  unfold rteRibLookupExact
  rw [and_mask_idem]

@[simp] theorem rteRibInsert_mask (rib : RteRib) (ip : UInt32) (depth : ℕ) :
    rteRibInsert rib (ip &&& rteRibDepthToMask depth) depth = rteRibInsert rib ip depth := by
  unfold rteRibInsert
  dsimp only
  rw [and_mask_idem]

@[simp] theorem rteRibRemove_mask (rib : RteRib) (ip : UInt32) (depth : ℕ) :
    rteRibRemove rib (ip &&& rteRibDepthToMask depth) depth = rteRibRemove rib ip depth := by
  unfold rteRibRemove
  rw [rteRibLookupExact_mask]

/-- An insertion below a node fails where there is no memory. -/
theorem insertFrom_error {e : Int} (h : (insertFrom ip depth rib t parents).1 = .error e) :
    e = enomem := by
  induction t generalizing parents with
  | null => cases h
  | node tmpIp tmpDepth valid nh left right ihl ihr =>
    unfold insertFrom at h
    split at h
    · cases h
    · split at h
      · unfold insertAbove at h
        dsimp only at h
        generalize min (if ip ^^^ tmpIp = 0 then 32 else rteClz32 (ip ^^^ tmpIp))
          (min depth tmpDepth) = common at h
        split at h
        · split at h
          · cases h
          · cases h
        · split at h
          · cases h
            rfl
          · cases h
      · split at h
        · exact ihr h
        · exact ihl h

theorem rteRibInsert_error {e : Int} (h : (rteRibInsert rib ip depth).1 = .error e) :
    e = einval ∨ e = eexist ∨ e = enomem := by
  unfold rteRibInsert at h
  split at h
  · cases h
    exact Or.inl rfl
  · dsimp only at h
    split at h
    · cases h
      exact Or.inr (Or.inl rfl)
    · split at h
      · cases h
        exact Or.inr (Or.inr rfl)
      · exact Or.inr (Or.inr (insertFrom_error h))

/-- Setting the next hop a route has changes nothing. -/
theorem rteRibSetNh_self (hc : c.At rib.tree d p nh) :
    rib.at (rteRibSetNh c nh) = rib := by
  obtain ⟨hin, ip, left, right, hnode, -⟩ := hc
  have hself : rteRibSetNh c nh = c := by
    obtain ⟨node, parents⟩ := c
    dsimp only at hnode
    subst hnode
    rfl
  rw [hself, RteRib.at, hin.plugged]

end Rib
