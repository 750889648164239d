import DpdkStudy.Lib.Prefix
import DpdkStudy.Rib.Rib

/-!
# The tree of routes

A tree is in order if every node below a node has a longer prefix, on the
side it hangs from (`Ordered`). The same is said of the nodes above a cursor
(`OrderedAbove`), and the two go together with `plug`.

The routes of a tree are those of its valid nodes (`Route`). In a tree in
order they can be found by their bits: `lookupExactFrom_spec`,
`lookupFrom_spec` and `rteRibLookupParent_spec` say what the three lookups
find, in terms of the routes.
-/

namespace Rib

open Prefix

variable {D P a d depth nh p v : ℕ} {t tree : RteRibNode} {ip : UInt32} {parents : List Frame}
  {f : Frame}

/-! ## Bits -/

theorem toNat_rteRibDepthToMask (hd : d ≤ 32) :
    (rteRibDepthToMask d).toNat = (2 ^ d - 1) * 2 ^ (32 - d) := by
  have hall : ∀ k : Fin 33, (rteRibDepthToMask k.val).toNat
      = (2 ^ k.val - 1) * 2 ^ (32 - k.val) := by
    decide
  exact hall ⟨d, by omega⟩

theorem toNat_and_rteRibDepthToMask (ip : UInt32) (hd : d ≤ 32) :
    (ip &&& rteRibDepthToMask d).toNat = trunc 32 d ip.toNat := by
  rw [UInt32.toNat_and, toNat_rteRibDepthToMask hd]
  exact land_mask hd ip.toNat_lt

theorem isCovered_iff {a b : UInt32} (hd : d ≤ 32) :
    isCovered a b d = true ↔ trunc 32 d a.toNat = trunc 32 d b.toNat := by
  unfold isCovered
  rw [decide_eq_true_iff, ← UInt32.toNat_inj, toNat_and_rteRibDepthToMask _ hd,
    trunc_eq_trunc_iff_xor, UInt32.toNat_xor]
  show trunc 32 d _ = 0 ↔ _
  unfold trunc
  rw [Nat.mul_eq_zero, Nat.div_eq_zero_iff_lt (Nat.two_pow_pos _)]
  exact or_iff_left (Nat.ne_of_gt (Nat.two_pow_pos _))

/-- The next prefix of an address is on the side of its next bit. -/
theorem trunc_succ_nextBit (ip : UInt32) (hd : d < 32) :
    trunc 32 (d + 1) ip.toNat = child 32 d (trunc 32 d ip.toNat) (nextBit ip d) := by
  have hbit : nextBit ip d = ip.toNat.testBit (32 - d - 1) := by
    have hshift : ((1 : UInt32) <<< UInt32.ofNat (31 - d)).toNat = 2 ^ (31 - d) := by
      have hall : ∀ k : Fin 32, ((1 : UInt32) <<< UInt32.ofNat k.val).toNat = 2 ^ k.val := by
        decide
      exact hall ⟨31 - d, by omega⟩
    unfold nextBit
    rw [Bool.eq_iff_iff, decide_eq_true_iff, ne_eq, ← UInt32.toNat_inj, UInt32.toNat_and, hshift,
      Nat.and_two_pow, show 32 - d - 1 = 31 - d by omega]
    cases ip.toNat.testBit (31 - d) with
    | false => simp
    | true => simp
  rw [trunc_succ hd, hbit]

/-- The first bit that differs is behind the bits `rte_clz32` counts. -/
theorem rteClz32_spec {a b : UInt32} (h : a ≠ b) :
    rteClz32 (a ^^^ b) < 32
      ∧ trunc 32 (rteClz32 (a ^^^ b)) a.toNat = trunc 32 (rteClz32 (a ^^^ b)) b.toNat
      ∧ nextBit a (rteClz32 (a ^^^ b)) ≠ nextBit b (rteClz32 (a ^^^ b)) := by
  have hxor : (a ^^^ b).toNat = a.toNat ^^^ b.toNat := UInt32.toNat_xor a b
  have hne : a.toNat ^^^ b.toNat ≠ 0 := fun hz =>
    h (UInt32.toNat_inj.mp (xor_eq_zero_iff.mp hz))
  have hlt : a.toNat ^^^ b.toNat < 2 ^ 32 := by
    rw [← hxor]
    exact UInt32.toNat_lt _
  have hlog : Nat.log2 (a.toNat ^^^ b.toNat) < 32 := (Nat.log2_lt hne).mpr hlt
  have hle := Nat.log2_self_le hne
  have hgt := Nat.lt_log2_self (n := a.toNat ^^^ b.toNat)
  unfold rteClz32
  rw [hxor]
  generalize hk : Nat.log2 (a.toNat ^^^ b.toNat) = k at hlog hle hgt
  have hsame : trunc 32 (31 - k) a.toNat = trunc 32 (31 - k) b.toNat := by
    rw [trunc_eq_trunc_iff_xor, show 32 - (31 - k) = k + 1 by omega]
    exact hgt
  refine ⟨by omega, hsame, fun hbit => ?_⟩
  have hnext : trunc 32 (31 - k + 1) a.toNat = trunc 32 (31 - k + 1) b.toNat := by
    rw [trunc_succ_nextBit a (by omega), trunc_succ_nextBit b (by omega), hsame, hbit]
  rw [trunc_eq_trunc_iff_xor, show 32 - (31 - k + 1) = k by omega] at hnext
  omega

/-! ## Order -/

/-- **The tree is in order**, and all of it is below the prefix `P` of depth
`D`. -/
def Ordered (D P : ℕ) : RteRibNode → Prop
  | .null => True
  | .node ip d _ _ left right =>
    D ≤ d ∧ d ≤ 32 ∧ trunc 32 D ip.toNat = P ∧ trunc 32 d ip.toNat = ip.toNat
      ∧ Ordered (d + 1) (child 32 d ip.toNat false) left
      ∧ Ordered (d + 1) (child 32 d ip.toNat true) right

/-- Below a node of the last depth there is nothing. -/
theorem Ordered.eq_null (h : Ordered D P t) (hD : 32 < D) :
    t = .null := by
  cases t with
  | null => rfl
  | node ip d valid nh left right =>
    obtain ⟨hle, hd, -⟩ := h
    omega

/-- The depth of the place a cursor points to. -/
def holeDepth : List Frame → ℕ
  | [] => 0
  | f :: _ => f.depth + 1

/-- The prefix of the place a cursor points to. -/
def holePrefix : List Frame → ℕ
  | [] => 0
  | f :: _ => child 32 f.depth f.ip.toNat f.right

/-- **The nodes above a cursor are in order.** -/
def OrderedAbove : List Frame → Prop
  | [] => True
  | f :: parents =>
    holeDepth parents ≤ f.depth ∧ f.depth < 32
      ∧ trunc 32 (holeDepth parents) f.ip.toNat = holePrefix parents
      ∧ trunc 32 f.depth f.ip.toNat = f.ip.toNat
      ∧ Ordered (f.depth + 1) (child 32 f.depth f.ip.toNat (!f.right)) f.sibling
      ∧ OrderedAbove parents

/-- **A cursor into a tree in order.** -/
structure Cursor.In (c : Cursor) (tree : RteRibNode) : Prop where
  plugged : plug c.node c.parents = tree
  above : OrderedAbove c.parents
  below : Ordered (holeDepth c.parents) (holePrefix c.parents) c.node

theorem cursor_root (h : Ordered 0 0 tree) : Cursor.In ⟨tree, []⟩ tree :=
  ⟨rfl, trivial, h⟩

theorem Cursor.In.down {valid : Bool} {left right : RteRibNode}
    (h : Cursor.In ⟨.node ip d valid nh left right, parents⟩ tree) (hd : d < 32) (b : Bool) :
    Cursor.In ⟨if b then right else left,
      ⟨b, ip, d, valid, nh, if b then left else right⟩ :: parents⟩ tree := by
  obtain ⟨hplug, habove, hle, -, hP, hip, hleft, hright⟩ := h
  cases b with
  | false => exact ⟨hplug, ⟨hle, hd, hP, hip, hright, habove⟩, hleft⟩
  | true => exact ⟨hplug, ⟨hle, hd, hP, hip, hleft, habove⟩, hright⟩

theorem ordered_fill (habove : OrderedAbove (f :: parents))
    (ht : Ordered (f.depth + 1) (child 32 f.depth f.ip.toNat f.right) t) :
    Ordered (holeDepth parents) (holePrefix parents) (f.fill t) := by
  obtain ⟨hle, hd, hP, hip, hsib, -⟩ := habove
  unfold Frame.fill
  cases hr : f.right with
  | false =>
    rw [hr] at hsib ht
    exact ⟨hle, le_of_lt hd, hP, hip, ht, hsib⟩
  | true =>
    rw [hr] at hsib ht
    exact ⟨hle, le_of_lt hd, hP, hip, hsib, ht⟩

theorem ordered_plug (habove : OrderedAbove parents)
    (ht : Ordered (holeDepth parents) (holePrefix parents) t) : Ordered 0 0 (plug t parents) := by
  induction parents generalizing t with
  | nil => exact ht
  | cons f parents ih => exact ih habove.2.2.2.2.2 (ordered_fill habove ht)

/-- **An address below a frame** is covered by its node, and is below the
frames above it. -/
theorem OrderedAbove.up (h : OrderedAbove (f :: parents))
    (ha : trunc 32 (f.depth + 1) a = child 32 f.depth f.ip.toNat f.right) :
    trunc 32 f.depth a = f.ip.toNat ∧ trunc 32 (holeDepth parents) a = holePrefix parents := by
  obtain ⟨hle, hd, hP, hip, -, -⟩ := h
  have hcov : trunc 32 f.depth a = f.ip.toNat := by
    rw [← trunc_trunc (Nat.le_succ f.depth) (show f.depth + 1 ≤ 32 by omega) a, ha,
      trunc_child hd hip]
  refine ⟨hcov, ?_⟩
  rw [← trunc_trunc hle (le_of_lt hd) a, hcov, hP]

/-! ## Routes -/

/-- **A route of a tree**: the prefix and the next hop of a valid node. -/
def Route : RteRibNode → ℕ → ℕ → ℕ → Prop
  | .null, _, _, _ => False
  | .node ip d valid nh left right, depth, p, v =>
    (valid = true ∧ depth = d ∧ p = ip.toNat ∧ v = nh)
      ∨ Route left depth p v ∨ Route right depth p v

/-- A route of the nodes above a cursor. -/
def RouteAbove : List Frame → ℕ → ℕ → ℕ → Prop
  | [], _, _, _ => False
  | f :: parents, depth, p, v =>
    (f.valid = true ∧ depth = f.depth ∧ p = f.ip.toNat ∧ v = f.nh)
      ∨ Route f.sibling depth p v ∨ RouteAbove parents depth p v

theorem route_fill :
    Route (f.fill t) depth p v
      ↔ (f.valid = true ∧ depth = f.depth ∧ p = f.ip.toNat ∧ v = f.nh)
        ∨ Route f.sibling depth p v ∨ Route t depth p v := by
  unfold Frame.fill
  split
  · exact Iff.rfl
  · exact or_congr Iff.rfl or_comm

/-- The routes of a tree are those below a cursor and those above it. -/
theorem route_plug :
    Route (plug t parents) depth p v ↔ Route t depth p v ∨ RouteAbove parents depth p v := by
  induction parents generalizing t with
  | nil => exact (or_iff_left id).symm
  | cons f parents ih =>
    rw [plug, ih, route_fill, RouteAbove]
    tauto

/-! ## Counting nodes -/

/-- What the nodes of a tree weigh, by whether they are valid. -/
def count (w : Bool → ℕ) : RteRibNode → ℕ
  | .null => 0
  | .node _ _ valid _ left right => w valid + count w left + count w right

/-- What the nodes above a cursor weigh, with their other subtrees. -/
def countAbove (w : Bool → ℕ) : List Frame → ℕ
  | [] => 0
  | f :: parents => w f.valid + count w f.sibling + countAbove w parents

/-- The number of nodes of a tree. -/
def nodes : RteRibNode → ℕ := count (fun _ => 1)

/-- The number of valid nodes of a tree. -/
def routes : RteRibNode → ℕ := count Bool.toNat

theorem count_fill (w : Bool → ℕ) (f : Frame) (t : RteRibNode) :
    count w (f.fill t) = w f.valid + count w f.sibling + count w t := by
  unfold Frame.fill
  split
  · rfl
  · exact Nat.add_right_comm _ _ _

/-- The nodes of a tree are those below a cursor and those above it. -/
theorem count_plug (w : Bool → ℕ) (t : RteRibNode) (parents : List Frame) :
    count w (plug t parents) = count w t + countAbove w parents := by
  induction parents generalizing t with
  | nil => rfl
  | cons f parents ih =>
    rw [plug, ih, count_fill, countAbove]
    omega

/-! ## Where routes are -/

theorem Ordered.route (h : Ordered D P t) (hr : Route t depth p v) :
    D ≤ depth ∧ depth ≤ 32 ∧ trunc 32 D p = P ∧ trunc 32 depth p = p := by
  induction t generalizing D P with
  | null => exact hr.elim
  | node ip d valid nh left right ihl ihr =>
    obtain ⟨hle, hd, hP, hip, hleft, hright⟩ := h
    -- a route below, on either side
    have hbelow : ∀ b, d + 1 ≤ depth ∧ depth ≤ 32 ∧ trunc 32 (d + 1) p = child 32 d ip.toNat b
        ∧ trunc 32 depth p = p →
        D ≤ depth ∧ depth ≤ 32 ∧ trunc 32 D p = P ∧ trunc 32 depth p = p := by
      rintro b ⟨hlt, hdepth, hchild, hp⟩
      have hdp : trunc 32 d p = ip.toNat := by
        rw [← trunc_trunc (Nat.le_succ d) (show d + 1 ≤ 32 by omega) p, hchild,
          trunc_child (by omega) hip]
      refine ⟨by omega, hdepth, ?_, hp⟩
      rw [← trunc_trunc hle hd p, hdp, hP]
    rcases hr with ⟨-, rfl, rfl, -⟩ | hr | hr
    · exact ⟨hle, hd, hP, hip⟩
    · exact hbelow false (ihl hleft hr)
    · exact hbelow true (ihr hright hr)

/-- **The routes of a node** are its own and those of its two sides, which
are longer and have the bit of their side. -/
theorem Ordered.route_cases {valid : Bool} {left right : RteRibNode}
    (h : Ordered D P (.node ip d valid nh left right))
    (hr : Route (.node ip d valid nh left right) depth p v) :
    (valid = true ∧ depth = d ∧ p = ip.toNat ∧ v = nh)
      ∨ ∃ b : Bool, Route (if b then right else left) depth p v ∧ d < depth ∧ depth ≤ 32
        ∧ trunc 32 (d + 1) p = child 32 d ip.toNat b ∧ trunc 32 d p = ip.toNat := by
  obtain ⟨-, -, -, hip, hleft, hright⟩ := h
  have hside : ∀ b : Bool, Route (if b then right else left) depth p v →
      d < depth ∧ depth ≤ 32 ∧ trunc 32 (d + 1) p = child 32 d ip.toNat b
        ∧ trunc 32 d p = ip.toNat := by
    intro b hb
    have hord : Ordered (d + 1) (child 32 d ip.toNat b) (if b then right else left) := by
      cases b
      · exact hleft
      · exact hright
    obtain ⟨hlt, hdepth, hchild, -⟩ := hord.route hb
    refine ⟨hlt, hdepth, hchild, ?_⟩
    rw [← trunc_trunc (Nat.le_succ d) (show d + 1 ≤ 32 by omega) p, hchild,
      trunc_child (by omega) hip]
  rcases hr with hr | hr | hr
  · exact Or.inl hr
  · exact Or.inr ⟨false, hr, hside false hr⟩
  · exact Or.inr ⟨true, hr, hside true hr⟩

/-- **No route on the other side**: the routes that cover an address are not
below the sibling of its side. -/
theorem Ordered.not_route_of_side {b : Bool} (h : Ordered (d + 1) (child 32 d p (!b)) t)
    (ha : trunc 32 (d + 1) a = child 32 d p b) : ¬ Route t depth (trunc 32 depth a) v := by
  intro hr
  obtain ⟨hlt, hdepth, hP, -⟩ := h.route hr
  rw [trunc_trunc hlt hdepth, ha] at hP
  have heq := child_inj hP
  cases b <;> cases heq

/-- The routes above a cursor that cover an address below it are of smaller
depth. -/
theorem RouteAbove.lt_holeDepth (h : OrderedAbove parents)
    (ha : trunc 32 (holeDepth parents) a = holePrefix parents)
    (hr : RouteAbove parents depth (trunc 32 depth a) v) : depth < holeDepth parents := by
  induction parents with
  | nil => exact hr.elim
  | cons f parents ih =>
    obtain ⟨hle, -, -, -, hsib, habove⟩ := id h
    rcases hr with ⟨-, rfl, -, -⟩ | hr | hr
    · exact Nat.lt_succ_self _
    · exact absurd hr (hsib.not_route_of_side ha)
    · exact lt_of_lt_of_le (ih habove (h.up ha).2 hr) (Nat.le_succ_of_le hle)

/-! ## What the lookups find -/

/-- **A cursor at a route**. -/
structure Cursor.At (c : Cursor) (tree : RteRibNode) (depth p nh : ℕ) : Prop where
  inTree : c.In tree
  isNode : ∃ ip left right, c.node = .node ip depth true nh left right ∧ ip.toNat = p

theorem Cursor.At.get {c : Cursor} (h : c.At tree depth p nh) :
    rteRibGetDepth c = depth ∧ (rteRibGetIp c).toNat = p ∧ rteRibGetNh c = nh := by
  obtain ⟨-, ip, left, right, hnode, hp⟩ := h
  unfold rteRibGetDepth rteRibGetIp rteRibGetNh
  rw [hnode]
  exact ⟨rfl, hp, rfl⟩

/-- `__rib_lookup_exact` finds the route of a prefix, if there is one. -/
theorem lookupExactFrom_spec (hip : trunc 32 depth ip.toNat = ip.toNat)
    (h : Cursor.In ⟨t, parents⟩ tree) :
    (∀ c, lookupExactFrom ip depth t parents = some c →
        ∃ nh, c.At tree depth ip.toNat nh ∧ Route t depth ip.toNat nh)
      ∧ (lookupExactFrom ip depth t parents = none → ∀ v, ¬ Route t depth ip.toNat v) := by
  induction t generalizing parents with
  | null => exact ⟨fun c hc => (nomatch hc), fun _ v hr => hr⟩
  | node curIp d valid nh left right ihl ihr =>
    obtain ⟨hle, hd, hP, hcur, hleft, hright⟩ := h.below
    unfold lookupExactFrom
    by_cases hself : curIp = ip ∧ d = depth ∧ valid = true
    · rw [if_pos hself]
      obtain ⟨rfl, rfl, rfl⟩ := hself
      refine ⟨fun c hc => ?_, fun hc => (nomatch hc)⟩
      obtain rfl := Option.some.inj hc
      exact ⟨nh, ⟨h, curIp, left, right, rfl, rfl⟩, Or.inl ⟨rfl, rfl, rfl, rfl⟩⟩
    rw [if_neg hself]
    -- a route of the prefix is below the node
    have hroute : ∀ v, Route (.node curIp d valid nh left right) depth ip.toNat v →
        ∃ b : Bool, Route (if b then right else left) depth ip.toNat v ∧ d < depth ∧ depth ≤ 32
          ∧ trunc 32 (d + 1) ip.toNat = child 32 d curIp.toNat b
          ∧ trunc 32 d ip.toNat = curIp.toNat := by
      intro v hr
      rcases h.below.route_cases hr with ⟨hv, rfl, hipeq, -⟩ | hb
      · exact absurd ⟨(UInt32.toNat_inj.mp hipeq).symm, rfl, hv⟩ hself
      · exact hb
    by_cases hstop : d > depth ∨ ¬ isCovered ip curIp d = true
    · rw [if_pos hstop]
      refine ⟨fun c hc => (nomatch hc), fun _ v hr => ?_⟩
      obtain ⟨b, -, hlt, -, -, hsame⟩ := hroute v hr
      rcases hstop with hgt | hcov
      · omega
      · refine hcov ((isCovered_iff hd).mpr ?_)
        rw [hcur, hsame]
    rw [if_neg hstop]
    have hcov : trunc 32 d ip.toNat = curIp.toNat := by
      rw [← hcur]
      refine (isCovered_iff hd).mp ?_
      by_contra hc
      exact hstop (Or.inr hc)
    by_cases hlast : d = 32
    · rw [if_pos hlast]
      refine ⟨fun c hc => (nomatch hc), fun _ v hr => ?_⟩
      obtain ⟨b, -, hlt, hle32, -⟩ := hroute v hr
      omega
    rw [if_neg hlast]
    -- only the side of the next bit can have it
    have hside : ∀ v, Route (.node curIp d valid nh left right) depth ip.toNat v →
        Route (if nextBit ip d then right else left) depth ip.toNat v := by
      intro v hr
      obtain ⟨b, hb, -, -, hchild, -⟩ := hroute v hr
      rw [trunc_succ_nextBit ip (by omega), hcov] at hchild
      rw [child_inj hchild]
      exact hb
    by_cases hbit : nextBit ip d = true
    · rw [if_pos hbit]
      obtain ⟨hsome, hnone⟩ := ihr (h.down (by omega) true)
      refine ⟨fun c hc => ?_, fun hc v hr => ?_⟩
      · obtain ⟨v, hat, hr⟩ := hsome c hc
        exact ⟨v, hat, Or.inr (Or.inr hr)⟩
      · have hr' := hside v hr
        rw [if_pos hbit] at hr'
        exact hnone hc v hr'
    · rw [if_neg hbit]
      obtain ⟨hsome, hnone⟩ := ihl (h.down (by omega) false)
      refine ⟨fun c hc => ?_, fun hc v hr => ?_⟩
      · obtain ⟨v, hat, hr⟩ := hsome c hc
        exact ⟨v, hat, Or.inr (Or.inl hr)⟩
      · have hr' := hside v hr
        rw [if_neg hbit] at hr'
        exact hnone hc v hr'

/-! ## The best route -/

/-- **The cursor points to the longest of some routes** that cover an
address, and there is none if it points nowhere. -/
def IsBest (R : ℕ → ℕ → ℕ → Prop) (tree : RteRibNode) (a : ℕ) : Option Cursor → Prop
  | none => ∀ e v, ¬ R e (trunc 32 e a) v
  | some c => c.In tree ∧ ∃ ip d nh left right, c.node = .node ip d true nh left right
    ∧ R d ip.toNat nh ∧ trunc 32 d a = ip.toNat ∧ ∀ e v, R e (trunc 32 e a) v → e ≤ d

theorem IsBest.congr {R R' : ℕ → ℕ → ℕ → Prop} {o : Option Cursor} (h : IsBest R tree a o)
    (hR : ∀ e v, R' e (trunc 32 e a) v ↔ R e (trunc 32 e a) v) :
    IsBest R' tree a o := by
  cases o with
  | none => exact fun e v hr => h e v ((hR e v).mp hr)
  | some c =>
    obtain ⟨hin, ip, d, nh, left, right, hnode, hroute, hcov, hbest⟩ := h
    refine ⟨hin, ip, d, nh, left, right, hnode, ?_, hcov, fun e v hr => hbest e v ((hR e v).mp hr)⟩
    rw [← hcov] at hroute ⊢
    exact (hR d nh).mpr hroute

/-- The routes above a cursor that cover an address below it: the sibling has
none. -/
theorem routeAbove_cons_iff (h : OrderedAbove (f :: parents))
    (ha : trunc 32 (f.depth + 1) a = child 32 f.depth f.ip.toNat f.right) (e v : ℕ) :
    RouteAbove (f :: parents) e (trunc 32 e a) v
      ↔ (f.valid = true ∧ e = f.depth ∧ trunc 32 e a = f.ip.toNat ∧ v = f.nh)
        ∨ RouteAbove parents e (trunc 32 e a) v := by
  have hsib : ¬ Route f.sibling e (trunc 32 e a) v := h.2.2.2.2.1.not_route_of_side ha
  rw [RouteAbove]
  tauto

/-- One node more above the cursor is the best route, if it is one. -/
theorem IsBest.cons {prev : Option Cursor} (hbest : IsBest (RouteAbove parents) tree a prev)
    (h : OrderedAbove (f :: parents))
    (ha : trunc 32 (f.depth + 1) a = child 32 f.depth f.ip.toNat f.right)
    (hin : Cursor.In ⟨f.fill t, parents⟩ tree) :
    IsBest (RouteAbove (f :: parents)) tree a
      (if f.valid then some ⟨f.fill t, parents⟩ else prev) := by
  have hiff := routeAbove_cons_iff h ha
  obtain ⟨hcov, hhole⟩ := h.up ha
  by_cases hv : f.valid = true
  · rw [if_pos hv]
    have hnode : ∃ left right, f.fill t = .node f.ip f.depth true f.nh left right := by
      unfold Frame.fill
      rw [hv]
      split
      · exact ⟨_, _, rfl⟩
      · exact ⟨_, _, rfl⟩
    obtain ⟨left, right, hnode⟩ := hnode
    refine ⟨hin, f.ip, f.depth, f.nh, left, right, hnode, Or.inl ⟨hv, rfl, rfl, rfl⟩, hcov,
      fun e v hr => ?_⟩
    rcases (hiff e v).mp hr with ⟨-, rfl, -⟩ | hr
    · exact le_refl _
    · exact le_of_lt (lt_of_lt_of_le (hr.lt_holeDepth h.2.2.2.2.2 hhole) h.1)
  · rw [if_neg hv]
    refine hbest.congr (fun e v => (hiff e v).trans (or_iff_right ?_))
    exact fun hc => hv hc.1

/-- **`rte_rib_lookup` finds the longest route that covers an address**: it
starts with the best of those above the cursor. -/
theorem lookupFrom_spec (h : Cursor.In ⟨t, parents⟩ tree)
    (hip : trunc 32 (holeDepth parents) ip.toNat = holePrefix parents) {prev : Option Cursor}
    (hprev : IsBest (RouteAbove parents) tree ip.toNat prev) :
    IsBest (Route tree) tree ip.toNat (lookupFrom ip t parents prev) := by
  induction t generalizing parents prev with
  | null =>
    refine hprev.congr (fun e v => ?_)
    rw [← h.plugged, route_plug]
    exact or_iff_right id
  | node curIp d valid nh left right ihl ihr =>
    obtain ⟨hle, hd, hP, hcur, hleft, hright⟩ := h.below
    have hroute : ∀ e v, Route tree e (trunc 32 e ip.toNat) v
        ↔ Route (.node curIp d valid nh left right) e (trunc 32 e ip.toNat) v
          ∨ RouteAbove parents e (trunc 32 e ip.toNat) v := by
      intro e v
      rw [← h.plugged, route_plug]
    unfold lookupFrom
    by_cases hcovered : isCovered ip curIp d = true
    · rw [if_pos hcovered]
      have hcov : trunc 32 d ip.toNat = curIp.toNat := by
        rw [← hcur]
        exact (isCovered_iff hd).mp hcovered
      dsimp only
      by_cases hlast : d = 32
      · -- there is nothing below
        rw [if_pos hlast]
        have hown : ∀ e v, Route (.node curIp d valid nh left right) e (trunc 32 e ip.toNat) v ↔
            valid = true ∧ e = d ∧ trunc 32 e ip.toNat = curIp.toNat ∧ v = nh := by
          refine fun e v => ⟨fun hr => ?_, Or.inl⟩
          rcases h.below.route_cases hr with hr | ⟨b, -, hlt, hle32, -⟩
          · exact hr
          · omega
        by_cases hv : valid = true
        · rw [if_pos hv]
          subst hv
          refine ⟨h, curIp, d, nh, left, right, rfl, ?_, hcov, fun e v hr => ?_⟩
          · rw [← hcov]
            exact (hroute d nh).mpr (Or.inl ((hown d nh).mpr ⟨rfl, rfl, hcov, rfl⟩))
          · rcases (hroute e v).mp hr with hr | hr
            · exact le_of_eq ((hown e v).mp hr).2.1
            · exact le_of_lt (lt_of_lt_of_le (hr.lt_holeDepth h.above hip) hle)
        · rw [if_neg hv]
          refine hprev.congr (fun e v => (hroute e v).trans (or_iff_right (fun hr => ?_)))
          exact hv ((hown e v).mp hr).1
      · rw [if_neg hlast]
        have hside := trunc_succ_nextBit ip (show d < 32 by omega)
        rw [hcov] at hside
        by_cases hbit : nextBit ip d = true
        · rw [if_pos hbit]
          rw [hbit] at hside
          exact ihr (h.down (by omega) true) hside
            (hprev.cons (h.down (by omega) true).above hside h)
        · rw [if_neg hbit]
          rw [(Bool.not_eq_true _).mp hbit] at hside
          exact ihl (h.down (by omega) false) hside
            (hprev.cons (h.down (by omega) false).above hside h)
    · -- no route below covers the address
      rw [if_neg hcovered]
      refine hprev.congr (fun e v => (hroute e v).trans (or_iff_right (fun hr => ?_)))
      refine hcovered ((isCovered_iff hd).mpr ?_)
      rw [hcur]
      rcases h.below.route_cases hr with ⟨-, rfl, hip', -⟩ | ⟨b, -, hlt, hle32, -, hsame⟩
      · exact hip'
      · rw [← hsame, trunc_trunc (le_of_lt hlt) hle32]

/-- `rte_rib_lookup_parent` finds the longest route above a node. -/
theorem rteRibLookupParent_spec (h : Cursor.In ⟨t, parents⟩ tree)
    (ha : trunc 32 (holeDepth parents) a = holePrefix parents) :
    IsBest (RouteAbove parents) tree a (rteRibLookupParent t parents) := by
  induction parents generalizing t with
  | nil => exact fun e v hr => hr
  | cons f parents ih =>
    have hup : Cursor.In ⟨f.fill t, parents⟩ tree :=
      ⟨h.plugged, h.above.2.2.2.2.2, ordered_fill h.above h.below⟩
    exact (ih hup (h.above.up ha).2).cons h.above ha hup

/-! ## Tables of routes -/

/-- **The routes of a tree are those of a table.** -/
def Holds (tree : RteRibNode) (M : Table ℕ) : Prop :=
  ∀ d p v, Route tree d p v ↔ M d p = some v

end Rib
