import DpdkStudy.Rib.Update

/-!
# Walking the more specific routes

`rte_rib_get_nxt` with `RTE_RIB_GET_NXT_COVER`, called again and again with
its last answer, walks over the routes that are more specific than a prefix
and not covered by another such route. `covers` is the list of these routes,
read off the tree from left to right, and the walk goes along it: the first
call answers with its first element (`rteRibGetNxt_none`), and a call with an
element answers with the next one (`rteRibGetNxt_some`).

The list is what one expects: its ranges of addresses lie one behind the
other (`covers_pairwise`), each is a more specific route (`covers_at`), and
every more specific route is covered by one of them (`covers_complete`).
-/

open List

namespace Rib

open Prefix

variable {left right t tree : RteRibNode} {ip : UInt32} {D P d depth nh : ℕ} {valid : Bool}
  {parents : List Frame} {c : Cursor} {after before : List Cursor} {rib : RteRib} {M : Table ℕ}

/-! ## The topmost routes of a tree -/

/-- **The routes of a tree that no other route of the tree covers**, from left
to right. -/
def topmost : RteRibNode → List Frame → List Cursor
  | .null, _ => []
  | .node ip d valid nh left right, parents =>
    if valid then [⟨.node ip d valid nh left right, parents⟩]
    else topmost left (⟨false, ip, d, valid, nh, right⟩ :: parents)
      ++ topmost right (⟨true, ip, d, valid, nh, left⟩ :: parents)

theorem topmost_ne_nil (hfull : Full t) (hnull : t.isNull = false) (parents : List Frame) :
    topmost t parents ≠ [] := by
  induction t generalizing parents with
  | null => cases hnull
  | node ip d valid nh left right ihl _ =>
    obtain ⟨hv, hfl, -⟩ := hfull
    unfold topmost
    split
    · simp
    · next hnot =>
      obtain ⟨hl, -⟩ := hv.resolve_left hnot
      intro hnil
      exact ihl hfl hl _ (append_eq_nil_iff.mp hnil).1

/-- The first of two lists, the first of which is not empty. -/
theorem head?_append_of_ne_nil {α : Type*} {l₁ : List α} (h : l₁ ≠ []) (l₂ : List α) :
    (l₁ ++ l₂).head? = l₁.head? := by
  cases l₁ with
  | nil => exact absurd rfl h
  | cons a l => rfl

theorem isMoreSpecific_iff {curIp : UInt32} (hdepth : depth ≤ 32) :
    isMoreSpecific ip depth (.node curIp d valid nh left right) = true
      ↔ valid = true ∧ trunc 32 depth curIp.toNat = trunc 32 depth ip.toNat ∧ depth < d := by
  rw [← isCovered_iff hdepth]
  exact decide_eq_true_iff

/-- **Going down a tree of more specific prefixes** ends at the first of its
topmost routes. -/
theorem descend_inside (hdepth : depth ≤ 32) (h : Ordered D P t) (hfull : Full t) (hlt : depth < D)
    (hin : ∀ a, trunc 32 D a = P → trunc 32 depth a = trunc 32 depth ip.toNat)
    (parents : List Frame) (hnull : t.isNull = false) (prev : Option Cursor) :
    descend ip depth true t parents prev = (topmost t parents).head? := by
  induction t generalizing D P parents prev with
  | null => cases hnull
  | node curIp d valid nh left right ihl ihr =>
    obtain ⟨hle, hd, hP, hip, hl, hr⟩ := h
    obtain ⟨hv, hfl, hfr⟩ := hfull
    unfold descend topmost
    dsimp only
    by_cases hvalid : valid = true
    · have hfound : isMoreSpecific ip depth (.node curIp d valid nh left right) = true :=
        (isMoreSpecific_iff hdepth).mpr ⟨hvalid, hin _ hP, by omega⟩
      rw [if_pos hvalid, if_pos ⟨hfound, rfl⟩, if_pos hfound]
      rfl
    · have hfound : ¬ isMoreSpecific ip depth (.node curIp d valid nh left right) = true :=
        fun hc => hvalid ((isMoreSpecific_iff hdepth).mp hc).1
      obtain ⟨hlnull, -⟩ := hv.resolve_left hvalid
      have hin' : ∀ a, trunc 32 (d + 1) a = child 32 d curIp.toNat false →
          trunc 32 depth a = trunc 32 depth ip.toNat := by
        intro a ha
        by_cases hd32 : d < 32
        · refine hin a ?_
          rw [← trunc_trunc hle hd, ← trunc_trunc (Nat.le_succ d) (show d + 1 ≤ 32 by omega), ha,
            trunc_child hd32 hip, hP]
        · rw [hl.eq_null (by omega)] at hlnull
          cases hlnull
      rw [if_neg hvalid, if_neg (fun hc => hfound hc.1), if_neg hfound,
        if_pos (show ¬ left.isNull = true by simp [hlnull]),
        head?_append_of_ne_nil (topmost_ne_nil hfl hlnull _)]
      exact ihl hl hfl (by omega) hin' _ hlnull prev

theorem descend_outside (hdepth : depth ≤ 32) (h : Ordered D P t)
    (hout : ∀ a, trunc 32 D a = P → trunc 32 depth a ≠ trunc 32 depth ip.toNat) (cover : Bool)
    (parents : List Frame) (prev : Option Cursor) :
    descend ip depth cover t parents prev = prev := by
  induction t generalizing D P parents prev with
  | null => rfl
  | node curIp d valid nh left right ihl ihr =>
    obtain ⟨hle, hd, hP, hip, hl, hr⟩ := h
    have hfound : ¬ isMoreSpecific ip depth (.node curIp d valid nh left right) = true :=
      fun hc => hout _ hP ((isMoreSpecific_iff hdepth).mp hc).2.1
    have hout' : ∀ b, d < 32 → ∀ a, trunc 32 (d + 1) a = child 32 d curIp.toNat b →
        trunc 32 depth a ≠ trunc 32 depth ip.toNat := by
      intro b hd32 a ha
      refine hout a ?_
      rw [← trunc_trunc hle hd, ← trunc_trunc (Nat.le_succ d) (show d + 1 ≤ 32 by omega), ha,
        trunc_child hd32 hip, hP]
    unfold descend
    dsimp only
    rw [if_neg (fun hc => hfound hc.1), if_neg hfound]
    by_cases hd32 : d < 32
    · split
      · exact ihl hl (hout' false hd32) _ prev
      · exact ihr hr (hout' true hd32) _ prev
    · -- there is nothing below
      rw [hl.eq_null (by omega), hr.eq_null (by omega)]
      rfl

/-! ## Going up -/

/-- **What is still to come** after a cursor: the topmost routes on its right,
up to the nodes that are above the prefix of the walk. -/
def toCome (depth : ℕ) : RteRibNode → List Frame → List Cursor
  | _, [] => []
  | t, f :: parents =>
    if f.depth < depth then []
    else
      (if f.right then []
        else topmost f.sibling ({ f with right := true, sibling := t } :: parents))
      ++ toCome depth (f.fill t) parents

/-- The nodes above a cursor are no answers of the walk. -/
def Clear (depth : ℕ) (parents : List Frame) : Prop :=
  ∀ f ∈ parents, depth < f.depth → f.valid = false

theorem not_isMoreSpecific_fill (hdepth : depth ≤ 32) {f : Frame}
    (hclear : depth < f.depth → f.valid = false) (t : RteRibNode) :
    ¬ isMoreSpecific ip depth (f.fill t) = true := by
  have hnode : ∀ left right, ¬ isMoreSpecific ip depth
      (.node f.ip f.depth f.valid f.nh left right) = true := by
    intro left right hc
    obtain ⟨hv, -, hlt⟩ := (isMoreSpecific_iff hdepth).mp hc
    rw [hclear hlt] at hv
    cases hv
  unfold Frame.fill
  split
  · exact hnode _ _
  · exact hnode _ _

/-- An address below the sibling of a frame is on the other side. -/
theorem other_side {f : Frame} (habove : OrderedAbove (f :: parents)) {a b : ℕ}
    (ha : trunc 32 (f.depth + 1) a = child 32 f.depth f.ip.toNat f.right)
    (hb : trunc 32 (f.depth + 1) b = child 32 f.depth f.ip.toNat (!f.right)) :
    trunc 32 (f.depth + 1) b ≠ trunc 32 (f.depth + 1) a ∧ trunc 32 f.depth b = f.ip.toNat := by
  obtain ⟨-, hd, -, hip, -, -⟩ := habove
  refine ⟨fun heq => ?_, ?_⟩
  · rw [hb, ha] at heq
    have hc := child_inj heq
    cases hr : f.right <;> rw [hr] at hc <;> cases hc
  · rw [← trunc_trunc (Nat.le_succ f.depth) (show f.depth + 1 ≤ 32 by omega) b, hb,
      trunc_child hd hip]

/-- **Going up from a node that is beside the prefix**: there is nothing to
find, if there is nothing further up. -/
theorem ascend_above {ip : UInt32} {depth a : ℕ} (hdepth : depth ≤ 32) {f : Frame}
    {parents : List Frame} (habove : OrderedAbove (f :: parents))
    (ha : trunc 32 (f.depth + 1) a = child 32 f.depth f.ip.toNat f.right)
    (hp : trunc 32 depth a = trunc 32 depth ip.toNat) (hlt : f.depth < depth) {cover : Bool}
    {t : RteRibNode} (hup : ascend ip depth cover (f.fill t) parents = none) :
    ascend ip depth cover t (f :: parents) = none := by
  have hnot := @not_isMoreSpecific_fill ip _ hdepth f (fun hc => absurd hc (by omega)) t
  unfold ascend
  by_cases hgo : f.right = true ∨ f.sibling.isNull = true
  · rw [if_pos hgo, if_neg hnot, hup]
  · -- what is beside the node is outside
    rw [if_neg hgo]
    refine descend_outside hdepth habove.2.2.2.2.1 (fun b hb heq => ?_) cover _ none
    refine (other_side habove ha hb).1 ?_
    exact trunc_eq_of_le (show f.depth + 1 ≤ depth from hlt) hdepth (heq.trans hp.symm)

/-- Nothing is to come after a node that is not below the prefix. -/
theorem toCome_eq_nil (h : holeDepth parents ≤ depth) (t : RteRibNode) :
    toCome depth t parents = [] := by
  cases parents with
  | nil => rfl
  | cons f parents => exact if_pos h

/-- **Going up and over** ends at the first of the routes that are still to
come; `a` is any address below the cursor that the prefix covers. -/
theorem ascend_eq {ip : UInt32} {depth a : ℕ} (hdepth : depth ≤ 32) {parents : List Frame}
    (habove : OrderedAbove parents) (hfabove : FullAbove parents) (hclear : Clear depth parents)
    (ha : trunc 32 (holeDepth parents) a = holePrefix parents)
    (hp : trunc 32 depth a = trunc 32 depth ip.toNat) (t : RteRibNode) :
    ascend ip depth true t parents = (toCome depth t parents).head? := by
  induction parents generalizing t with
  | nil => rfl
  | cons f parents ih =>
    have hside : trunc 32 (f.depth + 1) a = child 32 f.depth f.ip.toNat f.right := ha
    obtain ⟨hcov, hhole⟩ := habove.up hside
    obtain ⟨-, hsibFull, hfabove'⟩ := hfabove
    have hup := ih habove.2.2.2.2.2 hfabove' (fun g hg => hclear g (mem_cons_of_mem f hg))
      hhole (f.fill t)
    by_cases hlt : f.depth < depth
    · -- the node is above the prefix, and what is beside it is outside
      rw [toCome_eq_nil hlt]
      rw [toCome_eq_nil (habove.1.trans (le_of_lt hlt))] at hup
      exact ascend_above hdepth habove hside hp hlt hup
    · have hnot := @not_isMoreSpecific_fill ip _ hdepth _ (hclear f mem_cons_self) t
      unfold ascend toCome
      rw [if_neg hlt]
      by_cases hright : f.right = true
      · rw [if_pos (Or.inl hright), if_neg hnot, if_pos hright, nil_append]
        exact hup
      · rw [if_neg hright]
        by_cases hnull : f.sibling.isNull = true
        · rw [if_pos (Or.inr hnull), if_neg hnot]
          cases hs : f.sibling with
          | null => exact hup
          | node => rw [hs] at hnull; cases hnull
        · have hnull' : f.sibling.isNull = false := (Bool.not_eq_true _).mp hnull
          rw [if_neg (fun hc => hc.elim hright hnull),
            head?_append_of_ne_nil (topmost_ne_nil hsibFull hnull' _)]
          refine descend_inside hdepth habove.2.2.2.2.1 hsibFull (by omega) (fun b hb => ?_)
            _ hnull' none
          rw [← hp]
          refine trunc_eq_of_le (show depth ≤ f.depth by omega) (le_of_lt habove.2.1) ?_
          rw [(other_side habove hside hb).2, hcov]

/-- The walk over the two sides of a node, where it goes along each of
them. -/
theorem toCome_sides (hd : depth ≤ d)
    (hleft : ∀ before after, topmost left (⟨false, ip, d, valid, nh, right⟩ :: parents)
      = before ++ c :: after → toCome depth c.node c.parents
        = after ++ toCome depth left (⟨false, ip, d, valid, nh, right⟩ :: parents))
    (hright : ∀ before after, topmost right (⟨true, ip, d, valid, nh, left⟩ :: parents)
      = before ++ c :: after → toCome depth c.node c.parents
        = after ++ toCome depth right (⟨true, ip, d, valid, nh, left⟩ :: parents))
    (hc : topmost left (⟨false, ip, d, valid, nh, right⟩ :: parents)
      ++ topmost right (⟨true, ip, d, valid, nh, left⟩ :: parents) = before ++ c :: after) :
    toCome depth c.node c.parents
      = after ++ toCome depth (.node ip d valid nh left right) parents := by
  have hstay : ¬ d < depth := by omega
  rcases append_eq_append_iff.mp hc with ⟨l, -, hr⟩ | ⟨l, hl, hafter⟩
  · rw [hright l after hr]
    congr 1
    rw [toCome, if_neg hstay]
    rfl
  · cases l with
    | nil =>
      rw [hright [] after hafter.symm]
      congr 1
      rw [toCome, if_neg hstay]
      rfl
    | cons c' l =>
      rw [cons_append] at hafter
      obtain ⟨rfl, rfl⟩ := cons.inj hafter
      rw [hleft before l hl, append_assoc]
      congr 1
      rw [toCome, if_neg hstay]
      rfl

/-- **The walk goes along the topmost routes** of a tree, and then on to what
is to come after it. -/
theorem toCome_topmost (h : Ordered D P t) (hD : depth ≤ D)
    (hc : topmost t parents = before ++ c :: after) :
    toCome depth c.node c.parents = after ++ toCome depth t parents := by
  induction t generalizing D P parents before after with
  | null => simp [topmost] at hc
  | node ip d valid nh left right ihl ihr =>
    obtain ⟨hle, -, -, -, hl, hr⟩ := h
    unfold topmost at hc
    by_cases hv : valid = true
    · -- the node is the only one
      rw [if_pos hv] at hc
      cases before with
      | nil =>
        obtain ⟨rfl, rfl⟩ := cons.inj hc
        rfl
      | cons b before => simp at hc
    · rw [if_neg hv] at hc
      exact toCome_sides (by omega) (fun _ _ h' => ihl hl (by omega) h')
        (fun _ _ h' => ihr hr (by omega) h') hc

/-- The cursors of the topmost routes have nodes above them that are clear. -/
theorem clear_topmost (hclear : Clear depth parents) (hc : c ∈ topmost t parents) :
    Clear depth c.parents := by
  induction t generalizing parents with
  | null => simp [topmost] at hc
  | node ip d valid nh left right ihl ihr =>
    unfold topmost at hc
    by_cases hv : valid = true
    · rw [if_pos hv, mem_singleton] at hc
      rw [hc]
      exact hclear
    · rw [if_neg hv, mem_append] at hc
      have hcons : ∀ f : Frame, f.valid = valid → Clear depth (f :: parents) := by
        intro f hf g hg hlt
        rcases mem_cons.mp hg with rfl | hg
        · rw [hf]
          exact (Bool.not_eq_true _).mp hv
        · exact hclear g hg hlt
      rcases hc with hc | hc
      · exact ihl (hcons _ rfl) hc
      · exact ihr (hcons _ rfl) hc

/-- The cursors of the topmost routes are in the tree, at routes of the
subtree, under nodes that are needed. -/
theorem topmost_at (h : Cursor.In ⟨t, parents⟩ tree) (hc : c ∈ topmost t parents) :
    ∃ d p nh, c.At tree d p nh ∧ Route t d p nh := by
  induction t generalizing parents with
  | null => simp [topmost] at hc
  | node ip d valid nh left right ihl ihr =>
    unfold topmost at hc
    by_cases hv : valid = true
    · rw [if_pos hv, mem_singleton] at hc
      subst hc hv
      exact ⟨d, ip.toNat, nh, ⟨h, ip, left, right, rfl, rfl⟩, Or.inl ⟨rfl, rfl, rfl, rfl⟩⟩
    · rw [if_neg hv, mem_append] at hc
      have hd : left = .null ∧ right = .null ∨ d < 32 := by
        by_cases hd : d < 32
        · exact Or.inr hd
        · obtain ⟨-, -, -, -, hl, hr⟩ := h.below
          exact Or.inl ⟨hl.eq_null (by omega), hr.eq_null (by omega)⟩
      rcases hd with ⟨rfl, rfl⟩ | hd
      · simp [topmost] at hc
      · rcases hc with hc | hc
        · obtain ⟨e, p, v, hat, hr⟩ := ihl (h.down hd false) hc
          exact ⟨e, p, v, hat, Or.inr (Or.inl hr)⟩
        · obtain ⟨e, p, v, hat, hr⟩ := ihr (h.down hd true) hc
          exact ⟨e, p, v, hat, Or.inr (Or.inr hr)⟩

/-- Every route of a tree is covered by a topmost one. -/
theorem topmost_complete (h : Cursor.In ⟨t, parents⟩ tree) {e q v : ℕ} (hr : Route t e q v) :
    ∃ c ∈ topmost t parents, rteRibGetDepth c ≤ e
      ∧ trunc 32 (rteRibGetDepth c) q = (rteRibGetIp c).toNat := by
  induction t generalizing parents with
  | null => exact hr.elim
  | node ip d valid nh left right ihl ihr =>
    have hcases := h.below.route_cases hr
    unfold topmost
    by_cases hv : valid = true
    · rw [if_pos hv]
      refine ⟨_, mem_singleton.mpr rfl, ?_⟩
      show d ≤ e ∧ trunc 32 d q = ip.toNat
      rcases hcases with ⟨-, rfl, rfl, -⟩ | ⟨b, -, hlt, -, -, hsame⟩
      · exact ⟨le_refl _, h.below.2.2.2.1⟩
      · exact ⟨le_of_lt hlt, hsame⟩
    · rw [if_neg hv]
      rcases hcases with ⟨hc, -⟩ | ⟨b, hb, hlt, hle, -, -⟩
      · exact absurd hc hv
      · cases b with
        | false =>
          obtain ⟨c, hc, hcov⟩ := ihl (h.down (by omega) false) hb
          exact ⟨c, mem_append.mpr (Or.inl hc), hcov⟩
        | true =>
          obtain ⟨c, hc, hcov⟩ := ihr (h.down (by omega) true) hb
          exact ⟨c, mem_append.mpr (Or.inr hc), hcov⟩

/-- The range of a prefix ends where the one of another one starts, or
before. -/
def Before (c c' : Cursor) : Prop :=
  (rteRibGetIp c).toNat + 2 ^ (32 - rteRibGetDepth c) ≤ (rteRibGetIp c').toNat

/-- The ranges of the two sides of a node, where they lie one behind the
other on each of them. -/
theorem sides_pairwise (h : Cursor.In ⟨.node ip d valid nh left right, parents⟩ tree) (hd : d < 32)
    (hleft : (topmost left (⟨false, ip, d, valid, nh, right⟩ :: parents)).Pairwise Before)
    (hright : (topmost right (⟨true, ip, d, valid, nh, left⟩ :: parents)).Pairwise Before) :
    (topmost left (⟨false, ip, d, valid, nh, right⟩ :: parents)
      ++ topmost right (⟨true, ip, d, valid, nh, left⟩ :: parents)).Pairwise Before := by
  obtain ⟨-, -, -, -, hl, hr⟩ := id h.below
  refine pairwise_append.mpr ⟨hleft, hright, fun c hc c' hc' => ?_⟩
  obtain ⟨e, p, v, hat, hroute⟩ := topmost_at (h.down hd false) hc
  obtain ⟨e', p', v', hat', hroute'⟩ := topmost_at (h.down hd true) hc'
  obtain ⟨hle, he, hP, hp⟩ := hl.route hroute
  obtain ⟨hle', he', hP', hp'⟩ := hr.route hroute'
  obtain ⟨-, hend⟩ := range_le hle he hp hP
  obtain ⟨hstart, -⟩ := range_le hle' he' hp' hP'
  unfold Before
  rw [hat.get.1, hat.get.2.1, hat'.get.2.1]
  unfold child at hend hstart
  rw [if_neg Bool.false_ne_true, Nat.add_zero, show 32 - (d + 1) = 32 - d - 1 by omega] at hend
  rw [if_pos rfl] at hstart
  omega

/-- The ranges of the topmost routes lie one behind the other. -/
theorem topmost_pairwise (h : Cursor.In ⟨t, parents⟩ tree) :
    (topmost t parents).Pairwise Before := by
  induction t generalizing parents with
  | null => exact List.Pairwise.nil
  | node ip d valid nh left right ihl ihr =>
    obtain ⟨-, -, -, -, hl, hr⟩ := id h.below
    unfold topmost
    by_cases hv : valid = true
    · rw [if_pos hv]
      exact pairwise_singleton _ _
    rw [if_neg hv]
    by_cases hd : d < 32
    · exact sides_pairwise h hd (ihl (h.down hd false)) (ihr (h.down hd true))
    · rw [hl.eq_null (by omega), hr.eq_null (by omega)]
      exact List.Pairwise.nil

/-! ## The walk -/

/-- A node from which only the sides are taken if it is the prefix itself. -/
def below (depth : ℕ) : RteRibNode → List Frame → List Cursor
  | .null, _ => []
  | .node ip d valid nh left right, parents =>
    if d = depth then
      topmost left (⟨false, ip, d, valid, nh, right⟩ :: parents)
        ++ topmost right (⟨true, ip, d, valid, nh, left⟩ :: parents)
    else topmost (.node ip d valid nh left right) parents

theorem below_of_eq (h : d = depth) (parents : List Frame) :
    below depth (.node ip d valid nh left right) parents
      = topmost left (⟨false, ip, d, valid, nh, right⟩ :: parents)
        ++ topmost right (⟨true, ip, d, valid, nh, left⟩ :: parents) := if_pos h

theorem below_of_ne (h : ¬ d = depth) (parents : List Frame) :
    below depth (.node ip d valid nh left right) parents
      = topmost (.node ip d valid nh left right) parents := if_neg h

/-- **The routes that are more specific** than a prefix and not covered by
another such route, from left to right. -/
def covers (rib : RteRib) (ip : UInt32) (depth : ℕ) : List Cursor :=
  let s := skipTo ip depth rib.tree []
  if trunc 32 depth (rteRibGetIp s).toNat = trunc 32 depth ip.toNat then below depth s.node s.parents
  else []

/-- The nodes above a cursor are above the prefix. -/
def Upper (depth : ℕ) (parents : List Frame) : Prop := ∀ f ∈ parents, f.depth < depth

/-- **The first loop of `rte_rib_get_nxt`** stops at the first node that is
not above the prefix; all more specific routes are below it. -/
theorem skipTo_spec (hdepth : depth ≤ 32) (h : Cursor.In ⟨t, parents⟩ tree)
    (hupper : Upper depth parents) :
    (skipTo ip depth t parents).In tree ∧ Upper depth (skipTo ip depth t parents).parents
      ∧ (∀ curIp d valid nh left right,
        (skipTo ip depth t parents).node = .node curIp d valid nh left right → depth ≤ d)
      ∧ ∀ e q v, Route t e q v → depth ≤ e → trunc 32 depth q = trunc 32 depth ip.toNat →
        Route (skipTo ip depth t parents).node e q v := by
  induction t generalizing parents with
  | null => exact ⟨h, hupper, fun _ _ _ _ _ _ hc => (nomatch hc), fun _ _ _ hr => hr.elim⟩
  | node curIp d valid nh left right ihl ihr =>
    obtain ⟨-, -, -, hcur, -, -⟩ := id h.below
    unfold skipTo
    by_cases hlt : d < depth
    · rw [if_pos hlt, if_neg (show ¬ d = 32 by omega)]
      have hd : d < 32 := by omega
      have hup : ∀ f : Frame, f.depth = d → Upper depth (f :: parents) := by
        intro f hf g hg
        rcases mem_cons.mp hg with rfl | hg
        · omega
        · exact hupper g hg
      -- the routes of the prefix are on the side of its next bit
      have hside : ∀ e q v, Route (.node curIp d valid nh left right) e q v → depth ≤ e →
          trunc 32 depth q = trunc 32 depth ip.toNat →
          Route (if nextBit ip d then right else left) e q v := by
        intro e q v hr he hq
        rcases h.below.route_cases hr with ⟨-, rfl, -⟩ | ⟨b, hb, -, -, hchild, hsame⟩
        · omega
        · have hq' := trunc_eq_of_le (show d + 1 ≤ depth from hlt) hdepth hq
          have hqd := trunc_eq_of_le (Nat.le_succ d) hd hq'
          rw [hchild, trunc_succ_nextBit ip hd, ← hqd, hsame] at hq'
          rw [← child_inj hq']
          exact hb
      by_cases hbit : nextBit ip d = true
      · rw [if_pos hbit]
        obtain ⟨hin, hupper', hstop, hall⟩ := ihr (h.down hd true) (hup _ rfl)
        refine ⟨hin, hupper', hstop, fun e q v hr he hq => hall e q v ?_ he hq⟩
        have hr' := hside e q v hr he hq
        rwa [if_pos hbit] at hr'
      · rw [if_neg hbit]
        obtain ⟨hin, hupper', hstop, hall⟩ := ihl (h.down hd false) (hup _ rfl)
        refine ⟨hin, hupper', hstop, fun e q v hr he hq => hall e q v ?_ he hq⟩
        have hr' := hside e q v hr he hq
        rwa [if_neg hbit] at hr'
    · rw [if_neg hlt]
      refine ⟨h, hupper, fun _ _ _ _ _ _ hc => ?_, fun _ _ _ hr _ _ => hr⟩
      cases hc
      omega

/-- **Where a walk begins**: it lists nothing, or what there is below a node
that the prefix covers, under nodes that are above the prefix, and the walk
goes down from there. -/
def WalkFrom (rib : RteRib) (ip : UInt32) (depth : ℕ) (cover : Bool) (listed : List Cursor)
    (walk : RteRibNode → List Frame → List Cursor) : Prop :=
  (listed = [] ∧ rteRibGetNxt rib ip depth none cover = none
      ∧ ∀ e q v, Route rib.tree e q v → depth < e → trunc 32 depth q ≠ trunc 32 depth ip.toNat)
    ∨ ∃ curIp d valid nh left right parents,
      Cursor.In ⟨.node curIp d valid nh left right, parents⟩ rib.tree
        ∧ Upper depth parents ∧ depth ≤ d
        ∧ trunc 32 depth curIp.toNat = trunc 32 depth ip.toNat
        ∧ listed = walk (.node curIp d valid nh left right) parents
        ∧ rteRibGetNxt rib ip depth none cover
          = descend ip depth cover (.node curIp d valid nh left right) parents none
        ∧ ∀ e q v, Route rib.tree e q v → depth < e → trunc 32 depth q = trunc 32 depth ip.toNat →
          Route (.node curIp d valid nh left right) e q v

/-- The first loop of `rte_rib_get_nxt` finds where the walk begins. -/
theorem walkFrom_skipTo (h : RibShows rib M) (ip : UInt32) (hdepth : depth ≤ 32) (cover : Bool)
    {walk : RteRibNode → List Frame → List Cursor} (hnull : ∀ parents, walk .null parents = []) :
    WalkFrom rib ip depth cover
      (if trunc 32 depth (rteRibGetIp (skipTo ip depth rib.tree [])).toNat
          = trunc 32 depth ip.toNat then
        walk (skipTo ip depth rib.tree []).node (skipTo ip depth rib.tree []).parents
      else []) walk := by
  obtain ⟨hin, hupper, hstop, hall⟩ :=
    skipTo_spec hdepth (cursor_root h.ordered) (show Upper depth [] from fun f hf => nomatch hf)
  have hnxt : rteRibGetNxt rib ip depth none cover
      = descend ip depth cover (skipTo ip depth rib.tree []).node
        (skipTo ip depth rib.tree []).parents none := by
    unfold rteRibGetNxt
    rw [if_neg (by omega)]
  unfold WalkFrom
  rw [hnxt]
  clear hnxt
  generalize skipTo ip depth rib.tree [] = s at hin hupper hstop hall
  obtain ⟨node, parents⟩ := s
  cases node with
  | null =>
    refine Or.inl ⟨?_, rfl, fun e q v hr he hq => hall e q v hr (le_of_lt he) hq⟩
    rw [hnull, ite_self]
  | node curIp d valid nh left right =>
    have hd := hstop curIp d valid nh left right rfl
    obtain ⟨-, hd32, -, hcur, hl, hr⟩ := id hin.below
    by_cases hcov : trunc 32 depth curIp.toNat = trunc 32 depth ip.toNat
    · exact Or.inr ⟨curIp, d, valid, nh, left, right, parents, hin, hupper, hd, hcov, if_pos hcov,
        rfl, fun e q v hroute he hq => hall e q v hroute (le_of_lt he) hq⟩
    · refine Or.inl ⟨if_neg hcov, ?_, fun e q v hroute he hq => hcov ?_⟩
      · refine descend_outside hdepth (hin.below.sink (le_refl d) hcur) (fun a ha => ?_) cover _
          none
        rw [← trunc_trunc hd hd32 a, ha]
        exact hcov
      · rw [← hq]
        rcases hin.below.route_cases (hall e q v hroute (le_of_lt he) hq) with
          ⟨-, -, rfl, -⟩ | ⟨b, -, -, -, -, hsame⟩
        · rfl
        · rw [← hsame, trunc_trunc hd hd32]

theorem covers_cases (h : RibShows rib M) (ip : UInt32) (hdepth : depth ≤ 32) :
    WalkFrom rib ip depth true (covers rib ip depth) (below depth) :=
  walkFrom_skipTo h ip hdepth true fun _ => rfl

/-- An address on a side of a node is covered by what covers the node. -/
theorem side_inside {curIp : UInt32} (hd : depth ≤ d) (hd32 : d < 32)
    (hcur : trunc 32 d curIp.toNat = curIp.toNat)
    (hcov : trunc 32 depth curIp.toNat = trunc 32 depth ip.toNat) (b : Bool) (a : ℕ)
    (ha : trunc 32 (d + 1) a = child 32 d curIp.toNat b) :
    trunc 32 depth a = trunc 32 depth ip.toNat := by
  rw [← trunc_trunc hd (le_of_lt hd32) a, ← trunc_trunc (Nat.le_succ d) hd32 a, ha,
    trunc_child hd32 hcur, hcov]

/-- The first answer of the walk is the first of the covers. -/
theorem rteRibGetNxt_none (h : RibShows rib M) (ip : UInt32) (hdepth : depth ≤ 32) :
    rteRibGetNxt rib ip depth none true = (covers rib ip depth).head? := by
  rcases covers_cases h ip hdepth with ⟨hnil, hnone, -⟩
    | ⟨curIp, d, valid, nh, left, right, parents, hin, -, hd, hcov, hcovers, hnxt, -⟩
  · rw [hnil, hnone]
    rfl
  rw [hcovers, hnxt]
  have hfull := h.full
  rw [← hin.plugged] at hfull
  obtain ⟨hfull, -⟩ := hfull.of_plug
  obtain ⟨-, hd32, -, hcur, hl, hr⟩ := id hin.below
  by_cases hself : d = depth
  · -- the prefix itself is no answer
    rw [below_of_eq hself]
    have hnot : ¬ isMoreSpecific ip depth (.node curIp d valid nh left right) = true := by
      intro hc
      have := ((isMoreSpecific_iff hdepth).mp hc).2.2
      omega
    obtain ⟨-, hfl, hfr⟩ := hfull
    unfold descend
    dsimp only
    rw [if_neg (fun hc => hnot hc.1), if_neg hnot]
    by_cases hlast : d < 32
    · by_cases hnull : left.isNull = true
      · rw [if_neg (not_not.mpr hnull)]
        cases left with
        | node => cases hnull
        | null =>
          show _ = (topmost right _).head?
          cases right with
          | null => rfl
          | node =>
            exact descend_inside hdepth hr hfr (by omega) (side_inside hd hlast hcur hcov true) _
              rfl none
      · have hnull' : left.isNull = false := (Bool.not_eq_true _).mp hnull
        rw [if_pos hnull, head?_append_of_ne_nil (topmost_ne_nil hfl hnull' _)]
        exact descend_inside hdepth hl hfl (by omega) (side_inside hd hlast hcur hcov false) _
          hnull' none
    · rw [hl.eq_null (by omega), hr.eq_null (by omega)]
      rfl
  · rw [below_of_ne hself]
    refine descend_inside hdepth (hin.below.sink (le_refl d) hcur) hfull (by omega)
      (fun a ha => ?_) _ rfl none
    rw [← trunc_trunc hd hd32 a, ha, hcov]

/-- Every cover is a more specific route of the prefix. -/
theorem covers_at (h : RibShows rib M) (hdepth : depth ≤ 32) (hc : c ∈ covers rib ip depth) :
    ∃ d p nh, c.At rib.tree d p nh ∧ M d p = some nh ∧ depth < d ∧ d ≤ 32
      ∧ trunc 32 d p = p ∧ trunc 32 depth p = trunc 32 depth ip.toNat := by
  rcases covers_cases h ip hdepth with ⟨hnil, -⟩
    | ⟨curIp, d, valid, nh, left, right, parents, hin, -, hd, hcov, hcovers, -⟩
  · rw [hnil] at hc
    cases hc
  rw [hcovers] at hc
  obtain ⟨-, hd32, -, hcur, hl, hr⟩ := id hin.below
  have hM : ∀ e p v, Route (.node curIp d valid nh left right) e p v → M e p = some v := by
    intro e p v hroute
    refine (h.holds e p v).mp ?_
    rw [← hin.plugged, route_plug]
    exact Or.inl hroute
  by_cases hself : d = depth
  · rw [below_of_eq hself, mem_append] at hc
    by_cases hlast : d < 32
    · rcases hc with hc | hc
      · obtain ⟨e, p, v, hat, hroute⟩ := topmost_at (hin.down hlast false) hc
        obtain ⟨hlt, he, hside, hp⟩ := hl.route hroute
        exact ⟨e, p, v, hat, hM e p v (Or.inr (Or.inl hroute)), by omega, he, hp,
          side_inside hd hlast hcur hcov false p hside⟩
      · obtain ⟨e, p, v, hat, hroute⟩ := topmost_at (hin.down hlast true) hc
        obtain ⟨hlt, he, hside, hp⟩ := hr.route hroute
        exact ⟨e, p, v, hat, hM e p v (Or.inr (Or.inr hroute)), by omega, he, hp,
          side_inside hd hlast hcur hcov true p hside⟩
    · rw [hl.eq_null (by omega), hr.eq_null (by omega)] at hc
      rcases hc with hc | hc
      · cases hc
      · cases hc
  · rw [below_of_ne hself] at hc
    obtain ⟨e, p, v, hat, hroute⟩ := topmost_at hin hc
    obtain ⟨hle, he, hside, hp⟩ := (hin.below.sink (le_refl d) hcur).route hroute
    refine ⟨e, p, v, hat, hM e p v hroute, by omega, he, hp, ?_⟩
    rw [← trunc_trunc hd hd32 p, hside, hcov]

/-- The ranges of the covers lie one behind the other. -/
theorem covers_pairwise (h : RibShows rib M) (ip : UInt32) (hdepth : depth ≤ 32) :
    (covers rib ip depth).Pairwise Before := by
  rcases covers_cases h ip hdepth with ⟨hnil, -⟩
    | ⟨curIp, d, valid, nh, left, right, parents, hin, -, hd, -, hcovers, -⟩
  · rw [hnil]
    exact List.Pairwise.nil
  rw [hcovers]
  by_cases hself : d = depth
  · rw [below_of_eq hself]
    by_cases hlast : d < 32
    · exact sides_pairwise hin hlast (topmost_pairwise (hin.down hlast false))
        (topmost_pairwise (hin.down hlast true))
    · obtain ⟨-, -, -, -, hl, hr⟩ := hin.below
      rw [hl.eq_null (by omega), hr.eq_null (by omega)]
      exact List.Pairwise.nil
  · rw [below_of_ne hself]
    exact topmost_pairwise hin

/-- Every more specific route is covered by one of the covers. -/
theorem covers_complete (h : RibShows rib M) (hdepth : depth ≤ 32) {e q v : ℕ} (hM : M e q = some v)
    (he : depth < e) (hq : trunc 32 depth q = trunc 32 depth ip.toNat) :
    ∃ c ∈ covers rib ip depth, rteRibGetDepth c ≤ e
      ∧ trunc 32 (rteRibGetDepth c) q = (rteRibGetIp c).toNat := by
  have hroute := (h.holds e q v).mpr hM
  rcases covers_cases h ip hdepth with ⟨-, -, hnone⟩
    | ⟨curIp, d, valid, nh, left, right, parents, hin, -, hd, -, hcovers, -, hall⟩
  · exact absurd hq (hnone e q v hroute he)
  have hroute' := hall e q v hroute he hq
  rw [hcovers]
  by_cases hself : d = depth
  · rw [below_of_eq hself]
    rcases hin.below.route_cases hroute' with ⟨-, rfl, -⟩ | ⟨b, hb, hlt, hle, -⟩
    · omega
    · cases b with
      | false =>
        obtain ⟨c, hc, hcov⟩ := topmost_complete (hin.down (by omega) false) hb
        exact ⟨c, mem_append.mpr (Or.inl hc), hcov⟩
      | true =>
        obtain ⟨c, hc, hcov⟩ := topmost_complete (hin.down (by omega) true) hb
        exact ⟨c, mem_append.mpr (Or.inr hc), hcov⟩
  · rw [below_of_ne hself]
    exact topmost_complete hin hroute'

/-- Two elements of a list whose elements are related in their order. -/
theorem pairwise_cases {α : Type*} {R : α → α → Prop} {l : List α} (h : l.Pairwise R) {a b : α}
    (ha : a ∈ l) (hb : b ∈ l) : a = b ∨ R a b ∨ R b a := by
  induction h with
  | nil => cases ha
  | cons hrel _ ih =>
    rcases mem_cons.mp ha with rfl | hal
    · rcases mem_cons.mp hb with rfl | hbl
      · exact Or.inl rfl
      · exact Or.inr (Or.inl (hrel b hbl))
    · rcases mem_cons.mp hb with rfl | hbl
      · exact Or.inr (Or.inr (hrel a hal))
      · exact ih hal hbl

/-- **The covers are the routes that are not covered** by another one that is
more specific than the prefix. -/
theorem exists_mem_covers_iff (h : RibShows rib M) (hdepth : depth ≤ 32) {p : ℕ} :
    (∃ c ∈ covers rib ip depth, rteRibGetDepth c = d ∧ (rteRibGetIp c).toNat = p)
      ↔ M d p ≠ none ∧ depth < d ∧ d ≤ 32 ∧ trunc 32 d p = p
        ∧ trunc 32 depth p = trunc 32 depth ip.toNat
        ∧ ∀ e, depth < e → e < d → M e (trunc 32 e p) = none := by
  constructor
  · rintro ⟨c, hc, rfl, rfl⟩
    obtain ⟨d, p, v, hat, hM, hlt, hd, hp, hcov⟩ := covers_at h hdepth hc
    rw [hat.get.1, hat.get.2.1]
    refine ⟨by simp [hM], hlt, hd, hp, hcov, fun e he hed => ?_⟩
    -- a route in between would be on the walk
    cases hMe : M e (trunc 32 e p) with
    | none => rfl
    | some u =>
      have hcov' : trunc 32 depth (trunc 32 e p) = trunc 32 depth ip.toNat := by
        rw [trunc_trunc (le_of_lt he) (by omega), hcov]
      obtain ⟨c', hc', hle, hc'cov⟩ := covers_complete h hdepth hMe he hcov'
      obtain ⟨d', p', v', hat', -, -, -, hp', -⟩ := covers_at h hdepth hc'
      rw [hat'.get.1] at hle hc'cov
      rw [hat'.get.2.1, trunc_trunc hle (by omega)] at hc'cov
      -- both have the address `p`
      have hmem := (trunc_eq_iff_mem hp).mp hp
      have hmem' := (trunc_eq_iff_mem hp').mp hc'cov
      have hbefore : ∀ {c c' : Cursor}, Before c c' →
          (rteRibGetIp c).toNat + 2 ^ (32 - rteRibGetDepth c) ≤ (rteRibGetIp c').toNat := id
      rcases pairwise_cases (covers_pairwise h ip hdepth) hc hc' with heq | hb | hb
      · have hdd := hat.get.1
        rw [heq, hat'.get.1] at hdd
        omega
      · have hle' := hbefore hb
        rw [hat.get.1, hat.get.2.1, hat'.get.2.1] at hle'
        omega
      · have hle' := hbefore hb
        rw [hat'.get.1, hat'.get.2.1, hat.get.2.1] at hle'
        omega
  · rintro ⟨hM, hlt, hd, hp, hcov, hbetween⟩
    obtain ⟨v, hv⟩ := Option.ne_none_iff_exists'.mp hM
    obtain ⟨c, hc, hle, hccov⟩ := covers_complete h hdepth hv hlt hcov
    obtain ⟨d', p', v', hat', hM', hlt', -, -, -⟩ := covers_at h hdepth hc
    obtain ⟨hcd, hcp, -⟩ := hat'.get
    rw [hcd] at hle hccov
    have hp' : trunc 32 d' p = p' := hccov.trans hcp
    have hdd : d' = d := by
      by_contra hne
      have hnone := hbetween d' hlt' (by omega)
      rw [hp', hM'] at hnone
      cases hnone
    refine ⟨c, hc, hcd.trans hdd, ?_⟩
    rw [hcp, ← hp', hdd, hp]

/-- The next answer of the walk is the next of the covers. -/
theorem rteRibGetNxt_some (h : RibShows rib M) (hdepth : depth ≤ 32)
    (hc : covers rib ip depth = before ++ c :: after) :
    rteRibGetNxt rib ip depth (some c) true = after.head? := by
  have hmem : c ∈ covers rib ip depth := by
    rw [hc]
    exact mem_append.mpr (Or.inr mem_cons_self)
  obtain ⟨e, p, v, ⟨hcin, cip, cl, cr, hnode, hp⟩, -, hlt, he, hep, hdp⟩ := covers_at h hdepth hmem
  have hfull := h.full
  rw [← hcin.plugged] at hfull
  rcases covers_cases h ip hdepth with ⟨hnil, -⟩
    | ⟨curIp, d, valid, nh, left, right, parents, hin, hupper, hd, -, hcovers, -⟩
  · rw [hnil] at hmem
    cases hmem
  obtain ⟨-, -, -, hcur, hl, hr⟩ := id hin.below
  have hclear : Clear depth parents := fun f hf hf' => absurd (hupper f hf) (by omega)
  -- nothing is to come after the node where the walk started
  have hend : toCome depth (.node curIp d valid nh left right) parents = [] := by
    cases parents with
    | nil => rfl
    | cons f parents => exact if_pos (hupper f mem_cons_self)
  have hboth : toCome depth c.node c.parents = after ∧ Clear depth c.parents := by
    rw [hcovers] at hc hmem
    by_cases hself : d = depth
    · rw [below_of_eq hself] at hc hmem
      refine ⟨?_, ?_⟩
      · rw [toCome_sides hd (fun _ _ h' => toCome_topmost hl (by omega) h')
          (fun _ _ h' => toCome_topmost hr (by omega) h') hc, hend, append_nil]
      · have hcons : ∀ f : Frame, f.depth = d → Clear depth (f :: parents) := by
          intro f hf g hg hg'
          rcases mem_cons.mp hg with rfl | hg
          · omega
          · exact hclear g hg hg'
        rcases mem_append.mp hmem with hmem | hmem
        · exact clear_topmost (hcons _ rfl) hmem
        · exact clear_topmost (hcons _ rfl) hmem
    · rw [below_of_ne hself] at hc hmem
      refine ⟨?_, clear_topmost hclear hmem⟩
      rw [toCome_topmost (hin.below.sink (le_refl d) hcur) hd hc, hend, append_nil]
  have hbelow := hcin.below
  rw [hnode] at hbelow
  have hip : trunc 32 depth cip.toNat = trunc 32 depth ip.toNat := by rw [hp, hdp]
  have hasc := ascend_eq hdepth hcin.above hfull.of_plug.2 hboth.2 hbelow.2.2.1 hip c.node
  rw [hboth.1] at hasc
  unfold rteRibGetNxt
  rw [if_neg (by omega)]
  exact hasc

end Rib
