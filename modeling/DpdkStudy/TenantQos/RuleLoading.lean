import DpdkStudy.TenantQos.Context
import Mathlib.Data.Finset.Card
import Mathlib.Data.Finset.Insert

/-!
# What loading a rules file installs

`dp_cli_load_rules` reads its file in pieces that fit a buffer of 256 characters, and
it ends at the first rule that the classifier has no room for. In both cases it says that it
has succeeded. What it has installed are the rules among the pieces up to that one
(`Loaded.load`), and these are to be compared with the rules among the lines
(`loadsAll_iff`). Where each line fits the buffer, all rules have been installed exactly
if they have no more keys than there is room (`loadsAll_iff_of_short`).

The hash table has a number of entries, and refuses a new key when all of them are in use
(`RteHash.Keeps`).
-/

open List Option

namespace TenantQos

open CText

/-! ## Rules -/

/-- **A rule**: a key and its action. -/
abbrev DpRule := DpFlowKey × DpFlowAction

/-- The rule of a line, if it is not a comment or empty. -/
def ruleOf (line : List Char) : Option DpRule :=
  if line.head? = some '#' ∨ line.head? = some '\n' then none else dpParseRuleLine line

/-- The last rule for which a condition holds. -/
def lastRule (p : DpRule → Prop) [DecidablePred p] (rules : List DpRule) : Option DpRule :=
  rules.foldl (fun last rule => if p rule then some rule else last) none

/-- The action of the last rule for a key. -/
def lastAction (key : DpFlowKey) (rules : List DpRule) : Option DpFlowAction :=
  (lastRule (fun rule => rule.1 = key) rules).map Prod.snd

/-- The rate of the last rule that names a policy. -/
def lastRate (policyId : ℕ) (rules : List DpRule) : Option UInt64 :=
  (lastRule (fun rule => rule.2.policyId.toNat = policyId) rules).map
    fun rule => rule.2.rateLimitBps

/-- The keys of rules. -/
def keysOf (rules : List DpRule) : Finset DpFlowKey := (rules.map Prod.fst).toFinset

/-- **The rules that find room**: up to the first one that would need another entry when all
are in use. -/
def withRoom (entries : ℕ) : List DpRule → List DpRule → List DpRule
  | done, [] => done
  | done, rule :: rules =>
    if rule.1 ∈ keysOf done ∨ (keysOf done).card < entries then
      withRoom entries (done ++ [rule]) rules
    else done

section Rules

variable {p : DpRule → Prop} [DecidablePred p]

@[simp] theorem lastRule_nil : lastRule p [] = none := rfl

@[simp] theorem lastRule_snoc (rules : List DpRule) (rule : DpRule) :
    lastRule p (rules ++ [rule]) = if p rule then some rule else lastRule p rules := by
  simp only [lastRule, foldl_append, foldl_cons, foldl_nil]

theorem lastRule_isSome {rules : List DpRule} (h : ∃ rule ∈ rules, p rule) :
    (lastRule p rules).isSome := by
  induction rules using reverseRecOn with
  | nil => simp at h
  | append_singleton rules rule ih =>
    rw [lastRule_snoc]
    split
    · rfl
    · next hrule =>
      refine ih ?_
      obtain ⟨r, hr, hp⟩ := h
      rcases mem_append.mp hr with hr | hr
      · exact ⟨r, hr, hp⟩
      · obtain rfl := mem_singleton.mp hr
        exact absurd hp hrule

theorem of_lastRule {rules : List DpRule} {rule : DpRule} (h : lastRule p rules = some rule) :
    rule ∈ rules ∧ p rule := by
  induction rules using reverseRecOn with
  | nil => simp at h
  | append_singleton rules r ih =>
    rw [lastRule_snoc] at h
    split at h
    · next hr =>
      obtain rfl := some.inj h
      exact ⟨by simp, hr⟩
    · obtain ⟨hmem, hp⟩ := ih h
      exact ⟨mem_append_left _ hmem, hp⟩

end Rules

@[simp] theorem keysOf_nil : keysOf [] = ∅ := rfl

@[simp] theorem keysOf_snoc (rules : List DpRule) (rule : DpRule) :
    keysOf (rules ++ [rule]) = insert rule.1 (keysOf rules) := by
  ext key
  simp [keysOf]

@[simp] theorem mem_keysOf {key : DpFlowKey} {rules : List DpRule} :
    key ∈ keysOf rules ↔ ∃ rule ∈ rules, rule.1 = key := by
  simp [keysOf]

theorem keysOf_mono {rules rules' : List DpRule} (h : rules ⊆ rules') :
    keysOf rules ⊆ keysOf rules' := by
  intro key hkey
  obtain ⟨rule, hmem, rfl⟩ := mem_keysOf.mp hkey
  exact mem_keysOf.mpr ⟨rule, h hmem, rfl⟩

theorem lastAction_eq_none_iff {key : DpFlowKey} {rules : List DpRule} :
    lastAction key rules = none ↔ key ∉ keysOf rules := by
  rw [lastAction, map_eq_none_iff, mem_keysOf]
  constructor
  · intro h hex
    have hsome := lastRule_isSome hex
    rw [h] at hsome
    exact absurd hsome Bool.false_ne_true
  · intro h
    by_contra hne
    obtain ⟨rule, hrule⟩ := ne_none_iff_exists'.mp hne
    exact h ⟨rule, of_lastRule hrule⟩

theorem withRoom_eq_append {entries : ℕ} {done rules : List DpRule}
    (h : (keysOf (done ++ rules)).card ≤ entries) :
    withRoom entries done rules = done ++ rules := by
  induction rules generalizing done with
  | nil => simp [withRoom]
  | cons rule rules ih =>
    have hassoc : done ++ rule :: rules = done ++ [rule] ++ rules := by simp
    rw [hassoc] at h ⊢
    rw [withRoom, if_pos, ih h]
    by_contra hnot
    rw [not_or, not_lt] at hnot
    obtain ⟨hnew, hfull⟩ := hnot
    have hcard := Finset.card_le_card (keysOf_mono (subset_append_left (done ++ [rule]) rules))
    rw [keysOf_snoc, Finset.card_insert_of_notMem hnew] at hcard
    omega

theorem exists_key_not_withRoom {entries : ℕ} {done rules : List DpRule}
    (hdone : (keysOf done).card ≤ entries) (h : entries < (keysOf (done ++ rules)).card) :
    ∃ rule ∈ rules, rule.1 ∉ keysOf (withRoom entries done rules) := by
  induction rules generalizing done with
  | nil => simp at h; omega
  | cons rule rules ih =>
    rw [withRoom]
    by_cases hroom : rule.1 ∈ keysOf done ∨ (keysOf done).card < entries
    · rw [if_pos hroom]
      have hassoc : done ++ rule :: rules = done ++ [rule] ++ rules := by simp
      rw [hassoc] at h
      have hcard : (keysOf (done ++ [rule])).card ≤ entries := by
        rw [keysOf_snoc]
        rcases hroom with hmem | hlt
        · rwa [Finset.insert_eq_self.mpr hmem]
        · exact (Finset.card_insert_le _ _).trans hlt
      obtain ⟨r, hr, hnot⟩ := ih hcard h
      exact ⟨r, mem_cons_of_mem _ hr, hnot⟩
    · rw [if_neg hroom]
      exact ⟨rule, mem_cons_self, fun hmem => hroom (Or.inl hmem)⟩

/-! ## The hash table -/

variable {H : RteHash}

/-- **What the classifier is promised of its hash table.** A table holds keys, each under an
index of its own that stays, below the number of entries. A new key is refused when all
entries are in use. -/
structure RteHash.Keeps (H : RteHash) (keys : H.Table → Finset DpFlowKey)
    (entries : H.Table → ℕ) : Prop where
  create : ∀ {n t}, H.create n = some t → keys t = ∅ ∧ entries t = n.toNat
  add : ∀ {t key}, key ∈ keys t ∨ (keys t).card < entries t →
    0 ≤ (H.addKey t key).1 ∧ (H.addKey t key).1 < entries t ∧
      keys (H.addKey t key).2 = insert key (keys t) ∧
      entries (H.addKey t key).2 = entries t ∧
      H.lookup (H.addKey t key).2 key = (H.addKey t key).1
  full : ∀ {t key}, key ∉ keys t → entries t ≤ (keys t).card →
    (H.addKey t key).1 < 0 ∧ keys (H.addKey t key).2 = keys t
  lookup_other : ∀ {t key other}, other ≠ key →
    H.lookup (H.addKey t key).2 other = H.lookup t other
  lookup_absent : ∀ {t key}, key ∉ keys t → H.lookup t key < 0
  lookup_inj : ∀ {t key other}, key ∈ keys t → other ∈ keys t →
    H.lookup t key = H.lookup t other → key = other

variable {keys : H.Table → Finset DpFlowKey} {entries : H.Table → ℕ}

/-- **Rules that have been installed.** -/
structure Installed (context : DpContext H) (rules : List DpRule) : Prop where
  actions : ∀ key, dpClassifyLookup context.classifier key = lastAction key rules
  policies : ∀ id, (context.qos.policies id).rateLimitBps = (lastRate id rules).getD 0

/-- **Rules that have been installed**, and a hash table with their keys. -/
structure Loaded (keys : H.Table → Finset DpFlowKey) (entries : H.Table → ℕ)
    (context : DpContext H) (rules : List DpRule) : Prop
    extends Installed context rules where
  keys_eq : keys context.classifier.hash = keysOf rules
  entries_eq : entries context.classifier.hash = context.classifier.maxRules.toNat

/-- The rates of the policies after one more rule. -/
theorem Installed.rate {context : DpContext H} {rules : List DpRule}
    (h : Installed context rules) (rule : DpRule) (id : Fin dpMaxPolicies) :
    ((dpQosUpdatePolicy context.qos rule.2.policyId rule.2.rateLimitBps).policies
      id).rateLimitBps = (lastRate id (rules ++ [rule])).getD 0 := by
  rw [lastRate, lastRule_snoc, dpQosUpdatePolicy]
  split
  · next hlt =>
    by_cases hid : rule.2.policyId.toNat = id
    · have heq : (⟨rule.2.policyId.toNat, hlt⟩ : Fin dpMaxPolicies) = id := Fin.ext hid
      simp only [if_pos hid, heq, Function.update_self, map_some, getD_some]
    · have hne : id ≠ (⟨rule.2.policyId.toNat, hlt⟩ : Fin dpMaxPolicies) := by
        rintro rfl
        exact hid rfl
      simp only [if_neg hid, Function.update_of_ne hne]
      exact h.policies id
  · next hge =>
    have hne : rule.2.policyId.toNat ≠ id := fun hid => hge (hid ▸ id.isLt)
    rw [if_neg hne]
    exact h.policies id

theorem Loaded.add (hH : H.Keeps keys entries) {context : DpContext H} {rules : List DpRule}
    (h : Loaded keys entries context rules) {rule : DpRule}
    (hroom : rule.1 ∈ keysOf rules ∨ (keysOf rules).card < context.classifier.maxRules.toNat) :
    (dpClassifyAdd context.classifier rule.1 rule.2).1 = 0 ∧
      Loaded keys entries { context with
        classifier := (dpClassifyAdd context.classifier rule.1 rule.2).2
        qos := dpQosUpdatePolicy context.qos rule.2.policyId rule.2.rateLimitBps }
        (rules ++ [rule]) := by
  rw [← h.keys_eq, ← h.entries_eq] at hroom
  obtain ⟨hpos, hlt, hkeys, hentries, hlookup⟩ := hH.add hroom
  rw [h.entries_eq] at hlt
  have hidx : ¬ ((H.addKey context.classifier.hash rule.1).1 < 0 ∨
      (context.classifier.maxRules.toNat : ℤ) ≤
        (H.addKey context.classifier.hash rule.1).1) := by
    omega
  have hadd : dpClassifyAdd context.classifier rule.1 rule.2 =
      (0, { context.classifier with
        hash := (H.addKey context.classifier.hash rule.1).2
        actions := Function.update context.classifier.actions
          (H.addKey context.classifier.hash rule.1).1.toNat rule.2 }) := by
    rw [dpClassifyAdd]
    exact if_neg hidx
  rw [hadd]
  refine ⟨rfl, ⟨fun key => ?_, h.rate rule⟩, ?_, hentries.trans h.entries_eq⟩
  · rw [lastAction, lastRule_snoc]
    by_cases hkey : rule.1 = key
    · rw [if_pos hkey, dpClassifyLookup]
      simp only [← hkey, hlookup, if_neg hidx, Function.update_self, map_some]
    · rw [if_neg hkey]
      refine Eq.trans ?_ (h.actions key)
      rw [dpClassifyLookup, dpClassifyLookup]
      simp only [hH.lookup_other (Ne.symm hkey)]
      split
      · rfl
      · next hin =>
        -- Another key has another index.
        have hmem : key ∈ keys context.classifier.hash := by
          by_contra hnot
          exact hin (Or.inl (hH.lookup_absent hnot))
        have hne : (H.lookup context.classifier.hash key).toNat ≠
            (H.addKey context.classifier.hash rule.1).1.toNat := by
          intro heq
          refine hkey (@RteHash.Keeps.lookup_inj H keys entries hH
            (H.addKey context.classifier.hash rule.1).2 _ _ ?_ ?_ ?_)
          · rw [hkeys]
            exact Finset.mem_insert_self _ _
          · rw [hkeys]
            exact Finset.mem_insert_of_mem hmem
          · rw [hlookup, hH.lookup_other (Ne.symm hkey)]
            omega
        rw [Function.update_of_ne hne]
  · rw [keysOf_snoc, ← h.keys_eq]
    exact hkeys

theorem Loaded.refuse (hH : H.Keeps keys entries) {context : DpContext H} {rules : List DpRule}
    (h : Loaded keys entries context rules) {rule : DpRule}
    (hroom : ¬ (rule.1 ∈ keysOf rules ∨
      (keysOf rules).card < context.classifier.maxRules.toNat)) :
    (dpClassifyAdd context.classifier rule.1 rule.2).1 ≠ 0 ∧
      Installed { context with
        classifier := (dpClassifyAdd context.classifier rule.1 rule.2).2 } rules := by
  rw [not_or, not_lt, ← h.keys_eq, ← h.entries_eq] at hroom
  obtain ⟨hneg, hkeys⟩ := hH.full hroom.1 hroom.2
  have hadd : dpClassifyAdd context.classifier rule.1 rule.2 =
      (-1, { context.classifier with hash := (H.addKey context.classifier.hash rule.1).2 }) := by
    rw [dpClassifyAdd]
    exact if_pos (Or.inl hneg)
  rw [hadd]
  refine ⟨Int.neg_ne_zero.mpr Int.one_ne_zero, fun key => ?_, h.policies⟩
  refine Eq.trans ?_ (h.actions key)
  rw [dpClassifyLookup, dpClassifyLookup]
  by_cases hkey : key = rule.1
  · have hnot : rule.1 ∉ keys (H.addKey context.classifier.hash rule.1).2 := by
      rw [hkeys]
      exact hroom.1
    rw [hkey]
    simp only [hH.lookup_absent hnot, hH.lookup_absent hroom.1, true_or, if_true]
  · simp only [hH.lookup_other hkey]

theorem Loaded.load (hH : H.Keeps keys entries) {context : DpContext H} {rules : List DpRule}
    (h : Loaded keys entries context rules) (lines : List (List Char)) :
    Installed (dpLoadLines context lines)
      (withRoom context.classifier.maxRules.toNat rules (lines.filterMap ruleOf)) := by
  induction lines generalizing context rules with
  | nil => exact h.toInstalled
  | cons line lines ih =>
    rw [dpLoadLines]
    by_cases hskip : line.head? = some '#' ∨ line.head? = some '\n'
    · have hrule : ruleOf line = none := if_pos hskip
      rw [if_pos hskip, filterMap_cons_none hrule]
      exact ih h
    · have hrule : ruleOf line = dpParseRuleLine line := if_neg hskip
      rw [if_neg hskip]
      cases hparse : dpParseRuleLine line with
      | none =>
        rw [filterMap_cons_none (hrule.trans hparse)]
        exact ih h
      | some rule =>
        rw [filterMap_cons_some (hrule.trans hparse), withRoom]
        by_cases hroom : rule.1 ∈ keysOf rules ∨
            (keysOf rules).card < context.classifier.maxRules.toNat
        · obtain ⟨hret, hnext⟩ := h.add hH hroom
          have hmax : (dpClassifyAdd context.classifier rule.1 rule.2).2.maxRules =
              context.classifier.maxRules := by
            rw [dpClassifyAdd]
            dsimp only
            split <;> rfl
          have hload := ih hnext
          simp only [hmax] at hload
          rw [if_pos hroom]
          simpa only [hret, ne_eq, not_true_eq_false, if_false] using hload
        · obtain ⟨hret, hstop⟩ := h.refuse hH hroom
          rw [if_neg hroom]
          simpa only [hret, ne_eq, not_false_eq_true, if_true] using hstop

/-! ## What a file says, and what is installed -/

/-- The rules of the lines of a file. -/
def lineRules (text : List Char) : List DpRule := (fileLines text).filterMap ruleOf

/-- The rules of a file as it is read, in pieces. -/
def pieceRules (text : List Char) : List DpRule := (fgetsAll 256 text).filterMap ruleOf

/-- **All rules have been installed**, if the load says so: for each key the action of its
last rule, and for each policy the rate of the last rule that names it. -/
def LoadsAll (fresh : DpContext H) (text : List Char) : Prop :=
  ∀ context, dpCliLoadRules fresh (some text) = (0, context) →
    ∀ rule ∈ lineRules text,
      dpClassifyLookup context.classifier rule.1 = lastAction rule.1 (lineRules text) ∧
      ∀ id : Fin dpMaxPolicies, rule.2.policyId.toNat = id →
        some (context.qos.policies id).rateLimitBps = lastRate id (lineRules text)

/-- **The pieces of a file say what its lines say**, as far as there is room. -/
def PiecesAgree (entries : ℕ) (text : List Char) : Prop :=
  ∀ rule ∈ lineRules text,
    lastAction rule.1 (withRoom entries [] (pieceRules text)) =
      lastAction rule.1 (lineRules text) ∧
    (rule.2.policyId.toNat < dpMaxPolicies →
      (lastRate rule.2.policyId.toNat (withRoom entries [] (pieceRules text))).getD 0 =
        (lastRate rule.2.policyId.toNat (lineRules text)).getD 0)

theorem lastRate_eq_some {rules : List DpRule} {rule : DpRule} (h : rule ∈ rules) :
    lastRate rule.2.policyId.toNat rules =
      some ((lastRate rule.2.policyId.toNat rules).getD 0) := by
  have hsome := @lastRule_isSome (fun r => r.2.policyId.toNat = rule.2.policyId.toNat) _ rules
    ⟨rule, h, rfl⟩
  obtain ⟨last, hlast⟩ := isSome_iff_exists.mp hsome
  rw [lastRate, hlast, map_some, getD_some]

/-- A context that has been initialised has no rules. -/
theorem loaded_init (hH : H.Keeps keys entries) {eal : DpEal} {config : DpConfig}
    {fresh : DpContext H} (hinit : dpContextInit eal config = some fresh) :
    Loaded keys entries fresh [] ∧ fresh.classifier.maxRules = config.maxRules := by
  simp only [dpContextInit] at hinit
  split_ifs at hinit
  obtain ⟨classifier, hclassifier, hctx⟩ := bind_eq_some_iff.mp hinit
  obtain rfl := some.inj hctx
  obtain ⟨hash, hcreate, hif⟩ := bind_eq_some_iff.mp hclassifier
  obtain ⟨-, hsome⟩ := ite_none_right_eq_some.mp hif
  obtain rfl := some.inj hsome
  obtain ⟨hkeys, hentries⟩ := hH.create hcreate
  refine ⟨⟨⟨fun key => ?_, fun id => rfl⟩, hkeys, hentries⟩, rfl⟩
  have habsent : H.lookup hash key < 0 := hH.lookup_absent (by rw [hkeys]; exact Finset.notMem_empty _)
  rw [dpClassifyLookup]
  exact if_pos (Or.inl habsent)

/-- **When all rules have been installed**: exactly if the pieces that are loaded say what
the lines say. -/
theorem Loaded.tables_iff (hH : H.Keeps keys entries) {fresh : DpContext H}
    (h : Loaded keys entries fresh []) (text : List Char) :
    LoadsAll fresh text ↔ PiecesAgree fresh.classifier.maxRules.toNat text := by
  have hload : Installed _ (withRoom _ [] (pieceRules text)) := h.load hH (fgetsAll 256 text)
  have heq : ∀ context, dpCliLoadRules fresh (some text) = (0, context) ↔
      dpLoadLines fresh (fgetsAll 256 text) = context := by
    intro context
    rw [dpCliLoadRules, Prod.mk.injEq]
    exact and_iff_right rfl
  simp only [LoadsAll, heq, forall_eq']
  refine forall_congr' fun rule => forall_congr' fun hrule => ?_
  rw [hload.actions]
  refine and_congr_right fun _ => ?_
  constructor
  · intro hrate hlt
    have := hrate ⟨_, hlt⟩ rfl
    rw [hload.policies, lastRate_eq_some hrule] at this
    exact some.inj this
  · rintro hrate id hid
    rw [hload.policies, ← hid, hrate (hid ▸ id.isLt), ← lastRate_eq_some hrule]

/-- **Where each line fits the buffer**, the pieces agree exactly if there is room for all
keys. -/
theorem piecesAgree_iff_of_short {text : List Char} (hshort : ∀ l ∈ fileLines text, l.length ≤ 255)
    (entries : ℕ) : PiecesAgree entries text ↔ (keysOf (lineRules text)).card ≤ entries := by
  have hpieces : pieceRules text = lineRules text := by
    rw [pieceRules, fgetsAll_eq_fileLines (by decide) hshort, lineRules]
  rw [PiecesAgree, hpieces]
  constructor
  · intro h
    by_contra hmore
    obtain ⟨rule, hrule, hnot⟩ : ∃ rule ∈ lineRules text,
        rule.1 ∉ keysOf (withRoom entries [] (lineRules text)) :=
      exists_key_not_withRoom (Nat.zero_le _) (not_le.mp hmore)
    have hnone := lastAction_eq_none_iff.mpr hnot
    rw [(h rule hrule).1, lastAction_eq_none_iff] at hnone
    exact hnone (mem_keysOf.mpr ⟨rule, hrule, rfl⟩)
  · intro h rule _
    have hall : withRoom entries [] (lineRules text) = lineRules text := withRoom_eq_append h
    rw [hall]
    exact ⟨rfl, fun _ => rfl⟩

/-- **Loading is all or reported** exactly if the pieces of the file that find room say what
its lines say. Where each line fits the buffer, that is exactly if there is room for all
keys. -/
theorem loadsAll_iff (hH : H.Keeps keys entries) {eal : DpEal} {config : DpConfig}
    {fresh : DpContext H} (hinit : dpContextInit eal config = some fresh) (text : List Char) :
    (LoadsAll fresh text ↔ PiecesAgree config.maxRules.toNat text) ∧
    ((∀ line ∈ fileLines text, line.length ≤ 255) →
      (LoadsAll fresh text ↔ (keysOf (lineRules text)).card ≤ config.maxRules.toNat)) := by
  obtain ⟨hloaded, hmax⟩ := loaded_init hH hinit
  have hiff := hloaded.tables_iff hH text
  rw [hmax] at hiff
  exact ⟨hiff, fun hshort => hiff.trans (piecesAgree_iff_of_short hshort _)⟩

/-! ## Two files -/

/-- **A hash table that gives out indices in the order keys come**, and has as many entries as
were asked for. -/
def RteHash.indexed : RteHash where
  Table := {t : ℕ × List DpFlowKey // t.2.Nodup ∧ t.2.length ≤ t.1}
  create entries :=
    if entries < 8 then none
    else some ⟨(entries.toNat, []), List.nodup_nil, Nat.zero_le _⟩
  addKey t key :=
    if h : key ∈ t.1.2 then (t.1.2.idxOf key, t)
    else if hlt : t.1.2.length < t.1.1 then
      (t.1.2.length, ⟨(t.1.1, t.1.2 ++ [key]), List.nodup_append.mpr ⟨t.2.1, List.nodup_singleton _,
        fun _ ha _ hb hab => h (List.mem_singleton.mp hb ▸ hab ▸ ha)⟩, by
          rw [List.length_append]
          exact hlt⟩)
    else (-28, t)
  lookup t key := if key ∈ t.1.2 then t.1.2.idxOf key else -2

theorem RteHash.indexed_keeps :
    RteHash.indexed.Keeps (fun t => t.1.2.toFinset) (fun t => t.1.1) where
  create := by
    intro n t h
    simp only [RteHash.indexed] at h
    split_ifs at h
    obtain rfl := some.inj h
    exact ⟨rfl, rfl⟩
  add := by
    rintro ⟨⟨n, keys⟩, hnodup, hle⟩ key h
    simp only [List.mem_toFinset, toFinset_card_of_nodup hnodup] at h
    simp only [RteHash.indexed]
    by_cases hmem : key ∈ keys
    · have hlt := idxOf_lt_length_iff.mpr hmem
      simp only [dif_pos hmem, if_pos hmem]
      have hle' : keys.length ≤ n := hle
      refine ⟨by omega, by omega, ?_, trivial, trivial⟩
      exact (Finset.insert_eq_self.mpr (List.mem_toFinset.mpr hmem)).symm
    · have hlt : keys.length < n := h.resolve_left hmem
      simp only [dif_neg hmem, dif_pos hlt]
      refine ⟨by omega, by omega, by ext; simp, trivial, ?_⟩
      simp [idxOf_append, hmem]
  full := by
    rintro ⟨⟨n, keys⟩, hnodup, hle⟩ key hmem hfull
    simp only [List.mem_toFinset] at hmem
    simp only [toFinset_card_of_nodup hnodup] at hfull
    simp only [RteHash.indexed, dif_neg hmem, dif_neg (not_lt.mpr hfull)]
    exact ⟨by decide, trivial⟩
  lookup_other := by
    rintro ⟨⟨n, keys⟩, hnodup, hle⟩ key other hne
    simp only [RteHash.indexed]
    split_ifs <;> simp_all [idxOf_append]
  lookup_absent := by
    rintro ⟨⟨n, keys⟩, hnodup, hle⟩ key hmem
    simp only [List.mem_toFinset] at hmem
    simp only [RteHash.indexed, if_neg hmem]
    decide
  lookup_inj := by
    rintro ⟨⟨n, keys⟩, hnodup, hle⟩ key other hkey hother heq
    simp only [List.mem_toFinset] at hkey hother
    simp only [RteHash.indexed, if_pos hkey, if_pos hother, Int.natCast_inj] at heq
    exact (idxOf_inj hkey).mp heq

/-- A configuration for eight rules. -/
def eightRules : DpConfig := { dpConfigDefaults 1000000000 with maxRules := 8 }

/-- The context of `eightRules` before any rule. -/
def roomForEight : DpContext RteHash.indexed :=
  (dpContextInit ⟨[0], true, true⟩ eightRules).get (by decide)

theorem roomForEight_init :
    dpContextInit ⟨[0], true, true⟩ eightRules = some roomForEight :=
  (some_get _).symm

/-- A rule for a source port. -/
def portLine (port : Nat) : List Char :=
  "1.2.3.4,5.6.7.8,".toList ++ Nat.toDigits 10 port ++ ",1,17,0,0,5\n".toList

/-- Two rules for one key, and another one. -/
theorem loadsAll_three_lines :
    LoadsAll roomForEight (portLine 1 ++ portLine 2 ++ portLine 1) := by
  have hshort : ∀ line ∈ fileLines (portLine 1 ++ portLine 2 ++ portLine 1),
      line.length ≤ 255 := by decide
  refine ((loadsAll_iff RteHash.indexed_keeps roomForEight_init _).2 hshort).mpr ?_
  decide

/-- **A load succeeds without its last rule** when there is room for eight keys and the file
has nine. -/
theorem load_leaves_ninth_rule_out :
    ¬ ∀ (eal : DpEal) (config : DpConfig) (fresh : DpContext RteHash.indexed) (text : List Char),
      dpContextInit eal config = some fresh → LoadsAll fresh text := by
  intro h
  have hall := h _ _ _ ((range 9).flatMap portLine) roomForEight_init _ rfl
  have hrule : ∃ rule ∈ lineRules ((range 9).flatMap portLine),
      dpClassifyLookup (dpLoadLines roomForEight
        (fgetsAll 256 ((range 9).flatMap portLine))).classifier rule.1 ≠
        lastAction rule.1 (lineRules ((range 9).flatMap portLine)) := by
    decide +kernel
  obtain ⟨rule, hmem, hne⟩ := hrule
  exact hne (hall rule hmem).1

end TenantQos
