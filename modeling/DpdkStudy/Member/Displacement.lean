import DpdkStudy.Lib.Places
import DpdkStudy.Member.Ht
import Mathlib.Data.Fintype.Prod
import Mathlib.Data.Sym.Sym2

/-!
# Displaced entries

An entry is known by its signature, by the two buckets it may be in, and by its set. Which of
the two it is in does not matter (`entry_nextBucket`), so the table holds the same entries when
an entry is pushed to its other bucket.

`makeSpaceBucket` keeps the entries that the table holds but for one slot of the bucket, which
it returns to be overwritten (`MadeSpace`). A bucket in which an entry is being pushed has no
entry whose other bucket has room, and a table in which that holds of every bucket is `Pushing`.
So a bucket that is come to again has no room to offer, none of its marked entries is pushed
twice, and where no room is found the table is what it was.
-/

namespace Member

open Places

variable {K : Type} {ss : RteMemberSetsum K}

/-! ## The two buckets of an entry -/

/-- **The other bucket of the other bucket** is the bucket. -/
@[simp]
theorem nextBucket_nextBucket (sig : BitVec 16) (b : Fin ss.bucket_cnt) :
    ss.nextBucket sig (ss.nextBucket sig b) = b := by
  obtain ⟨k, hk⟩ := ss.bucket_cnt_eq
  have hlt : b.val < 2 ^ k := hk ▸ b.isLt
  have hmask : ss.bucket_mask = 2 ^ k - 1 := ss.bucket_mask_eq.trans (congrArg (· - 1) hk)
  refine Fin.ext ?_
  show (sig.toNat ^^^ ((sig.toNat ^^^ b.val) &&& ss.bucket_mask)) &&& ss.bucket_mask = b.val
  rw [hmask, Nat.and_two_pow_sub_one_eq_mod, Nat.and_two_pow_sub_one_eq_mod,
    Nat.xor_mod_two_pow, Nat.mod_mod, Nat.xor_mod_two_pow, ← Nat.xor_assoc, Nat.xor_self,
    Nat.zero_xor, Nat.mod_eq_of_lt hlt]

/-- **An entry**: a signature, the buckets it may be in, and a set. -/
abbrev Entry (ss : RteMemberSetsum K) : Type := BitVec 16 × Sym2 (Fin ss.bucket_cnt) × BitVec 16

/-- The entry of a signature and a set in a bucket. -/
def RteMemberSetsum.entry (ss : RteMemberSetsum K) (b : Fin ss.bucket_cnt)
    (sig set_id : BitVec 16) : Entry ss :=
  (sig, s(b, ss.nextBucket sig b), set_id)

/-- **Either bucket will do.** -/
@[simp]
theorem entry_nextBucket (b : Fin ss.bucket_cnt) (sig set_id : BitVec 16) :
    ss.entry (ss.nextBucket sig b) sig set_id = ss.entry b sig set_id := by
  rw [RteMemberSetsum.entry, RteMemberSetsum.entry, nextBucket_nextBucket, Sym2.eq_swap]

/-! ## Slots -/

/-- The place of a slot: its bucket and its number there. -/
abbrev Place (ss : RteMemberSetsum K) : Type := Fin ss.bucket_cnt × Fin rteMemberBucketEntries

namespace RteMemberSetsum.Table

/-- What is in a slot: a signature and a set id. -/
def slot (t : ss.Table) (p : Place ss) : BitVec 16 × BitVec 16 :=
  ((t p.1).sigs p.2, (t p.1).sets p.2)

variable (t : ss.Table) (b : Fin ss.bucket_cnt) (i : Fin rteMemberBucketEntries)

theorem ext_slot {t t' : ss.Table} (h : ∀ p, t.slot p = t'.slot p) : t = t' := by
  funext b
  have hsigs : (t b).sigs = (t' b).sigs := funext fun i => congrArg Prod.fst (h (b, i))
  have hsets : (t b).sets = (t' b).sets := funext fun i => congrArg Prod.snd (h (b, i))
  cases hb : t b
  cases hb' : t' b
  simp_all only

theorem slot_put (sig set_id : BitVec 16) (p : Place ss) :
    (t.put b i sig set_id).slot p = if p = (b, i) then (sig, set_id) else t.slot p := by
  obtain ⟨c, j⟩ := p
  by_cases hc : c = b
  · subst hc
    by_cases hj : j = i
    · subst hj
      simp [slot, put]
    · simp [slot, put, hj]
  · simp [slot, put, hc]

theorem slot_putSet (set_id : BitVec 16) (p : Place ss) :
    (t.putSet b i set_id).slot p = if p = (b, i) then ((t b).sigs i, set_id) else t.slot p := by
  obtain ⟨c, j⟩ := p
  by_cases hc : c = b
  · subst hc
    by_cases hj : j = i
    · subst hj
      simp [slot, putSet]
    · simp [slot, putSet, hj]
  · simp [slot, putSet, hc]

/-- A bucket in which every slot has a set. -/
def Full : Prop := ∀ i, (t b).sets i ≠ rteMemberNoMatch

/-- **The entries of a slot**: none without a set, else the one that it holds. The mark of an
entry that is being pushed does not count. -/
def content (p : Place ss) : Multiset (Entry ss) :=
  if (t.slot p).2 = rteMemberNoMatch then 0
  else {ss.entry p.1 (t.slot p).1 ((t.slot p).2 &&& ~~~flagMask)}

/-- **The entries that a table holds.** -/
def entries : Multiset (Entry ss) := ∑ p, t.content p

/-- **Tables that are being searched for room**: where an entry of a bucket is marked, the other
bucket of every entry of the bucket is full. -/
def Pushing : Prop := ∀ b i, (t b).sets i &&& flagMask ≠ 0 →
  ∀ j, t.Full (ss.nextBucket ((t b).sigs j) b)

variable {t b i}

theorem content_of_noMatch {p : Place ss} (h : (t.slot p).2 = rteMemberNoMatch) :
    t.content p = 0 := by
  rw [content, h]
  rfl

/-- What is in a slot decides what entries it holds. -/
theorem content_congr {t t' : ss.Table} {p : Place ss} (h : t'.slot p = t.slot p) :
    t'.content p = t.content p := by
  rw [content, content, h]

theorem content_moved {t t' : ss.Table} {j : Fin rteMemberBucketEntries}
    (h : t'.slot (ss.nextBucket ((t b).sigs i) b, j) = t.slot (b, i)) :
    t'.content (ss.nextBucket ((t b).sigs i) b, j) = t.content (b, i) := by
  simp only [content, h]
  rw [show (t.slot (b, i)).1 = (t b).sigs i from rfl, entry_nextBucket]

/-! ## Loops over the slots -/

theorem freeSlot_eq_some {j : Fin rteMemberBucketEntries} (h : t.freeSlot b = some j) :
    (t b).sets j = rteMemberNoMatch := by
  have hj := firstSlot_eq_some h
  exact eq_of_beq hj

theorem freeSlot_eq_none (h : t.freeSlot b = none) : t.Full b := fun i hi => by
  have hi' := firstSlot_eq_none h i
  simp [hi] at hi'

end RteMemberSetsum.Table

theorem notPushed_eq_some {t : ss.Table} {b : Fin ss.bucket_cnt} {i : Fin rteMemberBucketEntries}
    (h : notPushed t b = some i) : (t b).sets i &&& flagMask = 0 := by
  have hi := firstSlot_eq_some h
  exact eq_of_beq hi

theorem spareAlternative_eq_some {t : ss.Table} {b : Fin ss.bucket_cnt}
    {i j : Fin rteMemberBucketEntries} (h : spareAlternative t b = some (i, j)) :
    (t (ss.nextBucket ((t b).sigs i) b)).sets j = rteMemberNoMatch := by
  obtain ⟨i', -, h⟩ := List.exists_of_findSome?_eq_some h
  obtain ⟨j', hj', hij⟩ := Option.map_eq_some_iff.mp h
  obtain ⟨rfl, rfl⟩ := Prod.mk.inj hij
  exact RteMemberSetsum.Table.freeSlot_eq_some hj'

theorem spareAlternative_eq_none {t : ss.Table} {b : Fin ss.bucket_cnt}
    (h : spareAlternative t b = none) (i : Fin rteMemberBucketEntries) :
    t.Full (ss.nextBucket ((t b).sigs i) b) :=
  RteMemberSetsum.Table.freeSlot_eq_none <| Option.map_eq_none_iff.mp
    (List.findSome?_eq_none_iff.mp h i (List.mem_finRange i))

/-! ## Marks -/

/-- A set id that is not marked is got back from the marked one. -/
theorem unmark_mark {v : BitVec 16} (h : v &&& flagMask = 0) :
    (v ||| flagMask) &&& ~~~flagMask = v := by
  ext k hk
  have hbit := congrArg (fun w => w.getLsbD k) h
  simp only [BitVec.getLsbD_and] at hbit
  simp only [BitVec.getElem_and, BitVec.getElem_or, BitVec.getElem_not]
  rw [BitVec.getLsbD_eq_getElem hk, BitVec.getLsbD_eq_getElem hk] at hbit
  cases hv : v[k] <;> cases hf : flagMask[k] <;> simp_all

theorem mark_and_flagMask (v : BitVec 16) : (v ||| flagMask) &&& flagMask = flagMask := by
  ext k hk
  simp only [BitVec.getElem_and, BitVec.getElem_or, Bool.and_eq_right_iff_imp, Bool.or_eq_true]
  exact Or.inr

theorem mark_ne_noMatch (v : BitVec 16) : v ||| flagMask ≠ rteMemberNoMatch := fun h => by
  have hand := mark_and_flagMask v
  rw [h] at hand
  exact absurd hand (by decide)

/-! ## A push -/

namespace RteMemberSetsum.Table

variable {t : ss.Table} {b : Fin ss.bucket_cnt} {i : Fin rteMemberBucketEntries}

/-- The table when an entry has been marked. -/
def mark (t : ss.Table) (b : Fin ss.bucket_cnt) (i : Fin rteMemberBucketEntries) : ss.Table :=
  t.putSet b i ((t b).sets i ||| flagMask)

theorem slot_mark (p : Place ss) : (t.mark b i).slot p =
    if p = (b, i) then ((t b).sigs i, (t b).sets i ||| flagMask) else t.slot p :=
  slot_putSet t b i _ p

theorem slot_mark_fst (p : Place ss) : ((t.mark b i).slot p).1 = (t.slot p).1 := by
  rw [slot_mark]
  split
  case isTrue h => rw [h]; rfl
  case isFalse => rfl

theorem slot_unmark (hi : (t b).sets i &&& flagMask = 0) (p : Place ss) :
    ((t.mark b i).putSet b i (((t.mark b i) b).sets i &&& ~~~flagMask)).slot p = t.slot p := by
  rw [slot_putSet]
  split
  case isTrue hp =>
    show (((t.mark b i).slot (b, i)).1, ((t.mark b i).slot (b, i)).2 &&& ~~~flagMask) = _
    rw [slot_mark, if_pos rfl, unmark_mark hi, hp]
    rfl
  case isFalse hp => rw [slot_mark, if_neg hp]

theorem Full.mark {c : Fin ss.bucket_cnt} (h : t.Full c) : (t.mark b i).Full c := fun j => by
  show ((t.mark b i).slot (c, j)).2 ≠ _
  rw [slot_mark]
  split
  · exact mark_ne_noMatch _
  · exact h j

/-- An entry is marked in a bucket that has none whose other bucket has room. -/
theorem Pushing.mark (h : t.Pushing) (hnone : spareAlternative t b = none) :
    (t.mark b i).Pushing := fun c j hflag k => by
  have hsig : ((t.mark b i) c).sigs k = (t c).sigs k := slot_mark_fst (c, k)
  rw [hsig]
  refine Full.mark ?_
  by_cases hc : c = b
  · subst hc
    exact spareAlternative_eq_none hnone k
  · refine h c j ?_ k
    have hslot : (t.mark b i).slot (c, j) = t.slot (c, j) := by
      rw [slot_mark]
      exact if_neg fun heq => hc (congrArg Prod.fst heq)
    rwa [← show ((t.mark b i).slot (c, j)).2 = (t c).sets j from congrArg Prod.snd hslot]

theorem content_mark (hfull : t.Full b) (hi : (t b).sets i &&& flagMask = 0) (p : Place ss) :
    (t.mark b i).content p = t.content p := by
  by_cases hp : p = (b, i)
  · subst hp
    have hne : (t.slot (b, i)).2 ≠ rteMemberNoMatch := hfull i
    have hself : (t b).sets i &&& ~~~flagMask = (t b).sets i := by
      rw [← unmark_mark hi, BitVec.and_assoc, BitVec.and_self]
    rw [content, content, slot_mark, if_pos rfl, if_neg (mark_ne_noMatch _), if_neg hne,
      unmark_mark hi]
    show _ = ({ss.entry b ((t b).sigs i) ((t b).sets i &&& ~~~flagMask)} : Multiset (Entry ss))
    rw [hself]
  · refine content_congr ?_
    rw [slot_mark, if_neg hp]

/-- **Room has been made** in a bucket: a slot of it may be overwritten. -/
structure MadeSpace (t t' : ss.Table) (b : Fin ss.bucket_cnt) (r : Fin rteMemberBucketEntries) :
    Prop where
  /-- The slot was not marked. -/
  not_marked : (t b).sets r &&& flagMask = 0
  /-- The marks are those there were. -/
  marks : ∀ p, (t'.slot p).2 &&& flagMask = (t.slot p).2 &&& flagMask
  /-- An entry that is being pushed is where it was. -/
  pushed : ∀ p, (t.slot p).2 &&& flagMask ≠ 0 → t'.slot p = t.slot p
  /-- The table holds all the entries in its other slots. -/
  entries : without Finset.univ t'.content (b, r) = t.entries

/-- **An entry is pushed** to its other bucket, in which room has been made. -/
theorem MadeSpace.push {t₁ : ss.Table} {r : Fin rteMemberBucketEntries} (hfull : t.Full b)
    (hi : (t b).sets i &&& flagMask = 0)
    (h : MadeSpace (t.mark b i) t₁ (ss.nextBucket ((t b).sigs i) b) r) :
    let t₂ := t₁.putSet b i ((t₁ b).sets i &&& ~~~flagMask)
    let t₃ := t₂.put (ss.nextBucket ((t b).sigs i) b) r ((t₂ b).sigs i) ((t₂ b).sets i)
    MadeSpace t t₃ b i := by
  intro t₂ t₃
  set next := ss.nextBucket ((t b).sigs i) b with hnext
  -- the marked entry is where it was, and its mark is taken away
  have hmarked : t₁.slot (b, i) = ((t b).sigs i, (t b).sets i ||| flagMask) := by
    rw [h.pushed, slot_mark, if_pos rfl]
    rw [slot_mark, if_pos rfl, mark_and_flagMask]
    decide
  have hslot : t₂.slot (b, i) = t.slot (b, i) := by
    rw [slot_putSet, if_pos rfl]
    show ((t₁.slot (b, i)).1, (t₁.slot (b, i)).2 &&& ~~~flagMask) = _
    rw [hmarked, unmark_mark hi]
    rfl
  have hslot₂ : ∀ p, p ≠ (b, i) → t₂.slot p = t₁.slot p := fun p hp => by
    rw [slot_putSet, if_neg hp]
  have hne : (b, i) ≠ (next, r) := fun heq => by
    have hr := h.not_marked
    rw [← show b = next from congrArg Prod.fst heq, ← show i = r from congrArg Prod.snd heq] at hr
    rw [show ((t.mark b i) b).sets i = ((t.mark b i).slot (b, i)).2 from rfl, slot_mark,
      if_pos rfl, mark_and_flagMask] at hr
    exact absurd hr (by decide)
  have hslot' : ∀ p, t₃.slot p = if p = (next, r) then t.slot (b, i) else t₂.slot p := fun p => by
    rw [slot_put, ← hslot]
    rfl
  have hcontent : ∀ p, t₂.content p = t₁.content p := fun p => by
    by_cases hp : p = (b, i)
    · subst hp
      rw [content_congr hslot, ← content_mark hfull hi]
      refine (content_congr ?_).symm
      rw [hmarked, slot_mark, if_pos rfl]
    · exact content_congr (hslot₂ p hp)
  have hmark : ∀ p, p ≠ (b, i) → (t.mark b i).slot p = t.slot p := fun p hp => by
    rw [slot_mark, if_neg hp]
  have hroom : (t.slot (next, r)).2 &&& flagMask = 0 := by
    rw [← hmark _ hne.symm]
    exact h.not_marked
  refine ⟨hi, fun p => ?_, fun p hp => ?_, ?_⟩
  · rw [hslot']
    by_cases hp : p = (next, r)
    · rw [if_pos hp, hp, hroom]
      exact hi
    · rw [if_neg hp]
      by_cases hpb : p = (b, i)
      · rw [hpb, hslot]
      · rw [hslot₂ p hpb, h.marks, hmark p hpb]
  · have hpb : p ≠ (b, i) := fun heq => hp (heq ▸ hi)
    have hpr : p ≠ (next, r) := fun heq => hp (heq ▸ hroom)
    rw [hslot', if_neg hpr, hslot₂ p hpb, h.pushed p (by rwa [hmark p hpb]), hmark p hpb]
  · have hmove : without Finset.univ t₃.content (b, i) =
        without Finset.univ t₂.content (next, r) := by
      refine without_move (Finset.mem_univ _) (Finset.mem_univ _) hne ?_ fun p _ _ hpr => ?_
      · rw [content_congr hslot]
        refine content_moved ?_
        rw [hslot', if_pos rfl]
      · refine content_congr ?_
        rw [hslot', if_neg hpr]
    rw [hmove, without_congr fun p _ _ => hcontent p, h.entries]
    exact Finset.sum_congr rfl fun p _ => content_mark hfull hi p

/-- An entry is moved to its other bucket, which has room. -/
theorem MadeSpace.move {j : Fin rteMemberBucketEntries} (hfull : t.Full b) (hpush : t.Pushing)
    (hspare : spareAlternative t b = some (i, j)) :
    MadeSpace t (t.put (ss.nextBucket ((t b).sigs i) b) j ((t b).sigs i) ((t b).sets i)) b i := by
  set next := ss.nextBucket ((t b).sigs i) b with hnext
  have hfree : (t next).sets j = rteMemberNoMatch := spareAlternative_eq_some hspare
  -- where an entry of the bucket is marked, there is no room
  have hi : (t b).sets i &&& flagMask = 0 := by
    by_contra hflag
    exact hpush b i hflag i j hfree
  have hne : (b, i) ≠ (next, j) := fun heq => by
    rw [← show b = next from congrArg Prod.fst heq] at hfree
    exact hfull j hfree
  refine ⟨hi, fun p => ?_, fun p hp => ?_, ?_⟩
  · rw [slot_put]
    split
    case isTrue hp =>
      rw [hp, show (t.slot (next, j)).2 = _ from hfree]
      exact hi
    case isFalse => rfl
  · rw [slot_put, if_neg]
    rintro rfl
    exact hp (by rw [show (t.slot (next, j)).2 = _ from hfree]; rfl)
  · rw [without_move (f := t.content) (Finset.mem_univ _) (Finset.mem_univ _) hne
        (content_moved ?_) fun p _ _ hpr => content_congr ?_,
      without_of_empty (content_of_noMatch (p := (next, j)) hfree)]
    · rfl
    · rw [slot_put, if_pos rfl]
      rfl
    · rw [slot_put, if_neg hpr]

/-- What is said of the two results of making room: room has been made, or the table is what it
was. -/
def SpaceResult (t : ss.Table) (b : Fin ss.bucket_cnt) :
    Except Int (Fin rteMemberBucketEntries) × ss.Table → Prop
  | (.ok r, t') => MadeSpace t t' b r
  | (.error e, t') => e = -enospc ∧ t' = t

/-- **`make_space_bucket`** makes room, or leaves the table as it was. The induction is on the
pushes that are left, and what carries it is that the table is `Pushing`. -/
theorem makeSpaceBucket_spec (pushes : ℕ) (t : ss.Table) (b : Fin ss.bucket_cnt)
    (hfull : t.Full b) (hpush : t.Pushing) : SpaceResult t b (makeSpaceBucket pushes t b) := by
  induction pushes generalizing t b with
  | zero =>
    unfold makeSpaceBucket
    split
    case h_1 i j hspare => exact MadeSpace.move hfull hpush hspare
    case h_2 => split <;> first | exact ⟨rfl, rfl⟩ | contradiction
  | succ pushes ih =>
    unfold makeSpaceBucket
    split
    case h_1 i j hspare => exact MadeSpace.move hfull hpush hspare
    case h_2 hnone =>
      split
      case h_1 => exact ⟨rfl, rfl⟩
      case h_2 => contradiction
      case h_3 i pushes' hi heq =>
        obtain rfl := Nat.succ.inj heq
        have hi := notPushed_eq_some hi
        have hrec := ih (t.mark b i) (ss.nextBucket ((t b).sigs i) b)
          (Full.mark (spareAlternative_eq_none hnone i)) (hpush.mark hnone)
        dsimp only
        rw [← mark]
        generalize makeSpaceBucket pushes (t.mark b i) (ss.nextBucket ((t b).sigs i) b) = made
          at hrec
        obtain ⟨r | r, t₁⟩ := made
        · obtain ⟨he, rfl⟩ := hrec
          refine ⟨he, ext_slot fun p => ?_⟩
          exact slot_unmark hi p
        · exact MadeSpace.push hfull hi hrec

end RteMemberSetsum.Table

end Member
