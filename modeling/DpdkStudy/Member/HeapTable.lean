import DpdkStudy.Lib.Places
import DpdkStudy.Member.Heap
import Mathlib.Data.Finset.Prod
import Mathlib.Tactic.Abel

/-!
# What the hash table of the heap says

A slot that is not free says of a key, known by its bucket and its signature, that it has some
position (`Mark`). The table says what its slots say (`Hash.marks`). An insert adds the mark of a
key, a delete takes one away, and an update replaces one by another, whichever of the slots with
the same mark it finds.
-/

namespace Member

open Places

variable {K : Type} {hash_func : BitVec 32 → K → BitVec 32}

/-- **What a slot says**: a bucket, a signature and a position. -/
abbrev Mark : Type := ℕ × BitVec 16 × ℕ

namespace Hash

variable (hash_func) in
/-- The mark of a key at a position. -/
def mark (table : Hash) (key : K) (value : ℕ) : Mark :=
  (table.bucketOf hash_func key, table.sigOf hash_func key, value)

/-- The slots of a table. -/
def places (table : Hash) : Finset (ℕ × Fin hashBktSize) :=
  Finset.range table.bkt_cnt ×ˢ Finset.univ

/-- What a slot says, nothing if it is free. -/
def content (table : Hash) (p : ℕ × Fin hashBktSize) : Multiset Mark :=
  if (table.buckets p.1).idx p.2 = 0 then 0
  else {(p.1, (table.buckets p.1).sig p.2, (table.buckets p.1).idx p.2)}

/-- **What a table says.** -/
def marks (table : Hash) : Multiset Mark := ∑ p ∈ table.places, table.content p

variable {table : Hash} {b : ℕ} {i : Fin hashBktSize}

theorem mem_places : (b, i) ∈ table.places ↔ b < table.bkt_cnt := by
  simp [places]

theorem bucketOf_lt (table : Hash) (key : K) : table.bucketOf hash_func key < table.bkt_cnt :=
  Nat.mod_lt _ table.bkt_cnt_pos

theorem mem_marks {m : Mark} : m ∈ table.marks ↔ ∃ b < table.bkt_cnt, ∃ i,
    (table.buckets b).idx i ≠ 0 ∧ m = (b, (table.buckets b).sig i, (table.buckets b).idx i) := by
  have hcontent : ∀ b i, m ∈ table.content (b, i) ↔ (table.buckets b).idx i ≠ 0 ∧
      m = (b, (table.buckets b).sig i, (table.buckets b).idx i) := fun b i => by
    unfold content
    split
    case isTrue h0 => simp [h0]
    case isFalse h0 => simp [h0]
  simp only [marks, Multiset.mem_sum, Prod.exists, mem_places, hcontent]
  constructor
  · rintro ⟨b, i, hb, h⟩
    exact ⟨b, hb, i, h⟩
  · rintro ⟨b, hb, i, h⟩
    exact ⟨b, i, hb, h⟩

theorem marks_empty (bkt_cnt : ℕ) (seed : BitVec 32) (h : 0 < bkt_cnt) :
    (empty bkt_cnt seed h).marks = 0 :=
  Finset.sum_eq_zero fun _ _ => rfl

/-! ## A slot that is written -/

theorem content_put_self (table : Hash) (b : ℕ) (i : Fin hashBktSize) (sig : BitVec 16)
    (value : ℕ) : (table.put b i sig value).content (b, i) =
      if value % word16 = 0 then 0 else {(b, sig, value % word16)} := by
  simp [content, put]

theorem content_put_of_ne (table : Hash) (sig : BitVec 16) (value : ℕ)
    {p : ℕ × Fin hashBktSize} (h : p ≠ (b, i)) :
    (table.put b i sig value).content p = table.content p := by
  obtain ⟨c, j⟩ := p
  by_cases hc : c = b
  · subst hc
    have hj : j ≠ i := fun heq => h (by rw [heq])
    simp [content, put, hj]
  · simp [content, put, hc]

/-- What the table says when a slot has been written. -/
theorem marks_put (hb : b < table.bkt_cnt) (sig : BitVec 16) (value : ℕ) :
    (table.put b i sig value).marks = (if value % word16 = 0 then 0 else {(b, sig, value % word16)})
      + without table.places table.content (b, i) := by
  rw [← content_put_self]
  exact sum_eq_add_without (mem_places.mpr hb) fun p _ hp => content_put_of_ne table sig value hp

theorem marks_eq (hb : b < table.bkt_cnt) (h0 : (table.buckets b).idx i ≠ 0) :
    table.marks = {(b, (table.buckets b).sig i, (table.buckets b).idx i)}
      + without table.places table.content (b, i) := by
  rw [marks, ← add_without (mem_places.mpr hb), content, if_neg h0]

end Hash

open Hash

/-! ## Insert, update and delete -/

/-- An insert adds the mark of the key. -/
theorem hashTableInsert_spec {key : K} {value : ℕ} {table table' : Hash} (h0 : 0 < value)
    (hv : value < word16) (h : hashTableInsert hash_func key value table = some table') :
    table'.mark hash_func = table.mark hash_func ∧
      table'.marks = {table.mark hash_func key value} + table.marks := by
  obtain ⟨i, hi, rfl⟩ := Option.map_eq_some_iff.mp h
  have hfound := List.find?_some hi
  have hfree : (table.buckets (table.bucketOf hash_func key)).idx i = 0 := eq_of_beq hfound
  have hempty : table.content (table.bucketOf hash_func key, i) = 0 := if_pos hfree
  refine ⟨rfl, ?_⟩
  rw [marks_put (table.bucketOf_lt key), Nat.mod_eq_of_lt hv, if_neg h0.ne', marks,
    without_of_empty hempty]
  rfl

theorem exists_find_of_mem {key : K} {value : ℕ} {table : Hash}
    (hmem : table.mark hash_func key value ∈ table.marks) : ∃ i,
      (List.finRange hashBktSize).find? (fun i =>
        (table.buckets (table.bucketOf hash_func key)).sig i == table.sigOf hash_func key &&
          (table.buckets (table.bucketOf hash_func key)).idx i == value) = some i ∧
      value ≠ 0 ∧ (table.buckets (table.bucketOf hash_func key)).sig i = table.sigOf hash_func key ∧
      (table.buckets (table.bucketOf hash_func key)).idx i = value := by
  obtain ⟨b, -, j, h0, hm⟩ := mem_marks.mp hmem
  obtain ⟨rfl, hm⟩ := Prod.mk.inj hm
  obtain ⟨hsig, hidx⟩ := Prod.mk.inj hm
  cases hfind : (List.finRange hashBktSize).find? (fun i =>
      (table.buckets (table.bucketOf hash_func key)).sig i == table.sigOf hash_func key &&
        (table.buckets (table.bucketOf hash_func key)).idx i == value) with
  | none =>
    have hj := List.find?_eq_none.mp hfind j (List.mem_finRange j)
    simp [← hsig, ← hidx] at hj
  | some i =>
    have hi := List.find?_some hfind
    simp only [Bool.and_eq_true, beq_iff_eq] at hi
    exact ⟨i, rfl, hidx ▸ h0, hi⟩

/-- An update replaces the mark of the key. -/
theorem hashTableUpdate_spec {k : K} {u v : ℕ} {t : Hash} (h0 : 0 < v) (hv : v < word16)
    (hmem : t.mark hash_func k u ∈ t.marks) :
    ∃ t', hashTableUpdate hash_func k u v t = some t' ∧ t'.mark hash_func = t.mark hash_func ∧
      {t.mark hash_func k u} + t'.marks = {t.mark hash_func k v} + t.marks := by
  obtain ⟨i, hfind, hold, hsig, hidx⟩ := exists_find_of_mem hmem
  refine ⟨_, Option.map_eq_some_iff.mpr ⟨i, hfind, rfl⟩, rfl, ?_⟩
  rw [putIdx, marks_put (t.bucketOf_lt k), Nat.mod_eq_of_lt hv, if_neg h0.ne',
    marks_eq (t.bucketOf_lt k) (hidx ▸ hold), hsig, hidx, mark, mark]
  exact add_left_comm _ _ _

/-- A delete takes the mark of the key away. -/
theorem hashTableDel_spec {k : K} {v : ℕ} {t : Hash} (hv : v < word16)
    (hmem : t.mark hash_func k v ∈ t.marks) :
    ∃ t', hashTableDel hash_func k v t = some t' ∧ t'.mark hash_func = t.mark hash_func ∧
      t.marks = {t.mark hash_func k v} + t'.marks := by
  obtain ⟨i, hfind, hold, hsig, hidx⟩ := exists_find_of_mem hmem
  refine ⟨t.putIdx (t.bucketOf hash_func k) i 0, ?_, rfl, ?_⟩
  · rw [hashTableDel, Nat.mod_eq_of_lt hv, hfind, Option.map_some]
  · rw [putIdx, marks_put (t.bucketOf_lt k), Nat.zero_mod, if_pos rfl, zero_add,
      marks_eq (t.bucketOf_lt k) (hidx ▸ hold), hsig, hidx, mark]

end Member
