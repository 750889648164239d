import DpdkStudy.Lib.Ring
import Mathlib.Data.List.Basic
import Mathlib.Order.Basic

/-!
# Reservations on a ring

A buffer is a ring of slots with two ends. A party reserves a run of
positions at the head of its end, copies, and gives the run up; the tail of
an end has left behind what the other end may use. Positions are natural
numbers that never wrap: that is what a ring of wrapping indices stands for.

The buffer is described by what it holds (`Buffer`) and by what is true of it
whatever the parties do (`Buffer.Ok`): the ends keep their order and their
distance, reservations of one end are apart from each other, every position
that is supplied and no longer pending has its element in its slot, and the
batches that have been taken out are pieces of what has been put in, apart
from each other and with no gap. The ways to change it are `reserve`,
`supply`, `write`, `read`, `retract` and `commit`. When the tail of an end
may move, and how far, is left to the protocol that uses the buffer: `commit`
asks only that no other reservation of the end starts below the new tail.
-/

open Function List Option

namespace Reservations

/-- The two ends of a buffer. -/
inductive Side
  | prod
  | cons
  deriving DecidableEq

/-- The other end. -/
def Side.opp : Side → Side
  | .prod => .cons
  | .cons => .prod

/-- How far the head of an end may be ahead of the tail of the other one. -/
def Side.room (capacity : ℕ) : Side → ℕ
  | .prod => capacity
  | .cons => 0

/-- **A run of positions that is reserved**, with how many of them are copied.
The batch of a producer is what it puts in, once it is known, the batch of a
consumer what it has read so far. -/
@[ext] structure Reservation (α : Type*) where
  side : Side
  start : ℕ
  len : ℕ
  done : ℕ
  batch : List α

/-- **A buffer**, with the reservations that are open and with all that has
been put in and taken out; a batch that has been taken out comes with its
first position. -/
@[ext] structure Buffer (T α : Type*) where
  capacity : ℕ
  size : ℕ
  head : Side → ℕ
  tail : Side → ℕ
  res : T → Option (Reservation α)
  slot : ℕ → α
  log : List α
  out : List (ℕ × List α)

/-- Two runs of positions have none in common. -/
def Apart (a m b n : ℕ) : Prop := a + m ≤ b ∨ b + n ≤ a

theorem Apart.symm {a m b n : ℕ} (h : Apart a m b n) : Apart b n a m := Or.symm h

/-- A shorter run is apart from what the run is apart from. -/
theorem Apart.mono {a m m' b n n' : ℕ} (h : Apart a m b n) (hm : m' ≤ m) (hn : n' ≤ n) :
    Apart a m' b n' :=
  h.imp (fun hab => by omega) (fun hba => by omega)

variable {T α : Type*} {b : Buffer T α} {r q : Reservation α} {t u : T} {s : Side}

/-- A position that a producer has reserved and not written yet. -/
def Buffer.Pending (b : Buffer T α) (p : ℕ) : Prop :=
  ∃ t r, b.res t = some r ∧ r.side = .prod ∧ r.start + r.done ≤ p ∧ p < r.start + r.len

/-- The reservations of one end are apart from each other. -/
def AllApart (f : T → Option (Reservation α)) : Prop :=
  ∀ ⦃t u r q⦄, f t = some r → f u = some q → t ≠ u → r.side = q.side →
    Apart r.start r.len q.start q.len

/-- **What is true of a reservation** that is open. -/
structure Buffer.Fits (b : Buffer T α) (r : Reservation α) : Prop where
  start_le : b.tail r.side ≤ r.start
  end_le : r.start + r.len ≤ b.head r.side
  done_le : r.done ≤ r.len
  done_le_batch : r.done ≤ r.batch.length
  batch_within : r.batch <+: b.log.drop r.start
  length_read : r.side = .cons → r.batch.length = r.done
  out_apart : r.side = .cons → ∀ x ∈ b.out, Apart x.1 x.2.length r.start r.len

/-- **What is true of a buffer.** -/
structure Buffer.Ok (b : Buffer T α) : Prop where
  capacity_le : b.capacity ≤ b.size
  tail_le : ∀ s, b.tail s ≤ b.head s
  head_le : ∀ s, b.head s ≤ b.tail s.opp + s.room b.capacity
  fits : ∀ {t r}, b.res t = some r → b.Fits r
  apart : AllApart b.res
  log_ge : b.tail .prod ≤ b.log.length
  log_le : b.log.length ≤ b.head .prod
  /-- What is supplied and not pending is in its slot. -/
  stored : ∀ p, b.tail .cons ≤ p → p < b.log.length → ¬ b.Pending p →
    b.log[p]? = some (b.slot (p % b.size))
  out_le : ∀ x ∈ b.out, x.1 + x.2.length ≤ b.head .cons
  out_ne : ∀ x ∈ b.out, x.2 ≠ []
  out_within : ∀ x ∈ b.out, x.2 <+: b.log.drop x.1
  out_pairwise : b.out.Pairwise fun x y => Apart x.1 x.2.length y.1 y.2.length
  /-- Below the head of the consumers nothing is left out. -/
  covered : ∀ p, p < b.head .cons → (∃ x ∈ b.out, x.1 ≤ p ∧ p < x.1 + x.2.length)
    ∨ ∃ t r, b.res t = some r ∧ r.side = .cons ∧ r.start ≤ p ∧ p < r.start + r.len

namespace Buffer.Ok

/-! ## Order and slots -/

variable (h : b.Ok)

include h

theorem cons_le : b.head .cons ≤ b.tail .prod := h.head_le .cons

theorem prod_le : b.head .prod ≤ b.tail .cons + b.capacity := h.head_le .prod

/-- The reservations of an end are no more than the capacity. -/
theorem head_le_tail_add (s : Side) : b.head s ≤ b.tail s + b.capacity := by
  have hp := h.tail_le .prod
  have hc := h.tail_le .cons
  have hcp := h.cons_le
  have hpc := h.prod_le
  cases s <;> omega

/-- **What an end computes from the other one's tail** stays within the
capacity, at every position from its own tail to its head. -/
theorem room_within {x : ℕ} (htail : b.tail s ≤ x) (hhead : x ≤ b.head s) :
    x ≤ b.tail s.opp + s.room b.capacity
      ∧ b.tail s.opp + s.room b.capacity ≤ x + b.capacity := by
  have hp := h.tail_le .prod
  have hc := h.tail_le .cons
  have hcp := h.cons_le
  have hpc := h.prod_le
  cases s <;> simp only [Side.opp, Side.room] <;> omega

theorem mod_inj {p x : ℕ} (hp : b.tail .cons ≤ p) (hp' : p < b.head .prod) (hx : b.tail .cons ≤ x)
    (hx' : x < b.head .prod) (heq : p % b.size = x % b.size) : p = x := by
  have hpc := h.prod_le
  have hcap := h.capacity_le
  exact Ring.mod_inj heq (by omega) (by omega)

/-- A reservation lies between the tail of the consumers and the head of the
producers. -/
theorem res_window (hr : b.res t = some r) :
    b.tail .cons ≤ r.start ∧ r.start + r.len ≤ b.head .prod := by
  have hs := (h.fits hr).start_le
  have he := (h.fits hr).end_le
  have hp := h.tail_le .prod
  have hc := h.tail_le .cons
  have hcp := h.cons_le
  cases hside : r.side <;> rw [hside] at hs he <;> omega

/-- A consumer's reservation is below the tail of the producers. -/
theorem end_le_tail (hr : b.res t = some r) (hside : r.side = .cons) :
    r.start + r.len ≤ b.tail .prod := by
  have he := (h.fits hr).end_le
  rw [hside] at he
  exact le_trans he h.cons_le

/-- What the producers have left behind is not pending. -/
theorem not_pending {p : ℕ} (hp : p < b.tail .prod) : ¬ b.Pending p := by
  rintro ⟨t, r, hr, hside, hle, -⟩
  have hs := (h.fits hr).start_le
  rw [hside] at hs
  omega

/-- Between the tails every element is in its slot. -/
theorem stored_between {p : ℕ} (hc : b.tail .cons ≤ p) (hp : p < b.tail .prod) :
    b.log[p]? = some (b.slot (p % b.size)) :=
  h.stored p hc (lt_of_lt_of_le hp h.log_ge) (h.not_pending hp)

end Buffer.Ok

/-! ## What the parties do -/

namespace Buffer

variable [DecidableEq T]

/-- A party reserves the next `n` positions of an end. -/
def reserve (b : Buffer T α) (t : T) (s : Side) (n : ℕ) : Buffer T α :=
  { b with
    head := Function.update b.head s (b.head s + n)
    res := Function.update b.res t (some ⟨s, b.head s, n, 0, []⟩) }

/-- What a producer puts in becomes known. -/
def supply (b : Buffer T α) (t : T) (r : Reservation α) (l : List α) : Buffer T α :=
  { b with
    res := Function.update b.res t (some { r with batch := l })
    log := b.log ++ l }

/-- A producer writes the next element into its slot. -/
def write (b : Buffer T α) (t : T) (r : Reservation α) (x : α) : Buffer T α :=
  { b with
    res := Function.update b.res t (some { r with done := r.done + 1 })
    slot := Function.update b.slot ((r.start + r.done) % b.size) x }

/-- A consumer reads the next element from its slot. -/
def read (b : Buffer T α) (t : T) (r : Reservation α) : Buffer T α :=
  { b with
    res := Function.update b.res t (some { r with
      done := r.done + 1
      batch := r.batch ++ [b.slot ((r.start + r.done) % b.size)] }) }

/-- A party keeps the first `m` positions of the last reservation of an end. -/
def retract (b : Buffer T α) (t : T) (r : Reservation α) (m : ℕ) : Buffer T α :=
  { b with
    head := Function.update b.head r.side (r.start + m)
    res := Function.update b.res t (some { r with
      len := m
      done := min r.done m
      batch := r.batch.take m }) }

/-- A party gives up its reservation; the tail of its end moves to `x`. -/
def commit (b : Buffer T α) (t : T) (r : Reservation α) (x : ℕ) : Buffer T α :=
  { b with
    tail := Function.update b.tail r.side x
    res := Function.update b.res t none
    out := if r.side = .cons ∧ r.batch ≠ [] then b.out ++ [(r.start, r.batch)] else b.out }

end Buffer

section Update

variable [DecidableEq T]

/-- The reservations after one of them has changed. -/
theorem res_update {f : T → Option (Reservation α)} {o : Option (Reservation α)}
    (h : update f t o u = some q) : u = t ∧ o = some q ∨ u ≠ t ∧ f u = some q := by
  by_cases hut : u = t
  · subst hut
    rw [update_self] at h
    exact Or.inl ⟨rfl, h⟩
  · rw [update_of_ne hut] at h
    exact Or.inr ⟨hut, h⟩

/-- Reservations that are apart from a new one stay apart. -/
theorem AllApart.update {f : T → Option (Reservation α)} {o : Option (Reservation α)}
    (h : AllApart f) (hnew : ∀ {u q r}, o = some r → f u = some q → u ≠ t → r.side = q.side →
      Apart r.start r.len q.start q.len) : AllApart (update f t o) := by
  intro u v r q hr hq huv hside
  rcases res_update hr with ⟨rfl, ho⟩ | ⟨hut, hu⟩ <;>
    rcases res_update hq with ⟨rfl, ho'⟩ | ⟨hvt, hv⟩
  · exact absurd rfl huv
  · exact hnew ho hv hvt hside
  · exact (hnew ho' hu hut hside.symm).symm
  · exact h hu hv huv hside

/-- A reservation that stays where it is, or becomes shorter, stays apart from
the others. -/
theorem AllApart.update_of_le {f : T → Option (Reservation α)} {r r' : Reservation α}
    (h : AllApart f) (hr : f t = some r) (hside : r'.side = r.side) (hstart : r'.start = r.start)
    (hlen : r'.len ≤ r.len) : AllApart (Function.update f t (some r')) :=
  h.update (fun ho hu hut hsu => by
    obtain rfl := some.inj ho
    rw [hstart]
    exact (h hr hu (Ne.symm hut) (hside ▸ hsu)).mono hlen le_rfl)

/-- What is true of some reservation stays true of it when another one
changes, or when it changes to one that it is true of as well. -/
theorem exists_update {f : T → Option (Reservation α)} {r r' : Reservation α}
    {P : Reservation α → Prop} (hr : f t = some r) (hP : P r → P r')
    (h : ∃ u q, f u = some q ∧ P q) : ∃ u q, update f t (some r') u = some q ∧ P q := by
  obtain ⟨u, q, hu, hq⟩ := h
  by_cases hut : u = t
  · subst hut
    obtain rfl := some.inj (hr.symm.trans hu)
    exact ⟨u, r', update_self _ _ _, hP hq⟩
  · exact ⟨u, q, by rw [update_of_ne hut, hu], hq⟩

end Update

namespace Buffer.Ok

variable [DecidableEq T]

theorem reserve (h : b.Ok) {n : ℕ} (hfree : b.res t = none)
    (hroom : b.head s + n ≤ b.tail s.opp + s.room b.capacity) : (b.reserve t s n).Ok := by
  have hhead : ∀ s', b.head s' ≤ (b.reserve t s n).head s' := by
    intro s'
    by_cases hs : s' = s
    · subst hs
      simp [Buffer.reserve]
    · simp [Buffer.reserve, hs]
  have hkept : ∀ {u q}, b.res u = some q → (b.reserve t s n).res u = some q := by
    intro u q hu
    have hut : u ≠ t := by
      rintro rfl
      rw [hfree] at hu
      exact nomatch hu
    simpa [Buffer.reserve, hut] using hu
  exact {
    h with
    tail_le := fun s' => le_trans (h.tail_le s') (hhead s')
    head_le := by
      intro s'
      by_cases hs : s' = s
      · subst hs
        simpa [Buffer.reserve] using hroom
      · simpa [Buffer.reserve, hs] using h.head_le s'
    fits := by
      intro u q hu
      rcases res_update hu with ⟨rfl, hq⟩ | ⟨-, hu⟩
      · obtain rfl := some.inj hq
        exact {
          start_le := h.tail_le s
          end_le := by simp [Buffer.reserve]
          done_le := Nat.zero_le n
          done_le_batch := Nat.zero_le _
          batch_within := nil_prefix
          length_read := fun _ => rfl
          out_apart := fun hs x hx => by
            obtain rfl : s = .cons := hs
            exact Or.inl (h.out_le x hx) }
      · exact { h.fits hu with end_le := le_trans (h.fits hu).end_le (hhead _) }
    apart := h.apart.update (fun ho hu _ hside => by
      obtain rfl := some.inj ho
      have hend := (h.fits hu).end_le
      rw [← hside] at hend
      exact Or.inr hend)
    log_le := le_trans h.log_le (hhead .prod)
    stored := fun p hc hp hpend =>
      h.stored p hc hp (fun ⟨u, q, hu, hq⟩ => hpend ⟨u, q, hkept hu, hq⟩)
    out_le := fun x hx => le_trans (h.out_le x hx) (hhead .cons)
    covered := by
      intro p hp
      by_cases hlt : p < b.head .cons
      · exact (h.covered p hlt).imp_right (fun ⟨u, q, hu, hq⟩ => ⟨u, q, hkept hu, hq⟩)
      · by_cases hs : s = .cons
        · subst hs
          exact Or.inr ⟨t, ⟨.cons, b.head .cons, n, 0, []⟩, by simp [Buffer.reserve], rfl,
            not_lt.mp hlt, by simpa [Buffer.reserve] using hp⟩
        · exact absurd (by simpa [Buffer.reserve, Ne.symm hs] using hp) hlt }

omit [DecidableEq T] in
/-- A piece of what has been put in stays one as more is put in. -/
theorem prefix_drop_append {l k log : List α} {a : ℕ} (h : l <+: log.drop a) :
    l <+: (log ++ k).drop a := by
  rw [drop_append]
  exact h.trans (prefix_append _ _)

omit [DecidableEq T] in
theorem getElem?_of_prefix_drop {l log : List α} {a i : ℕ} {x : α} (h : l <+: log.drop a)
    (hx : l[i]? = some x) : log[a + i]? = some x := by
  obtain ⟨k, hk⟩ := h
  rw [← List.getElem?_drop, ← hk, List.getElem?_append_left (List.getElem?_eq_some_iff.mp hx).1, hx]

variable (h : b.Ok) (hr : b.res t = some r)

include h hr

/-- Supplying the reservation that what has been put in has come to. -/
theorem supply {l : List α} (hside : r.side = .prod) (hdone : r.done = 0)
    (hlog : b.log.length = r.start) (hlen : l.length ≤ r.len) :
    (b.supply t r l).Ok := by
  have hend := (h.fits hr).end_le
  rw [hside] at hend
  exact {
    h with
    fits := by
      intro u q hu
      rcases res_update hu with ⟨rfl, hq⟩ | ⟨-, hu⟩
      · obtain rfl := some.inj hq
        exact { h.fits hr with
          done_le_batch := le_trans hdone.le (Nat.zero_le _)
          batch_within := by simp [Buffer.supply, ← hlog]
          length_read := fun hs => by
            rw [hside] at hs
            exact nomatch hs }
      · exact { h.fits hu with batch_within := prefix_drop_append (h.fits hu).batch_within }
    apart := h.apart.update_of_le hr rfl rfl le_rfl
    log_ge := le_trans h.log_ge (by simp [Buffer.supply])
    log_le := by
      simp only [Buffer.supply, length_append, hlog]
      exact le_trans (Nat.add_le_add_left hlen _) hend
    stored := by
      intro p hc hp hnot
      have hnot' : ¬ b.Pending p := fun hpend => hnot (exists_update hr id hpend)
      simp only [Buffer.supply, length_append] at hp ⊢
      by_cases hlt : p < b.log.length
      · rw [getElem?_append_left hlt]
        exact h.stored p hc hlt hnot'
      · exact absurd ⟨t, r, hr, hside, by omega, by omega⟩ hnot'
    out_within := fun x hx => prefix_drop_append (h.out_within x hx)
    covered := fun p hp => (h.covered p hp).imp_right (exists_update hr id) }

/-- Writing the next element of what has been supplied. -/
theorem write {x : α} (hside : r.side = .prod) (hdone : r.done < r.len)
    (hx : r.batch[r.done]? = some x) : (b.write t r x).Ok := by
  have hwin := h.res_window hr
  have hlogx := getElem?_of_prefix_drop (h.fits hr).batch_within hx
  exact {
    h with
    fits := by
      intro u q hu
      rcases res_update hu with ⟨rfl, hq⟩ | ⟨-, hu⟩
      · obtain rfl := some.inj hq
        exact { h.fits hr with
          done_le := hdone
          done_le_batch := (List.getElem?_eq_some_iff.mp hx).1
          length_read := fun hs => by
            rw [hside] at hs
            exact nomatch hs }
      · exact { h.fits hu with }
    apart := h.apart.update_of_le hr rfl rfl le_rfl
    stored := by
      intro p hc hp hnot
      have hlogle := h.log_le
      by_cases hpx : p = r.start + r.done
      · subst hpx
        simpa [Buffer.write] using hlogx
      · have hslot : p % b.size ≠ (r.start + r.done) % b.size := fun heq =>
          hpx (h.mod_inj hc (by simp only [Buffer.write] at hp; omega) (by omega) (by omega) heq)
        have hnot' : ¬ b.Pending p := fun hpend => hnot (exists_update hr
          (fun hq => ⟨hq.1, by have := hq.2.1; simp only at this ⊢; omega, hq.2.2⟩) hpend)
        simpa [Buffer.write, hslot] using h.stored p hc hp hnot'
    covered := fun p hp => (h.covered p hp).imp_right (exists_update hr id) }

theorem read (hside : r.side = .cons) (hdone : r.done < r.len) :
    (b.read t r).Ok := by
  have hstart := (h.fits hr).start_le
  rw [hside] at hstart
  have hend := h.end_le_tail hr hside
  have hlen := (h.fits hr).length_read hside
  have hlogx := h.stored_between (p := r.start + r.done) (by omega) (by omega)
  exact {
    h with
    fits := by
      intro u q hu
      rcases res_update hu with ⟨rfl, hq⟩ | ⟨-, hu⟩
      · obtain rfl := some.inj hq
        exact { h.fits hr with
          done_le := hdone
          done_le_batch := by simp [hlen]
          batch_within := by
            obtain ⟨k, hk⟩ := (h.fits hr).batch_within
            rw [← getElem?_drop, ← hk, ← hlen, getElem?_append_right le_rfl,
              Nat.sub_self] at hlogx
            cases k with
            | nil => exact nomatch hlogx
            | cons y k =>
              obtain rfl := some.inj hlogx
              exact ⟨k, by simpa [Buffer.read, hlen] using hk⟩
          length_read := fun _ => by simp [hlen] }
      · exact { h.fits hu with }
    apart := h.apart.update_of_le hr rfl rfl le_rfl
    stored := fun p hc hp hnot => h.stored p hc hp (fun hpend => hnot (exists_update hr
      (fun hq => absurd (hside.symm.trans hq.1) (by decide)) hpend))
    covered := fun p hp => (h.covered p hp).imp_right (exists_update hr id) }

/-- Keeping only the first positions of the last reservation of an end. -/
theorem retract {m : ℕ} (hm : m ≤ r.len) (hend : r.start + r.len = b.head r.side)
    (honly : ∀ u q, b.res u = some q → u ≠ t → q.side ≠ r.side)
    (hlog : r.side = .prod → b.log.length ≤ r.start + m) : (b.retract t r m).Ok := by
  have hfits := h.fits hr
  have hhead : ∀ s, (b.retract t r m).head s ≤ b.head s := by
    intro s
    by_cases hs : s = r.side
    · subst hs
      simp only [Buffer.retract, update_self]
      omega
    · simp [Buffer.retract, hs]
  exact {
    h with
    tail_le := by
      intro s
      by_cases hs : s = r.side
      · subst hs
        simpa [Buffer.retract] using Nat.le_add_right_of_le hfits.start_le
      · simpa [Buffer.retract, hs] using h.tail_le s
    head_le := fun s => le_trans (hhead s) (h.head_le s)
    fits := by
      intro u q hu
      rcases res_update hu with ⟨rfl, hq⟩ | ⟨hut, hu⟩
      · obtain rfl := some.inj hq
        exact { hfits with
          end_le := by simp [Buffer.retract]
          done_le := min_le_right _ _
          done_le_batch := by
            have := hfits.done_le_batch
            simp only [length_take]
            omega
          batch_within := ( take_prefix m r.batch).trans hfits.batch_within
          length_read := fun hs => by
            rw [length_take, hfits.length_read hs, min_comm]
          out_apart := fun hs x hx => (hfits.out_apart hs x hx).mono le_rfl hm }
      · exact { h.fits hu with
          end_le := by
            have := (h.fits hu).end_le
            simpa [Buffer.retract, honly u q hu hut] using this }
    apart := h.apart.update_of_le hr rfl rfl hm
    log_le := by
      by_cases hs : r.side = .prod
      · simpa [Buffer.retract, hs] using hlog hs
      · simpa [Buffer.retract, Ne.symm hs] using h.log_le
    stored := by
      intro p hc hp hnot
      refine h.stored p hc hp (fun hpend => hnot ?_)
      obtain ⟨u, q, hu, hside, hle, hlt⟩ := hpend
      by_cases hut : u = t
      · subst hut
        obtain rfl := some.inj (hr.symm.trans hu)
        have hplog := hlog hside
        refine ⟨u, _, update_self _ _ _, hside, ?_, ?_⟩ <;>
          simp only [Buffer.retract] at hp ⊢ <;> omega
      · exact ⟨u, q, by simpa [Buffer.retract, hut] using hu, hside, hle, hlt⟩
    out_le := by
      intro x hx
      by_cases hs : r.side = .cons
      · have hne := length_pos_iff.mpr (h.out_ne x hx)
        have hle := h.out_le x hx
        rw [← hs, ← hend] at hle
        simp only [Buffer.retract, hs, update_self]
        rcases hfits.out_apart hs x hx with hlt | hlt <;> omega
      · simpa [Buffer.retract, Ne.symm hs] using h.out_le x hx
    covered := by
      intro p hp
      refine (h.covered p (lt_of_lt_of_le hp (hhead .cons))).imp_right (exists_update hr ?_)
      rintro ⟨hs, hle, -⟩
      simp only [Buffer.retract, hs, update_self] at hp
      exact ⟨hs, hle, hp⟩ }

/-- **Giving up** a reservation that is copied; the tail may move as far as
the other reservations of the end allow. -/
theorem commit {x : ℕ} (hdone : r.done = r.len) (htail : b.tail r.side ≤ x)
    (hhead : x ≤ b.head r.side)
    (hothers : ∀ u q, b.res u = some q → u ≠ t → q.side = r.side → x ≤ q.start)
    (hlog : r.side = .prod → x ≤ b.log.length) : (b.commit t r x).Ok := by
  have hfits := h.fits hr
  have htail' : ∀ s, b.tail s ≤ (b.commit t r x).tail s := by
    intro s
    by_cases hs : s = r.side
    · subst hs
      simpa [Buffer.commit] using htail
    · simp [Buffer.commit, hs]
  have hnew : r.side = .cons → r.start + r.batch.length = r.start + r.len := fun hs => by
    rw [hfits.length_read hs, hdone]
  have hout : ∀ y ∈ (b.commit t r x).out,
      y ∈ b.out ∨ y = (r.start, r.batch) ∧ r.side = .cons ∧ r.batch ≠ [] := by
    intro y hy
    simp only [Buffer.commit] at hy
    split at hy
    · rename_i hs
      rw [mem_append, mem_singleton] at hy
      exact hy.imp_right (fun heq => ⟨heq, hs⟩)
    · exact Or.inl hy
  exact {
    h with
    tail_le := by
      intro s
      by_cases hs : s = r.side
      · subst hs
        simpa [Buffer.commit] using hhead
      · simpa [Buffer.commit, hs] using h.tail_le s
    head_le := fun s => le_trans (h.head_le s) (Nat.add_le_add_right (htail' _) _)
    fits := by
      intro u q hu
      rcases res_update hu with ⟨-, hq⟩ | ⟨hut, hu⟩
      · exact nomatch hq
      · exact { h.fits hu with
          start_le := by
            by_cases hs : q.side = r.side
            · simpa [Buffer.commit, hs] using hothers u q hu hut hs
            · simpa [Buffer.commit, hs] using (h.fits hu).start_le
          out_apart := fun hs y hy => by
            rcases hout y hy with hy | ⟨rfl, hs', -⟩
            · exact (h.fits hu).out_apart hs y hy
            · exact (h.apart hr hu (Ne.symm hut) (hs'.trans hs.symm)).mono
                (Nat.le_of_add_le_add_left (hnew hs').le) le_rfl }
    apart := h.apart.update (fun ho => nomatch ho)
    log_ge := by
      by_cases hs : r.side = .prod
      · simpa [Buffer.commit, hs] using hlog hs
      · simpa [Buffer.commit, Ne.symm hs] using h.log_ge
    stored := by
      intro p hc hp hnot
      refine h.stored p (le_trans (htail' .cons) hc) hp (fun ⟨u, q, hu, hq⟩ => hnot ⟨u, q, ?_, hq⟩)
      have hut : u ≠ t := by
        rintro rfl
        obtain rfl := some.inj (hr.symm.trans hu)
        omega
      simpa [Buffer.commit, hut] using hu
    out_le := by
      intro y hy
      rcases hout y hy with hy | ⟨rfl, hs, -⟩
      · exact h.out_le y hy
      · have hend := hfits.end_le
        rw [hs, ← hnew hs] at hend
        exact hend
    out_ne := fun y hy => (hout y hy).elim (h.out_ne y) (fun ⟨heq, _, hne⟩ => heq ▸ hne)
    out_within := fun y hy =>
      (hout y hy).elim (h.out_within y) (fun ⟨heq, _⟩ => heq ▸ hfits.batch_within)
    out_pairwise := by
      simp only [Buffer.commit]
      split
      · rename_i hs
        refine pairwise_append.mpr ⟨h.out_pairwise, pairwise_singleton _ _, ?_⟩
        intro y hy z hz
        obtain rfl := mem_singleton.mp hz
        exact (hfits.out_apart hs.1 y hy).mono le_rfl (Nat.le_of_add_le_add_left (hnew hs.1).le)
      · exact h.out_pairwise
    covered := by
      intro p hp
      rcases h.covered p hp with ⟨y, hy, hyp⟩ | ⟨u, q, hu, hs, hq⟩
      · refine Or.inl ⟨y, ?_, hyp⟩
        simp only [Buffer.commit]
        split
        · exact mem_append_left _ hy
        · exact hy
      · by_cases hut : u = t
        · subst hut
          obtain rfl := some.inj (hr.symm.trans hu)
          have hlen := hnew hs
          have hne : r.batch ≠ [] := by
            rintro hnil
            rw [hnil, length_nil] at hlen
            omega
          exact Or.inl ⟨(r.start, r.batch), by simp [Buffer.commit, hs, hne], hq.1,
            lt_of_lt_of_eq hq.2 hlen.symm⟩
        · exact Or.inr ⟨u, q, by simpa [Buffer.commit, hut] using hu, hs, hq⟩ }

end Buffer.Ok

end Reservations
