import Mathlib.Data.List.Nodup
import Mathlib.Logic.Function.Basic

/-!
# Singly linked lists under a head

The links of a list are a function from nodes to members: a node is a member
or the list's own head, written `none`, and a link that leads nowhere is
`none` as well. `Leads` says which members the links visit from a node on.
The three ways to change such a list are one or two writes each: a member is
put behind a node (`Leads.insert`), the member behind a node is bypassed
(`Leads.bypass`), and the head is moved on to what follows a node while the
part in front is closed off (`Leads.cut`).
-/

open Function List

namespace SinglyLinked

variable {α : Type*} {next next' : Option α → Option α} {p : Option α} {l A B : List α} {t : α}

/-- The node that a list of members ends at, from a node on. -/
def endNode (p : Option α) (l : List α) : Option α := l.foldl (fun _ a => some a) p

@[simp] theorem endNode_nil (p : Option α) : endNode p [] = p := rfl

@[simp] theorem endNode_cons (p : Option α) (a : α) (l : List α) :
    endNode p (a :: l) = endNode (some a) l := rfl

@[simp] theorem endNode_append (p : Option α) (A B : List α) :
    endNode p (A ++ B) = endNode (endNode p A) B := foldl_append

/-- A list that is not empty ends at one of its members. -/
theorem endNode_mem (p : Option α) (a : α) (l : List α) :
    ∃ b ∈ a :: l, endNode p (a :: l) = some b := by
  induction l generalizing p a with
  | nil => exact ⟨a, mem_cons_self, rfl⟩
  | cons c l ih =>
    obtain ⟨b, hb, hend⟩ := ih (some a) c
    exact ⟨b, mem_cons_of_mem a hb, hend⟩

/-- A list ends at its start or at one of its members. -/
theorem endNode_eq_or_mem (p : Option α) (l : List α) :
    endNode p l = p ∨ ∃ b ∈ l, endNode p l = some b := by
  cases l with
  | nil => exact Or.inl rfl
  | cons a l => exact Or.inr (endNode_mem p a l)

theorem endNode_ne {a : α} (h : a ∉ l) : endNode none l ≠ some a := by
  rcases endNode_eq_or_mem none l with hend | ⟨b, hb, hend⟩
  · simp [hend]
  · rw [hend]
    rintro ⟨⟩
    exact h hb

@[simp] theorem endNode_none_eq_none : endNode none l = none ↔ l = [] := by
  cases l with
  | nil => simp
  | cons a l =>
    obtain ⟨b, -, hb⟩ := endNode_mem none a l
    simp [hb]

/-- A part of a list ends where a beginning of the list ends. -/
theorem exists_append_of_sublist {S : List α} (h : S.Sublist l) (p : Option α) :
    ∃ X Y, l = X ++ Y ∧ endNode p X = endNode p S := by
  induction h generalizing p with
  | slnil => exact ⟨[], [], rfl, rfl⟩
  | @cons S l a h ih =>
    cases S with
    | nil => exact ⟨[], a :: l, rfl, rfl⟩
    | cons b S =>
      obtain ⟨X, Y, hl, hend⟩ := ih (some a)
      exact ⟨a :: X, Y, by rw [hl, cons_append], hend⟩
  | @cons_cons S l a h ih =>
    obtain ⟨X, Y, hl, hend⟩ := ih (some a)
    exact ⟨a :: X, Y, by rw [hl, cons_append], hend⟩

/-- **The links visit the members of a list**, from a node on. -/
def Path (next : Option α → Option α) : Option α → List α → Prop
  | _, [] => True
  | p, a :: l => next p = some a ∧ Path next (some a) l

/-- **The links visit the members of a list and lead nowhere after them.** -/
def Leads (next : Option α → Option α) (p : Option α) (l : List α) : Prop :=
  Path next p l ∧ next (endNode p l) = none

@[simp] theorem path_nil : Path next p [] := trivial

@[simp] theorem path_cons {a : α} : Path next p (a :: l) ↔ next p = some a ∧ Path next (some a) l :=
  Iff.rfl

@[simp] theorem leads_nil : Leads next p [] ↔ next p = none := by simp [Leads]

@[simp] theorem leads_cons {a : α} :
    Leads next p (a :: l) ↔ next p = some a ∧ Leads next (some a) l := by
  simp [Leads, and_assoc]

theorem path_append : Path next p (A ++ B) ↔ Path next p A ∧ Path next (endNode p A) B := by
  induction A generalizing p with
  | nil => simp
  | cons a A ih => simp [ih, and_assoc]

theorem leads_append : Leads next p (A ++ B) ↔ Path next p A ∧ Leads next (endNode p A) B := by
  simp [Leads, path_append, and_assoc]

/-- The first member is the one the start links to. -/
theorem Leads.head?_eq (h : Leads next p l) : next p = l.head? := by
  cases l with
  | nil => simpa using h
  | cons a l => exact h.1.1

/-- Links are read at the start and at the members only. -/
theorem Path.congr (h : Path next p l) (hp : next' p = next p)
    (hl : ∀ a ∈ l, next' (some a) = next (some a)) : Path next' p l := by
  induction l generalizing p with
  | nil => simp
  | cons a l ih =>
    exact ⟨hp.trans h.1, ih h.2 (hl a mem_cons_self)
      (fun b hb => hl b (mem_cons_of_mem a hb))⟩

/-- Links are read at the start and at the members only. -/
theorem Leads.congr (h : Leads next p l) (hp : next' p = next p)
    (hl : ∀ a ∈ l, next' (some a) = next (some a)) : Leads next' p l := by
  refine ⟨h.1.congr hp hl, ?_⟩
  rcases endNode_eq_or_mem p l with hend | ⟨b, hb, hend⟩
  · rw [hend, hp, ← hend, h.2]
  · rw [hend, hl b hb, ← hend, h.2]

/-- **A list without its start**: the links lead from the first member through
the others. -/
def Joined (next : Option α → Option α) (l : List α) : Prop :=
  ∀ a, l.head? = some a → Leads next (some a) l.tail

@[simp] theorem joined_cons {a : α} : Joined next (a :: l) ↔ Leads next (some a) l := by
  simp [Joined]

theorem Leads.joined (h : Leads next p l) : Joined next l := by
  cases l with
  | nil => simp [Joined]
  | cons a l => simpa using (leads_cons.mp h).2

theorem Joined.congr (h : Joined next l) (hl : ∀ a ∈ l, next' (some a) = next (some a)) :
    Joined next' l := by
  cases l with
  | nil => simp [Joined]
  | cons a l =>
    rw [joined_cons] at h ⊢
    exact h.congr (hl a mem_cons_self) (fun b hb => hl b (mem_cons_of_mem a hb))

section Writes

variable [DecidableEq α]

/-- `a->next = p->next; p->next = a;` -/
def insertAfter (next : Option α → Option α) (p : Option α) (a : α) : Option α → Option α :=
  Function.update (Function.update next (some a) (next p)) p (some a)

/-- `p->next = a->next;` -/
def bypass (next : Option α → Option α) (p : Option α) (a : α) : Option α → Option α :=
  Function.update next p (next (some a))

/-- `head->next = p->next; p->next = NULL;` -/
def cutAfter (next : Option α → Option α) (p : Option α) : Option α → Option α :=
  Function.update (Function.update next none (next p)) p none

/-- A member put behind a node comes after the members up to it. -/
theorem Leads.insert (h : Leads next p (A ++ B)) (hp : ∀ a ∈ t :: (A ++ B), p ≠ some a)
    (hnodup : (t :: (A ++ B)).Nodup) :
    Leads (insertAfter next (endNode p A) t) p (A ++ t :: B) := by
  induction A generalizing p with
  | nil =>
    have hpt : p ≠ some t := hp t mem_cons_self
    simp only [nil_append, endNode_nil, leads_cons] at h hnodup ⊢
    refine ⟨by simp [insertAfter], ?_⟩
    cases B with
    | nil => simpa [insertAfter, update_of_ne (Ne.symm hpt)] using h
    | cons b B =>
      obtain ⟨hb, hB⟩ := leads_cons.mp h
      refine leads_cons.mpr ⟨by simp [insertAfter, update_of_ne (Ne.symm hpt), hb], ?_⟩
      -- no write reaches the members behind
      have hsame : ∀ a ∈ b :: B, insertAfter next p t (some a) = next (some a) := by
        intro a ha
        have hap : some a ≠ p := Ne.symm (hp a (by simp [mem_cons.mp ha]))
        have hat : some a ≠ some t := by
          rintro ⟨⟩
          exact (nodup_cons.mp hnodup).1 ha
        rw [insertAfter, update_of_ne hap, update_of_ne hat]
      exact hB.congr (hsame b mem_cons_self)
        (fun a ha => hsame a (mem_cons_of_mem b ha))
  | cons a A ih =>
    obtain ⟨ha, hA⟩ := leads_cons.mp h
    have hpt : p ≠ some t := hp t mem_cons_self
    have hpend : p ≠ endNode (some a) A := by
      obtain ⟨b, hb, hend⟩ := endNode_mem none a A
      rw [endNode_cons] at hend
      rw [hend]
      exact hp b (mem_cons_of_mem t (mem_append_left B hb))
    have hnodup' : (t :: (A ++ B)).Nodup := by
      simp only [cons_append, nodup_cons, mem_cons, not_or] at hnodup ⊢
      exact ⟨hnodup.1.2, hnodup.2.2⟩
    refine leads_cons.mpr ⟨?_, ih hA ?_ hnodup'⟩
    · simp [insertAfter, hpend, hpt, ha]
    · rintro b hb ⟨⟩
      simp only [cons_append, nodup_cons, mem_cons, not_or] at hnodup hb
      rcases hb with rfl | hb
      · exact hnodup.1.1 rfl
      · exact hnodup.2.1 hb

/-- The member behind a node that is bypassed is gone from the list. -/
theorem Leads.bypass (h : Leads next p (A ++ t :: B)) (hp : ∀ a ∈ A ++ t :: B, p ≠ some a)
    (hnodup : (A ++ t :: B).Nodup) :
    Leads (SinglyLinked.bypass next (endNode p A) t) p (A ++ B) := by
  induction A generalizing p with
  | nil =>
    simp only [nil_append, endNode_nil, leads_cons] at h hnodup hp ⊢
    cases B with
    | nil => simpa [SinglyLinked.bypass] using h.2
    | cons b B =>
      obtain ⟨hb, hB⟩ := leads_cons.mp h.2
      refine leads_cons.mpr ⟨by simp [SinglyLinked.bypass, hb], ?_⟩
      have hsame : ∀ a ∈ b :: B, SinglyLinked.bypass next p t (some a) = next (some a) :=
        fun a ha => update_of_ne (Ne.symm (hp a (mem_cons_of_mem t ha))) _ _
      exact hB.congr (hsame b mem_cons_self)
        (fun a ha => hsame a (mem_cons_of_mem b ha))
  | cons a A ih =>
    obtain ⟨ha, hA⟩ := leads_cons.mp h
    have hpend : p ≠ endNode (some a) A := by
      obtain ⟨b, hb, hend⟩ := endNode_mem none a A
      rw [endNode_cons] at hend
      rw [hend]
      exact hp b (mem_append_left _ hb)
    rw [cons_append, nodup_cons] at hnodup
    refine leads_cons.mpr ⟨?_, ih hA ?_ hnodup.2⟩
    · simp [SinglyLinked.bypass, hpend, ha]
    · rintro b hb ⟨⟩
      exact hnodup.1 hb

/-- The part in front of a node, closed off behind it. -/
theorem Path.close (h : Path next p A) (hp : ∀ a ∈ A, p ≠ some a) (hnodup : A.Nodup) :
    Leads (update next (endNode p A) none) p A := by
  induction A generalizing p with
  | nil => simp
  | cons a A ih =>
    rw [nodup_cons] at hnodup
    refine leads_cons.mpr ⟨?_, ih h.2 ?_ hnodup.2⟩
    · obtain ⟨b, hb, hend⟩ := endNode_mem none a A
      rw [endNode_cons] at hend ⊢
      rw [hend, update_of_ne (hp b hb), h.1]
    · rintro b hb ⟨⟩
      exact hnodup.1 hb

/-- **The head moved on** to what follows a node: the list is what comes
after it. -/
theorem Leads.cut (h : Leads next none (A ++ B)) (hA : A ≠ []) (hnodup : (A ++ B).Nodup) :
    Leads (cutAfter next (endNode none A)) none B := by
  obtain ⟨-, hB⟩ := leads_append.mp h
  have hne : none ≠ endNode none A := fun e => hA (endNode_none_eq_none.mp e.symm)
  have hhead : cutAfter next (endNode none A) none = next (endNode none A) := by
    rw [cutAfter, update_of_ne hne, update_self]
  cases B with
  | nil => simpa [hhead] using hB
  | cons b B =>
    obtain ⟨hb, hB⟩ := leads_cons.mp hB
    refine leads_cons.mpr ⟨hhead.trans hb, ?_⟩
    have hsame : ∀ c ∈ b :: B, cutAfter next (endNode none A) (some c) = next (some c) := by
      intro c hc
      have hcend : some c ≠ endNode none A :=
        Ne.symm (endNode_ne (fun hcA => (disjoint_of_nodup_append hnodup) hcA hc))
      simp [cutAfter, hcend]
    exact hB.congr (hsame b mem_cons_self) (fun c hc => hsame c (mem_cons_of_mem b hc))

/-- The part the head has left still hangs together, and ends. -/
theorem Leads.cut_front {a : α} (h : Leads next none (a :: A ++ B)) (hnodup : (a :: A ++ B).Nodup) :
    Leads (cutAfter next (endNode none (a :: A))) (some a) A := by
  have hpath : Path (update next none (next (endNode none (a :: A)))) (some a) A :=
    (leads_append.mp h).1.2.congr (by simp) (by simp)
  have hnodup' := (nodup_append.mp hnodup).1
  rw [nodup_cons] at hnodup'
  refine hpath.close ?_ hnodup'.2
  rintro b hb ⟨⟩
  exact hnodup'.1 hb

end Writes

/-- `while (p->next && go(p->next)) p = p->next;` with a bound on the rounds:
the node the loop stops at. -/
def walk (next : Option α → Option α) (go : α → Bool) : ℕ → Option α → Option (Option α)
  | 0, _ => none
  | n + 1, p =>
    match next p with
    | none => some p
    | some a => if go a then walk next go n (some a) else some p

/-- The walk stops where the members to go over end. -/
theorem Leads.walk_eq {go : α → Bool} {n : ℕ} (h : Leads next p (A ++ B)) (hA : ∀ a ∈ A, go a)
    (hB : ∀ b, B.head? = some b → go b = false) (hn : A.length < n) :
    walk next go n p = some (endNode p A) := by
  induction A generalizing p n with
  | nil =>
    obtain ⟨n, rfl⟩ := Nat.exists_eq_succ_of_ne_zero (Nat.ne_of_gt hn)
    have hhead := h.head?_eq
    rw [nil_append] at hhead
    cases hb : B.head? with
    | none => simp [walk, hhead, hb]
    | some b => simp [walk, hhead, hb, hB b hb]
  | cons a A ih =>
    obtain ⟨n, rfl⟩ := Nat.exists_eq_succ_of_ne_zero (Nat.ne_zero_of_lt hn)
    obtain ⟨ha, hrest⟩ := leads_cons.mp h
    have hgo : go a = true := hA a mem_cons_self
    simp only [walk, ha, hgo, if_true, endNode_cons]
    exact ih hrest (fun b hb => hA b (mem_cons_of_mem a hb)) (Nat.lt_of_succ_lt_succ hn)

end SinglyLinked
