import Mathlib.Data.List.Basic

/-!
# Iterators

An iterator is called again and again with what its last call left, until it
says that there is no more. `Visits` says that this comes to an end, and what
has been seen by then.
-/

namespace Iteration

variable {σ α : Type*}

/-- **The calls end, and have seen the elements of a list**, in their order. -/
inductive Visits (next : σ → Option (α × σ)) : σ → List α → Prop
  | done {s : σ} (h : next s = none) : Visits next s []
  | step {s t : σ} {a : α} {l : List α} (h : next s = some (a, t)) (hl : Visits next t l) :
    Visits next s (a :: l)

/-- An iterator whose state is its last answer. -/
def byLast (next : Option α → Option α) (last : Option α) : Option (α × Option α) :=
  (next last).map fun a => (a, some a)

/-- An iterator that goes along a list sees what is left of it. -/
theorem visits_byLast_of_split {next : Option α → Option α} {l : List α}
    (hnext : ∀ before a after, l = before ++ a :: after → next (some a) = after.head?)
    (after : List α) : ∀ before last, l = before ++ after → next last = after.head? →
      Visits (byLast next) last after := by
  induction after with
  | nil =>
    intro before last _ hlast
    refine Visits.done ?_
    rw [byLast, hlast]
    rfl
  | cons a after ih =>
    intro before last hl hlast
    have hstep : byLast next last = some (a, some a) := by
      rw [byLast, hlast]
      rfl
    refine Visits.step hstep (ih (before ++ [a]) (some a) ?_ (hnext before a after hl))
    rw [hl, List.append_assoc]
    rfl

/-- An iterator that goes along a list from its start sees all of it. -/
theorem visits_byLast {next : Option α → Option α} {l : List α} (hfirst : next none = l.head?)
    (hnext : ∀ before a after, l = before ++ a :: after → next (some a) = after.head?) :
    Visits (byLast next) none l :=
  visits_byLast_of_split hnext l [] none rfl hfirst

/-- An element that is in two lists, one behind the other, is in the first one or in the
second one. -/
theorem append_eq_split {l m before after : List α} {a : α}
    (h : l ++ m = before ++ a :: after) :
    (∃ rest, l = before ++ a :: rest ∧ after = rest ++ m)
      ∨ ∃ front, m = front ++ a :: after := by
  rcases List.append_eq_append_iff.mp h with ⟨front, -, hm⟩ | ⟨rest, hl, hafter⟩
  · exact Or.inr ⟨front, hm⟩
  · cases rest with
    | nil => exact Or.inr ⟨[], hafter.symm⟩
    | cons b rest =>
      obtain ⟨rfl, rfl⟩ := List.cons.inj hafter
      exact Or.inl ⟨rest, hl, rfl⟩

end Iteration
