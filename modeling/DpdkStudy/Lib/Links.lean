import Mathlib.Data.List.Basic

/-!
# Lists that are linked in one direction

Elements in a memory, each with a link to another one or to none. A path follows
the links along a list of elements, from where it starts to where it comes
(`Path`). A list in the memory is a path that comes to nothing, and a piece of one
is a path as well, so that pieces are cut off and put in front by taking paths
apart (`path_append`).
-/

namespace Links

variable {α : Type*} {next next' : α → Option α} {l l' : List α} {s e e' m : Option α} {a b : α}

/-- **A path** along the links through the elements of a list. -/
def Path (next : α → Option α) : Option α → List α → Option α → Prop
  | s, [], e => s = e
  | s, a :: l, e => s = some a ∧ Path next (next a) l e

theorem path_append : Path next s (l ++ l') e ↔ ∃ m, Path next s l m ∧ Path next m l' e := by
  induction l generalizing s with
  | nil => simp [Path]
  | cons a l ih =>
    simp only [List.cons_append, Path, ih]
    constructor
    · rintro ⟨hs, m, hl, hl'⟩
      exact ⟨m, ⟨hs, hl⟩, hl'⟩
    · rintro ⟨m, ⟨hs, hl⟩, hl'⟩
      exact ⟨hs, m, hl, hl'⟩

theorem Path.snoc (hp : Path next s l (some a)) : Path next s (l ++ [a]) (next a) :=
  path_append.mpr ⟨some a, hp, rfl, rfl⟩

theorem Path.head (hp : Path next s l e) (hne : l ≠ []) : s = l.head? := by
  cases l with
  | nil => exact absurd rfl hne
  | cons a l => exact hp.1

/-- A path is determined by where it starts and how long it is. -/
theorem Path.unique (hp : Path next s l e) (hp' : Path next s l' e') (hlen : l.length = l'.length) :
    l = l' ∧ e = e' := by
  induction l generalizing s l' with
  | nil =>
    obtain rfl := List.length_eq_zero_iff.mp hlen.symm
    exact ⟨rfl, hp.symm.trans hp'⟩
  | cons a l ih =>
    cases l' with
    | nil => exact absurd hlen (Nat.succ_ne_zero _)
    | cons a' l' =>
      obtain rfl : a = a' := Option.some.inj (hp.1.symm.trans hp'.1)
      obtain ⟨rfl, he⟩ := ih hp.2 hp'.2 (Nat.succ.inj hlen)
      exact ⟨rfl, he⟩

theorem Path.congr (hp : Path next s l e) (h : ∀ a ∈ l, next' a = next a) :
    Path next' s l e := by
  induction l generalizing s with
  | nil => exact hp
  | cons a l ih =>
    refine ⟨hp.1, ?_⟩
    rw [h a List.mem_cons_self]
    exact ih hp.2 (fun b hb => h b (List.mem_cons_of_mem a hb))

theorem Path.relink [DecidableEq α] (hp : Path next s l e) (hlast : l.getLast? = some b)
    (hnodup : l.Nodup) (e' : Option α) : Path (Function.update next b e') s l e' := by
  obtain ⟨init, rfl⟩ := List.getLast?_eq_some_iff.mp hlast
  obtain ⟨m, hinit, hb⟩ := path_append.mp hp
  obtain ⟨rfl, -⟩ := hb
  have hnew : ∀ a ∈ init, a ≠ b := by
    rintro a ha rfl
    exact (List.nodup_append.mp hnodup).2.2 a ha a List.mem_cons_self rfl
  refine path_append.mpr ⟨some b, hinit.congr (fun a ha => ?_), rfl, ?_⟩
  · exact Function.update_of_ne (hnew a ha) _ _
  · exact Function.update_self _ _ _

/-- The element where a path has come to is the next one of the list. -/
theorem Path.take_succ {i : ℕ} (hp : Path next s l e) (hi : Path next s (l.take i) (some a))
    (hlt : i < l.length) : l.take (i + 1) = l.take i ++ [a] := by
  have hsplit := hp
  rw [← List.take_append_drop i l] at hsplit
  obtain ⟨m, htake, hdrop⟩ := path_append.mp hsplit
  obtain ⟨-, rfl⟩ := htake.unique hi rfl
  rw [List.drop_eq_getElem_cons hlt] at hdrop
  rw [List.take_add_one, List.getElem?_eq_getElem hlt, Option.some.inj hdrop.1]
  rfl

/-- A path to nothing has not come to an element at its end. -/
theorem Path.lt_length {i : ℕ} (hp : Path next s l none) (hi : Path next s (l.take i) (some a)) :
    i < l.length := by
  by_contra hle
  rw [List.take_of_length_le (Nat.not_lt.mp hle)] at hi
  exact absurd (hp.unique hi rfl).2 (by simp)

theorem Path.drop {i : ℕ} (hp : Path next s l e) (hi : Path next s (l.take i) m) :
    Path next m (l.drop i) e := by
  rw [← List.take_append_drop i l] at hp
  obtain ⟨m', htake, hdrop⟩ := path_append.mp hp
  obtain ⟨-, rfl⟩ := htake.unique hi rfl
  exact hdrop

end Links
