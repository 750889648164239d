import Mathlib.Algebra.Group.Nat.Defs

/-!
# Runs

A system that takes a step for each event. A run leads from a state over a
list of events to a state (`run`). Where every step of a run is taken in a
state that allows it (`Along`), what each allowed step keeps is kept by the
run (`Along.invariant`). The same is said of a system in which an event may
be impossible (`runOption`, `AlongOption`).
-/

namespace Runs

variable {σ ε : Type*} {step : σ → ε → σ} {Ok : σ → ε → Prop}

variable {s : σ} {es : List ε} {P : σ → Prop} {Ok' : σ → ε → Prop}

/-- The state a run leads to. -/
def run (step : σ → ε → σ) : σ → List ε → σ
  | s, [] => s
  | s, e :: es => run step (step s e) es

/-- Every step of a run is taken in a state that allows it. -/
def Along (step : σ → ε → σ) (Ok : σ → ε → Prop) : σ → List ε → Prop
  | _, [] => True
  | s, e :: es => Ok s e ∧ Along step Ok (step s e) es

instance Along.decidable (step : σ → ε → σ) (Ok : σ → ε → Prop) [∀ s e, Decidable (Ok s e)] :
    ∀ (es : List ε) (s : σ), Decidable (Along step Ok s es)
  | [], _ => isTrue trivial
  | e :: es, s =>
    have : Decidable (Along step Ok (step s e) es) := Along.decidable step Ok es (step s e)
    inferInstanceAs (Decidable (Ok s e ∧ Along step Ok (step s e) es))

theorem run_append (s : σ) (es fs : List ε) :
    run step s (es ++ fs) = run step (run step s es) fs := by
  induction es generalizing s with
  | nil => rfl
  | cons e es ih => exact ih (step s e)

theorem Along.append {fs : List ε} (h : Along step Ok s (es ++ fs)) :
    Along step Ok s es ∧ Along step Ok (run step s es) fs := by
  induction es generalizing s with
  | nil => exact ⟨trivial, h⟩
  | cons e es ih =>
    obtain ⟨hes, hfs⟩ := ih h.2
    exact ⟨⟨h.1, hes⟩, hfs⟩

/-- What every allowed step keeps, a run keeps. -/
theorem Along.invariant (hstep : ∀ s e, P s → Ok s e → P (step s e)) (h : Along step Ok s es)
    (hs : P s) : P (run step s es) := by
  induction es generalizing s with
  | nil => exact hs
  | cons e es ih => exact ih h.2 (hstep s e hs h.1)

/-- A run all of whose steps meet a condition, since they meet another one in
states that have what the steps keep. -/
theorem Along.imp_of_invariant (hstep : ∀ s e, P s → Ok s e → Ok' s e ∧ P (step s e))
    (h : Along step Ok s es) (hs : P s) : Along step Ok' s es := by
  induction es generalizing s with
  | nil => trivial
  | cons e es ih =>
    obtain ⟨hok, hnext⟩ := hstep s e hs h.1
    exact ⟨hok, ih h.2 hnext⟩

/-- What every step keeps, a run keeps. -/
theorem run_invariant (hstep : ∀ s e, P s → P (step s e)) (hs : P s) (es : List ε) :
    P (run step s es) := by
  induction es generalizing s with
  | nil => exact hs
  | cons e es ih => exact ih (hstep s e hs)

/-- A run of events that are allowed in every state. -/
theorem along_of_forall (h : ∀ e ∈ es, ∀ s, Ok s e) (s : σ) : Along step Ok s es := by
  induction es generalizing s with
  | nil => exact trivial
  | cons e es ih =>
    exact ⟨h e List.mem_cons_self s, ih (fun e' he' => h e' (List.mem_cons_of_mem e he')) _⟩

section Option

variable {step : σ → ε → Option σ} {Ok : σ → ε → Prop}

/-- The state a run leads to, none when one of its events is impossible. -/
def runOption (step : σ → ε → Option σ) : σ → List ε → Option σ
  | s, [] => some s
  | s, e :: es => (step s e).bind fun s => runOption step s es

theorem runOption_append (s : σ) (es fs : List ε) : runOption step s (es ++ fs)
    = (runOption step s es).bind fun s => runOption step s fs := by
  induction es generalizing s with
  | nil => rfl
  | cons e es ih =>
    simp only [List.cons_append, runOption, Option.bind_assoc, ih]

/-- Every step of a run is taken in a state that allows it. -/
def AlongOption (step : σ → ε → Option σ) (Ok : σ → ε → Prop) : σ → List ε → Prop
  | _, [] => True
  | s, e :: es => Ok s e ∧ ∀ s' ∈ step s e, AlongOption step Ok s' es

instance AlongOption.decidable [∀ s e, Decidable (Ok s e)] :
    ∀ (es : List ε) (s : σ), Decidable (AlongOption step Ok s es)
  | [], _ => isTrue trivial
  | e :: es, s =>
    have : DecidablePred fun s' => AlongOption step Ok s' es := AlongOption.decidable es
    inferInstanceAs (Decidable (Ok s e ∧ ∀ s' ∈ step s e, AlongOption step Ok s' es))

/-- The last step of a run is taken in a state that allows it. -/
theorem AlongOption.last {t : σ} {e : ε} (h : AlongOption step Ok s (es ++ [e]))
    (hrun : runOption step s es = some t) : Ok t e := by
  induction es generalizing s with
  | nil => exact Option.some.inj hrun ▸ h.1
  | cons e' es ih =>
    obtain ⟨s', hs', hrest⟩ := Option.bind_eq_some_iff.mp hrun
    exact ih (h.2 s' hs') hrest

theorem AlongOption.and (h : AlongOption step Ok s es) (h' : AlongOption step Ok' s es) :
    AlongOption step (fun s e => Ok s e ∧ Ok' s e) s es := by
  induction es generalizing s with
  | nil => trivial
  | cons e es ih => exact ⟨⟨h.1, h'.1⟩, fun t ht => ih (h.2 t ht) (h'.2 t ht)⟩

/-- A run all of whose steps meet a condition, since they meet another one in
states that have what the steps keep. -/
theorem AlongOption.imp_of_invariant (hstep : ∀ s e, P s → Ok s e → Ok' s e ∧ ∀ s' ∈ step s e, P s')
    (h : AlongOption step Ok s es) (hs : P s) : AlongOption step Ok' s es := by
  induction es generalizing s with
  | nil => trivial
  | cons e es ih =>
    obtain ⟨hok, hnext⟩ := hstep s e hs h.1
    exact ⟨hok, fun t ht => ih (h.2 t ht) (hnext t ht)⟩

/-- A run whose steps are checked while they are taken. -/
theorem runOption_guard [∀ s e, Decidable (Ok s e)] {t : σ}
    (h : runOption (fun s e => if Ok s e then step s e else none) s es = some t) :
    AlongOption step Ok s es ∧ runOption step s es = some t := by
  induction es generalizing s with
  | nil => exact ⟨trivial, h⟩
  | cons e es ih =>
    obtain ⟨s₁, hif, hrest⟩ := Option.bind_eq_some_iff.mp h
    obtain ⟨hok, hstep⟩ := Option.ite_none_right_eq_some.mp hif
    obtain ⟨hes, hrun⟩ := ih hrest
    refine ⟨⟨hok, fun s₂ hs₂ => ?_⟩, ?_⟩
    · rwa [← Option.some.inj (hstep.symm.trans hs₂)]
    · rw [runOption, hstep, Option.bind_some, hrun]

/-- What every allowed step keeps, a run keeps. -/
theorem AlongOption.invariant (hstep : ∀ s e s', P s → Ok s e → step s e = some s' → P s') {s' : σ}
    (h : AlongOption step Ok s es) (hrun : runOption step s es = some s') (hs : P s) : P s' := by
  induction es generalizing s with
  | nil =>
    obtain rfl := Option.some.inj hrun
    exact hs
  | cons e es ih =>
    obtain ⟨t, ht, hrest⟩ := Option.bind_eq_some_iff.mp hrun
    exact ih (h.2 t ht) hrest (hstep s e t hs h.1 ht)

end Option

end Runs
