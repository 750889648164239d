import Mathlib.Data.Nat.Notation

/-!
# Monitored computations

A computation that leaves a log of what it does and returns a value or fails
(`Act`). A monitor is an automaton over the log: it says which event is
allowed in which of its states (`Monitor`). `Monitor.Holds` is the weakest
precondition of a computation: every event of its log is allowed, and what
holds at the end depends on whether it returned. Each way of building a
computation has its rule, an equivalence, so that a failing computation is
refuted by the same rules that prove a passing one.
-/

universe u

/-- **A computation with a log**: what it did, and its value unless it
failed. -/
structure Act (ε α : Type*) where
  log : List ε
  out : Option α

namespace Act

variable {ε α β : Type*}

/-- A computation that returns at once. -/
def ret (a : α) : Act ε α := ⟨[], some a⟩

/-- A computation that fails at once. -/
def fail : Act ε α := ⟨[], none⟩

/-- One event. -/
def emit (e : ε) : Act ε Unit := ⟨[e], some ()⟩

/-- One computation after the other. What fails first ends the whole. -/
def andThen (x : Act ε α) (f : α → Act ε β) : Act ε β :=
  match x.out with
  | some a => ⟨x.log ++ (f a).log, (f a).out⟩
  | none => ⟨x.log, none⟩

instance : Monad (Act ε) where
  pure := ret
  bind := andThen

/-- A computation with something to do where it fails. -/
def onFail (x : Act ε α) (c : Act ε Unit) : Act ε α :=
  match x.out with
  | some a => ⟨x.log, some a⟩
  | none => ⟨x.log ++ c.log, none⟩

/-- A result of a function that may have failed. -/
def ofOption : Option α → Act ε α
  | some a => ret a
  | none => fail

end Act

/-- **A monitor**: the events allowed in a state, and the state after one. -/
structure Monitor (ε σ : Type*) where
  ok : σ → ε → Prop
  next : σ → ε → σ

namespace Monitor

variable {ε σ : Type*} {α β : Type u} (M : Monitor ε σ)

/-- Every event of a log is allowed where it happens. -/
def Passes : σ → List ε → Prop
  | _, [] => True
  | s, e :: es => M.ok s e ∧ Passes (M.next s e) es

/-- The state after a log. -/
def after (s : σ) (es : List ε) : σ := es.foldl M.next s

/-- **A monitored computation**: all its events are allowed, `post` holds of
what it returns and `err` of the state it fails in. -/
def Holds (s : σ) (x : Act ε α) (post : σ → α → Prop) (err : σ → Prop) : Prop :=
  M.Passes s x.log ∧
    match x.out with
    | some a => post (M.after s x.log) a
    | none => err (M.after s x.log)

variable {M}

@[simp] theorem after_nil (s : σ) : M.after s [] = s := rfl

@[simp] theorem after_append (s : σ) (es fs : List ε) :
    M.after s (es ++ fs) = M.after (M.after s es) fs := by
  simp [after]

@[simp] theorem passes_append (s : σ) (es fs : List ε) :
    M.Passes s (es ++ fs) ↔ M.Passes s es ∧ M.Passes (M.after s es) fs := by
  induction es generalizing s with
  | nil => simp [Passes]
  | cons e es ih =>
    have hafter : M.after s (e :: es) = M.after (M.next s e) es := rfl
    simp [Passes, ih, hafter, and_assoc]

/-- An event of a log that passes is allowed in some state. -/
theorem Passes.ok_of_mem {s : σ} {es : List ε} (h : M.Passes s es) {e : ε} (he : e ∈ es) :
    ∃ t, M.ok t e := by
  induction es generalizing s with
  | nil => exact absurd he (by simp)
  | cons f es ih =>
    rcases List.mem_cons.mp he with rfl | he
    · exact ⟨s, h.1⟩
    · exact ih h.2 he

/-! ## The rules -/

variable {s : σ} {post : σ → α → Prop} {err : σ → Prop}

@[simp] theorem holds_pure (a : α) : M.Holds s (pure a) post err ↔ post s a := by
  simp [Holds, pure, Act.ret, Passes]

@[simp] theorem holds_fail : M.Holds s (Act.fail : Act ε α) post err ↔ err s := by
  simp [Holds, Act.fail, Passes]

@[simp] theorem holds_emit (e : ε) (post : σ → Unit → Prop) :
    M.Holds s (Act.emit e) post err ↔ M.ok s e ∧ post (M.next s e) () := by
  simp [Holds, Act.emit, Passes, after]

@[simp] theorem holds_bind (x : Act ε β) (f : β → Act ε α) :
    M.Holds s (x >>= f) post err ↔ M.Holds s x (fun t b => M.Holds t (f b) post err) err := by
  obtain ⟨log, out⟩ := x
  cases out with
  | none => simp [Holds, bind, Act.andThen]
  | some b => simp [Holds, bind, Act.andThen, and_assoc]

@[simp] theorem holds_onFail (x : Act ε α) (c : Act ε Unit) (hc : c.out = some ()) :
    M.Holds s (x.onFail c) post err ↔
      M.Holds s x post (fun t => M.Holds t c (fun u _ => err u) (fun _ => True)) := by
  obtain ⟨log, out⟩ := x
  cases out with
  | none => simp [Holds, Act.onFail, hc, and_assoc]
  | some b => simp [Holds, Act.onFail]

@[simp] theorem holds_ite (p : Prop) [Decidable p] (x y : Act ε α) :
    M.Holds s (if p then x else y) post err ↔
      (p → M.Holds s x post err) ∧ (¬ p → M.Holds s y post err) := by
  by_cases hp : p <;> simp [hp]

theorem Holds.mono {x : Act ε α} {post' : σ → α → Prop} {err' : σ → Prop}
    (h : M.Holds s x post err) (hpost : ∀ t a, post t a → post' t a)
    (herr : ∀ t, err t → err' t) : M.Holds s x post' err' := by
  obtain ⟨log, out⟩ := x
  cases out with
  | none => exact ⟨h.1, herr _ h.2⟩
  | some a => exact ⟨h.1, hpost _ _ h.2⟩

end Monitor
