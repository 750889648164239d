import DpdkStudy.Bpf.Exec

/-!
# What is known of a register

The second pass of the validator (`lib/bpf/bpf_validate.c`) follows the paths of a program
with what it knows of each register (`struct bpf_reg_val`): whether it is a number or a
pointer, and an interval for its value, once read without a sign and once with one. Of a
pointer the intervals bound the offset from where its buffer begins.
-/

namespace Bpf

/-- `enum rte_bpf_arg_type`. -/
inductive RteBpfArgType
  | undef
  | raw
  | ptr
  | ptrMbuf
  /-- `BPF_ARG_PTR_STACK`. -/
  | reserved
deriving DecidableEq, Repr

/-- `struct rte_bpf_arg`. -/
structure RteBpfArg where
  type : RteBpfArgType
  size : ℕ
  buf_size : ℕ
deriving DecidableEq, Repr

/-- An interval of words. -/
structure Bounds where
  min : BitVec 64
  max : BitVec 64
deriving DecidableEq, Repr

/-- **What is known of a register** (`struct bpf_reg_val`). -/
structure BpfRegVal where
  v : RteBpfArg
  mask : BitVec 64
  s : Bounds
  u : Bounds
deriving DecidableEq, Repr

/-- **A state of the evaluation** (`struct bpf_eval_state`): the registers, and the words of
the stack. -/
structure BpfEvalState where
  rv : Fin 11 → BpfRegVal
  sv : Fin 64 → BpfRegVal

/-! ## Words as numbers -/

/-- **How a word is read**: without a sign, or with one. -/
inductive Sign
  | u
  | s
deriving DecidableEq, Repr

/-- The number that a word is. -/
def Sign.key : Sign → BitVec 64 → ℤ
  | u, x => x.toNat
  | s, x => x.toInt

/-- `RTE_MAX` of two words. -/
def Sign.rteMax (g : Sign) (a b : BitVec 64) : BitVec 64 := if g.key b < g.key a then a else b

/-- `RTE_MIN` of two words. -/
def Sign.rteMin (g : Sign) (a b : BitVec 64) : BitVec 64 := if g.key a < g.key b then a else b

/-- Both readings. -/
protected theorem Sign.forall {p : Sign → Prop} : (∀ g, p g) ↔ p .u ∧ p .s :=
  ⟨fun h => ⟨h .u, h .s⟩, fun h g => by cases g; exacts [h.1, h.2]⟩

/-- One of the intervals of a register. -/
def BpfRegVal.bounds (rv : BpfRegVal) : Sign → Bounds
  | .u => rv.u
  | .s => rv.s

/-- A register with another interval. -/
def BpfRegVal.withBounds (rv : BpfRegVal) (b : Bounds) : Sign → BpfRegVal
  | .u => { rv with u := b }
  | .s => { rv with s := b }

/-- **A word is in an interval.** -/
def Bounds.Has (b : Bounds) (g : Sign) (x : BitVec 64) : Prop :=
  g.key b.min ≤ g.key x ∧ g.key x ≤ g.key b.max

/-- **A word is in both intervals** of a register. -/
def BpfRegVal.Holds (rv : BpfRegVal) (x : BitVec 64) : Prop := ∀ g, (rv.bounds g).Has g x

instance (b : Bounds) (g : Sign) (x : BitVec 64) : Decidable (b.Has g x) :=
  inferInstanceAs (Decidable (g.key b.min ≤ g.key x ∧ g.key x ≤ g.key b.max))

theorem BpfRegVal.holds_iff (rv : BpfRegVal) (x : BitVec 64) :
    rv.Holds x ↔ rv.u.Has .u x ∧ rv.s.Has .s x :=
  Sign.forall

instance (rv : BpfRegVal) (x : BitVec 64) : Decidable (rv.Holds x) :=
  decidable_of_iff _ (rv.holds_iff x).symm

/-- The register has a pointer. -/
def BpfRegVal.isPtr (rv : BpfRegVal) : Bool :=
  match rv.v.type with
  | .undef => false
  | .raw => false
  | .ptr => true
  | .ptrMbuf => true
  | .reserved => true

/-- **A register is as it is described**: a number is in both intervals, and so is the offset
of a pointer, which is into a buffer that begins somewhere. -/
def BpfRegVal.Describes (rv : BpfRegVal) (base x : BitVec 64) : Prop :=
  rv.v.type = .undef ∨ rv.Holds (if rv.isPtr then x - base else x)

instance (rv : BpfRegVal) (base x : BitVec 64) : Decidable (rv.Describes base x) :=
  inferInstanceAs
    (Decidable (rv.v.type = .undef ∨ rv.Holds (if rv.isPtr then x - base else x)))

/-- **All registers are as they are described.** -/
def BpfEvalState.Describes (st : BpfEvalState) (base : Fin 11 → BitVec 64) (m : Machine) : Prop :=
  ∀ r, (st.rv r).Describes (base r) (m.reg r)

instance (st : BpfEvalState) (base : Fin 11 → BitVec 64) (m : Machine) :
    Decidable (st.Describes base m) :=
  inferInstanceAs (Decidable (∀ r, (st.rv r).Describes (base r) (m.reg r)))

namespace Sign

variable {g : Sign} {a b x y : BitVec 64}

theorem key_inj (h : g.key a = g.key b) : a = b := by
  cases g with
  | u => exact BitVec.eq_of_toNat_eq (Int.ofNat.inj h)
  | s => exact BitVec.eq_of_toInt_eq h

theorem key_add_one (h : g.key x < g.key y) : g.key (x + 1) = g.key x + 1 := by
  cases g with
  | u =>
    simp only [key] at h ⊢
    have hlt := y.isLt
    rw [BitVec.toNat_add, show (1 : BitVec 64).toNat = 1 by decide]
    omega
  | s =>
    simp only [key] at h ⊢
    have hlt := BitVec.toInt_lt (x := y)
    have hle := BitVec.le_toInt x
    rw [BitVec.toInt_add, show (1 : BitVec 64).toInt = 1 by decide, Int.bmod_def]
    omega

theorem key_sub_one (h : g.key y < g.key x) : g.key (x - 1) = g.key x - 1 := by
  cases g with
  | u =>
    simp only [key] at h ⊢
    have hlt := x.isLt
    rw [BitVec.toNat_sub, show (1 : BitVec 64).toNat = 1 by decide]
    omega
  | s =>
    simp only [key] at h ⊢
    have hlt := BitVec.toInt_lt (x := x)
    have hle := BitVec.le_toInt y
    rw [BitVec.toInt_sub, show (1 : BitVec 64).toInt = 1 by decide, Int.bmod_def]
    omega

theorem key_rteMax : g.key (g.rteMax a b) = max (g.key a) (g.key b) := by
  rw [rteMax]
  split_ifs with h
  · rw [max_eq_left h.le]
  · rw [max_eq_right (not_lt.mp h)]

theorem key_rteMin : g.key (g.rteMin a b) = min (g.key a) (g.key b) := by
  rw [rteMin]
  split_ifs with h
  · rw [min_eq_left h.le]
  · rw [min_eq_right (not_lt.mp h)]

end Sign

/-! ## The intervals of a register -/

/-- `eval_umax_bound`. -/
def evalUmaxBound (rv : BpfRegVal) (mask : BitVec 64) : BpfRegVal := { rv with u := ⟨0, mask⟩ }

/-- `eval_smax_bound`. -/
def evalSmaxBound (rv : BpfRegVal) (mask : BitVec 64) : BpfRegVal :=
  { rv with s := ⟨mask >>> 1 ^^^ BitVec.allOnes 64, mask >>> 1⟩ }

/-- `eval_max_bound`. -/
def evalMaxBound (rv : BpfRegVal) (mask : BitVec 64) : BpfRegVal :=
  evalSmaxBound (evalUmaxBound rv mask) mask

/-- `eval_fill_imm64`. -/
def evalFillImm64 (rv : BpfRegVal) (mask val : BitVec 64) : BpfRegVal :=
  { rv with
    mask := mask
    s := ⟨val, val⟩
    u := ⟨val, val⟩ }

/-- `eval_fill_imm`. -/
def evalFillImm (rv : BpfRegVal) (mask : BitVec 64) (imm : BitVec 32) : BpfRegVal :=
  evalFillImm64 { rv with v := { rv.v with type := .raw } } mask (imm.signExtend 64 &&& mask)

/-- `eval_defined`. -/
def evalDefined (dst src : Option BpfRegVal) : Option String :=
  if ∃ rv ∈ dst, rv.v.type = .undef then some "dest reg value is undefined"
  else if ∃ rv ∈ src, rv.v.type = .undef then some "src reg value is undefined"
  else none

end Bpf
