import DpdkStudy.Bpf.RegVal
import Mathlib.Tactic.SimpRw

/-!
# What a conditional jump says of its operands

After a conditional jump more is known of its operands: `eval_jcc` of
`lib/bpf/bpf_validate.c` makes two states of one, for the path that jumps and for the one
that goes on, and narrows the intervals of the operands in them. Eleven conditions are
brought back to five functions, which are given the registers of the two states in one order
or the other.

The functions write through pointers, and both operands can be one register. Here they write
to cells (`Cells`), one for each place that a pointer can be to.
-/

namespace Bpf

open Function

/-- **A place of a `struct bpf_reg_val`**: a register of one of the two states, `tst` or
`fst`, or the local that stands for the constant of the instruction. -/
structure Place where
  taken : Bool
  reg : Option (Fin 11)
deriving DecidableEq, Repr

/-- What is at each place. -/
abbrev Cells := Place → BpfRegVal

/-- One interval at a place is written. -/
def Cells.setBounds (c : Cells) (p : Place) (g : Sign) (b : Bounds) : Cells :=
  update c p ((c p).withBounds b g)

/-! ## The five functions -/

/-- A half of `eval_jeq_jne`: one of the two readings. -/
def evalEqHalf (g : Sign) (trd trs : Place) (c : Cells) : Cells :=
  -- sreg is constant
  if ((c trs).bounds g).min = ((c trs).bounds g).max then c.setBounds trd g ((c trs).bounds g)
  -- dreg is constant
  else if ((c trd).bounds g).min = ((c trd).bounds g).max then
    c.setBounds trs g ((c trd).bounds g)
  else
    let c := c.setBounds trd g { (c trd).bounds g with
      max := g.rteMin ((c trd).bounds g).max ((c trs).bounds g).max }
    let c := c.setBounds trd g { (c trd).bounds g with
      min := g.rteMax ((c trd).bounds g).min ((c trs).bounds g).min }
    c.setBounds trs g ((c trd).bounds g)

/-- `eval_jeq_jne`. -/
def evalJeqJne (trd trs : Place) (c : Cells) : Cells :=
  evalEqHalf .s trd trs (evalEqHalf .u trd trs c)

/-- `eval_jgt_jle` and `eval_jsgt_jsle`, which differ in how they read a word. -/
def evalGt (g : Sign) (trd trs frd frs : Place) (c : Cells) : Cells :=
  let c := c.setBounds frd g { (c frd).bounds g with
    max := g.rteMin ((c frd).bounds g).max ((c frs).bounds g).min }
  c.setBounds trd g { (c trd).bounds g with
    min := g.rteMax ((c trd).bounds g).min (((c trs).bounds g).min + 1) }

/-- `eval_jlt_jge` and `eval_jslt_jsge`. -/
def evalLt (g : Sign) (trd trs frd frs : Place) (c : Cells) : Cells :=
  let c := c.setBounds frd g { (c frd).bounds g with
    min := g.rteMax ((c frd).bounds g).min ((c frs).bounds g).min }
  c.setBounds trd g { (c trd).bounds g with
    max := g.rteMin ((c trd).bounds g).max (((c trs).bounds g).max - 1) }

/-- `eval_jgt_jle`. -/
def evalJgtJle : Place → Place → Place → Place → Cells → Cells := evalGt .u

/-- `eval_jlt_jge`. -/
def evalJltJge : Place → Place → Place → Place → Cells → Cells := evalLt .u

/-- `eval_jsgt_jsle`. -/
def evalJsgtJsle : Place → Place → Place → Place → Cells → Cells := evalGt .s

/-- `eval_jslt_jsge`. -/
def evalJsltJsge : Place → Place → Place → Place → Cells → Cells := evalLt .s

/-! ## The jump -/

/-- A register of this number. -/
def regOf (r : BitVec 4) : Option (Fin 11) :=
  if h : r.toNat < 11 then some ⟨r.toNat, h⟩ else none

/-- Where the second operand is. -/
def srcReg (ins : EbpfInsn) : Src → Option (Option (Fin 11))
  | .k => some none
  | .x => (regOf ins.src_reg).map some

/-- What is narrowed for a condition. -/
def narrowFor (op : JccOp) (trd trs frd frs : Place) : Cells → Cells :=
  match op with
  | .jeq => evalJeqJne trd trs
  | .jne => evalJeqJne frd frs
  | .jgt => evalJgtJle trd trs frd frs
  | .jle => evalJgtJle frd frs trd trs
  | .jlt => evalJltJge trd trs frd frs
  | .jge => evalJltJge frd frs trd trs
  | .jsgt => evalJsgtJsle trd trs frd frs
  | .jsle => evalJsgtJsle frd frs trd trs
  | .jslt => evalJsltJsge trd trs frd frs
  | .jsge => evalJsltJsge frd frs trd trs
  | .jset => id

/-- What is known of an operand: of a register, or of the constant. -/
def BpfEvalState.operandVal (evst : BpfEvalState) (imm : BitVec 32) :
    Option (Fin 11) → BpfRegVal
  | some r => evst.rv r
  | none => evalFillImm ⟨⟨.undef, 0, 0⟩, 0, ⟨0, 0⟩, ⟨0, 0⟩⟩ (BitVec.allOnes 64) imm

/-- **What is at the places when `eval_jcc` begins**: both states are the one before the jump,
and the locals have the constant. -/
def startCells (evst : BpfEvalState) (imm : BitVec 32) : Cells := fun p =>
  evst.operandVal imm p.reg

/-- One of the two states at the end. -/
def Cells.state (c : Cells) (taken : Bool) (evst : BpfEvalState) : BpfEvalState :=
  { evst with rv := fun r => c ⟨taken, some r⟩ }

/-- **`eval_jcc`**: the state of the path that jumps and the one of the path that does not, or
what is wrong. There is no result for a register outside the eleven. -/
def evalJcc (evst : BpfEvalState) (ins : EbpfInsn) :
    Option (Except String (BpfEvalState × BpfEvalState)) :=
  match ins.opcode with
  | some (.jcc op src) => do
    let rd ← regOf ins.dst_reg
    let rs ← srcReg ins src
    let frd : Place := ⟨false, rd⟩
    let trd : Place := ⟨true, rd⟩
    let frs : Place := ⟨false, rs⟩
    let trs : Place := ⟨true, rs⟩
    let c := startCells evst ins.imm
    match evalDefined (c trd) (c trs) with
    | some err => some (.error err)
    | none =>
      let c := narrowFor op trd trs frd frs c
      some (.ok (c.state true evst, c.state false evst))
  | _ => none

/-- A conditional jump is taken. -/
def takesJump (ins : EbpfInsn) (m : Machine) : Option Bool :=
  match ins.opcode with
  | some (.jcc op src) => do
    let a ← m.get ins.dst_reg
    let b ← operand ins src m
    some (op.holds a b)
  | _ => none

theorem Env.exec_takesJump (env : Env) {prm : List EbpfInsn} {pc : ℤ} {m : Machine}
    {ins : EbpfInsn} {taken : Bool} (hins : fetch prm pc = some ins)
    (h : takesJump ins m = some taken) :
    env.exec prm pc m = some (.go (if taken then pc + ins.off.toInt + 1 else pc + 1) m) := by
  rw [takesJump] at h
  split at h
  · rename_i op src hop
    simp only [Option.bind_eq_bind, Option.bind_eq_some_iff, Option.some.injEq] at h
    obtain ⟨a, ha, b, hb, rfl⟩ := h
    simp [Env.exec, hins, hop, ha, hb]
  · cases h

/-- **What the two states ought to be**: the machine is described by one of them if it jumps,
by the other if it does not. -/
def BranchSound (evst : BpfEvalState) (ins : EbpfInsn) : Prop :=
  ∀ tst fst, evalJcc evst ins = some (.ok (tst, fst)) → ∀ base m, evst.Describes base m →
    ∀ taken, takesJump ins m = some taken → (if taken then tst else fst).Describes base m

/-! ## Five relations -/

/-- **What a condition says, or its contrary.** -/
inductive Rel
  | eq
  | gt (g : Sign)
  | lt (g : Sign)

/-- The relation between two words. -/
def Rel.Holds : Rel → BitVec 64 → BitVec 64 → Prop
  | eq, a, b => a = b
  | gt g, a, b => g.key b < g.key a
  | lt g, a, b => g.key a < g.key b

/-- **The relation of a condition**, and whether the jump is taken where it holds. -/
def JccOp.rel : JccOp → Option (Rel × Bool)
  | jeq => some (.eq, true)
  | jne => some (.eq, false)
  | jgt => some (.gt .u, true)
  | jle => some (.gt .u, false)
  | jlt => some (.lt .u, true)
  | jge => some (.lt .u, false)
  | jsgt => some (.gt .s, true)
  | jsle => some (.gt .s, false)
  | jslt => some (.lt .s, true)
  | jsge => some (.lt .s, false)
  | jset => none

/-- What is narrowed for a relation: the operands where it holds, and where it does not. -/
def Rel.narrow (k : Rel) (hd hs nd ns : Place) : Cells → Cells :=
  match k with
  | eq => evalJeqJne hd hs
  | gt g => evalGt g hd hs nd ns
  | lt g => evalLt g hd hs nd ns

/-- The jump is taken where the relation holds, or where it does not. -/
theorem JccOp.holds_iff {op : JccOp} {k : Rel} {pos : Bool} (h : op.rel = some (k, pos))
    (a b : BitVec 64) : op.holds a b = pos ↔ k.Holds a b := by
  cases op <;> cases h <;>
    simp [JccOp.holds, Rel.Holds, Sign.key, BitVec.ult, BitVec.ule, BitVec.slt, BitVec.sle]

/-- The conditions are narrowed by their relations. -/
theorem narrowFor_eq {op : JccOp} {k : Rel} {pos : Bool} (h : op.rel = some (k, pos))
    (rd rs : Option (Fin 11)) :
    narrowFor op ⟨true, rd⟩ ⟨true, rs⟩ ⟨false, rd⟩ ⟨false, rs⟩ =
      k.narrow ⟨pos, rd⟩ ⟨pos, rs⟩ ⟨!pos, rd⟩ ⟨!pos, rs⟩ := by
  cases op <;> cases h <;> rfl

/-! ## Narrowing a cell -/

section Cells

variable {c : Cells} {p q hd hs nd ns : Place} {g h : Sign} {b : Bounds} {d s : BitVec 64}

theorem BpfRegVal.bounds_withBounds (rv : BpfRegVal) (b : Bounds) (g h : Sign) :
    (rv.withBounds b g).bounds h = if h = g then b else rv.bounds h := by
  cases g <;> cases h <;> rfl

theorem BpfRegVal.v_withBounds (rv : BpfRegVal) (b : Bounds) (g : Sign) :
    (rv.withBounds b g).v = rv.v := by
  cases g <;> rfl

/-- What an interval is after one has been written. -/
@[simp] theorem Cells.bounds_setBounds :
    (c.setBounds p g b q).bounds h = if q = p ∧ h = g then b else (c q).bounds h := by
  by_cases hq : q = p
  · subst hq
    simp [setBounds, BpfRegVal.bounds_withBounds]
  · simp [setBounds, hq]

@[simp] theorem Cells.v_setBounds : (c.setBounds p g b q).v = (c q).v := by
  by_cases hq : q = p
  · subst hq
    simp [setBounds, BpfRegVal.v_withBounds]
  · simp [setBounds, update_of_ne hq]

theorem Cells.setBounds_of_ne (hq : q ≠ p) : c.setBounds p g b q = c q :=
  update_of_ne hq _ _

theorem evalEqHalf_bounds_of_ne (hh : h ≠ g) :
    (evalEqHalf g hd hs c q).bounds h = (c q).bounds h := by
  simp only [evalEqHalf]
  split_ifs <;> simp [hh]

/-- Only one word is in the interval of a constant. -/
theorem Bounds.eq_of_const (hb : b.min = b.max) (hd : b.Has g d) (hs : b.Has g s) : d = s :=
  Sign.key_inj ((hb ▸ hd.2).trans hs.1 |>.antisymm ((hb ▸ hs.2).trans hd.1))

theorem Bounds.has_meet {b e : Bounds} :
    Bounds.Has ⟨g.rteMax b.min e.min, g.rteMin b.max e.max⟩ g d ↔ b.Has g d ∧ e.Has g d := by
  simp only [Has, Sign.key_rteMax, Sign.key_rteMin, max_le_iff, le_min_iff]
  tauto

/-- **Both operands are in the narrowed intervals** exactly if each is in that of the
other. -/
theorem evalEqHalf_has (hds : hd = hs → d = s) (hhd : ((c hd).bounds g).Has g d)
    (hhs : ((c hs).bounds g).Has g s) :
    (((evalEqHalf g hd hs c hd).bounds g).Has g d ∧
        ((evalEqHalf g hd hs c hs).bounds g).Has g s) ↔
      ((c hs).bounds g).Has g d ∧ ((c hd).bounds g).Has g s := by
  simp only [evalEqHalf]
  split_ifs with hcs hcd
  · have hsame : (if hs = hd then (c hs).bounds g else (c hs).bounds g) = (c hs).bounds g :=
      ite_self _
    simp only [Cells.bounds_setBounds, and_true, if_true, hsame]
    refine and_congr_right fun h => ?_
    have hval : d = s := Bounds.eq_of_const hcs h hhs
    subst hval
    simp only [hhd, hhs]
  · have hsame : (if hd = hs then (c hd).bounds g else (c hd).bounds g) = (c hd).bounds g :=
      ite_self _
    simp only [Cells.bounds_setBounds, and_true, if_true, hsame]
    refine and_congr_left fun h => ?_
    have hval : d = s := Bounds.eq_of_const hcd hhd h
    subst hval
    simp only [hhd, hhs]
  · by_cases heq : hd = hs
    · subst heq
      have hval : d = s := hds rfl
      subst hval
      simp [Bounds.has_meet]
    · simp [heq, Ne.symm heq, Bounds.has_meet, hhd, hhs]

/-- Where one interval is as it was, the other decides. -/
theorem BpfRegVal.holds_iff_of_ne {rv rw : BpfRegVal}
    (hrv : ∀ h ≠ g, rw.bounds h = rv.bounds h) (hold : rv.Holds d) :
    rw.Holds d ↔ (rw.bounds g).Has g d := by
  refine ⟨fun h => h g, fun hg h => ?_⟩
  by_cases heq : h = g
  · exact heq ▸ hg
  · exact hrv h heq ▸ hold h

/-- **Both operands are as the narrowed cells say** exactly if each is as the other is. -/
theorem evalJeqJne_holds (hds : hd = hs → d = s) (hhd : (c hd).Holds d) (hhs : (c hs).Holds s) :
    ((evalJeqJne hd hs c hd).Holds d ∧ (evalJeqJne hd hs c hs).Holds s) ↔
      (c hs).Holds d ∧ (c hd).Holds s := by
  have hne : Sign.s ≠ .u := by decide
  have hu := evalEqHalf_has hds (hhd .u) (hhs .u)
  have hsig := evalEqHalf_has (c := evalEqHalf .u hd hs c) (g := .s) hds
    ((evalEqHalf_bounds_of_ne hne).symm ▸ hhd .s) ((evalEqHalf_bounds_of_ne hne).symm ▸ hhs .s)
  simp only [evalEqHalf_bounds_of_ne hne] at hsig
  simp only [BpfRegVal.Holds, Sign.forall, evalJeqJne, evalEqHalf_bounds_of_ne hne.symm]
  rw [and_and_and_comm, hu, hsig, and_and_and_comm]

/-- **One interval is written in each state**: at the places of the second state only the
first interval counts. -/
theorem holds_setBounds (hds : nd = ns → d = s) (hhd : (c nd).Holds d) (hhs : (c ns).Holds s)
    {p : Place} (hn : nd ≠ p) (hn' : ns ≠ p) {e : Bounds} :
    (((c.setBounds nd g b).setBounds p g e nd).Holds d ∧
        ((c.setBounds nd g b).setBounds p g e ns).Holds s) ↔ b.Has g d := by
  rw [Cells.setBounds_of_ne hn, Cells.setBounds_of_ne hn',
    BpfRegVal.holds_iff_of_ne (g := g) (fun h hh => by simp [hh]) hhd,
    BpfRegVal.holds_iff_of_ne (g := g) (fun h hh => by simp [hh]) hhs]
  by_cases heq : nd = ns
  · have hval : d = s := hds heq
    subst heq hval
    simp
  · simp [Ne.symm heq, hhs g]

/-- At the places of the first state, which is written last, the last interval counts. -/
theorem holds_setBounds_last (hds : hd = hs → d = s) (hhd : (c hd).Holds d)
    (hhs : (c hs).Holds s) {p : Place} (hn : hs ≠ p) {e : Bounds} :
    (((c.setBounds p g e).setBounds hd g b hd).Holds d ∧
        ((c.setBounds p g e).setBounds hd g b hs).Holds s) ↔ b.Has g d := by
  rw [BpfRegVal.holds_iff_of_ne (g := g) (fun h hh => by simp [hh]) hhd,
    BpfRegVal.holds_iff_of_ne (g := g) (fun h hh => by simp [hh]) hhs]
  by_cases heq : hd = hs
  · have hval : d = s := hds heq
    subst heq hval
    simp
  · simp [Ne.symm heq, hn, hhs g]

theorem evalGt_holds (hds : hd = hs → d = s) (hhd : (c hd).Holds d) (hhs : (c hs).Holds s)
    (hn : hd ≠ nd) (hn' : hs ≠ nd) :
    ((evalGt g hd hs nd ns c hd).Holds d ∧ (evalGt g hd hs nd ns c hs).Holds s) ↔
      g.key (((c hs).bounds g).min + 1) ≤ g.key d := by
  rw [evalGt, holds_setBounds_last hds hhd hhs hn']
  simp [Bounds.Has, Sign.key_rteMax, hn, hn', (hhd g).1, (hhd g).2]

/-- The operands where one is not above the other. -/
theorem evalGt_not_holds (hds : nd = ns → d = s) (hhd : (c nd).Holds d) (hhs : (c ns).Holds s)
    (hn : nd ≠ hd) (hn' : ns ≠ hd) :
    ((evalGt g hd hs nd ns c nd).Holds d ∧ (evalGt g hd hs nd ns c ns).Holds s) ↔
      g.key d ≤ g.key ((c ns).bounds g).min := by
  rw [evalGt, holds_setBounds hds hhd hhs hn hn']
  simp [Bounds.Has, Sign.key_rteMin, (hhd g).1, (hhd g).2]

theorem evalLt_holds (hds : hd = hs → d = s) (hhd : (c hd).Holds d) (hhs : (c hs).Holds s)
    (hn : hd ≠ nd) (hn' : hs ≠ nd) :
    ((evalLt g hd hs nd ns c hd).Holds d ∧ (evalLt g hd hs nd ns c hs).Holds s) ↔
      g.key d ≤ g.key (((c hs).bounds g).max - 1) := by
  rw [evalLt, holds_setBounds_last hds hhd hhs hn']
  simp [Bounds.Has, Sign.key_rteMin, hn, hn', (hhd g).1, (hhd g).2]

/-- The operands where one is not below the other. -/
theorem evalLt_not_holds (hds : nd = ns → d = s) (hhd : (c nd).Holds d) (hhs : (c ns).Holds s)
    (hn : nd ≠ hd) (hn' : ns ≠ hd) :
    ((evalLt g hd hs nd ns c nd).Holds d ∧ (evalLt g hd hs nd ns c ns).Holds s) ↔
      g.key ((c ns).bounds g).min ≤ g.key d := by
  rw [evalLt, holds_setBounds hds hhd hhs hn hn']
  simp [Bounds.Has, Sign.key_rteMax, (hhd g).1, (hhd g).2]

theorem evalEqHalf_of_ne (hqd : q ≠ hd) (hqs : q ≠ hs) : evalEqHalf g hd hs c q = c q := by
  simp only [evalEqHalf]
  split_ifs <;> simp only [Cells.setBounds_of_ne hqd, Cells.setBounds_of_ne hqs]

/-- A second operand that is a constant is not touched. -/
theorem evalEqHalf_const (hc : ((c hs).bounds g).min = ((c hs).bounds g).max) (hne : hs ≠ hd) :
    evalEqHalf g hd hs c hs = c hs := by
  rw [evalEqHalf, if_pos hc, Cells.setBounds_of_ne hne]

@[simp] theorem evalEqHalf_v : (evalEqHalf g hd hs c q).v = (c q).v := by
  simp only [evalEqHalf]
  split_ifs <;> simp

end Cells

/-! ## Both states -/

/-- **The operands are in the intervals where the relation holds**: what it needs of them. -/
def Rel.Fits (k : Rel) (rd rs : BpfRegVal) (d s : BitVec 64) : Prop :=
  match k with
  | eq => rs.Holds d ∧ rd.Holds s
  | gt g => g.key ((rs.bounds g).min + 1) ≤ g.key d
  | lt g => g.key d ≤ g.key ((rs.bounds g).max - 1)

/-- The operands are in the intervals where the relation does not hold. -/
def Rel.FitsNot (k : Rel) (rs : BpfRegVal) (d : BitVec 64) : Prop :=
  match k with
  | eq => True
  | gt g => g.key d ≤ g.key (rs.bounds g).min
  | lt g => g.key (rs.bounds g).min ≤ g.key d

namespace Rel

variable {k : Rel} {c : Cells} {rd rs : Option (Fin 11)} {pos t : Bool} {d s : BitVec 64}

theorem narrow_of_ne {q : Place} (hqd : q.reg ≠ rd) (hqs : q.reg ≠ rs) :
    k.narrow ⟨pos, rd⟩ ⟨pos, rs⟩ ⟨!pos, rd⟩ ⟨!pos, rs⟩ c q = c q := by
  have hne : ∀ b, q ≠ ⟨b, rd⟩ := fun b h => hqd (congrArg Place.reg h)
  have hne' : ∀ b, q ≠ ⟨b, rs⟩ := fun b h => hqs (congrArg Place.reg h)
  cases k with
  | eq =>
    simp only [narrow, evalJeqJne]
    rw [evalEqHalf_of_ne (hne pos) (hne' pos), evalEqHalf_of_ne (hne pos) (hne' pos)]
  | gt g =>
    simp only [narrow, evalGt]
    rw [Cells.setBounds_of_ne (hne pos), Cells.setBounds_of_ne (hne _)]
  | lt g =>
    simp only [narrow, evalLt]
    rw [Cells.setBounds_of_ne (hne pos), Cells.setBounds_of_ne (hne _)]

/-- A pointer stays a pointer, and a number a number. -/
@[simp] theorem narrow_v {hd hs nd ns q : Place} : (k.narrow hd hs nd ns c q).v = (c q).v := by
  cases k <;> simp [narrow, evalJeqJne, evalGt, evalLt]

/-- A second operand that is a constant is not touched. -/
theorem narrow_const (hc : ∀ g, ((c ⟨pos, rs⟩).bounds g).min = ((c ⟨pos, rs⟩).bounds g).max)
    (hne : rs ≠ rd) :
    k.narrow ⟨pos, rd⟩ ⟨pos, rs⟩ ⟨!pos, rd⟩ ⟨!pos, rs⟩ c ⟨t, rs⟩ = c ⟨t, rs⟩ := by
  have hne' : ∀ b, (⟨t, rs⟩ : Place) ≠ ⟨b, rd⟩ := fun b h => hne (congrArg Place.reg h)
  cases k with
  | eq =>
    simp only [narrow, evalJeqJne]
    by_cases ht : t = pos
    · subst ht
      have hfst := evalEqHalf_const (hc .u) (hne' t)
      rw [evalEqHalf_const (by rw [hfst]; exact hc .s) (hne' t), hfst]
    · have htp : (⟨t, rs⟩ : Place) ≠ ⟨pos, rs⟩ := fun h => ht (congrArg Place.taken h)
      rw [evalEqHalf_of_ne (hne' pos) htp, evalEqHalf_of_ne (hne' pos) htp]
  | gt g =>
    simp only [narrow, evalGt]
    rw [Cells.setBounds_of_ne (hne' pos), Cells.setBounds_of_ne (hne' _)]
  | lt g =>
    simp only [narrow, evalLt]
    rw [Cells.setBounds_of_ne (hne' pos), Cells.setBounds_of_ne (hne' _)]

/-- **The operands are as the state of one path says** exactly if they fit: as they have to
where the relation holds, or where it does not. -/
theorem narrow_holds {vd vs : BpfRegVal} (hvd : ∀ b, c ⟨b, rd⟩ = vd) (hvs : ∀ b, c ⟨b, rs⟩ = vs)
    (hds : rd = rs → d = s) (hd : vd.Holds d) (hs : vs.Holds s) :
    ((k.narrow ⟨pos, rd⟩ ⟨pos, rs⟩ ⟨!pos, rd⟩ ⟨!pos, rs⟩ c ⟨t, rd⟩).Holds d ∧
        (k.narrow ⟨pos, rd⟩ ⟨pos, rs⟩ ⟨!pos, rd⟩ ⟨!pos, rs⟩ c ⟨t, rs⟩).Holds s) ↔
      if t = pos then k.Fits vd vs d s else k.FitsNot vs d := by
  have hne : ∀ r q, (⟨pos, r⟩ : Place) ≠ ⟨!pos, q⟩ := fun r q h => by simp at h
  have hplace : ∀ b, (⟨b, rd⟩ : Place) = ⟨b, rs⟩ → d = s :=
    fun b h => hds (congrArg Place.reg h)
  have hcd : ∀ b, (c ⟨b, rd⟩).Holds d := fun b => hvd b ▸ hd
  have hcs : ∀ b, (c ⟨b, rs⟩).Holds s := fun b => hvs b ▸ hs
  split_ifs with ht
  · subst ht
    cases k with
    | eq => rw [narrow, evalJeqJne_holds (hplace t) (hcd t) (hcs t), hvd, hvs, Fits]
    | gt g =>
      rw [narrow, evalGt_holds (hplace t) (hcd t) (hcs t) (hne _ _) (hne _ _), hvs, Fits]
    | lt g =>
      rw [narrow, evalLt_holds (hplace t) (hcd t) (hcs t) (hne _ _) (hne _ _), hvs, Fits]
  · obtain rfl : t = !pos := Bool.eq_not.mpr ht
    cases k with
    | eq =>
      simp only [narrow, evalJeqJne, FitsNot, iff_true]
      rw [evalEqHalf_of_ne (hne _ _).symm (hne _ _).symm,
        evalEqHalf_of_ne (hne _ _).symm (hne _ _).symm,
        evalEqHalf_of_ne (hne _ _).symm (hne _ _).symm,
        evalEqHalf_of_ne (hne _ _).symm (hne _ _).symm]
      exact ⟨hcd _, hcs _⟩
    | gt g =>
      rw [narrow, evalGt_not_holds (hplace _) (hcd _) (hcs _) (hne _ _).symm (hne _ _).symm, hvs,
        FitsNot]
    | lt g =>
      rw [narrow, evalLt_not_holds (hplace _) (hcd _) (hcs _) (hne _ _).symm (hne _ _).symm, hvs,
        FitsNot]

end Rel

/-! ## From machines to offsets -/

/-- The word that the intervals of a register are about. -/
def BpfEvalState.offset (evst : BpfEvalState) (base : Fin 11 → BitVec 64) (m : Machine)
    (r : Fin 11) : BitVec 64 :=
  if (evst.rv r).isPtr then m.reg r - base r else m.reg r

/-- **Every register can have its word**: one that is defined holds it. -/
def BpfEvalState.Allows (evst : BpfEvalState) (off : Fin 11 → BitVec 64) : Prop :=
  ∀ r, (evst.rv r).v.type = .undef ∨ (evst.rv r).Holds (off r)

/-- The word of an operand: of a register, or the constant. -/
def operandWord (imm : BitVec 32) (off : Fin 11 → BitVec 64) : Option (Fin 11) → BitVec 64
  | some r => off r
  | none => imm.signExtend 64

/-- **How the operands are related to the words of their intervals**: a number is the word
itself, and a register is equal to itself. -/
def Reads (rd rs : BpfRegVal) (same : Prop) (d s a b : BitVec 64) : Prop :=
  (rd.isPtr = false → a = d) ∧ (rs.isPtr = false → b = s) ∧ (same → a = b)

section Machines

variable {evst : BpfEvalState} {imm : BitVec 32} {rd : Fin 11} {rs : Option (Fin 11)}

theorem BpfEvalState.describes_iff {base : Fin 11 → BitVec 64} {m : Machine} :
    evst.Describes base m ↔ evst.Allows (evst.offset base m) := Iff.rfl

theorem BpfEvalState.operandVal_none : evst.operandVal imm none =
    ⟨⟨.raw, 0, 0⟩, BitVec.allOnes 64, ⟨imm.signExtend 64, imm.signExtend 64⟩,
      ⟨imm.signExtend 64, imm.signExtend 64⟩⟩ := by
  simp only [operandVal, evalFillImm, evalFillImm64, BitVec.and_allOnes]

/-- The operands of a machine are related to their words. -/
theorem BpfEvalState.reads_offset (base : Fin 11 → BitVec 64) (m : Machine) :
    Reads (evst.rv rd) (evst.operandVal imm rs) (rs = some rd) (evst.offset base m rd)
      (operandWord imm (evst.offset base m) rs) (m.reg rd) (operandWord imm m.reg rs) := by
  refine ⟨fun h => by simp [offset, h], fun h => ?_, fun h => by simp [h, operandWord]⟩
  cases rs with
  | none => rfl
  | some r =>
    have hr : (evst.rv r).isPtr = false := h
    simp [operandWord, offset, hr]

/-- Words that are so related are those of a machine. -/
theorem BpfEvalState.exists_machine {off : Fin 11 → BitVec 64} {a b : BitVec 64}
    (h : Reads (evst.rv rd) (evst.operandVal imm rs) (rs = some rd) (off rd)
      (operandWord imm off rs) a b) :
    ∃ base m, evst.offset base m = off ∧ m.reg rd = a ∧ operandWord imm m.reg rs = b := by
  obtain ⟨hd, hs, hsame⟩ := h
  let reg : Fin 11 → BitVec 64 := fun r => if r = rd then a else if some r = rs then b else off r
  refine ⟨fun r => reg r - off r, ⟨reg, fun _ => 0⟩, ?_, by simp [reg], ?_⟩
  · funext r
    rw [offset]
    split_ifs with hptr
    · show reg r - (reg r - off r) = off r
      bv_omega
    · have hnot : (evst.rv r).isPtr = false := Bool.not_eq_true _ ▸ hptr
      simp only [reg]
      split_ifs with hrd hrs
      · exact hrd ▸ hd (hrd ▸ hnot)
      · subst hrs
        exact hs hnot
      · rfl
  · cases rs with
    | none => exact (hs (by rw [operandVal_none]; rfl)).symm
    | some r =>
      by_cases hrd : r = rd
      · simpa [operandWord, reg, hrd] using hsame (congrArg some hrd)
      · simp [operandWord, reg, hrd]

theorem BpfEvalState.holds_none : (evst.operandVal imm none).Holds (imm.signExtend 64) := by
  rw [operandVal_none]
  intro g
  cases g <;> exact ⟨le_rfl, le_rfl⟩

/-- What is known of a register that is defined holds its word. -/
theorem BpfEvalState.Allows.holds {off : Fin 11 → BitVec 64} (h : evst.Allows off)
    (hdef : (evst.operandVal imm rs).v.type ≠ .undef) :
    (evst.operandVal imm rs).Holds (operandWord imm off rs) := by
  cases rs with
  | none => exact holds_none
  | some r => exact (h r).resolve_left hdef

/-- The state of a path has the pointers of the one before. -/
theorem offset_state {c : Cells} {t : Bool} (hv : ∀ r, (c ⟨t, some r⟩).v = (evst.rv r).v)
    (base : Fin 11 → BitVec 64) (m : Machine) :
    (c.state t evst).offset base m = evst.offset base m := by
  funext r
  have hptr : (c ⟨t, some r⟩).isPtr = (evst.rv r).isPtr := by
    rw [BpfRegVal.isPtr, hv, BpfRegVal.isPtr]
  show (if (c ⟨t, some r⟩).isPtr then m.reg r - base r else m.reg r) = evst.offset base m r
  rw [hptr, BpfEvalState.offset]

/-- **One of the two states describes the machine** exactly if the operands fit. -/
theorem describes_narrow {k : Rel} {pos t : Bool} {base : Fin 11 → BitVec 64} {m : Machine}
    (hm : evst.Describes base m) (hrd : (evst.rv rd).v.type ≠ .undef)
    (hrs : (evst.operandVal imm rs).v.type ≠ .undef) :
    ((k.narrow ⟨pos, rd⟩ ⟨pos, rs⟩ ⟨!pos, rd⟩ ⟨!pos, rs⟩ (startCells evst imm)).state t
        evst).Describes base m ↔
      if t = pos then
        k.Fits (evst.rv rd) (evst.operandVal imm rs) (evst.offset base m rd)
          (operandWord imm (evst.offset base m) rs)
      else k.FitsNot (evst.operandVal imm rs) (evst.offset base m rd) := by
  have hall : evst.Allows (evst.offset base m) := hm
  have hsame : some rd = rs →
      evst.offset base m rd = operandWord imm (evst.offset base m) rs := fun h => h ▸ rfl
  have hvd : ∀ b, startCells evst imm ⟨b, some rd⟩ = evst.rv rd := fun _ => rfl
  have hvs : ∀ b, startCells evst imm ⟨b, rs⟩ = evst.operandVal imm rs := fun _ => rfl
  rw [← Rel.narrow_holds hvd hvs hsame ((hall rd).resolve_left hrd) (hall.holds hrs),
    BpfEvalState.describes_iff, offset_state (fun r => Rel.narrow_v)]
  constructor
  · refine fun h => ⟨(h rd).resolve_left ?_, ?_⟩
    · show ¬ (k.narrow _ _ _ _ _ ⟨t, some rd⟩).v.type = .undef
      rw [Rel.narrow_v]
      exact hrd
    · cases rs with
      | none =>
        have hconst : ∀ g, ((evst.operandVal imm none).bounds g).min =
            ((evst.operandVal imm none).bounds g).max := by
          rw [BpfEvalState.operandVal_none]
          exact fun g => by cases g <;> rfl
        rw [Rel.narrow_const hconst (by simp)]
        exact BpfEvalState.holds_none
      | some r =>
        refine (h r).resolve_left ?_
        show ¬ (k.narrow _ _ _ _ _ ⟨t, some r⟩).v.type = .undef
        rw [Rel.narrow_v]
        exact hrs
  · rintro ⟨hd, hs⟩ r
    by_cases heq : r = rd
    · exact Or.inr (heq ▸ hd)
    by_cases hrs' : some r = rs
    · subst hrs'
      exact Or.inr hs
    · have hcell : (k.narrow ⟨pos, rd⟩ ⟨pos, rs⟩ ⟨!pos, rd⟩ ⟨!pos, rs⟩ (startCells evst imm))
          ⟨t, some r⟩ = evst.rv r :=
        Rel.narrow_of_ne (by simpa using heq) hrs'
      show (k.narrow _ _ _ _ _ ⟨t, some r⟩).v.type = .undef ∨
        (k.narrow _ _ _ _ _ ⟨t, some r⟩).Holds _
      rw [hcell]
      exact hall r

end Machines

/-! ## When both states are right -/

/-- The least word, as it is read. -/
def Sign.lowest : Sign → BitVec 64
  | u => 0
  | s => BitVec.intMin 64

/-- The greatest word, as it is read. -/
def Sign.highest : Sign → BitVec 64
  | u => BitVec.allOnes 64
  | s => BitVec.intMax 64

/-- **The first operand can be above the second**, whatever a pointer points to: not if it is
the least number, nor if the second is the greatest. -/
def MayExceed (g : Sign) (rd rs : BpfRegVal) (d s : BitVec 64) : Prop :=
  (rd.isPtr = false → d ≠ g.lowest) ∧ (rs.isPtr = false → s ≠ g.highest)

/-- **The numbers at which a relation is narrowed as it should be**: all, but for one relation.
Where the first is not above the second, the source takes it to be at most the least that the
second can be, and it may not be in between. -/
def Rel.AptRaw (k : Rel) (rs : BpfRegVal) (d s : BitVec 64) : Prop :=
  match k with
  | eq => True
  | gt g => ¬ (g.key (rs.bounds g).min < g.key d ∧ g.key d ≤ g.key s)
  | lt _ => True

/-- **The offsets at which a relation is narrowed as it should be.** With a pointer, the words
that are compared are not the words of the intervals, and nothing of what is narrowed follows
from the comparison; it has to be true already. -/
def Rel.AptPtr (k : Rel) (rd rs : BpfRegVal) (d s : BitVec 64) : Prop :=
  match k with
  | eq => rs.Holds d ∧ rd.Holds s
  | gt g => g.key d ≤ g.key (rs.bounds g).min ∧
      (MayExceed g rd rs d s → g.key ((rs.bounds g).min + 1) ≤ g.key d)
  | lt g => g.key (rs.bounds g).min ≤ g.key d ∧
      (MayExceed g rs rd s d → g.key d ≤ g.key ((rs.bounds g).max - 1))

/-- What is compared are the words of the intervals, or one word with itself. -/
def Plain (rd rs : BpfRegVal) (same : Prop) : Prop :=
  same ∨ rd.isPtr = false ∧ rs.isPtr = false

/-- **Where a relation is narrowed as it should be.** -/
def Rel.Apt (k : Rel) (rd rs : BpfRegVal) (same : Prop) (d s : BitVec 64) : Prop :=
  (Plain rd rs same → k.AptRaw rs d s) ∧ (¬ Plain rd rs same → k.AptPtr rd rs d s)

/-- **When `eval_jcc` is right**: at all words that the registers can have. -/
def BranchApt (evst : BpfEvalState) (ins : EbpfInsn) : Prop :=
  ∀ op src rd rs k pos, ins.opcode = some (.jcc op src) → regOf ins.dst_reg = some rd →
    srcReg ins src = some rs → op.rel = some (k, pos) → (evst.rv rd).v.type ≠ .undef →
    (evst.operandVal ins.imm rs).v.type ≠ .undef → ∀ off, evst.Allows off →
      k.Apt (evst.rv rd) (evst.operandVal ins.imm rs) (rs = some rd) (off rd)
        (operandWord ins.imm off rs)

section Apt

variable {g : Sign} {k : Rel} {rd rs : BpfRegVal} {same : Prop} {d s x y : BitVec 64}

theorem Sign.key_lowest_le (g : Sign) (x : BitVec 64) : g.key g.lowest ≤ g.key x := by
  cases g with
  | u => exact Int.natCast_nonneg _
  | s =>
    show (BitVec.intMin 64).toInt ≤ x.toInt
    have := BitVec.le_toInt x
    rw [show (BitVec.intMin 64).toInt = -2 ^ 63 by decide]
    exact this

theorem Sign.key_le_highest (g : Sign) (x : BitVec 64) : g.key x ≤ g.key g.highest := by
  cases g with
  | u =>
    show (x.toNat : ℤ) ≤ (BitVec.allOnes 64).toNat
    rw [show (BitVec.allOnes 64).toNat = 2 ^ 64 - 1 by decide]
    have := x.isLt
    omega
  | s =>
    show x.toInt ≤ (BitVec.intMax 64).toInt
    have := BitVec.toInt_lt (x := x)
    rw [show (BitVec.intMax 64).toInt = 2 ^ 63 - 1 by decide]
    omega

theorem Sign.lowest_lt_highest (g : Sign) : g.key g.lowest < g.key g.highest := by
  cases g <;> decide

/-- **Numbers are narrowed as the comparison says**, but for what is not above. -/
theorem Rel.fits_of_eq (hd : rd.Holds d) (hs : rs.Holds s) :
    ((k.Holds d s → k.Fits rd rs d s) ∧ (¬ k.Holds d s → k.FitsNot rs d)) ↔
      k.AptRaw rs d s := by
  cases k with
  | eq => simpa [Fits, FitsNot, Holds, AptRaw] using fun h => ⟨h ▸ hs, h ▸ hd⟩
  | gt g =>
    have hmin := (hs g).1
    have habove : g.key s < g.key d → g.key ((rs.bounds g).min + 1) ≤ g.key d := by
      intro h
      rw [Sign.key_add_one (hmin.trans_lt h)]
      exact Int.add_one_le_of_lt (hmin.trans_lt h)
    simp only [Fits, FitsNot, Holds, AptRaw, not_lt, not_and, not_le]
    exact ⟨fun h hlt => not_le.mp fun hle => (h.2 hle).not_gt hlt,
      fun h => ⟨habove, fun hle => not_lt.mp fun hlt => (h hlt).not_ge hle⟩⟩
  | lt g =>
    have hmax := (hs g).2
    simp only [Fits, FitsNot, Holds, AptRaw, not_lt, iff_true]
    refine ⟨fun h => ?_, (hs g).1.trans⟩
    rw [Sign.key_sub_one (h.trans_le hmax)]
    exact Int.le_sub_one_of_lt (h.trans_le hmax)

theorem Reads.symm (h : Reads rd rs same d s x y) : Reads rs rd same s d y x :=
  ⟨h.2.1, h.1, fun hsame => (h.2.2 hsame).symm⟩

theorem Reads.exists_eq (hptr : ¬ Plain rd rs same) :
    ∃ x, Reads rd rs same d s x x := by
  rw [Plain, not_or, not_and] at hptr
  by_cases hrd : rd.isPtr = false
  · exact ⟨d, fun _ => rfl, fun h => absurd h (hptr.2 hrd), fun h => absurd h hptr.1⟩
  · exact ⟨s, fun h => absurd h hrd, fun _ => rfl, fun _ => rfl⟩

theorem Reads.exists_lt (hptr : ¬ Plain rd rs same) :
    (∃ x y, Reads rd rs same d s x y ∧ g.key y < g.key x) ↔ MayExceed g rd rs d s := by
  constructor
  · rintro ⟨x, y, hread, hlt⟩
    refine ⟨fun h heq => ?_, fun h heq => ?_⟩
    · rw [hread.1 h, heq] at hlt
      exact (g.key_lowest_le y).not_gt hlt
    · rw [hread.2.1 h, heq] at hlt
      exact (g.key_le_highest x).not_gt hlt
  · rintro ⟨hd, hs⟩
    refine ⟨if rd.isPtr then g.highest else d, if rs.isPtr then g.lowest else s,
      ⟨fun h => by simp [h], fun h => by simp [h], fun h => absurd (Or.inl h) hptr⟩, ?_⟩
    cases hrd : rd.isPtr with
    | true =>
      cases hrs : rs.isPtr with
      | true => exact g.lowest_lt_highest
      | false => exact (g.key_le_highest s).lt_of_ne fun h => hs hrs (Sign.key_inj h)
    | false =>
      cases hrs : rs.isPtr with
      | true => exact (g.key_lowest_le d).lt_of_ne fun h => hd hrd (Sign.key_inj h).symm
      | false => exact absurd (Or.inr ⟨hrd, hrs⟩) hptr

/-- Where the operands fit at all that is compared. -/
theorem Rel.apt_iff (hd : rd.Holds d) (hs : rs.Holds s) (hsame : same → d = s) :
    (∀ x y, Reads rd rs same d s x y →
      (k.Holds x y → k.Fits rd rs d s) ∧ (¬ k.Holds x y → k.FitsNot rs d)) ↔
      k.Apt rd rs same d s := by
  by_cases hplain : Plain rd rs same
  · rw [Apt, and_iff_left (absurd hplain), forall_prop_of_true hplain, ← fits_of_eq hd hs]
    refine ⟨fun h => h d s ⟨fun _ => rfl, fun _ => rfl, hsame⟩, fun h x y hread => ?_⟩
    rwa [show k.Holds x y ↔ k.Holds d s from ?_]
    obtain hsm | ⟨hrd, hrs⟩ := hplain
    · rw [hread.2.2 hsm, hsame hsm]
      cases k <;> simp [Holds]
    · rw [hread.1 hrd, hread.2.1 hrs]
  · rw [Apt, and_iff_right fun h => absurd h hplain, forall_prop_of_true hplain]
    obtain ⟨z, hz⟩ := Reads.exists_eq (d := d) (s := s) hplain
    cases k with
    | eq =>
      exact ⟨fun h => (h z z hz).1 rfl, fun h x y _ => ⟨fun _ => h, fun _ => trivial⟩⟩
    | gt g =>
      refine ⟨fun h => ⟨(h z z hz).2 (lt_irrefl _), fun hmay => ?_⟩,
        fun h x y hread => ⟨fun hlt => h.2 ?_, fun _ => h.1⟩⟩
      · obtain ⟨x, y, hread, hlt⟩ := (Reads.exists_lt hplain).mpr hmay
        exact (h x y hread).1 hlt
      · exact (Reads.exists_lt hplain).mp ⟨x, y, hread, hlt⟩
    | lt g =>
      have hsymm : ¬ Plain rs rd same := fun h => hplain (h.imp_right And.symm)
      refine ⟨fun h => ⟨(h z z hz).2 (lt_irrefl _), fun hmay => ?_⟩,
        fun h x y hread => ⟨fun hlt => h.2 ?_, fun _ => h.1⟩⟩
      · obtain ⟨y, x, hread, hlt⟩ := (Reads.exists_lt hsymm).mpr hmay
        exact (h x y hread.symm).1 hlt
      · exact (Reads.exists_lt hsymm).mp ⟨y, x, hread.symm, hlt⟩

end Apt

section Jump

variable {evst : BpfEvalState} {ins : EbpfInsn} {op : JccOp} {src : Src} {rd : Fin 11}
  {rs : Option (Fin 11)}

theorem takesJump_eq (hop : ins.opcode = some (.jcc op src)) (hrd : regOf ins.dst_reg = some rd)
    (hrs : srcReg ins src = some rs) (m : Machine) :
    takesJump ins m = some (op.holds (m.reg rd) (operandWord ins.imm m.reg rs)) := by
  have hget : ∀ {r q}, regOf r = some q → m.get r = some (m.reg q) := by
    intro r q h
    rw [regOf] at h
    split_ifs at h with hlt
    cases h
    exact dif_pos hlt
  have hsrc : operand ins src m = some (operandWord ins.imm m.reg rs) := by
    cases src with
    | k =>
      cases hrs
      rfl
    | x =>
      obtain ⟨q, hq, rfl⟩ := Option.map_eq_some_iff.mp hrs
      exact hget hq
  simp [takesJump, hop, hget hrd, hsrc]

/-- What is at the places when `eval_jcc` ends. -/
def endCells (evst : BpfEvalState) (imm : BitVec 32) (op : JccOp) (rd : Fin 11)
    (rs : Option (Fin 11)) : Cells :=
  narrowFor op ⟨true, rd⟩ ⟨true, rs⟩ ⟨false, rd⟩ ⟨false, rs⟩ (startCells evst imm)

/-- The two states of a jump, whose operands have to be defined. -/
theorem evalJcc_eq_ok {st : BpfEvalState × BpfEvalState} :
    evalJcc evst ins = some (.ok st) ↔ ∃ op src rd rs,
      ins.opcode = some (.jcc op src) ∧ regOf ins.dst_reg = some rd ∧ srcReg ins src = some rs ∧
      (evst.rv rd).v.type ≠ .undef ∧ (evst.operandVal ins.imm rs).v.type ≠ .undef ∧
      st = ((endCells evst ins.imm op rd rs).state true evst,
        (endCells evst ins.imm op rd rs).state false evst) := by
  constructor
  · intro h
    rw [evalJcc] at h
    split at h
    · rename_i op src hop
      simp only [Option.bind_eq_bind, Option.bind_eq_some_iff] at h
      obtain ⟨rd, hrd, rs, hrs, h⟩ := h
      split at h
      · cases h
      · rename_i hdef
        simp only [evalDefined, Option.mem_def, Option.some.injEq, exists_eq_left'] at hdef
        split_ifs at hdef with hd hs
        cases h
        exact ⟨op, src, rd, rs, hop, hrd, hrs, hd, hs, rfl⟩
    · cases h
  · rintro ⟨op, src, rd, rs, hop, hrd, hrs, hd, hs, rfl⟩
    have hdef : evalDefined (startCells evst ins.imm ⟨true, rd⟩)
        (startCells evst ins.imm ⟨true, rs⟩) = none := by
      simp [evalDefined, startCells, hs, show (evst.operandVal ins.imm rd).v.type ≠ .undef from hd]
    simp [evalJcc, hop, hrd, hrs, hdef, endCells]

/-- **One jump**: the state of the path that the interpreter takes describes the machine. -/
theorem branchSound_iff (hop : ins.opcode = some (.jcc op src))
    (hrd : regOf ins.dst_reg = some rd) (hrs : srcReg ins src = some rs)
    (hd : (evst.rv rd).v.type ≠ .undef) (hs : (evst.operandVal ins.imm rs).v.type ≠ .undef) :
    BranchSound evst ins ↔ ∀ base m, evst.Describes base m →
      ((endCells evst ins.imm op rd rs).state
        (op.holds (m.reg rd) (operandWord ins.imm m.reg rs)) evst).Describes base m := by
  constructor
  · intro h base m hm
    have := h _ _ (evalJcc_eq_ok.mpr ⟨op, src, rd, rs, hop, hrd, hrs, hd, hs, rfl⟩) base m hm _
      (takesJump_eq hop hrd hrs m)
    cases htaken : op.holds (m.reg rd) (operandWord ins.imm m.reg rs) <;>
      simpa [htaken] using this
  · intro h tst fst hok base m hm taken htaken
    obtain ⟨op', src', rd', rs', hop', hrd', hrs', -, -, hst⟩ := evalJcc_eq_ok.mp hok
    cases hop.symm.trans hop'
    cases hrd.symm.trans hrd'
    cases hrs.symm.trans hrs'
    cases hst
    rw [takesJump_eq hop hrd hrs] at htaken
    cases htaken
    have hdesc := h base m hm
    cases htaken : op.holds (m.reg rd) (operandWord ins.imm m.reg rs) <;>
      simpa [htaken] using hdesc

/-- A condition with a relation: the operands have to fit. -/
theorem branchSound_iff_fits {k : Rel} {pos : Bool} (hop : ins.opcode = some (.jcc op src))
    (hrd : regOf ins.dst_reg = some rd) (hrs : srcReg ins src = some rs)
    (hd : (evst.rv rd).v.type ≠ .undef) (hs : (evst.operandVal ins.imm rs).v.type ≠ .undef)
    (hrel : op.rel = some (k, pos)) :
    BranchSound evst ins ↔ ∀ off, evst.Allows off → k.Apt (evst.rv rd)
      (evst.operandVal ins.imm rs) (rs = some rd) (off rd) (operandWord ins.imm off rs) := by
  have hfits : ∀ base m, evst.Describes base m →
      (((endCells evst ins.imm op rd rs).state
        (op.holds (m.reg rd) (operandWord ins.imm m.reg rs)) evst).Describes base m ↔
      (k.Holds (m.reg rd) (operandWord ins.imm m.reg rs) →
        k.Fits (evst.rv rd) (evst.operandVal ins.imm rs) (evst.offset base m rd)
          (operandWord ins.imm (evst.offset base m) rs)) ∧
      (¬ k.Holds (m.reg rd) (operandWord ins.imm m.reg rs) →
        k.FitsNot (evst.operandVal ins.imm rs) (evst.offset base m rd))) := by
    intro base m hm
    have hk := JccOp.holds_iff hrel (m.reg rd) (operandWord ins.imm m.reg rs)
    rw [endCells, narrowFor_eq hrel, describes_narrow hm hd hs]
    split_ifs with ht
    · simp [hk.mp ht]
    · simp [mt hk.mpr ht]
  have hsame : ∀ off, rs = some rd → off rd = operandWord ins.imm off rs := fun off h => h ▸ rfl
  have happly : ∀ off, evst.Allows off → (_ ↔ _) := fun off hoff =>
    Rel.apt_iff (k := k) ((hoff rd).resolve_left hd) (hoff.holds hs) (hsame off)
  rw [branchSound_iff hop hrd hrs hd hs]
  constructor
  · intro h off hoff
    refine (happly off hoff).mp fun a b hread => ?_
    obtain ⟨base, m, rfl, rfl, rfl⟩ := BpfEvalState.exists_machine hread
    exact (hfits base m hoff).mp (h base m hoff)
  · intro h base m hm
    exact (hfits base m hm).mpr ((happly _ hm).mpr (h _ hm) _ _ (BpfEvalState.reads_offset base m))

/-- **A branch is narrowed soundly exactly at the states at which what is narrowed is
true.** -/
theorem branch_sound_iff (evst : BpfEvalState) (ins : EbpfInsn) :
    BranchSound evst ins ↔ BranchApt evst ins := by
  constructor
  · intro h op src rd rs k pos hop hrd hrs hrel hd hs
    exact (branchSound_iff_fits hop hrd hrs hd hs hrel).mp h
  · intro h tst fst hok
    obtain ⟨op, src, rd, rs, hop, hrd, hrs, hd, hs, -⟩ := evalJcc_eq_ok.mp hok
    suffices hsound : BranchSound evst ins from hsound tst fst hok
    cases hrel : op.rel with
    | some kp =>
      exact (branchSound_iff_fits hop hrd hrs hd hs hrel).mpr
        (h op src rd rs kp.1 kp.2 hop hrd hrs hrel hd hs)
    | none =>
      -- nothing is narrowed by `BPF_JSET`
      refine (branchSound_iff hop hrd hrs hd hs).mpr fun base m hm => ?_
      cases op <;> first | exact hm | cases hrel

end Jump

/-! ## A branch that is narrowed too far -/

/-- Two numbers: the first from 0 to 100, the second from 10 to 50. -/
def twoNumbers : BpfEvalState where
  rv r :=
    if r.val = 1 then ⟨⟨.raw, 8, 0⟩, BitVec.allOnes 64, ⟨0, 100⟩, ⟨0, 100⟩⟩
    else if r.val = 2 then ⟨⟨.raw, 8, 0⟩, BitVec.allOnes 64, ⟨10, 50⟩, ⟨10, 50⟩⟩
    else ⟨⟨.undef, 0, 0⟩, 0, ⟨0, 0⟩, ⟨0, 0⟩⟩
  sv _ := ⟨⟨.undef, 0, 0⟩, 0, ⟨0, 0⟩, ⟨0, 0⟩⟩

/-- `if r1 > r2 goto +1`. -/
def jumpAbove : EbpfInsn := ⟨0x2d, 1, 2, 1, 0⟩

/-- **A branch is not narrowed soundly**: of 40, which is not above 50, the other path is told
that it is at most 10. -/
theorem branch_sound_fails : ¬ ∀ evst ins, BranchSound evst ins := by
  intro h
  let m : Machine := ⟨fun r => if r = 1 then 40 else if r = 2 then 50 else 0, fun _ => 0⟩
  have hm : twoNumbers.Describes (fun _ => 0) m := by decide +kernel
  have hjump : takesJump jumpAbove m = some false := by decide +kernel
  have hdesc := h twoNumbers jumpAbove _ _ rfl (fun _ => 0) m hm false hjump 1
  revert hdesc
  decide +kernel

end Bpf
