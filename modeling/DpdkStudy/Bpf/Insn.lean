import Mathlib.Data.Nat.Notation
import Mathlib.Tactic.ByContra
import Mathlib.Tactic.IntervalCases
import Mathlib.Tactic.SplitIfs

/-!
# Instructions of eBPF

The instructions of `lib/bpf/bpf_def.h`, and what `check_syntax` of
`lib/bpf/bpf_validate.c` asks of each of them.

An opcode is a byte. Those that have an entry in `ins_chk` are listed here
(`opcodes`), each with its byte as the source puts it together; any other byte is
no opcode.
-/

namespace Bpf

/-- **An instruction** (`struct ebpf_insn`). -/
structure EbpfInsn where
  code : BitVec 8
  dst_reg : BitVec 4
  src_reg : BitVec 4
  off : BitVec 16
  imm : BitVec 32
deriving DecidableEq, Repr

/-! ## Opcodes -/

/-- What is loaded or stored: a byte, two, four or eight. -/
inductive Size
  | b
  | h
  | w
  | dw
deriving DecidableEq, Repr

/-- `BPF_B`, `BPF_H`, `BPF_W`, `EBPF_DW`. -/
def Size.code : Size → BitVec 8
  | b => 0x10
  | h => 0x08
  | w => 0x00
  | dw => 0x18

/-- The number of bytes. -/
def Size.bytes : Size → ℕ
  | b => 1
  | h => 2
  | w => 4
  | dw => 8

/-- Where the second operand is: in the instruction (`BPF_K`) or in a register
(`BPF_X`). -/
inductive Src
  | k
  | x
deriving DecidableEq, Repr

def Src.code : Src → BitVec 8
  | k => 0x00
  | x => 0x08

/-- The operations of `BPF_ALU` and `EBPF_ALU64` with two operands. -/
inductive AluOp
  | add
  | sub
  | mul
  | div
  | or
  | and
  | lsh
  | rsh
  | mod
  | xor
  | mov
  | arsh
deriving DecidableEq, Repr

def AluOp.code : AluOp → BitVec 8
  | add => 0x00
  | sub => 0x10
  | mul => 0x20
  | div => 0x30
  | or => 0x40
  | and => 0x50
  | lsh => 0x60
  | rsh => 0x70
  | mod => 0x90
  | xor => 0xa0
  | mov => 0xb0
  | arsh => 0xc0

/-- The conditions of a jump. -/
inductive JccOp
  | jeq
  | jgt
  | jge
  | jset
  | jne
  | jsgt
  | jsge
  | jlt
  | jle
  | jslt
  | jsle
deriving DecidableEq, Repr

def JccOp.code : JccOp → BitVec 8
  | jeq => 0x10
  | jgt => 0x20
  | jge => 0x30
  | jset => 0x40
  | jne => 0x50
  | jsgt => 0x60
  | jsge => 0x70
  | jlt => 0xa0
  | jle => 0xb0
  | jslt => 0xc0
  | jsle => 0xd0

/-- **The opcodes.** The operations of `BPF_ALU` are of 32 bits, those of
`EBPF_ALU64` of 64. -/
inductive Opcode
  | alu (op : AluOp) (src : Src)
  | alu64 (op : AluOp) (src : Src)
  | neg
  | neg64
  | toBe
  | toLe
  | ldxMem (size : Size)
  | ldImmDw
  | ldAbs (size : Size)
  | ldInd (size : Size)
  | stxMem (size : Size)
  | stMem (size : Size)
  | stxXadd (size : Size)
  | ja
  | jcc (op : JccOp) (src : Src)
  | call
  | exit
deriving DecidableEq, Repr

/-- **The byte of an opcode.** -/
def Opcode.code : Opcode → BitVec 8
  | alu op src => 0x04 ||| op.code ||| src.code
  | alu64 op src => 0x07 ||| op.code ||| src.code
  | neg => 0x04 ||| 0x80
  | neg64 => 0x07 ||| 0x80
  | toBe => 0x04 ||| 0xd0 ||| 0x08
  | toLe => 0x04 ||| 0xd0 ||| 0x00
  | ldxMem size => 0x01 ||| 0x60 ||| size.code
  | ldImmDw => 0x00 ||| 0x00 ||| Size.dw.code
  | ldAbs size => 0x00 ||| 0x20 ||| size.code
  | ldInd size => 0x00 ||| 0x40 ||| size.code
  | stxMem size => 0x03 ||| 0x60 ||| size.code
  | stMem size => 0x02 ||| 0x60 ||| size.code
  | stxXadd size => 0x03 ||| 0xc0 ||| size.code
  | ja => 0x05 ||| 0x00
  | jcc op src => 0x05 ||| op.code ||| src.code
  | call => 0x05 ||| 0x80
  | exit => 0x05 ||| 0x90

/-- The operations of 32 bits, with one operand in the instruction or both in
registers. There is no `EBPF_ARSH` among them. -/
def aluOps : List AluOp := [.add, .sub, .and, .or, .lsh, .rsh, .xor, .mul, .mov, .div, .mod]

/-- The conditions in the order of the table. -/
def jccOps : List JccOp := [.jeq, .jne, .jgt, .jlt, .jge, .jle, .jsgt, .jslt, .jsge, .jsle, .jset]

/-- **The opcodes with an entry in `ins_chk`.** -/
def opcodes : List Opcode := List.flatten [
  aluOps.map (fun op => .alu op .k), aluOps.map (fun op => .alu64 op .k), [.alu64 .arsh .k],
  aluOps.map (fun op => .alu op .x), [.neg, .toBe, .toLe],
  aluOps.map (fun op => .alu64 op .x), [.alu64 .arsh .x, .neg64],
  [.ldxMem .b, .ldxMem .h, .ldxMem .w, .ldxMem .dw, .ldImmDw],
  [.ldAbs .b, .ldAbs .h, .ldAbs .w, .ldInd .b, .ldInd .h, .ldInd .w],
  [.stxMem .b, .stxMem .h, .stxMem .w, .stxMem .dw, .stxXadd .w, .stxXadd .dw],
  [.stMem .b, .stMem .h, .stMem .w, .stMem .dw],
  [.ja], jccOps.map (fun op => .jcc op .k), jccOps.map (fun op => .jcc op .x), [.call, .exit]]

/-- The opcode of a byte. -/
def Opcode.ofCode (code : BitVec 8) : Option Opcode := opcodes.find? (·.code = code)

/-- The opcode of an instruction. -/
def EbpfInsn.opcode (ins : EbpfInsn) : Option Opcode := Opcode.ofCode ins.code

/-! ## What is asked of an instruction -/

/-- `RTE_LEN2MASK(EBPF_REG_NUM, uint16_t)`. -/
def allRegs : BitVec 16 := 0x7ff

/-- `RTE_LEN2MASK(EBPF_REG_10, uint16_t)`. -/
def wrtRegs : BitVec 16 := 0x3ff

/-- `RTE_LEN2MASK(EBPF_REG_1, uint16_t)`. -/
def zeroReg : BitVec 16 := 0x1

/-- **`IND_SRC_REGS`**: `R6` holds the packet. -/
def indSrcRegs : BitVec 16 := wrtRegs ^^^ 1 <<< 6

/-- `check_alu_bele`. -/
def checkAluBele (ins : EbpfInsn) : Option String :=
  if ins.imm ≠ 16 ∧ ins.imm ≠ 32 ∧ ins.imm ≠ 64 then some "invalid imm field" else none

/-- **What is asked of an opcode** (`struct bpf_ins_check`): its registers, the
bounds of its fields, and a check of its own. -/
structure BpfInsCheck where
  dreg : BitVec 16
  sreg : BitVec 16
  off : BitVec 16 × BitVec 16
  imm : BitVec 32 × BitVec 32
  check : EbpfInsn → Option String

/-- The entry of an opcode, with the fields that most entries have in common. -/
def entry (dreg sreg : BitVec 16) (offMax : BitVec 16) (imm : BitVec 32 × BitVec 32) :
    BpfInsCheck :=
  { dreg := dreg, sreg := sreg, off := (0, offMax), imm := imm, check := fun _ => none }

/-- **`ins_chk`**. -/
def insChk : Opcode → BpfInsCheck
  | .alu .div .k => entry wrtRegs zeroReg 0 (1, 0xffffffff)
  | .alu .mod .k => entry wrtRegs zeroReg 0 (1, 0xffffffff)
  | .alu _ .k => entry wrtRegs zeroReg 0 (0, 0xffffffff)
  | .alu64 .div .k => entry wrtRegs zeroReg 0 (1, 0xffffffff)
  | .alu64 .mod .k => entry wrtRegs zeroReg 0 (1, 0xffffffff)
  | .alu64 _ .k => entry wrtRegs zeroReg 0 (0, 0xffffffff)
  | .alu _ .x => entry wrtRegs allRegs 0 (0, 0)
  | .alu64 _ .x => entry wrtRegs allRegs 0 (0, 0)
  | .neg => entry wrtRegs zeroReg 0 (0, 0)
  | .neg64 => entry wrtRegs zeroReg 0 (0, 0)
  | .toBe => { entry wrtRegs zeroReg 0 (16, 64) with check := checkAluBele }
  | .toLe => { entry wrtRegs zeroReg 0 (16, 64) with check := checkAluBele }
  | .ldxMem _ => entry wrtRegs allRegs 0xffff (0, 0)
  | .ldImmDw => entry wrtRegs zeroReg 0 (0, 0xffffffff)
  | .ldAbs _ => entry zeroReg zeroReg 0 (0, 0x7fffffff)
  | .ldInd _ => entry zeroReg indSrcRegs 0 (0, 0xffffffff)
  | .stxMem _ => entry allRegs allRegs 0xffff (0, 0)
  | .stxXadd _ => entry allRegs allRegs 0xffff (0, 0)
  | .stMem _ => entry allRegs zeroReg 0xffff (0, 0xffffffff)
  | .ja => entry zeroReg zeroReg 0xffff (0, 0)
  | .jcc _ .k => entry allRegs zeroReg 0xffff (0, 0xffffffff)
  | .jcc _ .x => entry allRegs allRegs 0xffff (0, 0)
  | .call => entry zeroReg zeroReg 0 (0, 0xffffffff)
  | .exit => entry zeroReg zeroReg 0 (0, 0)

/-- A register is one of a mask. -/
def inMask (mask : BitVec 16) (reg : BitVec 4) : Bool := mask.getLsbD reg.toNat

/-- **`check_syntax`**, with what is wrong. -/
def checkSyntax (ins : EbpfInsn) : Option String :=
  match ins.opcode with
  | none => some "invalid opcode"
  | some op =>
    let chk := insChk op
    if inMask chk.dreg ins.dst_reg = false then some "invalid dst-reg field"
    else if inMask chk.sreg ins.src_reg = false then some "invalid src-reg field"
    else if ins.off < chk.off.1 ∨ chk.off.2 < ins.off then some "invalid off field"
    else if ins.imm < chk.imm.1 ∨ chk.imm.2 < ins.imm then some "invalid imm field"
    else chk.check ins

theorem checkSyntax_eq_none {ins : EbpfInsn} (h : checkSyntax ins = none) :
    ∃ op, ins.opcode = some op ∧ inMask (insChk op).dreg ins.dst_reg = true ∧
      inMask (insChk op).sreg ins.src_reg = true ∧ (insChk op).imm.1 ≤ ins.imm := by
  rw [checkSyntax] at h
  cases hop : ins.opcode with
  | none => simp [hop] at h
  | some op =>
    simp only [hop] at h
    split_ifs at h with hdreg hsreg hoff himm
    refine ⟨op, rfl, Bool.not_eq_false _ ▸ hdreg, Bool.not_eq_false _ ▸ hsreg, ?_⟩
    exact BitVec.not_lt.mp (fun hlt => himm (Or.inl hlt))

theorem lt_of_inMask {mask : BitVec 16} (hmask : mask &&& allRegs = mask) {reg : BitVec 4}
    (h : inMask mask reg = true) : reg.toNat < 11 := by
  rw [inMask, ← hmask, BitVec.getLsbD_and, Bool.and_eq_true] at h
  by_contra hlt
  have hreg : reg.toNat < 16 := reg.isLt
  interval_cases reg.toNat <;> simp [allRegs] at h

end Bpf
