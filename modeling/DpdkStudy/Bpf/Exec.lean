import DpdkStudy.Bpf.Validate

/-!
# Running an eBPF program

The interpreter `bpf_exec` of `lib/bpf/bpf_exec.c`, on a little-endian machine of
64 bits. It runs an instruction after the other. An instruction can lie outside
the program, a register outside the eleven, and a constant divisor be zero: there
the interpreter has no result.

What is not part of the interpreter is an environment (`Env`): how bytes of a
packet are read, the functions that a program can call, and shifts by the width of
a word or more, which the language leaves open.
-/

namespace Bpf

open Function

/-- The memory, byte by byte. -/
abbrev Mem := BitVec 64 → BitVec 8

/-- **What a program runs in.** -/
structure Env where
  pktmbuf_read : Mem → BitVec 64 → BitVec 32 → ℕ → Option (List (BitVec 8))
  xsym : BitVec 32 → (Fin 5 → BitVec 64) → Mem → BitVec 64 × Mem
  shift : AluOp → (n : ℕ) → BitVec n → BitVec n → BitVec n

/-- **The machine**: the registers, and the memory. -/
structure Machine where
  reg : Fin 11 → BitVec 64
  mem : Mem

/-! ## Words and bytes -/

/-- The first bytes of a word, the lowest first. -/
def bytesOf (v : BitVec 64) (n : ℕ) : List (BitVec 8) :=
  (List.range n).map fun i => (v >>> (8 * i)).truncate 8

/-- The word of some bytes, the lowest first. -/
def ofBytes : List (BitVec 8) → BitVec 64
  | [] => 0
  | b :: bs => ofBytes bs <<< 8 ||| b.zeroExtend 64

/-- `rte_cpu_to_be_16`, `_32` and `_64`. -/
def cpuToBe (v : BitVec 64) (n : ℕ) : BitVec 64 := ofBytes (bytesOf v n).reverse

/-- `rte_cpu_to_le_16`, `_32` and `_64`. -/
def cpuToLe (v : BitVec 64) (n : ℕ) : BitVec 64 := ofBytes (bytesOf v n)

/-- What is loaded from an address. -/
def Mem.load (mem : Mem) (addr : BitVec 64) (n : ℕ) : BitVec 64 :=
  ofBytes ((List.range n).map fun i => mem (addr + BitVec.ofNat 64 i))

/-- The memory after a word has been stored at an address. -/
def Mem.store (mem : Mem) (addr v : BitVec 64) (n : ℕ) : Mem :=
  fun a => if (a - addr).toNat < n then (v >>> (8 * (a - addr).toNat)).truncate 8 else mem a

namespace Machine

variable (m : Machine)

/-- A register, if there is one of this number. -/
def get (r : BitVec 4) : Option (BitVec 64) :=
  if h : r.toNat < 11 then some (m.reg ⟨r.toNat, h⟩) else none

/-- A register gets a value. -/
def set (r : BitVec 4) (v : BitVec 64) : Option Machine :=
  if h : r.toNat < 11 then some { m with reg := update m.reg ⟨r.toNat, h⟩ v } else none

/-- The first register gets a value. -/
def setR0 (v : BitVec 64) : Machine := { m with reg := update m.reg 0 v }

end Machine

/-! ## Operations -/

variable (env : Env)

/-- **An operation on two words**, none for a division by zero. -/
def Env.aluOp {n : ℕ} (op : AluOp) (a b : BitVec n) : Option (BitVec n) :=
  match op with
  | .add => some (a + b)
  | .sub => some (a - b)
  | .mul => some (a * b)
  | .div => if b = 0 then none else some (a / b)
  | .or => some (a ||| b)
  | .and => some (a &&& b)
  | .lsh => some (if b.toNat < n then a <<< b.toNat else env.shift .lsh n a b)
  | .rsh => some (if b.toNat < n then a >>> b.toNat else env.shift .rsh n a b)
  | .mod => if b = 0 then none else some (a % b)
  | .xor => some (a ^^^ b)
  | .mov => some b
  | .arsh => some (if b.toNat < n then a.sshiftRight b.toNat else env.shift .arsh n a b)

/-- The operation divides. -/
def AluOp.divides : AluOp → Bool
  | div => true
  | mod => true
  | _ => false

/-- **A condition of a jump.** -/
def JccOp.holds (op : JccOp) (a b : BitVec 64) : Bool :=
  match op with
  | .jeq => a == b
  | .jne => a != b
  | .jgt => b.ult a
  | .jge => b.ule a
  | .jlt => a.ult b
  | .jle => a.ule b
  | .jsgt => b.slt a
  | .jsge => b.sle a
  | .jslt => a.slt b
  | .jsle => a.sle b
  | .jset => a &&& b != 0

/-- **What comes next**: an instruction, or the end with a value. -/
inductive Next
  | go (pc : ℤ) (m : Machine)
  | ret (v : BitVec 64)

/-- The instruction at a place, none outside the program. -/
def fetch (prm : List EbpfInsn) (pc : ℤ) : Option EbpfInsn :=
  if 0 ≤ pc then prm[pc.toNat]? else none

/-- The operation of an instruction on a word of its register and another. A
divisor in a register is checked. -/
def Env.alu {n : ℕ} (ins : EbpfInsn) (op : AluOp) (src : Src) (a b : BitVec n) (m : Machine)
    (pc : ℤ) : Option Next :=
  if src = .x ∧ op.divides ∧ b = 0 then some (.ret 0)
  else do
    let v ← env.aluOp op a b
    let m ← m.set ins.dst_reg (v.zeroExtend 64)
    some (.go (pc + 1) m)

/-- The second operand of an instruction. -/
def operand (ins : EbpfInsn) (src : Src) (m : Machine) : Option (BitVec 64) :=
  match src with
  | .k => some (ins.imm.signExtend 64)
  | .x => m.get ins.src_reg

/-- `bpf_ld_mbuf` and what is done with the bytes: the end where there are none. -/
def Env.ldMbuf (m : Machine) (off : BitVec 32) (size : Size) (pc : ℤ) : Next :=
  match env.pktmbuf_read m.mem (m.reg 6) off size.bytes with
  | none => .ret 0
  | some bytes => .go (pc + 1) (m.setR0 (ofBytes bytes.reverse))

/-- **One instruction of `bpf_exec`.** -/
def Env.exec (prm : List EbpfInsn) (pc : ℤ) (m : Machine) : Option Next :=
  (fetch prm pc).bind fun ins =>
    match ins.opcode with
    | none => some (.ret 0)
    | some (.alu op src) => do
      let a ← m.get ins.dst_reg
      let b ← operand ins src m
      env.alu ins op src (a.truncate 32) (b.truncate 32) m pc
    | some (.alu64 op src) => do
      let a ← m.get ins.dst_reg
      let b ← operand ins src m
      env.alu ins op src a b m pc
    | some .neg => do
      let a ← m.get ins.dst_reg
      let m ← m.set ins.dst_reg (((-a).truncate 32).zeroExtend 64)
      some (.go (pc + 1) m)
    | some .neg64 => do
      let a ← m.get ins.dst_reg
      let m ← m.set ins.dst_reg (-a)
      some (.go (pc + 1) m)
    | some .toBe => do
      let a ← m.get ins.dst_reg
      let m ← m.set ins.dst_reg
        (if ins.imm = 16 then cpuToBe a 2 else if ins.imm = 32 then cpuToBe a 4
         else if ins.imm = 64 then cpuToBe a 8 else a)
      some (.go (pc + 1) m)
    | some .toLe => do
      let a ← m.get ins.dst_reg
      let m ← m.set ins.dst_reg
        (if ins.imm = 16 then cpuToLe a 2 else if ins.imm = 32 then cpuToLe a 4
         else if ins.imm = 64 then cpuToLe a 8 else a)
      some (.go (pc + 1) m)
    | some (.ldxMem size) => do
      let src ← m.get ins.src_reg
      let m ← m.set ins.dst_reg (m.mem.load (src + ins.off.signExtend 64) size.bytes)
      some (.go (pc + 1) m)
    | some .ldImmDw => do
      let second ← fetch prm (pc + 1)
      let m ← m.set ins.dst_reg (second.imm.zeroExtend 64 <<< 32 ||| ins.imm.zeroExtend 64)
      some (.go (pc + 2) m)
    | some (.ldAbs size) => some (env.ldMbuf m ins.imm size pc)
    | some (.ldInd size) => do
      let src ← m.get ins.src_reg
      some (env.ldMbuf m ((src + ins.imm.signExtend 64).truncate 32) size pc)
    | some (.stxMem size) => do
      let dst ← m.get ins.dst_reg
      let src ← m.get ins.src_reg
      some (.go (pc + 1) { m with
        mem := m.mem.store (dst + ins.off.signExtend 64) src size.bytes })
    | some (.stMem size) => do
      let dst ← m.get ins.dst_reg
      some (.go (pc + 1) { m with
        mem := m.mem.store (dst + ins.off.signExtend 64) (ins.imm.signExtend 64) size.bytes })
    | some (.stxXadd size) => do
      let dst ← m.get ins.dst_reg
      let src ← m.get ins.src_reg
      let addr := dst + ins.off.signExtend 64
      some (.go (pc + 1) { m with
        mem := m.mem.store addr (m.mem.load addr size.bytes + src) size.bytes })
    | some .ja => some (.go (pc + ins.off.toInt + 1) m)
    | some (.jcc op src) => do
      let a ← m.get ins.dst_reg
      let b ← operand ins src m
      some (.go (if op.holds a b then pc + ins.off.toInt + 1 else pc + 1) m)
    | some .call =>
      let (v, mem) := env.xsym ins.imm (fun i => m.reg (i.castSucc.succ.castLE (by decide))) m.mem
      some (.go (pc + 1) { reg := update m.reg 0 v, mem := mem })
    | some .exit => some (.ret (m.reg 0))

/-- **`bpf_exec`**, some instructions from a place on. -/
def Env.execFrom (prm : List EbpfInsn) : ℕ → ℤ → Machine → Option Next
  | 0, pc, m => some (.go pc m)
  | n + 1, pc, m => (env.exec prm pc m).bind fun
    | .ret v => some (.ret v)
    | .go pc m => execFrom prm n pc m

end Bpf
