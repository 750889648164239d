import DpdkStudy.Lib.Prefix
import Mathlib.Data.Fintype.Pi
import Mathlib.Tactic.IntervalCases

/-!
# IPv6 addresses

The addresses of `lib/net/rte_ip6.h`: sixteen bytes, which are masked byte by
byte. The number of an address is that of its bytes, the first of them first
(`RteIpv6Addr.toNat`). An address has one number
(`RteIpv6Addr.toNat_inj`), and masking it truncates the number
(`toNat_mask`).
-/

open Nat

namespace Net

open Prefix

/-- **An IPv6 address** (`struct rte_ipv6_addr`). -/
structure RteIpv6Addr where
  a : Fin 16 → UInt8

instance : DecidableEq RteIpv6Addr := fun x y =>
  decidable_of_iff (x.a = y.a) ⟨congrArg RteIpv6Addr.mk, congrArg RteIpv6Addr.a⟩

namespace RteIpv6Addr

/-- The byte `ip->a[i]`. -/
def byte (ip : RteIpv6Addr) (i : ℕ) : UInt8 := if h : i < 16 then ip.a ⟨i, h⟩ else 0

/-- `ip->a[i] = v`. -/
def setByte (ip : RteIpv6Addr) (i : ℕ) (v : UInt8) : RteIpv6Addr :=
  ⟨fun j => if j.val = i then v else ip.a j⟩

/-- The address of sixteen bytes. -/
def ofBytes (bytes : List UInt8) : RteIpv6Addr := ⟨fun i => bytes.getD i.val 0⟩

/-- The number of the first `n` bytes. -/
def first (ip : RteIpv6Addr) : ℕ → ℕ
  | 0 => 0
  | n + 1 => ip.first n * 256 + (ip.byte n).toNat

/-- **The number of an address.** -/
def toNat (ip : RteIpv6Addr) : ℕ := ip.first 16

end RteIpv6Addr

/-- The byte of ones for the bits of a depth past its whole bytes:
`~(UINT8_MAX >> (depth % CHAR_BIT))`. -/
def byteMask (depth : ℕ) : UInt8 := ~~~((255 : UInt8) >>> UInt8.ofNat (depth % 8))

/-- **`rte_ipv6_addr_mask`.** -/
def rteIpv6AddrMask (ip : RteIpv6Addr) (depth : ℕ) : RteIpv6Addr :=
  if depth < 128 then
    let d := depth / 8
    ⟨fun i =>
      if i.val < d then ip.a i
      else if i.val = d then ip.a i &&& byteMask depth
      else 0⟩
  else ip

/-! ## The number of an address -/

namespace RteIpv6Addr

variable (ip : RteIpv6Addr)

theorem byte_of_lt {i : ℕ} (h : i < 16) : ip.byte i = ip.a ⟨i, h⟩ := dif_pos h

@[simp] theorem first_zero : ip.first 0 = 0 := rfl

theorem first_succ (n : ℕ) : ip.first (n + 1) = ip.first n * 256 + (ip.byte n).toNat := rfl

/-- Addresses with the same first bytes have the same first number. -/
theorem first_congr {ip ip' : RteIpv6Addr} {n : ℕ} (h : ∀ i < n, ip.byte i = ip'.byte i) :
    ip.first n = ip'.first n := by
  induction n with
  | zero => rfl
  | succ n ih =>
    rw [first_succ, first_succ, h n (lt_succ_self n),
      ih (fun i hi => h i (lt_succ_of_lt hi))]

theorem first_lt (n : ℕ) : ip.first n < 256 ^ n := by
  induction n with
  | zero => exact one_pos
  | succ n ih =>
    have hbyte := (ip.byte n).toNat_lt
    rw [first_succ, pow_succ]
    omega

theorem first_add_div (n m : ℕ) : ip.first (n + m) / 256 ^ m = ip.first n := by
  induction m with
  | zero => simp
  | succ m ih =>
    have hbyte := (ip.byte (n + m)).toNat_lt
    rw [← Nat.add_assoc, first_succ, Nat.pow_succ', ← Nat.div_div_eq_div_mul, Nat.mul_comm,
      mul_add_div (by decide), div_eq_of_lt hbyte, add_zero, ih]

theorem toNat_div {n : ℕ} (h : n ≤ 16) : ip.toNat / 256 ^ (16 - n) = ip.first n := by
  have hsplit := ip.first_add_div n (16 - n)
  rw [add_sub_of_le h] at hsplit
  exact hsplit

theorem toNat_lt : ip.toNat < 2 ^ 128 :=
  calc ip.toNat < 256 ^ 16 := ip.first_lt 16
    _ = 2 ^ 128 := by decide

theorem toNat_inj {ip ip' : RteIpv6Addr} (h : ip.toNat = ip'.toNat) : ip = ip' := by
  have hfirst : ∀ n ≤ 16, ip.first n = ip'.first n := fun n hn => by
    rw [← ip.toNat_div hn, ← ip'.toNat_div hn, h]
  obtain ⟨a⟩ := ip
  obtain ⟨a'⟩ := ip'
  congr 1
  funext i
  have hi := hfirst i.val (le_of_lt i.isLt)
  have hsucc := hfirst (i.val + 1) i.isLt
  rw [first_succ, first_succ, hi] at hsucc
  rw [byte_of_lt _ i.isLt, byte_of_lt _ i.isLt] at hsucc
  exact UInt8.toNat_inj.mp (add_left_cancel hsucc)

end RteIpv6Addr

/-! ## Masking -/

theorem toNat_byteMask (depth : ℕ) :
    (byteMask depth).toNat = (2 ^ (depth % 8) - 1) * 2 ^ (8 - depth % 8) := by
  unfold byteMask
  have h : depth % 8 < 8 := mod_lt _ (by decide)
  generalize depth % 8 = r at h
  interval_cases r <;> rfl

theorem toNat_and_byteMask (x : UInt8) (depth : ℕ) :
    (x &&& byteMask depth).toNat = x.toNat / 2 ^ (8 - depth % 8) * 2 ^ (8 - depth % 8) := by
  rw [UInt8.toNat_and, toNat_byteMask]
  exact land_mask (le_of_lt (mod_lt depth (by decide))) x.toNat_lt

theorem byte_mask {depth i : ℕ} (ip : RteIpv6Addr) (h : depth < 128) :
    (rteIpv6AddrMask ip depth).byte i
      = if i < depth / 8 then ip.byte i
        else if i = depth / 8 then ip.byte i &&& byteMask depth
        else 0 := by
  unfold rteIpv6AddrMask RteIpv6Addr.byte
  rw [if_pos h]
  by_cases hi : i < 16
  · rw [dif_pos hi, dif_pos hi]
  · rw [dif_neg hi, if_neg (by omega), if_neg (by omega)]

theorem first_mask_of_gt {depth n : ℕ} (ip : RteIpv6Addr) (h : depth < 128)
    (hn : depth / 8 + 1 + n ≤ 16) :
    (rteIpv6AddrMask ip depth).first (depth / 8 + 1 + n)
      = (rteIpv6AddrMask ip depth).first (depth / 8 + 1) * 256 ^ n := by
  induction n with
  | zero => simp
  | succ n ih =>
    rw [← add_assoc, RteIpv6Addr.first_succ, ih (by omega), byte_mask ip h, if_neg (by omega),
      if_neg (by omega), pow_succ, mul_assoc]
    rfl

theorem toNat_mask {depth : ℕ} (ip : RteIpv6Addr) (h : depth ≤ 128) :
    (rteIpv6AddrMask ip depth).toNat = trunc 128 depth ip.toNat := by
  rcases Nat.lt_or_eq_of_le h with hlt | rfl
  · have hd : depth / 8 + 1 + (15 - depth / 8) = 16 := by omega
    have hsize : 2 ^ (128 - depth) = 256 ^ (15 - depth / 8) * 2 ^ (8 - depth % 8) := by
      rw [show 256 = 2 ^ 8 from rfl, ← Nat.pow_mul, ← Nat.pow_add]
      congr 1
      omega
    have hmasked : (rteIpv6AddrMask ip depth).toNat
        = (rteIpv6AddrMask ip depth).first (depth / 8 + 1) * 256 ^ (15 - depth / 8) := by
      have hgt := first_mask_of_gt (n := 15 - depth / 8) ip hlt (by omega)
      rw [hd] at hgt
      exact hgt
    have hhigh : ip.toNat / 256 ^ (15 - depth / 8) = ip.first (depth / 8 + 1) := by
      have hdiv := ip.toNat_div (n := depth / 8 + 1) (by omega)
      rw [show 16 - (depth / 8 + 1) = 15 - depth / 8 by omega] at hdiv
      exact hdiv
    have hfirst : (rteIpv6AddrMask ip depth).first (depth / 8 + 1)
        = ip.first (depth / 8) * 256
          + (ip.byte (depth / 8)).toNat / 2 ^ (8 - depth % 8) * 2 ^ (8 - depth % 8) := by
      rw [RteIpv6Addr.first_succ, byte_mask ip hlt, if_neg (Nat.lt_irrefl _), if_pos rfl,
        toNat_and_byteMask]
      congr 2
      refine RteIpv6Addr.first_congr (fun i hi => ?_)
      rw [byte_mask ip hlt, if_pos hi]
    have hpow : 256 = 2 ^ (depth % 8) * 2 ^ (8 - depth % 8) := by
      rw [← Nat.pow_add, show depth % 8 + (8 - depth % 8) = 8 by omega]
    unfold trunc
    rw [hmasked, hfirst, hsize, ← Nat.div_div_eq_div_mul, hhigh, RteIpv6Addr.first_succ]
    have hpos := Nat.two_pow_pos (8 - depth % 8)
    generalize 2 ^ (8 - depth % 8) = s at hpow hpos ⊢
    generalize ip.first (depth / 8) = f
    generalize (ip.byte (depth / 8)).toNat = b
    have hdiv : (f * 256 + b) / s = f * 2 ^ (depth % 8) + b / s := by
      rw [hpow, ← Nat.mul_assoc, Nat.mul_comm _ s, Nat.mul_add_div hpos]
    calc (f * 256 + b / s * s) * 256 ^ (15 - depth / 8)
        = (f * 2 ^ (depth % 8) + b / s) * s * 256 ^ (15 - depth / 8) := by
          rw [Nat.add_mul _ _ s, Nat.mul_assoc f, ← hpow]
      _ = (f * 256 + b) / s * (256 ^ (15 - depth / 8) * s) := by
          rw [hdiv, Nat.mul_assoc, Nat.mul_comm s]
  · rw [rteIpv6AddrMask, if_neg (Nat.lt_irrefl _), trunc, Nat.sub_self, Nat.pow_zero, Nat.div_one,
      Nat.mul_one]

theorem trunc_toNat_mask {depth : ℕ} (ip : RteIpv6Addr) (h : depth ≤ 128) :
    trunc 128 depth (rteIpv6AddrMask ip depth).toNat = (rteIpv6AddrMask ip depth).toNat := by
  rw [toNat_mask ip h, trunc_idem]

end Net
