import DpdkStudy.Lib.BitSums
import Mathlib

/-!
# The Toeplitz hash

The hash of a tuple is the exclusive or of windows of the key, one for each bit of the tuple that
is set. It is computed in three ways: from the words of the key, which are swapped where they are
read; from a key whose words have been swapped beforehand; and from matrices of bits, a matrix for
each byte of the key, that the bytes of the tuple are multiplied with. A bit of each hash is a sum
over the bits of the tuple in the field of two elements (`toeplitz_bit`), and so they agree.

The host has its least byte first, as those have that multiply with matrices.
-/

open Finset BitSums

namespace Thash

/-! ## Words in memory -/

/-- `rte_cpu_to_be_32()`. -/
def rteCpuToBe32 (x : BitVec 32) : BitVec 32 :=
  x.extractLsb' 0 8 ++ x.extractLsb' 8 8 ++ x.extractLsb' 16 8 ++ x.extractLsb' 24 8

/-- `rte_be_to_cpu_32()`. -/
def rteBeToCpu32 (x : BitVec 32) : BitVec 32 :=
  rteCpuToBe32 x

/-- The bytes of a key as `const uint32_t *`. -/
def words (rss_key : ℕ → BitVec 8) (j : ℕ) : BitVec 32 :=
  rss_key (4 * j + 3) ++ rss_key (4 * j + 2) ++ rss_key (4 * j + 1) ++ rss_key (4 * j)

/-- `rte_convert_rss_key()`: what is in `targ` afterwards. -/
def rteConvertRssKey (orig targ : ℕ → BitVec 32) (len i : ℕ) : BitVec 32 :=
  if i < len / 4 then rteBeToCpu32 (orig i) else targ i

/-! ## The hash by words -/

/-- What is added for a bit that is set in a word of the tuple: the key from two of its words. -/
def softrssTerm (key : ℕ → BitVec 32) (j i : ℕ) : BitVec 32 :=
  key j <<< (31 - i) ||| ((key (j + 1)).setWidth 64 >>> (i + 1)).setWidth 32

/-- The loops of `rte_softrss()` and `rte_softrss_be()`, which read the key in their own ways. -/
def softrssLoop (input_tuple : ℕ → BitVec 32) (input_len : ℕ) (key : ℕ → BitVec 32) :
    BitVec 32 :=
  (List.range input_len).foldl (fun ret j =>
    forSetBits (fun i ret => ret ^^^ softrssTerm key j i) (input_tuple j) ret) 0

/-- `rte_softrss()`. -/
def rteSoftrss (input_tuple : ℕ → BitVec 32) (input_len : ℕ) (rss_key : ℕ → BitVec 32) :
    BitVec 32 :=
  softrssLoop input_tuple input_len fun j => rteCpuToBe32 (rss_key j)

/-- `rte_softrss_be()`. -/
def rteSoftrssBe (input_tuple : ℕ → BitVec 32) (input_len : ℕ) (rss_key : ℕ → BitVec 32) :
    BitVec 32 :=
  softrssLoop input_tuple input_len rss_key

/-! ## The hash by matrices -/

/-- `rte_thash_complete_matrix()`: the bytes of the matrices, of which each has eight. -/
def rteThashCompleteMatrix (matrixes rss_key : ℕ → BitVec 8) (size k : ℕ) : BitVec 8 :=
  if k < 8 * size then
    let i := k / 8
    let j := k % 8
    rss_key i <<< j ||| ((rss_key ((i + 1) % size)).setWidth 16 >>> (8 - j)).setWidth 8
  else matrixes k

/-- The exclusive or of the bits of a byte. -/
def parity (x : BitVec 8) : Bool :=
  (List.range 8).foldl (fun p b => p ^^ x.getMsbD b) false

/-- `GF2P8AFFINEQB`: the product of a byte with the matrix whose bytes are its rows, the first for
the highest bit. -/
def gf2p8affine (matrix : ℕ → BitVec 8) (x : BitVec 8) : BitVec 8 :=
  .ofFnBE fun n => parity (matrix n &&& x)

/-- A byte of a tuple in network order. -/
def tupleByte (input_tuple : ℕ → BitVec 32) (k : ℕ) : BitVec 8 :=
  (input_tuple (k / 4)).extractLsb' (24 - 8 * (k % 4)) 8

/-- A byte of the hash: that of the products of the bytes of the tuple, each with the matrix that
is as far behind it as the byte is behind the first of the hash. -/
def matrixHashByte (matrixes : ℕ → BitVec 8) (input_tuple : ℕ → BitVec 32) (input_len o : ℕ) :
    BitVec 8 :=
  (List.range (4 * input_len)).foldl (fun acc k =>
    acc ^^^ gf2p8affine (fun n => matrixes (8 * (k + o) + n)) (tupleByte input_tuple k)) 0

/-- The hash from the products of the bytes of a tuple with matrices, as `rte_thash_gfni()`
computes it. -/
def matrixHash (matrixes : ℕ → BitVec 8) (input_tuple : ℕ → BitVec 32) (input_len : ℕ) :
    BitVec 32 :=
  matrixHashByte matrixes input_tuple input_len 0
    ++ matrixHashByte matrixes input_tuple input_len 1
    ++ matrixHashByte matrixes input_tuple input_len 2
    ++ matrixHashByte matrixes input_tuple input_len 3

/-! ## The hash by windows -/

/-- A bit of a key. -/
def keyBit (rss_key : ℕ → BitVec 8) (p : ℕ) : Bool :=
  (rss_key (p / 8)).getMsbD (p % 8)

/-- A bit of a tuple in network order. -/
def tupleBit (input_tuple : ℕ → BitVec 32) (p : ℕ) : Bool :=
  (input_tuple (p / 32)).getMsbD (p % 32)

/-- The window of a key at a bit. -/
def window (rss_key : ℕ → BitVec 8) (p : ℕ) : BitVec 32 :=
  .ofFnBE fun h => keyBit rss_key (p + h)

/-- **The Toeplitz hash**: the windows at the bits that are set in the tuple. -/
def toeplitz (input_tuple : ℕ → BitVec 32) (input_len : ℕ) (rss_key : ℕ → BitVec 8) :
    BitVec 32 :=
  (List.range (32 * input_len)).foldl (fun ret p =>
    ret ^^^ if tupleBit input_tuple p then window rss_key p else 0) 0

variable {tuple : ℕ → BitVec 32} {key : ℕ → BitVec 8} {len size : ℕ}

theorem toeplitz_bit {h : ℕ} (hh : h < 32) :
    bit ((toeplitz tuple len key).getMsbD h)
      = ∑ p ∈ range (32 * len), bit (tupleBit tuple p) * bit (keyBit key (p + h)) := by
  rw [toeplitz, bit_foldl]
  refine sum_congr rfl fun p _ => ?_
  cases tupleBit tuple p
  · simp
  · rw [if_pos rfl, window, BitVec.getMsbD_ofFnBE, dif_pos hh, bit_true, one_mul]

theorem toeplitz_xor (a b : ℕ → BitVec 32) :
    toeplitz (fun j => a j ^^^ b j) len key = toeplitz a len key ^^^ toeplitz b len key := by
  refine eq_of_bits fun h hh => ?_
  simp only [BitVec.getMsbD_xor, bit_xor, toeplitz_bit hh, ← sum_add_distrib, ← add_mul, tupleBit]

/-! ## The words agree -/

theorem rteCpuToBe32_append (a b c d : BitVec 8) :
    rteCpuToBe32 (d ++ c ++ b ++ a) = a ++ b ++ c ++ d := by
  refine BitVec.eq_of_getMsbD_eq fun i hi => ?_
  simp only [rteCpuToBe32, BitVec.getMsbD_append, BitVec.getMsbD_extractLsb']
  grind

theorem getMsbD_bytes (f : ℕ → BitVec 8) {t : ℕ} (ht : t < 32) :
    (f 0 ++ f 1 ++ f 2 ++ f 3).getMsbD t = (f (t / 8)).getMsbD (t % 8) := by
  have hq : t / 8 = 0 ∨ t / 8 = 1 ∨ t / 8 = 2 ∨ t / 8 = 3 := by omega
  simp only [BitVec.getMsbD_append]
  grind

/-- **A word of the key, swapped**, has the bits of the key in their order. -/
theorem rteCpuToBe32_words {j t : ℕ} (ht : t < 32) :
    (rteCpuToBe32 (words key j)).getMsbD t = keyBit key (32 * j + t) := by
  rw [words, rteCpuToBe32_append]
  refine (getMsbD_bytes (fun q => key (4 * j + q)) ht).trans ?_
  rw [keyBit, show (32 * j + t) / 8 = 4 * j + t / 8 by omega, show (32 * j + t) % 8 = t % 8 by omega]

theorem softrssTerm_bit {k : ℕ → BitVec 32} {j n h : ℕ}
    (hk : ∀ i ≤ j + 1, ∀ t < 32, (k i).getMsbD t = keyBit key (32 * i + t)) (hn : n < 32)
    (hh : h < 32) :
    (softrssTerm k j (31 - n)).getMsbD h = keyBit key (32 * j + n + h) := by
  have hleft := hk j (by omega) (h + n)
  have hright := hk (j + 1) le_rfl (h + n - 32)
  simp only [softrssTerm, BitVec.getMsbD_or, BitVec.getMsbD_shiftLeft, BitVec.getMsbD_setWidth,
    BitVec.getMsbD_ushiftRight, show 31 - (31 - n) = n by omega]
  rcases Nat.lt_or_ge (h + n) 32 with hlt | hge
  · rw [hleft hlt]
    grind
  · rw [BitVec.getMsbD_of_ge _ _ hge]
    grind

/-- A word of the tuple adds the windows at its bits. -/
theorem forSetBits_softrssTerm {k : ℕ → BitVec 32} {j h : ℕ} (ret : BitVec 32)
    (hk : ∀ i ≤ j + 1, ∀ t < 32, (k i).getMsbD t = keyBit key (32 * i + t)) (hh : h < 32) :
    bit ((forSetBits (fun i ret => ret ^^^ softrssTerm k j i) (tuple j) ret).getMsbD h)
      = bit (ret.getMsbD h) + ∑ b ∈ range 32,
        bit (tupleBit tuple (32 * j + b)) * bit (keyBit key (32 * j + b + h)) := by
  rw [bit_forSetBits, ← sum_range_reflect (fun b => bit ((tuple j).getLsbD b) * _), add_right_inj]
  refine sum_congr rfl fun b hb => ?_
  rw [mem_range] at hb
  rw [show 32 - 1 - b = 31 - b from rfl, softrssTerm_bit hk hb hh, tupleBit,
    show (32 * j + b) / 32 = j by omega, show (32 * j + b) % 32 = b by omega,
    BitVec.getMsbD_eq_getLsbD, decide_eq_true hb, Bool.true_and]

/-- **The loop over words** whose bits are those of the key computes the hash. -/
theorem softrssLoop_eq {k : ℕ → BitVec 32}
    (hk : ∀ i ≤ len, ∀ t < 32, (k i).getMsbD t = keyBit key (32 * i + t)) :
    softrssLoop tuple len k = toeplitz tuple len key := by
  have hloop : ∀ h < 32, ∀ n ≤ len, bit ((softrssLoop tuple n k).getMsbD h)
      = ∑ j ∈ range n, ∑ b ∈ range 32,
        bit (tupleBit tuple (32 * j + b)) * bit (keyBit key (32 * j + b + h)) := by
    intro h hh n hn
    induction n with
    | zero => simp [softrssLoop]
    | succ n ih =>
      rw [softrssLoop, List.range_succ, List.foldl_append, List.foldl_cons, List.foldl_nil,
        forSetBits_softrssTerm _ (fun i hi => hk i (by omega)) hh, ← softrssLoop,
        ih (by omega), sum_range_succ _ n]
  refine eq_of_bits fun h hh => ?_
  rw [toeplitz_bit hh, hloop h hh len le_rfl, sum_blocks
    (fun p => bit (tupleBit tuple p) * bit (keyBit key (p + h)))]

/-! ## The matrices agree -/

theorem parity_bit (x y : BitVec 8) :
    bit (parity (x &&& y)) = ∑ b ∈ range 8, bit (x.getMsbD b) * bit (y.getMsbD b) := by
  simp [parity, List.range_succ, sum_range_succ, add_assoc]

/-- **A row of a matrix** is the window of eight bits at its bit, where the key goes on. -/
theorem rteThashCompleteMatrix_bit {matrixes : ℕ → BitVec 8} {k b : ℕ} (hk : k / 8 + 1 < size)
    (hb : b < 8) :
    (rteThashCompleteMatrix matrixes key size k).getMsbD b = keyBit key (k + b) := by
  simp only [rteThashCompleteMatrix, if_pos (show k < 8 * size by omega),
    Nat.mod_eq_of_lt hk, BitVec.getMsbD_or, BitVec.getMsbD_shiftLeft, BitVec.getMsbD_setWidth,
    BitVec.getMsbD_ushiftRight, keyBit]
  rcases Nat.lt_or_ge (b + k % 8) 8 with hlt | hge
  · rw [show (k + b) / 8 = k / 8 by omega, show (k + b) % 8 = b + k % 8 by omega]
    grind
  · rw [BitVec.getMsbD_of_ge _ _ hge, show (k + b) / 8 = k / 8 + 1 by omega,
      show (k + b) % 8 = b + k % 8 - 8 by omega]
    grind

theorem tupleByte_bit {k b : ℕ} (hb : b < 8) :
    (tupleByte tuple k).getMsbD b = tupleBit tuple (8 * k + b) := by
  rw [tupleByte, tupleBit, BitVec.getMsbD_extractLsb', show (8 * k + b) / 32 = k / 4 by omega,
    show (8 * k + b) % 32 = 8 * (k % 4) + b by omega]
  have := Nat.mod_lt k (show 0 < 4 by decide)
  grind

/-- **A bit of a byte of the hash**, with matrices that have been made for the key. -/
theorem matrixHashByte_bit {matrixes : ℕ → BitVec 8} {o n : ℕ} (hsize : 4 * (len + 1) ≤ size)
    (ho : o < 4) (hn : n < 8) :
    bit ((matrixHashByte (rteThashCompleteMatrix matrixes key size) tuple len o).getMsbD n)
      = bit ((toeplitz tuple len key).getMsbD (8 * o + n)) := by
  have hprod : ∀ k < 4 * len, bit ((gf2p8affine (fun n =>
      rteThashCompleteMatrix matrixes key size (8 * (k + o) + n)) (tupleByte tuple k)).getMsbD n)
      = ∑ b ∈ range 8, bit (tupleBit tuple (8 * k + b))
        * bit (keyBit key (8 * k + b + (8 * o + n))) := by
    intro k hk
    rw [gf2p8affine, BitVec.getMsbD_ofFnBE, dif_pos hn, parity_bit]
    refine sum_congr rfl fun b hb => ?_
    rw [mem_range] at hb
    rw [rteThashCompleteMatrix_bit (by omega) hb, tupleByte_bit hb, mul_comm,
      show 8 * (k + o) + n + b = 8 * k + b + (8 * o + n) by omega]
  rw [matrixHashByte, bit_foldl, sum_congr rfl fun k hk => hprod k (mem_range.mp hk), sum_blocks
    (fun p => bit (tupleBit tuple p) * bit (keyBit key (p + (8 * o + n)))),
    toeplitz_bit (by omega), show 8 * (4 * len) = 32 * len by omega]

theorem matrixHash_eq {matrixes : ℕ → BitVec 8} (hsize : 4 * (len + 1) ≤ size) :
    matrixHash (rteThashCompleteMatrix matrixes key size) tuple len = toeplitz tuple len key := by
  refine eq_of_bits fun h hh => ?_
  rw [matrixHash, getMsbD_bytes (matrixHashByte _ tuple len) hh,
    matrixHashByte_bit hsize (by omega) (by omega), Nat.div_add_mod]

/-! ## The implementations agree -/

/-- **The implementations of the Toeplitz hash agree**, and with its definition: `rte_softrss()`,
`rte_softrss_be()` with the converted key and the products with the matrices of the key. The hash
is linear in the tuple. -/
theorem softrss_agree (tuple : ℕ → BitVec 32) (len : ℕ) (key : ℕ → BitVec 8) (size : ℕ)
    (targ : ℕ → BitVec 32) (matrixes : ℕ → BitVec 8) (hsize : 4 * (len + 1) ≤ size) :
    rteSoftrss tuple len (words key) = toeplitz tuple len key ∧
    rteSoftrssBe tuple len (rteConvertRssKey (words key) targ size) = toeplitz tuple len key ∧
    matrixHash (rteThashCompleteMatrix matrixes key size) tuple len = toeplitz tuple len key ∧
    ∀ b : ℕ → BitVec 32, rteSoftrss (fun j => tuple j ^^^ b j) len (words key)
      = rteSoftrss tuple len (words key) ^^^ rteSoftrss b len (words key) := by
  have hsoft : ∀ tuple, rteSoftrss tuple len (words key) = toeplitz tuple len key := fun _ =>
    softrssLoop_eq fun i _ t ht => rteCpuToBe32_words ht
  have hbe : rteSoftrssBe tuple len (rteConvertRssKey (words key) targ size)
      = toeplitz tuple len key :=
    softrssLoop_eq fun i hi t ht => by
      rw [rteConvertRssKey, if_pos (by omega), rteBeToCpu32, rteCpuToBe32_words ht]
  exact ⟨hsoft tuple, hbe, matrixHash_eq hsize, fun b => by rw [hsoft, hsoft, hsoft, toeplitz_xor]⟩

/-- `default_rss_key` of the tests, as far as it is read for two words. -/
def defaultRssKey (k : ℕ) : BitVec 8 :=
  [0x6d, 0x5a, 0x56, 0xda, 0x25, 0x5b, 0x0e, 0xc2, 0x41, 0x67, 0x25, 0x3d].getD k 0

/-- The first addresses of `v4_tbl`, with the key of the tests: its `hash_l3`. -/
theorem softrss_agree_default :
    rteSoftrss (fun j => [0x420995bb, 0xa18e6450].getD j 0) 2 (words defaultRssKey)
      = 0x323e8fc2 := by
  rw [(softrss_agree _ 2 defaultRssKey 12 (fun _ => 0) (fun _ => 0) (by decide)).1]
  decide +kernel

end Thash
