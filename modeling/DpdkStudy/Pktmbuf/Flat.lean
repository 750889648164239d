import DpdkStudy.Pktmbuf.Copies

/-!
# The flat packet

A packet is its bytes, however they are divided into mbufs: copies, clones, what is
read and what is linearized are to agree with the bytes. They do so unless the new
mbufs have pinned buffers, the mbufs of a copy are more than can be counted, or what
is read does not fit into 32 bits or is nothing at the end.
-/

namespace Pktmbuf

variable {env : Env} {h : Heap} {mp : ℕ} {m : Pkt}

/-- **Copies, clones, what is read and what is linearized agree with the flat packet**
exactly if:

* there is nothing to copy, or there are too few mbufs, or the pool has no pinned
  buffers and the mbufs of the copy can be counted in 16 bits;
* there is no mbuf for a clone, or the pool has no pinned buffers;
* offset and length do not add up to more than the packet has while they seem not to
  in 32 bits, and they do not ask for nothing at its end. -/
theorem agrees_with_flat_packet (hchain : Chain m) (hstock : Stocked env h mp)
    (hin : InUse h mp m.segs.length m.segs) (off len : UInt32) :
    (CopyOk env h mp m off.toNat len.toNat ∧ CloneOk env h mp m ∧
        ReadOk m off.toNat len.toNat ∧ LinearizeOk env h m) ↔
      (m.pkt_len ≤ off.toNat ∨
          RanOut env h mp (min len.toNat (m.pkt_len - off.toNat)) ∨
          env.pinned mp = false ∧
            (min len.toNat (m.pkt_len - off.toNat) - 1) / env.room mp + 1 < 2 ^ 16) ∧
        (h.free mp = [] ∨ env.pinned mp = false) ∧
        ¬ (m.pkt_len < off.toNat + len.toNat ∧ (off.toNat + len.toNat) % 2 ^ 32 ≤ m.pkt_len) ∧
        ¬ (off.toNat = m.pkt_len ∧ len.toNat = 0) := by
  rw [copyOk_iff hchain hstock, cloneOk_iff hchain hstock hin, readOk_iff hchain,
    and_iff_left (linearizeOk hchain hin.told)]

/-- Two pools: the mbufs of the second one have pinned buffers. -/
def twoPools : Env :=
  ⟨fun mbuf => if mbuf < 4 then 0 else 1, fun mp => mp = 1, id, fun _ => 4, fun _ => by decide⟩

/-- Some mbufs in each of the pools, and nobody refers to them. -/
def twoPoolsHeap : Heap :=
  ⟨fun mp =>
    if mp = 0 then [(2, .embedded 2), (3, .embedded 3)]
    else if mp = 1 then [(4, .external 4), (5, .external 5)] else [],
    fun _ => 1, fun _ => 1, []⟩

/-- A packet of three bytes in two mbufs. -/
def threeBytes : Pkt :=
  ⟨⟨0, 0, .embedded 0, [1, 2], 2⟩, [⟨1, 0, .embedded 1, [3], 3⟩], 2, 3⟩

theorem threeBytes_chain : Chain threeBytes := by
  refine ⟨?_, ?_, ?_, ?_, ?_⟩ <;> decide

theorem twoPools_stocked : ∀ mp < 2, Stocked twoPools twoPoolsHeap mp := by
  unfold Stocked
  decide

theorem threeBytes_inUse (mp : ℕ) (hmp : mp < 2) :
    InUse twoPoolsHeap mp threeBytes.segs.length threeBytes.segs := by
  refine ⟨by decide, by decide, by decide, ?_⟩
  revert mp
  decide

/-- All bytes but the first one, in the pool without pinned buffers. -/
theorem agrees_with_flat_packet_two :
    CopyOk twoPools twoPoolsHeap 0 threeBytes 1 2 ∧ CloneOk twoPools twoPoolsHeap 0 threeBytes ∧
      ReadOk threeBytes 1 2 ∧ LinearizeOk twoPools twoPoolsHeap threeBytes :=
  (agrees_with_flat_packet threeBytes_chain (twoPools_stocked 0 (by decide))
    (threeBytes_inUse 0 (by decide)) 1 2).mpr
    ⟨.inr (.inr ⟨rfl, by decide⟩), .inr rfl, by decide, by decide⟩

/-- **Not so for a pool with pinned buffers**: the copy of the packet has two bytes, in
an mbuf with a pinned buffer, and nobody can attach to it. -/
theorem agrees_with_flat_packet_fails :
    ¬ ∀ (env : Env) (h : Heap) (mp : ℕ) (m : Pkt), Chain m → Stocked env h mp →
      InUse h mp m.segs.length m.segs → ∀ off len : UInt32,
        CopyOk env h mp m off.toNat len.toNat ∧ CloneOk env h mp m ∧
          ReadOk m off.toNat len.toNat ∧ LinearizeOk env h m := by
  intro hall
  have hcopy := (hall twoPools twoPoolsHeap 1 threeBytes threeBytes_chain
    (twoPools_stocked 1 (by decide)) (threeBytes_inUse 1 (by decide)) 1 2).1
  rw [copyOk_iff threeBytes_chain (twoPools_stocked 1 (by decide)), RanOut] at hcopy
  revert hcopy
  decide

/-- What comes of it: the mbuf is taken for one with a buffer behind it. -/
example : ((rtePktmbufCopy twoPools twoPoolsHeap threeBytes 1 1 2).bind fun r =>
    r.1.map fun mc => (mc.bytes, (rtePktmbufClone twoPools r.2 mc 0).isNone)) =
      some ([2, 3], true) := by decide

end Pktmbuf
