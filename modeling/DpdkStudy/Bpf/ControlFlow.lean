import Mathlib.Data.Set.Card
import DpdkStudy.Bpf.Exec
import DpdkStudy.Bpf.Search

/-!
# What the validation of the control flow is good for

A program that `validate` accepts should run no more instructions than it has, stay
in the program, and come to no second half of an immediate, as it has no loop, every
instruction can be reached and the counts of the search say so.

Two things are overlooked. An edge may lead to the number just behind the last
instruction (`nidx > nb_ins` in `add_edge`), where `dfs` reads a node outside the
array. And second halves are not among the nodes that are counted, but are coloured
where a jump leads to one. If as many instructions cannot be reached, the counts are
right all the same. Otherwise the validation is sound (`validate_sound_iff`).
-/

open List

namespace Bpf

open Function DepthFirst Relation

/-! ## Running an instruction that has been checked -/

theorem dreg_regs (op : Opcode) : (insChk op).dreg &&& allRegs = (insChk op).dreg := by
  unfold insChk
  split <;> rfl

theorem sreg_regs (op : Opcode) : (insChk op).sreg &&& allRegs = (insChk op).sreg := by
  unfold insChk
  split <;> rfl

theorem Machine.get_of_lt (m : Machine) {r : BitVec 4} (hr : r.toNat < 11) :
    ∃ v, m.get r = some v := ⟨_, dif_pos hr⟩

theorem Machine.set_of_lt (m : Machine) {r : BitVec 4} (hr : r.toNat < 11) (v : BitVec 64) :
    ∃ m', m.set r v = some m' := ⟨_, dif_pos hr⟩

/-- The low half of a word that has been extended. -/
theorem truncate_signExtend (v : BitVec 32) : (v.signExtend 64).truncate 32 = v := by
  ext i hi
  have h : i < 64 := by omega
  simp [BitVec.getElem_signExtend, hi, h]

/-- A divisor in a checked instruction is not zero. -/
theorem imm_ne_zero {ins : EbpfInsn} {op : AluOp} (hdiv : op.divides = true)
    (himm : (insChk (.alu op .k)).imm.1 ≤ ins.imm ∨ (insChk (.alu64 op .k)).imm.1 ≤ ins.imm) :
    ins.imm ≠ 0 := by
  intro h
  rw [h] at himm
  cases op <;> first
    | exact absurd hdiv (by decide)
    | exact absurd himm (by decide)

/-- An operation has a result unless it divides by zero. -/
theorem Env.aluOp_isSome (env : Env) {n : ℕ} {op : AluOp} (a : BitVec n) {b : BitVec n}
    (hb : op.divides = true → b ≠ 0) : ∃ v, env.aluOp op a b = some v := by
  cases op
  case div => exact ⟨_, if_neg (hb rfl)⟩
  case mod => exact ⟨_, if_neg (hb rfl)⟩
  all_goals exact ⟨_, rfl⟩

variable {prm : List EbpfInsn} {ins : EbpfInsn} {i : ℕ}

/-- What a step comes to: the end, or an instruction that comes next. -/
def Comes (ins : EbpfInsn) (i : ℕ) (result : Option Next) : Prop :=
  ∃ next, result = some next ∧ ∀ pc m, next = .go pc m → pc ∈ ins.nexts i

theorem comes_ret (v : BitVec 64) : Comes ins i (some (.ret v)) :=
  ⟨_, rfl, fun _ _ h => nomatch h⟩

theorem comes_go {pc : ℤ} {m : Machine} (hpc : pc ∈ ins.nexts i) :
    Comes ins i (some (.go pc m)) := by
  refine ⟨_, rfl, fun _ _ h => ?_⟩
  cases h
  exact hpc

/-- A register gets a value, and the machine goes on. -/
theorem set_comes (m : Machine) (hdst : ins.dst_reg.toNat < 11) (v : BitVec 64) {pc : ℤ}
    (hpc : pc ∈ ins.nexts i) :
    Comes ins i ((m.set ins.dst_reg v).bind fun m => some (.go pc m)) := by
  obtain ⟨m', hm'⟩ := m.set_of_lt hdst v
  rw [hm', Option.bind_some]
  exact comes_go hpc

/-- An operation comes to the next instruction, or to the end at a divisor that is
zero. -/
theorem Env.alu_comes (env : Env) {n : ℕ} {op : AluOp} {src : Src} {a b : BitVec n} (m : Machine)
    (hdst : ins.dst_reg.toNat < 11) (hb : src = .k → op.divides = true → b ≠ 0)
    (hpc : (i : ℤ) + 1 ∈ ins.nexts i) : Comes ins i (env.alu ins op src a b m i) := by
  rw [Env.alu]
  split_ifs with hzero
  · exact comes_ret 0
  · have hne : op.divides = true → b ≠ 0 := by
      intro hdiv hb0
      cases src with
      | k => exact hb rfl hdiv hb0
      | x => exact hzero ⟨rfl, hdiv, hb0⟩
    obtain ⟨v, hv⟩ := env.aluOp_isSome a hne
    rw [hv]
    exact set_comes m hdst _ hpc

theorem Env.ldMbuf_comes (env : Env) (m : Machine) (off : BitVec 32) (size : Size)
    (hpc : (i : ℤ) + 1 ∈ ins.nexts i) : Comes ins i (some (env.ldMbuf m off size i)) := by
  rw [Env.ldMbuf]
  split
  · exact comes_ret 0
  · exact comes_go hpc

/-- **An instruction that has been checked** runs, and comes to the end or to one
that comes next. -/
theorem Env.exec_spec (env : Env) (m : Machine) (hins : prm[i]? = some ins)
    (hcheck : checkSyntax ins = none)
    (hsecond : ins.opcode = some .ldImmDw → i + 1 < prm.length) :
    Comes ins i (env.exec prm i m) := by
  obtain ⟨op, hop, hdreg, hsreg, himm⟩ := checkSyntax_eq_none hcheck
  have hdst := lt_of_inMask (dreg_regs op) hdreg
  have hsrc := lt_of_inMask (sreg_regs op) hsreg
  have hfetch : fetch prm i = some ins := by
    rw [fetch, if_pos (Int.natCast_nonneg i), Int.toNat_natCast, hins]
  obtain ⟨a, ha⟩ := m.get_of_lt hdst
  obtain ⟨b, hb⟩ := m.get_of_lt hsrc
  have hone : (∀ op' src, op ≠ .jcc op' src) → op ≠ .exit → op ≠ .ja → op ≠ .ldImmDw →
      (i : ℤ) + 1 ∈ ins.nexts i := by
    intro hjcc hexit hja hld
    rw [EbpfInsn.nexts, hop]
    cases op <;> simp at hjcc hexit hja hld ⊢
  rw [Env.exec, hfetch, Option.bind_some, hop]
  cases op with
  | alu op src =>
    have hpc := hone (by simp) (by simp) (by simp) (by simp)
    cases src with
    | k =>
      simp only [ha, operand, Option.bind_eq_bind, Option.bind_some, truncate_signExtend]
      exact env.alu_comes m hdst (fun _ hdiv => imm_ne_zero hdiv (Or.inl himm)) hpc
    | x =>
      simp only [ha, operand, hb, Option.bind_eq_bind, Option.bind_some]
      exact env.alu_comes m hdst (fun h => nomatch h) hpc
  | alu64 op src =>
    have hpc := hone (by simp) (by simp) (by simp) (by simp)
    cases src with
    | k =>
      simp only [ha, operand, Option.bind_eq_bind, Option.bind_some]
      refine env.alu_comes m hdst (fun _ hdiv hzero => ?_) hpc
      refine imm_ne_zero hdiv (Or.inr himm) ?_
      rw [← truncate_signExtend ins.imm, hzero]
      rfl
    | x =>
      simp only [ha, operand, hb, Option.bind_eq_bind, Option.bind_some]
      exact env.alu_comes m hdst (fun h => nomatch h) hpc
  | ldImmDw =>
    have hlt := hsecond hop
    have hsnd : fetch prm ((i : ℤ) + 1) = some prm[i + 1] := by
      rw [fetch, if_pos (by omega)]
      exact getElem?_eq_getElem hlt
    simp only [hsnd, Option.bind_eq_bind, Option.bind_some]
    exact set_comes m hdst _ (by simp [EbpfInsn.nexts, hop])
  | ja => exact comes_go (by simp [EbpfInsn.nexts, hop])
  | jcc op src =>
    have hnexts : ins.nexts i = [(i : ℤ) + ins.off.toInt + 1, (i : ℤ) + 1] := by
      rw [EbpfInsn.nexts, hop]
    have hpc : ∀ b, (if op.holds a b then (i : ℤ) + ins.off.toInt + 1 else i + 1) ∈
        ins.nexts i := by
      intro b
      rw [hnexts]
      split_ifs <;> simp
    cases src with
    | k =>
      simp only [ha, operand, Option.bind_eq_bind, Option.bind_some]
      exact comes_go (hpc _)
    | x =>
      simp only [ha, operand, hb, Option.bind_eq_bind, Option.bind_some]
      exact comes_go (hpc _)
  | exit => exact comes_ret _
  | call => exact comes_go (hone (by simp) (by simp) (by simp) (by simp))
  | ldAbs size => exact env.ldMbuf_comes m _ size (hone (by simp) (by simp) (by simp) (by simp))
  | ldInd size =>
    simp only [hb, Option.bind_eq_bind, Option.bind_some]
    exact env.ldMbuf_comes m _ size (hone (by simp) (by simp) (by simp) (by simp))
  | stMem size =>
    simp only [ha, Option.bind_eq_bind, Option.bind_some]
    exact comes_go (hone (by simp) (by simp) (by simp) (by simp))
  | stxMem size =>
    simp only [ha, hb, Option.bind_eq_bind, Option.bind_some]
    exact comes_go (hone (by simp) (by simp) (by simp) (by simp))
  | stxXadd size =>
    simp only [ha, hb, Option.bind_eq_bind, Option.bind_some]
    exact comes_go (hone (by simp) (by simp) (by simp) (by simp))
  | ldxMem size =>
    simp only [hb, Option.bind_eq_bind, Option.bind_some]
    exact set_comes m hdst _ (hone (by simp) (by simp) (by simp) (by simp))
  | neg | neg64 | toBe | toLe =>
    simp only [ha, Option.bind_eq_bind, Option.bind_some]
    exact set_comes m hdst _ (hone (by simp) (by simp) (by simp) (by simp))

/-! ## What acceptance promises -/

/-- **A program is safe to run**, as far as its control flow goes. Every instruction
can be reached. However the program runs, it has a result. After some instructions it
has come to an end, or to another one of its instructions, whose syntax has been
checked, and these are fewer than it has. -/
structure Safe (prm : List EbpfInsn) : Prop where
  reached : ∀ i ∈ starts prm, Reaches (succ prm) 0 i
  runs : ∀ (env : Env) (m : Machine) (n : ℕ), ∃ next, env.execFrom prm n 0 m = some next ∧
    ∀ pc m', next = .go pc m' → n < prm.length ∧
      ∃ i ∈ starts prm, pc = i ∧ ∃ ins, prm[i]? = some ins ∧ checkSyntax ins = none

/-- **The validation is sound.** It ends without going to a node outside the array,
and what it accepts is safe. -/
def ValidateSound (prm : List EbpfInsn) : Prop :=
  ∃ accepted, (∃ n, ∀ fuel, n ≤ fuel → validate prm fuel = some (some accepted)) ∧
    (accepted = true → Safe prm)

/-- **What is overlooked.** Nothing is wrong with the instructions and what comes
next, but an edge leads to the number behind the last one, or there is no loop and as
many places can be reached as there are instructions, with second halves among
them. -/
def Overlooked (prm : List EbpfInsn) : Prop :=
  FirstOk prm ∧
    ((∃ i, Reaches (succ prm) 0 i ∧ ∃ j ∈ succ prm i, prm.length ≤ j) ∨
     (∃ i, Reaches (succ prm) 0 i ∧ i ∉ starts prm) ∧ ¬ Cyclic (succ prm) 0 ∧
      {i | Reaches (succ prm) 0 i}.ncard = (starts prm).length)

/-- The numbers of what comes next do not wrap where the first pass finds nothing
wrong. -/
theorem not_wraps_spec (hnot : ¬ Wraps prm) :
    (∀ i ∈ starts prm, ∀ ins, prm[i]? = some ins →
      checkSyntax ins = none ∧ ∀ t ∈ ins.nexts i, toWord32 t ≤ prm.length) ↔ FirstOk prm := by
  have hlen : prm.length + 1 < word32 := not_le.mp (fun h => hnot (Or.inl h))
  refine forall₂_congr (fun i hi => forall₂_congr (fun ins hins =>
    and_congr_right (fun _ => forall₂_congr (fun t ht => ?_))))
  constructor
  · intro hle
    have heq : t = toWord32 t := by
      by_contra hne
      exact hnot (Or.inr ⟨i, hi, ins, hins, t, ht, hle, hne⟩)
    rw [heq]
    exact ⟨Int.natCast_nonneg _, Int.ofNat_le.mpr hle⟩
  · rintro ⟨h0, hle⟩
    simp only [toWord32, word32] at hlen ⊢
    omega

theorem FirstOk.mem_succ (hok : FirstOk prm) (hi : i ∈ starts prm) (hins : prm[i]? = some ins)
    {t : ℤ} (ht : t ∈ ins.nexts i) : ∃ j : ℕ, t = j ∧ j ∈ succ prm i := by
  have h0 := ((hok i hi ins hins).2 t ht).1
  refine ⟨t.toNat, (Int.toNat_of_nonneg h0).symm, ?_⟩
  rw [succ_of_mem hi hins]
  exact mem_map_of_mem ht

/-- The verifier follows a search from the first pass on. -/
theorem firstPass_follows (hnot : ¬ Wraps prm) (hpos : 0 < prm.length) (fuel : ℕ)
    (hfuel : prm.length < fuel) :
    ∃ ok bvf, firstPass prm fuel 0 true .zero = some (ok, bvf) ∧
      (ok = true ↔ FirstOk prm) ∧
      (ok = true → Follows prm (bvf.found 0) (start 0)) := by
  have hlen : prm.length + 1 < word32 := not_le.mp (fun h => hnot (Or.inl h))
  obtain ⟨ok, bvf, hpass, hok, hnb, hcolour, htype, hothers, hnodes⟩ :=
    @firstPass_spec prm 0 prm.length fuel .zero true hlen (Nat.zero_le _) (by omega) hfuel
      (fun _ _ => rfl)
  have hfirst : ok = true ↔ FirstOk prm := by
    rw [hok, ← not_wraps_spec hnot]
    exact and_iff_right rfl
  refine ⟨ok, bvf, hpass, hfirst, fun hok => ?_⟩
  have hall := hfirst.mp hok
  have hdest : ∀ v, bvf.ins_node v = ⟨.white, 0, succ prm v, 0⟩ := by
    intro v
    by_cases hv : v ∈ starts prm
    · obtain ⟨ins, hins⟩ : ∃ ins, prm[v]? = some ins :=
        ⟨_, getElem?_eq_getElem (lt_of_mem_starts hv)⟩
      rw [hnodes hok v hv ins hins, succ_of_mem hv hins]
      have hmap : (ins.nexts v).map toWord32 = (ins.nexts v).map Int.toNat := by
        refine map_congr_left (fun t ht => ?_)
        obtain ⟨h0, hle⟩ := (hall v hv ins hins).2 t ht
        simp only [toWord32, word32] at hlen ⊢
        omega
      rw [hmap]
      rfl
    · rw [hothers v hv, succ_of_notMem hv]
      rfl
  have hfound : bvf.found 0 = { bvf with
      ins_node := update bvf.ins_node 0 ⟨.grey, 0, succ prm 0, 0⟩
      node_colour := update (update bvf.node_colour .white (bvf.node_colour .white - 1)) .grey
        (bvf.node_colour .grey + 1) } := by
    simp [BpfVerifier.found, BpfVerifier.setNodeColour, hdest]
  rw [hfound]
  refine ⟨fun v => ?_, fun v => ?_, fun v hv => ?_, fun a v b h => ?_, ?_, ?_, ?_, ?_, ?_, ?_,
    fun v hv => ?_⟩
  · by_cases h : v = 0
    · subst h
      simp
    · simp [h, hdest]
  · by_cases h : v = 0
    · subst h
      simp [colourOf, start]
    · simp [h, hdest, colourOf, start]
  · by_cases h : v = 0
    · subst h
      simp [start]
    · simp [h, hdest, start]
  · obtain ⟨rfl, rfl, rfl⟩ : a = [] ∧ v = 0 ∧ b = [] := by
      cases a with
      | nil => simpa [start, eq_comm] using h
      | cons x a => simp [start] at h
    simp
  · rw [hnb]
    exact BitVec.zero_add _
  · simp [hcolour, start, BpfVerifier.zero]
  · simp [hcolour, start, BpfVerifier.zero]
  · simp only [hcolour, hnb, start, BpfVerifier.zero]
    simp only [update_self, length_nil, length_singleton, Nat.zero_add]
    rw [update_of_ne (by decide), update_self]
    exact BitVec.sub_add_cancel _ _
  · rw [htype]
    rfl
  · rw [htype]
    rfl
  · obtain rfl : v = 0 := by simpa [start] using hv
    exact hpos

/-- An edge from a place that can be reached leads out of the program. -/
def LeadsOut (prm : List EbpfInsn) : Prop :=
  ∃ i, Reaches (succ prm) 0 i ∧ ∃ j ∈ succ prm i, prm.length ≤ j

/-- **The places that can be reached**, with every edge onwards where there is no
loop. -/
structure Reached (prm : List EbpfInsn) (order : List ℕ) : Prop where
  nodup : order.Nodup
  mem : ∀ v, v ∈ order ↔ Reaches (succ prm) 0 v
  bound : ∀ v ∈ order, v < prm.length
  sorted : ¬ Cyclic (succ prm) 0 → Sorted (succ prm) order

theorem Reached.length_eq {order : List ℕ} (hr : Reached prm order) :
    {i | Reaches (succ prm) 0 i}.ncard = order.length := by
  have hset : {i | Reaches (succ prm) 0 i} = (order.toFinset : Set ℕ) := by
    ext v
    simp [hr.mem]
  rw [hset, Set.ncard_coe_finset, toFinset_card_of_nodup hr.nodup]

theorem Reached.length_le {order : List ℕ} (hr : Reached prm order) :
    order.length ≤ prm.length := by
  rw [← toFinset_card_of_nodup hr.nodup, ← Finset.card_range prm.length]
  refine Finset.card_le_card (fun v hv => Finset.mem_range.mpr ?_)
  exact hr.bound v (mem_toFinset.mp hv)

theorem length_startsFrom (n i : ℕ) : (startsFrom prm n i).length ≤ n := by
  induction n generalizing i with
  | zero => exact le_rfl
  | succ n ih =>
    rw [startsFrom]
    cases prm[i]? with
    | none => exact Nat.zero_le _
    | some ins => exact Nat.succ_le_succ (ih _)

theorem ofNat_inj {a b : ℕ} (ha : a < word32) (hb : b < word32) :
    BitVec.ofNat 32 a = BitVec.ofNat 32 b ↔ a = b := by
  simp only [word32] at ha hb
  constructor
  · intro h
    have hnat := congrArg BitVec.toNat h
    rwa [BitVec.toNat_ofNat, BitVec.toNat_ofNat, Nat.mod_eq_of_lt ha, Nat.mod_eq_of_lt hb] at hnat
  · rintro rfl
    rfl

/-- **The counts after a whole search** are right if there are as many finished nodes
as instructions, and no back edges. -/
theorem Follows.accepts {bvf : BpfVerifier} {s : Search ℕ} (hf : Follows prm bvf s)
    (hdone : s.stack = []) (hlen : prm.length + 1 < word32) (horder : s.order.length ≤ prm.length)
    (hback : s.back ≤ 1 + s.order.length) :
    bvf.accepts = true ↔ s.order.length = (starts prm).length ∧ s.back = 0 := by
  have hstarts : (starts prm).length ≤ prm.length := length_startsFrom _ _
  have hwhite := hf.white
  rw [BpfVerifier.accepts, hf.black, hf.nodes, hf.grey, hf.unknown, hf.back, hdone, length_nil]
  rw [hdone, length_nil, hf.nodes, Nat.add_zero] at hwhite
  have hblack : BitVec.ofNat 32 s.order.length = BitVec.ofNat 32 (starts prm).length ↔
      s.order.length = (starts prm).length := ofNat_inj (by omega) (by omega)
  have hzero : BitVec.ofNat 32 s.back = 0 ↔ s.back = 0 := ofNat_inj (by omega) (by simp [word32])
  by_cases heq : s.order.length = (starts prm).length
  · have hnone : bvf.node_colour .white = 0 := by
      rw [heq] at hwhite
      simpa using hwhite
    simp only [heq, ne_eq, not_true_eq_false, if_false, hnone, or_self, true_and]
    by_cases hb : s.back = 0
    · simp [hb]
    · have hne := mt hzero.mp hb
      simpa [hb] using hne
  · have hne := mt hblack.mp heq
    simp [hne, heq]

/-- What `validate` returns, with enough fuel. -/
theorem validate_spec (hnot : ¬ Wraps prm) (hpos : 0 < prm.length) (fuel : ℕ)
    (hfuel : 3 * prm.length < fuel) :
    (¬ FirstOk prm ∧ validate prm fuel = some (some false)) ∨
    (FirstOk prm ∧ LeadsOut prm ∧ validate prm fuel = some none) ∨
    (FirstOk prm ∧ ¬ LeadsOut prm ∧ ∃ order accepted, Reached prm order ∧
      validate prm fuel = some (some accepted) ∧
      (accepted = true ↔ order.length = (starts prm).length ∧ ¬ Cyclic (succ prm) 0)) := by
  have hlen : prm.length + 1 < word32 := not_le.mp (fun h => hnot (Or.inl h))
  obtain ⟨ok, bvf, hpass, hok, hfollows⟩ :=
    firstPass_follows hnot hpos fuel (by omega)
  by_cases hfirst : FirstOk prm
  · obtain rfl : ok = true := hok.mpr hfirst
    refine Or.inr ?_
    have hwork : work (succ prm) (Finset.range prm.length) (start 0) ≤ 3 * prm.length := by
      rw [work, mul_comm, ← smul_eq_mul]
      refine (Finset.sum_le_card_nsmul _ _ 3 (fun v _ => ?_)).trans (by rw [Finset.card_range])
      have htwo := length_succ prm v
      simp only [start, not_mem_nil, if_false]
      omega
    have hvalidate : validate prm fuel =
        (dfs prm.length fuel bvf 0).map fun result => result.map BpfVerifier.accepts := by
      rw [validate, hpass]
      rfl
    rcases dfs_spec (hfollows rfl) (inv_start 0) (paid_start _ 0) rfl hwork hfuel with
      ⟨hdfs, hout⟩ | ⟨bvf', s, hdfs, hf, hi, hpaid, hdone⟩
    · exact Or.inl ⟨hfirst, hout, by rw [hvalidate, hdfs]; rfl⟩
    · have hnodup := hi.nodup
      have hbound := hf.bound
      rw [hdone, nil_append] at hnodup hbound
      have hr : Reached prm s.order :=
        ⟨hnodup, hi.mem_order hdone, hbound,
          fun hcyc => hi.sorted ((hi.back_eq_zero hdone).mpr hcyc)⟩
      refine Or.inr ⟨hfirst, ?_, s.order, _, hr, by rw [hvalidate, hdfs]; rfl, ?_⟩
      · rintro ⟨i, hi', j, hj, hle⟩
        have hmem := (hr.mem j).mpr (hi'.tail hj)
        exact absurd (hr.bound j hmem) (not_lt.mpr hle)
      · rw [hf.accepts hdone hlen hr.length_le
          (hpaid.back_le hi hdone (fun v _ => length_succ prm v)), hi.back_eq_zero hdone]
  · refine Or.inl ⟨hfirst, ?_⟩
    obtain rfl : ok = false := by
      simpa using mt hok.mp hfirst
    rw [validate, hpass]
    rfl

/-! ## Runs of a program that is accepted -/

/-- A run goes onwards in the order of the places that can be reached. -/
theorem Reached.run {order : List ℕ} (hr : Reached prm order) (hfirst : FirstOk prm)
    (hcyclic : ¬ Cyclic (succ prm) 0) (hstarts : ∀ v ∈ order, v ∈ starts prm) (env : Env) (n : ℕ)
    (m : Machine) (hi : i ∈ order) :
    ∃ next, env.execFrom prm n i m = some next ∧ ∀ pc m', next = .go pc m' →
      n + order.idxOf i < order.length ∧ ∃ j ∈ order, pc = j := by
  induction n generalizing i m with
  | zero =>
    refine ⟨.go i m, rfl, fun pc m' h => ?_⟩
    cases h
    rw [Nat.zero_add]
    exact ⟨idxOf_lt_length_iff.mpr hi, i, hi, rfl⟩
  | succ n ih =>
    obtain ⟨ins, hins⟩ : ∃ ins, prm[i]? = some ins :=
      ⟨_, getElem?_eq_getElem (hr.bound i hi)⟩
    have hsucc : ∀ t ∈ ins.nexts i, ∃ j ∈ order, t = j ∧ order.idxOf i < order.idxOf j := by
      intro t ht
      obtain ⟨j, rfl, hj⟩ := hfirst.mem_succ (hstarts i hi) hins ht
      obtain ⟨hmem, hlt⟩ := (hr.sorted hcyclic).idxOf_lt hr.nodup hi hj
      exact ⟨j, hmem, rfl, hlt⟩
    have hsecond : ins.opcode = some .ldImmDw → i + 1 < prm.length := by
      intro hop
      obtain ⟨j, hj, heq, -⟩ := hsucc (i + 2) (by simp [EbpfInsn.nexts, hop])
      have hlt := hr.bound j hj
      omega
    obtain ⟨next, hexec, hnext⟩ :=
      env.exec_spec m hins (hfirst i (hstarts i hi) ins hins).1 hsecond
    rw [Env.execFrom, hexec, Option.bind_some]
    cases next with
    | ret v => exact ⟨.ret v, rfl, fun _ _ h => nomatch h⟩
    | go pc m' =>
      obtain ⟨j, hj, rfl, hlt⟩ := hsucc pc (hnext pc m' rfl)
      obtain ⟨next, hrun, hgo⟩ := ih m' hj
      refine ⟨next, hrun, fun pc m'' h => ?_⟩
      obtain ⟨hless, hin⟩ := hgo pc m'' h
      exact ⟨by omega, hin⟩

/-- **The validation is sound for all but what is overlooked.** -/
theorem validate_sound_iff (prm : List EbpfInsn) (hpos : 0 < prm.length) (hnot : ¬ Wraps prm) :
    ValidateSound prm ↔ ¬ Overlooked prm := by
  constructor
  · rintro ⟨accepted, ⟨n, hn⟩, hsafe⟩ ⟨hfirst, hover⟩
    have hval := hn (n + 3 * prm.length + 1) (by omega)
    rcases validate_spec hnot hpos (n + 3 * prm.length + 1) (by omega) with
      ⟨hbad, -⟩ | ⟨-, -, hnone⟩ | ⟨-, hin, order, accepted', hr, hval', hiff⟩
    · exact hbad hfirst
    · rw [hval] at hnone
      simp at hnone
    · rcases hover with hout | ⟨⟨i, hreach, hi⟩, hcyclic, hcard⟩
      · exact hin hout
      · have hacc : accepted = accepted' := by
          rw [hval] at hval'
          simpa using hval'
        rw [hr.length_eq] at hcard
        have hsub : starts prm ⊆ order :=
          fun v hv => (hr.mem v).mpr ((hsafe (hacc.trans (hiff.mpr ⟨hcard, hcyclic⟩))).reached v hv)
        have hperm := (subperm_of_subset nodup_startsFrom hsub).perm_of_length_le hcard.le
        exact hi (hperm.mem_iff.mpr ((hr.mem i).mpr hreach))
  · intro hover
    rcases validate_spec hnot hpos (3 * prm.length + 1) (by omega) with
      ⟨hbad, -⟩ | ⟨hfirst, hout, -⟩ | ⟨hfirst, hin, order, accepted, hr, -, hiff⟩
    · refine ⟨false, ⟨3 * prm.length + 1, fun fuel hfuel => ?_⟩, fun h => nomatch h⟩
      rcases validate_spec hnot hpos fuel (by omega) with ⟨-, h⟩ | ⟨h, -⟩ | ⟨h, -⟩
      · exact h
      · exact absurd h hbad
      · exact absurd h hbad
    · exact absurd ⟨hfirst, Or.inl hout⟩ hover
    · refine ⟨accepted, ⟨3 * prm.length + 1, fun fuel hfuel => ?_⟩, fun hacc => ?_⟩
      · rcases validate_spec hnot hpos fuel (by omega) with
          ⟨h, -⟩ | ⟨-, h, -⟩ | ⟨-, -, order', accepted', hr', hval, hiff'⟩
        · exact absurd hfirst h
        · exact absurd h hin
        · rw [← hr'.length_eq, hr.length_eq, ← hiff] at hiff'
          rw [hval, Bool.eq_iff_iff.mpr hiff']
      · obtain ⟨hlength, hcyclic⟩ := hiff.mp hacc
        have hall : ∀ v ∈ order, v ∈ starts prm := by
          intro v hv
          by_contra hnotin
          refine hover ⟨hfirst, Or.inr ⟨⟨v, (hr.mem v).mp hv, hnotin⟩, hcyclic, ?_⟩⟩
          rw [hr.length_eq, hlength]
        have hperm : order.Perm (starts prm) :=
          (subperm_of_subset hr.nodup hall).perm_of_length_le hlength.ge
        refine ⟨fun i hi => (hr.mem i).mp (hperm.mem_iff.mpr hi), fun env m n => ?_⟩
        have hzero : 0 ∈ order := (hr.mem 0).mpr ReflTransGen.refl
        obtain ⟨next, hrun, hnext⟩ := hr.run hfirst hcyclic hall env n m hzero
        refine ⟨next, hrun, fun pc m' h => ?_⟩
        obtain ⟨hlt, j, hj, rfl⟩ := hnext pc m' h
        have hle := hr.length_le
        have hins := getElem?_eq_getElem (hr.bound j hj)
        exact ⟨by omega, j, hall j hj, rfl, _, hins, (hfirst j (hall j hj) _ hins).1⟩

/-- A program that returns one. -/
def returnsOne : List EbpfInsn := [⟨0xb7, 0, 0, 0, 1⟩, ⟨0x95, 0, 0, 0, 0⟩]

/-- The validation of a program that returns one is sound. -/
theorem validate_sound_returnsOne : ValidateSound returnsOne := by
  have hnowrap : ¬ Wraps returnsOne := not_wraps (by simp [returnsOne, word32])
  refine (validate_sound_iff returnsOne (by decide) hnowrap).mpr ?_
  have hclosed : ∀ v ∈ [0, 1], ∀ w ∈ succ returnsOne v, w ∈ [0, 1] := by decide +kernel
  have hreach : ∀ v, Reaches (succ returnsOne) 0 v → v ∈ [0, 1] := by
    intro v hv
    induction hv with
    | refl => exact mem_cons_self
    | tail _ hedge ih => exact hclosed _ ih _ hedge
  rintro ⟨-, ⟨i, hi, j, hj, hle⟩ | ⟨⟨i, hi, hnot⟩, -⟩⟩
  · have hlt : ∀ v ∈ [0, 1], ∀ w ∈ succ returnsOne v, w < returnsOne.length := by decide +kernel
    exact absurd (hlt i (hreach i hi) j hj) (not_lt.mpr hle)
  · have hstarts : ∀ v ∈ [0, 1], v ∈ starts returnsOne := by decide +kernel
    exact hnot (hstarts i (hreach i hi))

/-- A program without an end. -/
def endless : List EbpfInsn := [⟨0xb7, 0, 0, 0, 1⟩]

/-- A program with a jump to the second half of an immediate, which is a store, and
with an end that cannot be reached. -/
def halfway : List EbpfInsn :=
  [⟨0x15, 1, 0, 1, 0⟩, ⟨0x18, 0, 0, 0, 0⟩, ⟨0x7b, 1, 1, 0, 0⟩, ⟨0x95, 0, 0, 0, 0⟩,
    ⟨0x95, 0, 0, 0, 0⟩]

/-- **The validation is not sound** for either: it leaves the array for the one, and
accepts the other, which runs the second half if its argument is zero. -/
theorem validate_sound_breaks : ¬ ValidateSound endless ∧ ¬ ValidateSound halfway := by
  refine ⟨?_, ?_⟩
  · rintro ⟨accepted, ⟨n, hn⟩, -⟩
    have hnone : validate endless 4 = some none := by decide +kernel
    have hmax := validate_of_le hnone (Nat.le_max_right n 4)
    rw [hn _ (Nat.le_max_left n 4)] at hmax
    simp at hmax
  · rintro ⟨accepted, ⟨n, hn⟩, hsafe⟩
    have htrue : validate halfway 16 = some (some true) := by decide +kernel
    have hmax := validate_of_le htrue (Nat.le_max_right n 16)
    rw [hn _ (Nat.le_max_left n 16)] at hmax
    obtain rfl : accepted = true := by simpa using hmax
    let env : Env := ⟨fun _ _ _ _ => none, fun _ _ mem => (0, mem), fun _ _ a _ => a⟩
    let m : Machine := ⟨fun _ => 0, fun _ => 0⟩
    obtain ⟨next, hrun, hnext⟩ := (hsafe rfl).runs env m 1
    have hgo : env.execFrom halfway 1 0 m = some (.go 2 m) := rfl
    rw [hrun] at hgo
    obtain ⟨-, i, hi, h2, -⟩ := hnext 2 m (Option.some.inj hgo)
    have hnot : 2 ∉ starts halfway := by decide +kernel
    obtain rfl : i = 2 := by omega
    exact hnot hi

end Bpf
