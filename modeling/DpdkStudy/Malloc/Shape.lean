import DpdkStudy.Lib.Chain
import DpdkStudy.Malloc.Elem

/-!
# The shape of a heap

The elements of a heap tile its regions (`Shape`): they are linked in the
order of their addresses, they do not overlap, and each byte of a region lies
in one of them. Splitting an element and joining two neighbours keep that. What
else they do to the headers is said once, field by field.
-/

namespace Malloc

open Function

/-- **A region of memory** that is added to a heap. Memory comes in pages, so
a region is aligned to cache lines and has room for an element. It does not
reach to either end of the address space. -/
structure Region where
  msl : ℕ
  start : ℕ
  len : ℕ
  start_pos : headerLen ≤ start
  start_dvd : cacheLine ∣ start
  len_dvd : cacheLine ∣ len
  len_ge : 4 * cacheLine ≤ len
  end_lt : start + len < word

/-- An address in a region. -/
def Region.Has (r : Region) (x : ℕ) : Prop := r.start ≤ x ∧ x < r.start + r.len

variable {cfg : Config} {rs : List Region} {S : Set ℕ} {h : Heap}

/-- An address in an element. -/
def Heap.Has (h : Heap) (a x : ℕ) : Prop := a ≤ x ∧ x < a + h.size a

/-- **The elements of a heap tile its regions.** -/
structure Shape (cfg : Config) (rs : List Region) (S : Set ℕ) (h : Heap) : Prop where
  finite : S.Finite
  chain : Chain S h.first h.last h.next h.prev
  addr_dvd : ∀ a ∈ S, cacheLine ∣ a
  size_dvd : ∀ a ∈ S, cacheLine ∣ h.size a
  room : ∀ a ∈ S, cfg.overhead ≤ h.size a
  apart : ∀ a ∈ S, ∀ b ∈ S, a < b → a + h.size a ≤ b
  tile : ∀ x, (∃ r ∈ rs, r.Has x) ↔ ∃ a ∈ S, h.Has a x
  owner : ∀ a ∈ S, ∀ x, h.Has a x → ∀ r ∈ rs, r.Has x →
    h.msl a = r.msl ∧ (cfg.matchAllocations = true → h.orig_elem a = r.start)

namespace Shape

/-- The shape is in the links, the sizes and the origins. -/
theorem congr {h' : Heap} (hs : Shape cfg rs S h) (hfirst : h'.first = h.first)
    (hlast : h'.last = h.last) (hnext : h'.next = h.next) (hprev : h'.prev = h.prev)
    (hmsl : h'.msl = h.msl) (horig : h'.orig_elem = h.orig_elem)
    (hsize : ∀ a ∈ S, h'.size a = h.size a) : Shape cfg rs S h' where
  finite := hs.finite
  chain := by
    rw [hfirst, hlast, hnext, hprev]
    exact hs.chain
  addr_dvd := hs.addr_dvd
  size_dvd a ha := by
    rw [hsize a ha]
    exact hs.size_dvd a ha
  room a ha := by
    rw [hsize a ha]
    exact hs.room a ha
  apart a ha b hb hab := by
    rw [hsize a ha]
    exact hs.apart a ha b hb hab
  tile x := by
    rw [hs.tile]
    constructor
    · rintro ⟨a, ha, hx⟩
      exact ⟨a, ha, by rw [Heap.Has, hsize a ha]; exact hx⟩
    · rintro ⟨a, ha, hx⟩
      exact ⟨a, ha, by rw [Heap.Has, hsize a ha] at hx; exact hx⟩
  owner a ha x hx := by
    rw [Heap.Has, hsize a ha] at hx
    rw [hmsl, horig]
    exact hs.owner a ha x hx

theorem unique (hs : Shape cfg rs S h) {a b x : ℕ} (ha : a ∈ S) (hb : b ∈ S) (hax : h.Has a x)
    (hbx : h.Has b x) : a = b := by
  rcases lt_trichotomy a b with hlt | heq | hgt
  · have hapart := hs.apart a ha b hb hlt
    exact absurd hbx.1 (by have hax := hax.2; omega)
  · exact heq
  · have hapart := hs.apart b hb a ha hgt
    exact absurd hax.1 (by have hbx := hbx.2; omega)

theorem add_ne (hs : Shape cfg rs S h) {a b i j : ℕ} (ha : a ∈ S) (hb : b ∈ S) (hne : a ≠ b)
    (hi : i < h.size a) (hj : j < h.size b) : a + i ≠ b + j := by
  intro heq
  exact hne (hs.unique ha hb (x := a + i) ⟨by omega, by omega⟩ ⟨by omega, by omega⟩)

theorem size_pos (hs : Shape cfg rs S h) {a : ℕ} (ha : a ∈ S) : 0 < h.size a := by
  have hroom := hs.room a ha
  simp only [Config.overhead, headerLen] at hroom
  omega

theorem notMem_inside (hs : Shape cfg rs S h) {a x : ℕ} (ha : a ∈ S) (hlt : a < x)
    (hx : x < a + h.size a) : x ∉ S := by
  intro hmem
  have hapart := hs.apart a ha x hmem hlt
  omega

/-- The ends of the address space are in no element. -/
theorem bounds (hs : Shape cfg rs S h) {a : ℕ} (ha : a ∈ S) :
    headerLen ≤ a ∧ a + h.size a < word := by
  have hpos := hs.size_pos ha
  have hfirst : h.Has a a := ⟨le_refl a, by omega⟩
  have hlast : h.Has a (a + h.size a - 1) := ⟨by omega, by omega⟩
  obtain ⟨r, -, hr⟩ := (hs.tile a).mpr ⟨a, ha, hfirst⟩
  obtain ⟨r', -, hr'⟩ := (hs.tile _).mpr ⟨a, ha, hlast⟩
  have hstart := r.start_pos
  have hend := r'.end_lt
  have hlow := hr.1
  have hhigh := hr'.2
  omega

end Shape

/-! ## Splitting -/

section Split

variable {a p : ℕ}

theorem splitElem_next (hne : a ≠ p) (c : ℕ) :
    (splitElem h a p).next c = if c = a then some p else if c = p then h.next a else h.next c := by
  unfold splitElem mallocElemInit
  cases h.next a <;> by_cases hpad : h.pad a = 0 <;> simp [hpad, hne, update_apply]

theorem splitElem_prev (hne : a ≠ p) (hp : h.next a ≠ some p) (c : ℕ) :
    (splitElem h a p).prev c =
      if c = p then some a else if h.next a = some c then some p else h.prev c := by
  unfold splitElem mallocElemInit
  cases hn : h.next a with
  | none => by_cases hpad : h.pad a = 0 <;> simp [hpad, hne, update_apply]
  | some n =>
    have hnp : n ≠ p := fun e => hp (by rw [hn, e])
    by_cases hpad : h.pad a = 0 <;> simp [hpad, hne, update_apply] <;> grind

theorem splitElem_first : (splitElem h a p).first = h.first := by
  unfold splitElem mallocElemInit
  cases h.next a <;> by_cases hpad : update h.pad p 0 a = 0 <;> simp [hpad]

theorem splitElem_last :
    (splitElem h a p).last = if h.next a = none then some p else h.last := by
  unfold splitElem mallocElemInit
  cases h.next a <;> by_cases hpad : update h.pad p 0 a = 0 <;> simp [hpad]

theorem splitElem_free_head : (splitElem h a p).free_head = h.free_head := by
  unfold splitElem mallocElemInit
  cases h.next a <;> by_cases hpad : update h.pad p 0 a = 0 <;> simp [hpad]

theorem splitElem_msl : (splitElem h a p).msl = update h.msl p (h.msl a) := by
  unfold splitElem mallocElemInit
  cases h.next a <;> by_cases hpad : update h.pad p 0 a = 0 <;> simp [hpad]

theorem splitElem_orig_elem :
    (splitElem h a p).orig_elem = update h.orig_elem p (h.orig_elem a) := by
  unfold splitElem mallocElemInit
  cases h.next a <;> by_cases hpad : update h.pad p 0 a = 0 <;> simp [hpad]

theorem splitElem_state : (splitElem h a p).state = update h.state p .free := by
  unfold splitElem mallocElemInit
  cases h.next a <;> by_cases hpad : update h.pad p 0 a = 0 <;> simp [hpad]

theorem splitElem_pad : (splitElem h a p).pad = update h.pad p 0 := by
  unfold splitElem mallocElemInit
  cases h.next a <;> by_cases hpad : update h.pad p 0 a = 0 <;> simp [hpad]

theorem splitElem_size (hne : a ≠ p) (c : ℕ) :
    (splitElem h a p).size c =
      if h.pad a ≠ 0 ∧ c = a + h.pad a then p - a - h.pad a
      else if c = a then p - a
      else if c = p then h.size a - (p - a) else h.size c := by
  unfold splitElem mallocElemInit
  cases h.next a <;> by_cases hpad : h.pad a = 0 <;> simp [hpad, hne, update_apply]

/-- The sizes of the members after a split inside an element. -/
theorem splitElem_size_mem (hs : Shape cfg rs S h) (ha : a ∈ S) (hap : a < p)
    (hpe : p < a + h.size a) (hpad : a + h.pad a < p) {c : ℕ} (hc : c = p ∨ c ∈ S) :
    (splitElem h a p).size c =
      if c = a then p - a else if c = p then h.size a - (p - a) else h.size c := by
  rw [splitElem_size hap.ne, if_neg]
  rintro ⟨hne, rfl⟩
  rcases hc with hcp | hcS
  · omega
  · exact hs.notMem_inside ha (by omega) (by omega) hcS

theorem Shape.split (hs : Shape cfg rs S h) (ha : a ∈ S) (hap : a + cfg.overhead ≤ p)
    (hpe : p + cfg.overhead ≤ a + h.size a) (hp : cacheLine ∣ p) (hpad : a + h.pad a < p) :
    Shape cfg rs (insert p S) (splitElem h a p) := by
  have hover : 0 < cfg.overhead := Nat.add_pos_left (by decide) _
  have hlt : a < p := by omega
  have hpS : p ∉ S := hs.notMem_inside ha hlt (by omega)
  have hnp : h.next a ≠ some p := fun e => hpS (hs.chain.follows_of_next ha e).2.1
  have hsize : ∀ c, c = p ∨ c ∈ S → (splitElem h a p).size c =
      if c = a then p - a else if c = p then h.size a - (p - a) else h.size c :=
    fun c hc => splitElem_size_mem hs ha hlt (by omega) hpad hc
  -- an element holds a byte as before, but for the bytes from the split on
  have hhas : ∀ c, c = p ∨ c ∈ S → ∀ x, (splitElem h a p).Has c x ↔
      if c = a then a ≤ x ∧ x < p else if c = p then h.Has a x ∧ p ≤ x else h.Has c x := by
    intro c hc x
    unfold Heap.Has
    rw [hsize c hc]
    split_ifs with h₁ h₂
    · subst h₁
      omega
    · subst h₂
      omega
    · exact Iff.rfl
  constructor
  · exact hs.finite.insert p
  · refine hs.chain.insert p (some a) (h.next a) ?_ ?_ ?_ ?_ ?_ ?_ ?_ ?_
    · rintro b ⟨⟩
      exact ⟨ha, hlt⟩
    · intro c hc hcp
      refine ⟨a, rfl, not_lt.mp (fun hac => ?_)⟩
      exact hs.notMem_inside ha hac (by omega) hc
    · intro b hb
      have hfollows := hs.chain.follows_of_next ha hb
      have hapart := hs.apart a ha b hfollows.2.1 hfollows.2.2.1
      exact ⟨hfollows.2.1, by omega⟩
    · intro c hc hpc
      have hac : a < c := by omega
      cases hn : h.next a with
      | none => exact absurd (hs.chain.le_of_next_none hs.finite ha hn hc) (not_le.mpr hac)
      | some n =>
        have hfollows := hs.chain.follows_of_next ha hn
        exact ⟨n, rfl, not_lt.mp (fun hcn => hfollows.2.2.2 c hc ⟨hac, hcn⟩)⟩
    · simp [splitElem_first]
    · exact splitElem_last
    · intro c _
      rw [splitElem_next hlt.ne]
      grind
    · intro c _
      exact splitElem_prev hlt.ne hnp c
  · rintro c (rfl | hc)
    · exact hp
    · exact hs.addr_dvd c hc
  · intro c hc
    have ha' := hs.addr_dvd a ha
    have hsa := hs.size_dvd a ha
    rw [hsize c hc]
    split_ifs with h₁ h₂
    · exact Nat.dvd_sub hp ha'
    · exact Nat.dvd_sub hsa (Nat.dvd_sub hp ha')
    · exact hs.size_dvd c (hc.resolve_left h₂)
  · intro c hc
    rw [hsize c hc]
    split_ifs with h₁ h₂
    · omega
    · omega
    · exact hs.room c (hc.resolve_left h₂)
  · intro b hb c hc hbc
    rw [hsize b hb]
    have hafter : ∀ d ∈ S, a < d → a + h.size a ≤ d := fun d hd => hs.apart a ha d hd
    split_ifs with h₁ h₂
    · rcases hc with rfl | hcS
      · omega
      · have hle := hafter c hcS (by omega)
        omega
    · have hcS : c ∈ S := hc.resolve_left (by omega)
      have hle := hafter c hcS (by omega)
      omega
    · have hbS : b ∈ S := hb.resolve_left h₂
      rcases hc with rfl | hcS
      · have hba : b < a := by
          by_contra hge
          have hle := hafter b hbS (by omega)
          omega
        have hle := hs.apart b hbS a ha hba
        omega
      · exact hs.apart b hbS c hcS hbc
  · intro x
    rw [hs.tile]
    constructor
    · rintro ⟨c, hc, hcx⟩
      by_cases hca : c = a
      · subst hca
        by_cases hxp : x < p
        · exact ⟨c, Or.inr hc, (hhas c (Or.inr hc) x).mpr (by rw [if_pos rfl]; exact ⟨hcx.1, hxp⟩)⟩
        · refine ⟨p, Or.inl rfl, (hhas p (Or.inl rfl) x).mpr ?_⟩
          rw [if_neg (by omega), if_pos rfl]
          exact ⟨hcx, by omega⟩
      · refine ⟨c, Or.inr hc, (hhas c (Or.inr hc) x).mpr ?_⟩
        rw [if_neg hca, if_neg (fun e : c = p => hpS (e ▸ hc))]
        exact hcx
    · rintro ⟨c, hc, hcx⟩
      rw [hhas c hc] at hcx
      split_ifs at hcx with h₁ h₂
      · exact ⟨a, ha, hcx.1, by omega⟩
      · exact ⟨a, ha, hcx.1⟩
      · exact ⟨c, hc.resolve_left h₂, hcx⟩
  · intro c hc x hx r hr hrx
    rw [hhas c hc] at hx
    rw [splitElem_msl, splitElem_orig_elem, update_apply, update_apply]
    split_ifs at hx with h₁ h₂
    · rw [if_neg (by omega), if_neg (by omega), h₁]
      exact hs.owner a ha x ⟨hx.1, by omega⟩ r hr hrx
    · rw [if_pos h₂, if_pos h₂]
      exact hs.owner a ha x hx.1 r hr hrx
    · rw [if_neg h₂, if_neg h₂]
      exact hs.owner c (hc.resolve_left h₂) x hx r hr hrx

end Split

/-! ## Joining -/

section Join

variable {a b : ℕ}

theorem joinElem_next (c : ℕ) :
    (joinElem h a b).next c = if c = a then h.next b else h.next c := by
  unfold joinElem
  cases h.next b <;> by_cases hpad : h.pad a = 0 <;> simp [hpad, update_apply]

theorem joinElem_prev (c : ℕ) :
    (joinElem h a b).prev c = if h.next b = some c then some a else h.prev c := by
  unfold joinElem
  cases hn : h.next b <;> by_cases hpad : h.pad a = 0 <;> simp [hpad, update_apply, eq_comm]

theorem joinElem_first : (joinElem h a b).first = h.first := by
  unfold joinElem
  cases h.next b <;> by_cases hpad : h.pad a = 0 <;> simp [hpad]

theorem joinElem_last : (joinElem h a b).last = if h.next b = none then some a else h.last := by
  unfold joinElem
  cases h.next b <;> by_cases hpad : h.pad a = 0 <;> simp [hpad]

theorem joinElem_free_head : (joinElem h a b).free_head = h.free_head := by
  unfold joinElem
  cases h.next b <;> by_cases hpad : h.pad a = 0 <;> simp [hpad]

theorem joinElem_msl : (joinElem h a b).msl = h.msl := by
  unfold joinElem
  cases h.next b <;> by_cases hpad : h.pad a = 0 <;> simp [hpad]

theorem joinElem_orig_elem : (joinElem h a b).orig_elem = h.orig_elem := by
  unfold joinElem
  cases h.next b <;> by_cases hpad : h.pad a = 0 <;> simp [hpad]

theorem joinElem_state : (joinElem h a b).state = h.state := by
  unfold joinElem
  cases h.next b <;> by_cases hpad : h.pad a = 0 <;> simp [hpad]

theorem joinElem_pad : (joinElem h a b).pad = h.pad := by
  unfold joinElem
  cases h.next b <;> by_cases hpad : h.pad a = 0 <;> simp [hpad]

theorem joinElem_size (c : ℕ) :
    (joinElem h a b).size c =
      if h.pad a ≠ 0 ∧ c = a + h.pad a then h.size a + h.size b - h.pad a
      else if c = a then h.size a + h.size b else h.size c := by
  unfold joinElem
  cases h.next b <;> by_cases hpad : h.pad a = 0 <;> simp [hpad, update_apply]

theorem joinElem_size_mem (hs : Shape cfg rs S h) (ha : a ∈ S) (hpad : h.pad a < h.size a) {c : ℕ}
    (hc : c ∈ S) :
    (joinElem h a b).size c = if c = a then h.size a + h.size b else h.size c := by
  rw [joinElem_size, if_neg]
  rintro ⟨hne, rfl⟩
  exact hs.notMem_inside ha (by omega) (by omega) hc

/-- A join of two elements that are adjacent keeps the shape. -/
theorem Shape.join (hs : Shape cfg rs S h) (ha : a ∈ S) (hab : h.next a = some b)
    (hadj : Adjacent cfg h a b) (hpad : h.pad a < h.size a) :
    Shape cfg rs (S \ {b}) (joinElem h a b) := by
  obtain ⟨hend, hmsl, horig⟩ := hadj
  obtain ⟨-, hb, hlt, hbetween⟩ := hs.chain.follows_of_next ha hab
  have hsize : ∀ c ∈ S, (joinElem h a b).size c =
      if c = a then h.size a + h.size b else h.size c :=
    fun c hc => joinElem_size_mem hs ha hpad hc
  have hhas : ∀ c ∈ S, ∀ x, (joinElem h a b).Has c x ↔
      if c = a then h.Has a x ∨ h.Has b x else h.Has c x := by
    intro c hc x
    unfold Heap.Has
    rw [hsize c hc]
    split_ifs with h₁
    · subst h₁
      omega
    · exact Iff.rfl
  constructor
  · exact hs.finite.subset Set.sdiff_subset
  · rw [joinElem_first]
    exact hs.chain.erase hs.finite ha hab joinElem_last (fun c _ => joinElem_next c)
      (fun c _ => joinElem_prev c)
  · exact fun c hc => hs.addr_dvd c hc.1
  · intro c hc
    rw [hsize c hc.1]
    split_ifs
    · exact Nat.dvd_add (hs.size_dvd a ha) (hs.size_dvd b hb)
    · exact hs.size_dvd c hc.1
  · intro c hc
    have hroom := hs.room a ha
    rw [hsize c hc.1]
    split_ifs
    · omega
    · exact hs.room c hc.1
  · intro c hc d hd hcd
    rw [hsize c hc.1]
    split_ifs with h₁
    · subst h₁
      have hbd : b < d := by
        have hle := hs.apart c ha d hd.1 hcd
        have hne : d ≠ b := hd.2
        omega
      have hle := hs.apart b hb d hd.1 hbd
      omega
    · exact hs.apart c hc.1 d hd.1 hcd
  · intro x
    rw [hs.tile]
    constructor
    · rintro ⟨c, hc, hcx⟩
      by_cases hcb : c = b
      · subst hcb
        refine ⟨a, ⟨ha, hlt.ne⟩, (hhas a ha x).mpr ?_⟩
        rw [if_pos rfl]
        exact Or.inr hcx
      · refine ⟨c, ⟨hc, hcb⟩, (hhas c hc x).mpr ?_⟩
        split_ifs with h₁
        · exact Or.inl (h₁ ▸ hcx)
        · exact hcx
    · rintro ⟨c, hc, hcx⟩
      rw [hhas c hc.1] at hcx
      split_ifs at hcx with h₁
      · exact hcx.elim (fun hx => ⟨a, ha, hx⟩) (fun hx => ⟨b, hb, hx⟩)
      · exact ⟨c, hc.1, hcx⟩
  · intro c hc x hx r hr hrx
    rw [hhas c hc.1] at hx
    rw [joinElem_msl, joinElem_orig_elem]
    split_ifs at hx with h₁
    · subst h₁
      rcases hx with hx | hx
      · exact hs.owner c ha x hx r hr hrx
      · obtain ⟨hm, ho⟩ := hs.owner b hb x hx r hr hrx
        exact ⟨hmsl.symm.trans hm, fun hmatch => (horig hmatch).trans (ho hmatch)⟩
    · exact hs.owner c hc.1 x hx r hr hrx

end Join

end Malloc
