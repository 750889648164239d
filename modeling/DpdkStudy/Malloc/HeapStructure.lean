import DpdkStudy.Lib.Runs
import DpdkStudy.Malloc.Operations

/-!
# The structure of a heap over a run

A heap is built from regions and used: memory is allocated, freed and resized
in any order. After every such run it is well formed (`WellFormed`). Two
subtractions of the code are on unsigned words. A run stays clear of them where
the data of a request does not start below its header (`NoWrap`), and where
what is asked for at a resize can be counted.
-/

namespace Malloc

open Function

/-- **A heap in use**: its regions and the areas that are handed out. -/
structure St where
  heap : Heap
  regions : List Region
  areas : List Area

/-- The heap before any memory is added. -/
def St.init : St := ⟨Heap.empty, [], []⟩

/-- **What is done with a heap.** Memory is freed and resized by the data
pointer. -/
inductive Op
  | add (r : Region)
  | alloc (req : Request)
  | free (data : ℕ)
  | resize (data size : ℕ)

/-- **One operation.** An allocation that fails changes nothing, a resize that
fails leaves the area as it is. -/
def step (cfg : Config) (st : St) : Op → St
  | .add r =>
    { st with
      heap := mallocHeapAddMemory cfg st.heap r.msl r.start r.len
      regions := r :: st.regions }
  | .alloc req =>
    match mallocHeapAlloc cfg st.heap req with
    | some (h, data) =>
      { st with
        heap := h
        areas := ⟨data, req.size, if req.align = 0 then 1 else req.align⟩ :: st.areas }
    | none => st
  | .free data =>
    { st with
      heap := (mallocHeapFree cfg st.heap (mallocElemFromData st.heap data)).1
      areas := st.areas.filter (fun d => d.data ≠ data) }
  | .resize data size =>
    let r := mallocHeapResize cfg st.heap (mallocElemFromData st.heap data) size
    { st with
      heap := r.1
      areas := if r.2 = 0 then resizeArea st.areas data size else st.areas }

/-- **What an operation relies on.** A region that is added is disjoint from
the others, what is freed or resized is handed out. Nothing wraps: neither the
start of the data in the element that is found, nor the size of an element
that would hold what a resize asks for. -/
def Fair (cfg : Config) (st : St) : Op → Prop
  | .add r => ∀ r' ∈ st.regions, ∀ x, ¬ (r.Has x ∧ r'.Has x)
  | .alloc req => ∀ elem, findSuitableElement cfg st.heap req = some elem →
      NoWrap cfg elem (st.heap.size elem) req.dataSize req.dataAlign req.bound
  | .free data => data ∈ st.areas.map Area.data
  | .resize data size => data ∈ st.areas.map Area.data ∧
      size + st.heap.pad (mallocElemFromData st.heap data) + cfg.overhead < word

/-- **A well-formed heap.** Its elements are linked in the order of their
addresses, do not overlap and tile the regions, in which each belongs to the
memory it came from. No two neighbours in a region are both free. A free
element is on the list for the size it has behind its header and on no other,
a busy one on none. Each area is aligned and lies in a busy element, apart from
all others. -/
structure WellFormed (st : St) : Prop where
  elements : ∃ es : List ℕ,
    Linked es st.heap.first st.heap.last st.heap.next st.heap.prev ∧
    es.Pairwise (fun a b => a + st.heap.size a ≤ b) ∧
    (∀ x, (∃ r ∈ st.regions, r.Has x) ↔ ∃ a ∈ es, st.heap.Has a x) ∧
    (∀ a ∈ es, ∀ x, st.heap.Has a x → ∀ r ∈ st.regions, r.Has x → st.heap.msl a = r.msl) ∧
    (∀ a ∈ es, ∀ b ∈ es, ∀ r ∈ st.regions, r.Has a → r.Has b → b = a + st.heap.size a →
      ¬ (st.heap.state a = .free ∧ st.heap.state b = .free)) ∧
    (∀ i a, a ∈ st.heap.free_head i ↔ (a ∈ es ∧ st.heap.state a = .free) ∧
      i = mallocElemFreeListIndex (st.heap.size a - headerLen)) ∧
    (∀ i, (st.heap.free_head i).Nodup) ∧
    (∀ a ∈ es, st.heap.state a = .free ∨ st.heap.state a = .busy) ∧
    (∀ d ∈ st.areas, d.align ∣ d.data ∧ ∃ a ∈ es, st.heap.state a = .busy ∧
      a + headerLen ≤ d.data ∧ d.data + d.size ≤ a + st.heap.size a ∧
      ∀ d' ∈ st.areas, a + headerLen ≤ d'.data → d'.data ≤ a + st.heap.size a → d' = d)
  apart : st.areas.Pairwise (fun d d' => d.data + d.size ≤ d'.data ∨ d'.data + d'.size ≤ d.data)

variable {cfg : Config} {rs : List Region} {S : Set ℕ} {h : Heap} {areas : List Area}

theorem settled_init : Settled cfg [] ∅ Heap.empty [] where
  shape :=
    { finite := Set.finite_empty
      chain := Chain.empty _ _
      addr_dvd := fun a ha => absurd ha (Set.notMem_empty a)
      size_dvd := fun a ha => absurd ha (Set.notMem_empty a)
      room := fun a ha => absurd ha (Set.notMem_empty a)
      apart := fun a ha => absurd ha (Set.notMem_empty a)
      tile := fun x => by simp
      owner := fun a ha => absurd ha (Set.notMem_empty a) }
  listed := ⟨fun i x => by simp [Heap.empty], fun i => List.nodup_nil⟩
  unpadded x hx := absurd hx (Set.notMem_empty x)
  coalesced x hx := absurd hx (Set.notMem_empty x)
  state x hx := absurd hx (Set.notMem_empty x)
  held d hd := absurd hd List.not_mem_nil
  distinct := List.nodup_nil

/-- Some elements make the heap settled. -/
def Rests (cfg : Config) (st : St) : Prop :=
  ∃ S, Settled cfg st.regions S st.heap st.areas

theorem step_rests {st : St} (op : Op) (hs : Rests cfg st) (hfair : Fair cfg st op) :
    Rests cfg (step cfg st op) := by
  obtain ⟨S, hs⟩ := hs
  cases op with
  | add r => exact hs.mallocHeapAddMemory hfair
  | alloc req =>
    rw [step]
    split
    · rename_i h data hres
      exact hs.mallocHeapAlloc hfair hres
    · exact ⟨S, hs⟩
  | free data =>
    obtain ⟨d, hd, rfl⟩ := List.mem_map.mp hfair
    exact hs.mallocHeapFree hd
  | resize data size =>
    obtain ⟨hmem, hwrap⟩ := hfair
    obtain ⟨d, hd, rfl⟩ := List.mem_map.mp hmem
    exact hs.mallocHeapResize hd hwrap

theorem Settled.areas_apart (hs : Settled cfg rs S h areas) :
    areas.Pairwise (fun d d' => d.data + d.size ≤ d'.data ∨ d'.data + d'.size ≤ d.data) := by
  have hdistinct : areas.Pairwise (fun d d' => d.data ≠ d'.data) := List.pairwise_map.mp hs.distinct
  refine hdistinct.imp_of_mem (fun {d d'} hd hd' hne => ?_)
  obtain ⟨e, he⟩ := hs.held d hd
  obtain ⟨e', he'⟩ := hs.held d' hd'
  have hfits := he.fits
  have hfits' := he'.fits
  have hdata := he.data_eq
  have hdata' := he'.data_eq
  rcases lt_trichotomy e e' with hlt | heq | hgt
  · have hapart := hs.shape.apart e he.mem e' he'.mem hlt
    exact Or.inl (by omega)
  · subst heq
    exact absurd (hdata.trans hdata'.symm) hne
  · have hapart := hs.shape.apart e' he'.mem e he.mem hgt
    exact Or.inr (by omega)

theorem Settled.not_both_free (hs : Settled cfg rs S h areas) {a b : ℕ} (ha : a ∈ S) (hb : b ∈ S)
    {r : Region} (hr : r ∈ rs) (har : r.Has a) (hbr : r.Has b) (hab : b = a + h.size a) :
    ¬ (h.state a = .free ∧ h.state b = .free) := by
  rintro ⟨hafree, hbfree⟩
  have hstart : ∀ c ∈ S, h.Has c c := fun c hc =>
    ⟨le_refl c, by have := hs.shape.size_pos hc; omega⟩
  obtain ⟨hamsl, haorig⟩ := hs.shape.owner a ha a (hstart a ha) r hr har
  obtain ⟨hbmsl, hborig⟩ := hs.shape.owner b hb b (hstart b hb) r hr hbr
  exact hs.coalesced a ha b hb hafree hbfree
    ⟨hab, hbmsl.trans hamsl.symm, fun hm => (haorig hm).trans (hborig hm).symm⟩

/-- An area lies in a busy element, behind whose header there is no other. -/
theorem Settled.area_held (hs : Settled cfg rs S h areas) {d : Area} (hd : d ∈ areas) :
    d.align ∣ d.data ∧ ∃ a ∈ S, h.state a = .busy ∧ a + headerLen ≤ d.data ∧
      d.data + d.size ≤ a + h.size a ∧
      ∀ d' ∈ areas, a + headerLen ≤ d'.data → d'.data ≤ a + h.size a → d' = d := by
  obtain ⟨e, he⟩ := hs.held d hd
  have hfits := he.fits
  have hdata := he.data_eq
  refine ⟨he.aligned, e, he.mem, he.busy, by omega, by omega, fun d' hd' hlow hhigh => ?_⟩
  obtain ⟨e', he'⟩ := hs.held d' hd'
  have hfits' := he'.fits
  have hdata' := he'.data_eq
  have hheader : 0 < headerLen := by decide
  have heq : e' = e := by
    rcases lt_trichotomy e' e with hlt | heq | hgt
    · have hapart := hs.shape.apart e' he'.mem e he.mem hlt
      omega
    · exact heq
    · have hapart := hs.shape.apart e he.mem e' he'.mem hgt
      omega
  subst heq
  exact List.inj_on_of_nodup_map hs.distinct hd' hd (hdata'.trans hdata.symm)

theorem Rests.wellFormed {st : St} (hs : Rests cfg st) : WellFormed st := by
  obtain ⟨S, hs⟩ := hs
  obtain ⟨es, hsorted, hmem, hlinked⟩ := hs.shape.chain.exists_list hs.shape.finite
  refine ⟨⟨es, hlinked, ?_, ?_, ?_, ?_, ?_, hs.listed.nodup, ?_, ?_⟩, hs.areas_apart⟩
  · exact hsorted.imp_of_mem (fun {a b} ha hb hlt =>
      hs.shape.apart a ((hmem a).mp ha) b ((hmem b).mp hb) hlt)
  · intro x
    rw [hs.shape.tile x]
    simp only [hmem]
  · exact fun a ha x hx r hr hrx => (hs.shape.owner a ((hmem a).mp ha) x hx r hr hrx).1
  · exact fun a ha b hb r hr har hbr hab =>
      hs.not_both_free ((hmem a).mp ha) ((hmem b).mp hb) hr har hbr hab
  · intro i a
    rw [hs.listed.mem_iff, hmem]
    exact Iff.rfl
  · intro a ha
    have hnot := hs.state a ((hmem a).mp ha)
    cases hst : st.heap.state a with
    | free => exact Or.inl rfl
    | busy => exact Or.inr rfl
    | pad => exact absurd hst hnot
  · intro d hd
    obtain ⟨haligned, a, ha, hheld⟩ := hs.area_held hd
    exact ⟨haligned, a, (hmem a).mpr ha, hheld⟩

/-- **A heap is well formed after every run.** -/
theorem malloc_wellFormed (cfg : Config) (ops : List Op)
    (hfair : Runs.Along (step cfg) (Fair cfg) St.init ops) :
    WellFormed (Runs.run (step cfg) St.init ops) :=
  (hfair.invariant (P := Rests cfg) (fun _ op hs hf => step_rests op hs hf)
    ⟨∅, settled_init⟩).wellFormed

/-! ## A run on one page -/

/-- No trailer, memory not given back as it was allocated. -/
def plain : Config := ⟨0, false, Or.inl rfl⟩

/-- A region of one page. -/
def page : Region :=
  ⟨0, 4096, 4096, by decide, by decide, by decide, by decide, by decide⟩

/-- A request for a hundred bytes. -/
def hundred : Request := ⟨100, 0, 0, fun _ => true, false, by decide, by decide, Or.inl rfl⟩

/-- Memory is taken from the page, grown in place and given back. -/
theorem malloc_wellFormed_page :
    WellFormed (Runs.run (step plain) St.init
      [.add page, .alloc hundred, .resize 8064 128, .free 8064]) := by
  refine malloc_wellFormed plain _ ⟨?_, ?_, ?_, ?_, trivial⟩
  · intro r' hr'
    exact absurd hr' List.not_mem_nil
  · have hfound : findSuitableElement plain (step plain St.init (.add page)).heap hundred =
        some 4096 := by decide +kernel
    intro elem helem
    rw [hfound] at helem
    obtain rfl := Option.some.inj helem
    rw [NoWrap, if_pos (show sameBlock hundred.bound _ _ from Or.inl rfl)]
    decide +kernel
  · refine ⟨?_, ?_⟩
    · decide +kernel
    · decide +kernel
  · change 8064 ∈ _
    decide +kernel

/-- **The list is that of the size behind the header.** The page is listed under
two, the index of its whole size is three. -/
theorem listed_under_whole_size_fails :
    ¬ ∀ (cfg : Config) (ops : List Op), Runs.Along (step cfg) (Fair cfg) St.init ops →
      ∀ i a, a ∈ (Runs.run (step cfg) St.init ops).heap.free_head i →
        i = mallocElemFreeListIndex ((Runs.run (step cfg) St.init ops).heap.size a) := by
  intro hall
  have hfair : Runs.Along (step plain) (Fair plain) St.init [.add page] :=
    ⟨fun r' hr' => absurd hr' List.not_mem_nil, trivial⟩
  have hlisted : 4096 ∈ (Runs.run (step plain) St.init [.add page]).heap.free_head 2 := by
    decide +kernel
  exact absurd (hall plain [.add page] hfair 2 4096 hlisted) (by decide +kernel)

end Malloc
