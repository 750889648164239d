import DpdkStudy.Mempool.Cache
import Mathlib.Data.Fintype.Sum

/-!
# Objects are conserved

Any number of callers use any number of caches. A cache is used by one call at a time, and
between the two times that a request takes objects from the backend, other calls may take
place (`System`). At each moment an object is in the backend, in the first slots of one
cache, or in one caller's hands: with the table of a call that is under way, or as its own
(`Sound`). This is kept by each step (`Inv.step`), and so by each run (`objects_conserved`).
-/

open Function Finset

namespace Mempool

variable {α : Type} {κ τ : Type}

/-! ## Callers and caches -/

/-- **A request that is still to take objects** from the backend: the caller, the number, the
objects in its table, and how many are to come. The cache as it was when the call began is
noted. -/
structure Pending (α τ : Type) where
  caller : τ
  n : ℕ
  obj_table : List α
  remaining : ℕ
  before : MempoolCache α

/-- **A mempool and its users.** -/
structure System (B : Backend α) (κ τ : Type) where
  mp : B.State
  caches : κ → MempoolCache α
  pending : κ → Option (Pending α τ)
  hands : τ → Multiset α

/-- **A call**, or the rest of one. A call without a cache goes to the backend. -/
inductive Call (α κ τ : Type)
  | put (t : τ) (cache : Option κ) (obj_table : List α)
  | flush (cache : Option κ)
  | get (t : τ) (cache : Option κ) (constant : Bool) (n : ℕ)
  | rest (cache : κ)

variable {B : Backend α}

section Steps

variable [DecidableEq κ] [DecidableEq τ]

namespace System

variable (sys : System B κ τ)

/-- A cache after a call. -/
def setCache (c : Option κ) (cache : Option (MempoolCache α)) : κ → MempoolCache α :=
  match c, cache with
  | some c, some cache => Function.update sys.caches c cache
  | _, _ => sys.caches

/-- A caller takes objects. -/
def give (t : τ) (objs : List α) : τ → Multiset α :=
  Function.update sys.hands t (sys.hands t + ↑objs)

end System

variable [DecidableEq α]

/-- **One step**, and the value that is returned where a request ends. -/
def step (sys : System B κ τ) : Call α κ τ → Option (System B κ τ × Option (Except Int (List α)))
  | .put t c obj_table =>
    (rteMempoolDoGenericPut B sys.mp obj_table (c.map sys.caches)).map fun (mp, cache) =>
      ({ sys with
        mp := mp
        caches := sys.setCache c cache
        hands := Function.update sys.hands t (sys.hands t - ↑obj_table) }, none)
  | .flush c =>
    (rteMempoolCacheFlush B (c.map sys.caches) sys.mp).map fun (mp, cache) =>
      ({ sys with
        mp := mp
        caches := sys.setCache c cache }, none)
  | .get t c constant n =>
    (rteMempoolDoGenericGet B sys.mp constant n (c.map sys.caches)).map
      fun (mp, cache, request) =>
      match request, c with
      | .complete obj_table, _ =>
        ({ sys with
          mp := mp
          caches := sys.setCache c cache
          hands := sys.give t obj_table }, some (.ok obj_table))
      | .driverDequeue obj_table remaining, some c =>
        ({ sys with
          mp := mp
          caches := sys.setCache (some c) cache
          pending := Function.update sys.pending c
            (some ⟨t, n, obj_table, remaining, sys.caches c⟩) }, none)
      | .driverDequeue obj_table remaining, none =>
        let r := driverDequeue B mp n none obj_table remaining
        ({ sys with
          mp := r.1
          hands := sys.give t (r.2.2.toOption.getD []) }, some r.2.2)
  | .rest c =>
    (sys.pending c).map fun p =>
      let r := driverDequeue B sys.mp p.n (some (sys.caches c)) p.obj_table p.remaining
      ({ sys with
        mp := r.1
        caches := sys.setCache (some c) r.2.1
        pending := Function.update sys.pending c none
        hands := sys.give p.caller (r.2.2.toOption.getD []) }, some r.2.2)

/-- The state after a step. -/
def next (sys : System B κ τ) (call : Call α κ τ) : Option (System B κ τ) :=
  (step sys call).map Prod.fst

end Steps

/-- A cache that no call uses. -/
def System.Free (sys : System B κ τ) (c : Option κ) : Prop := ∀ c' ∈ c, sys.pending c' = none

/-- **What a caller may do.** It puts objects that it owns. A number is a `uint32_t`. A cache is
used by one call at a time. -/
def Legal (sys : System B κ τ) : Call α κ τ → Prop
  | .put t c obj_table => sys.Free c ∧ (obj_table : Multiset α) ≤ sys.hands t
  | .flush c => sys.Free c
  | .get _ c _ n => sys.Free c ∧ n < word32
  | .rest c => sys.pending c ≠ none

/-- **A mempool with its objects in the backend**, and empty caches of the given sizes. -/
def System.start (B : Backend α) (mp : B.State) (objs : κ → ℕ → α) (size : κ → ℕ) :
    System B κ τ where
  mp := mp
  caches c := mempoolCacheInit (objs c) (size c)
  pending _ := none
  hands _ := 0

/-! ## Where objects are -/

/-- **A place** for objects: the backend, a cache, the table of the request that uses a cache,
and the hands of a caller. -/
inductive Place (κ τ : Type)
  | backend
  | cache (c : κ)
  | table (c : κ)
  | hands (t : τ)
deriving DecidableEq

instance [Fintype κ] [Fintype τ] : Fintype (Place κ τ) :=
  Fintype.ofEquiv (Unit ⊕ κ ⊕ κ ⊕ τ)
    { toFun := Sum.elim (fun _ => .backend) (Sum.elim .cache (Sum.elim .table .hands))
      invFun
        | .backend => .inl ()
        | .cache c => .inr (.inl c)
        | .table c => .inr (.inr (.inl c))
        | .hands t => .inr (.inr (.inr t))
      left_inv := by rintro (_ | _ | _ | _) <;> rfl
      right_inv := by rintro (_ | _ | _ | _) <;> rfl }

/-- **The objects in a place.** -/
def System.at (sys : System B κ τ) (content : B.State → Multiset α) : Place κ τ → Multiset α
  | .backend => content sys.mp
  | .cache c => ↑(sys.caches c).held
  | .table c => ↑((sys.pending c).elim [] Pending.obj_table)
  | .hands t => sys.hands t

variable {content : B.State → Multiset α}

section Places

variable (sys : System B κ τ)

@[simp] theorem System.at_backend : sys.at content .backend = content sys.mp := rfl

@[simp] theorem System.at_cache (c : κ) :
    sys.at content (.cache c) = ↑(sys.caches c).held := rfl

@[simp] theorem System.at_table (c : κ) :
    sys.at content (.table c) = ↑((sys.pending c).elim [] Pending.obj_table) := rfl

@[simp] theorem System.at_hands (t : τ) : sys.at content (.hands t) = sys.hands t := rfl

end Places

variable [Fintype κ] [Fintype τ] {objects : Multiset α} {sys : System B κ τ}

/-- **All objects**, wherever they are. -/
def System.total (sys : System B κ τ) (content : B.State → Multiset α) : Multiset α :=
  ∑ place, sys.at content place

/-! ## What every step keeps -/

/-- **A request that is under way**: it has taken all that was in the cache. -/
structure PendingOk (cache : MempoolCache α) (p : Pending α τ) : Prop where
  before : CacheOk p.before
  lt : p.before.len < p.n
  cache_eq : cache = { p.before with len := 0 }
  remaining_eq : p.remaining = p.n - p.before.len
  table_eq : p.obj_table = copyDown p.before.objs p.before.len p.before.len

/-- **What every step keeps.** -/
structure Inv (content : B.State → Multiset α) (objects : Multiset α) (sys : System B κ τ) :
    Prop where
  total : sys.total content = objects
  caches : ∀ c, CacheOk (sys.caches c)
  pending : ∀ c, ∀ p ∈ sys.pending c, PendingOk (sys.caches c) p

/-- **What is returned.** A get returns as many objects as it was asked for, none of which
is anywhere else, or an error. Then the cache is as it was when the call began, the backend
is as it was, and it has fewer objects than the cache has left to ask for. -/
def Answers (content : B.State → Multiset α) (sys sys' : System B κ τ) (t : τ)
    (cache : Option κ) (before : Option (MempoolCache α)) (n : ℕ) :
    Except Int (List α) → Prop
  | .ok objs => objs.length = n ∧ objs.Nodup ∧ sys'.hands t = sys.hands t + ↑objs ∧
    ∀ obj ∈ objs, ∀ place, obj ∈ sys'.at content place → place = .hands t
  | .error ret => ret < 0 ∧ cache.map sys'.caches = before ∧ sys'.mp = sys.mp ∧
    sys'.hands = sys.hands ∧ (content sys.mp).card < n - (before.elim 0 MempoolCache.len)

/-- **What a call answers.** A get either returns, or it is under way; the rest of a get returns. -/
def CallAnswers (content : B.State → Multiset α) (sys sys' : System B κ τ) :
    Call α κ τ → Option (Except Int (List α)) → Prop
  | .put _ _ _, ret => ret = none
  | .flush _, ret => ret = none
  | .get t c _ n, some ret => Answers content sys sys' t c (c.map sys.caches) n ret
  | .get _ c _ _, none => ∃ c' ∈ c, sys'.pending c' ≠ none
  | .rest c, ret => ∃ p ∈ sys.pending c, ∃ r ∈ ret,
    Answers content sys sys' p.caller (some c) (some p.before) p.n r

theorem Inv.at_le (hi : Inv content objects sys) (place : Place κ τ) :
    sys.at content place ≤ objects := by
  rw [← hi.total]
  exact Places.le_sum _ place

theorem Inv.at_add_le (hi : Inv content objects sys) {p q : Place κ τ} (hne : p ≠ q) :
    sys.at content p + sys.at content q ≤ objects := by
  rw [← hi.total]
  exact Places.add_le_sum _ hne

theorem Inv.existsUnique (hi : Inv content objects sys) (hnodup : objects.Nodup) {obj : α}
    (hobj : obj ∈ objects) : ∃! place, obj ∈ sys.at content place := by
  have htotal : ∑ place, sys.at content place = objects := hi.total
  refine Places.existsUnique_mem ?_ ?_
  · rwa [htotal]
  · rwa [htotal]

/-- Objects that a caller has been given are nowhere else. -/
theorem Inv.owned (hi : Inv content objects sys) (hnodup : objects.Nodup) {t : τ}
    {had : Multiset α} {objs : List α} (hgive : sys.hands t = had + ↑objs) :
    objs.Nodup ∧ ∀ obj ∈ objs, ∀ place, obj ∈ sys.at content place → place = .hands t := by
  have hle := hi.at_le (.hands t)
  rw [System.at_hands, hgive] at hle
  refine ⟨?_, fun obj hobj place hplace => ?_⟩
  · exact Multiset.coe_nodup.mp
      (Multiset.nodup_of_le ((Multiset.le_add_left _ _).trans hle) hnodup)
  · have hhand : obj ∈ sys.at content (.hands t) := by
      rw [System.at_hands, hgive]
      exact Multiset.mem_add.mpr (Or.inr (Multiset.mem_coe.mpr hobj))
    exact (hi.existsUnique hnodup (Multiset.mem_of_le (hi.at_le place) hplace)).unique hplace hhand

/-! ## Steps -/

variable [DecidableEq κ] [DecidableEq τ] [DecidableEq α]

omit [DecidableEq τ] [DecidableEq α] in
/-- What is kept of the caches when one of them changes, and the request that uses it. -/
theorem Inv.update (hi : Inv content objects sys) {c : κ} {cache : MempoolCache α}
    (hok : CacheOk cache) {q : Option (Pending α τ)} (hq : ∀ p ∈ q, PendingOk cache p) :
    (∀ c', CacheOk (update sys.caches c cache c')) ∧
      ∀ c', ∀ p ∈ update sys.pending c q c',
        PendingOk (update sys.caches c cache c') p := by
  refine ⟨fun c' => ?_, fun c' p hp => ?_⟩ <;> by_cases hc : c' = c
  · rw [hc, update_self]
    exact hok
  · rw [update_of_ne hc]
    exact hi.caches c'
  · rw [hc, update_self] at hp
    rw [hc, update_self]
    exact hq p hp
  · rw [update_of_ne hc] at hp
    rw [update_of_ne hc]
    exact hi.pending c' p hp

omit [DecidableEq τ] [DecidableEq α] in
/-- What is kept of the caches when one of them changes that no call uses. -/
theorem Inv.updateFree (hi : Inv content objects sys) {c : κ} (hfree : sys.pending c = none)
    {cache : MempoolCache α} (hok : CacheOk cache) :
    (∀ c', CacheOk (Function.update sys.caches c cache c')) ∧
      ∀ c', ∀ p ∈ sys.pending c', PendingOk (Function.update sys.caches c cache c') p := by
  have hboth := @Inv.update _ _ _ _ _ _ _ _ _ _ hi c _ hok (sys.pending c) (by simp [hfree])
  rwa [Function.update_eq_self] at hboth

section

variable (hB : B.IsBag content) (hi : Inv content objects sys)

include hB hi

theorem Inv.put (hcard : objects.card < word32) {t : τ} {c : Option κ} {objs : List α}
    (hlegal : Legal sys (.put t c objs)) :
    ∃ sys', step sys (.put t c objs) = some (sys', none) ∧ Inv content objects sys' := by
  obtain ⟨hfree, howns⟩ := hlegal
  have hback : sys.hands t - ↑objs + ↑objs = sys.hands t := Multiset.sub_add_cancel howns
  cases c with
  | none =>
    refine ⟨_, rfl, ?_, hi.caches, hi.pending⟩
    refine Eq.trans (Places.sum_eq_of_agree {.backend, .hands t} (fun place hplace => ?_) ?_)
      hi.total
    · cases place <;> simp_all [System.at, System.setCache]
    · simp only [mem_singleton, reduceCtorEq, not_false_eq_true, sum_insert,
        sum_singleton, System.at_backend, System.at_hands, hB.enqueue,
        update_self]
      rw [add_assoc, add_comm (objs : Multiset α), hback]
  | some c =>
    have hlen : (sys.caches c).len + objs.length < word32 := by
      have hle := Multiset.card_le_card (hi.at_add_le (show Place.cache c ≠ .hands t by simp))
      have hle' := Multiset.card_le_card howns
      rw [Multiset.card_add, System.at_cache, System.at_hands, Multiset.coe_card,
        MempoolCache.held, length_slots] at hle
      rw [Multiset.coe_card] at hle'
      omega
    obtain ⟨mp', cache', hput, hok, hmoved⟩ :=
      rteMempoolDoGenericPut_spec hB (hi.caches c) sys.mp hlen
    obtain ⟨hcaches, hpending⟩ := hi.updateFree (hfree c rfl) hok
    refine ⟨_, by rw [step, Option.map_some, hput, Option.map_some], ?_, hcaches, hpending⟩
    refine Eq.trans (Places.sum_eq_of_agree {.backend, .cache c, .hands t}
      (fun place hplace => ?_) ?_) hi.total
    · cases place <;> simp_all [System.at, System.setCache]
    · simp only [mem_insert, mem_singleton, reduceCtorEq, or_self,
        not_false_eq_true, sum_insert, sum_singleton, System.at_backend,
        System.at_cache, System.at_hands, System.setCache, update_self]
      rw [← add_assoc, hmoved, add_assoc, add_comm (objs : Multiset α), hback, ← add_assoc]

theorem Inv.flush {c : Option κ} (hlegal : Legal sys (.flush c)) :
    ∃ sys', step sys (.flush c) = some (sys', none) ∧ Inv content objects sys' := by
  cases c with
  | none => exact ⟨sys, rfl, hi⟩
  | some c =>
    obtain ⟨mp', cache', hflush, hok, hlen, hmoved⟩ :=
      rteMempoolCacheFlush_spec hB (hi.caches c) sys.mp
    obtain ⟨hcaches, hpending⟩ := hi.updateFree (hlegal c rfl) hok
    refine ⟨_, by rw [step, Option.map_some, hflush, Option.map_some], ?_, hcaches, hpending⟩
    refine Eq.trans (Places.sum_eq_of_agree {.backend, .cache c} (fun place hplace => ?_) ?_)
      hi.total
    · cases place <;> simp_all [System.at, System.setCache]
    · have hempty : cache'.held = [] := by rw [MempoolCache.held, hlen]; rfl
      simp only [mem_singleton, reduceCtorEq, not_false_eq_true, sum_insert,
        sum_singleton, System.at_backend, System.at_cache, System.setCache,
        update_self, hempty, Multiset.coe_nil, add_zero]
      exact hmoved

theorem Inv.get (hnodup : objects.Nodup) {t : τ} {c : Option κ} {constant : Bool} {n : ℕ}
    (hlegal : Legal sys (.get t c constant n)) :
    ∃ sys' ret, step sys (.get t c constant n) = some (sys', ret) ∧ Inv content objects sys' ∧
      CallAnswers content sys sys' (.get t c constant n) ret := by
  obtain ⟨hfree, hn⟩ := hlegal
  cases c with
  | none =>
    cases hdequeue : B.dequeueBulk sys.mp n with
    | mk result mp' =>
      cases result with
      | error ret =>
        obtain ⟨hneg, rfl, hfew⟩ := hB.refuse hdequeue
        have hsame : sys.give t [] = sys.hands := by
          simp [System.give]
        refine ⟨sys, some (.error ret), ?_, hi, hneg, rfl, rfl, rfl, hfew⟩
        simp only [step, rteMempoolDoGenericGet, Option.map_none, Option.map_some, driverDequeue,
          hdequeue, Except.toOption, Option.getD_none, hsame]
      | ok fetched =>
        obtain ⟨hlen, hcontent⟩ := hB.dequeue hdequeue
        have hi' : Inv content objects { sys with
            mp := mp'
            hands := sys.give t fetched } := by
          refine ⟨?_, hi.caches, hi.pending⟩
          refine Eq.trans (Places.sum_eq_of_agree {.backend, .hands t}
            (fun place hplace => ?_) ?_) hi.total
          · cases place <;> simp_all [System.at, System.give]
          · simp only [mem_singleton, reduceCtorEq, not_false_eq_true, sum_insert,
              sum_singleton, System.at_backend, System.at_hands, System.give,
              Function.update_self, hcontent]
            abel
        obtain ⟨hdistinct, hnowhere⟩ := hi'.owned hnodup (Function.update_self _ _ _)
        refine ⟨_, some (.ok fetched), ?_, hi', hlen, hdistinct, Function.update_self _ _ _,
          hnowhere⟩
        simp only [step, rteMempoolDoGenericGet, Option.map_none, Option.map_some, driverDequeue,
          hdequeue, Except.toOption, Option.getD_some, List.nil_append]
  | some c =>
    have hidle : sys.pending c = none := hfree c rfl
    rcases rteMempoolDoGenericGet_spec hB (hi.caches c) sys.mp constant n with
      ⟨mp', cache', objs, hget, hok, hlen, hmoved⟩ | ⟨hget, hlt⟩
    · obtain ⟨hcaches, hpending⟩ := hi.updateFree hidle hok
      have hi' : Inv content objects { sys with
          mp := mp'
          caches := Function.update sys.caches c cache'
          hands := sys.give t objs } := by
        refine ⟨?_, hcaches, hpending⟩
        refine Eq.trans (Places.sum_eq_of_agree {.backend, .cache c, .hands t}
          (fun place hplace => ?_) ?_) hi.total
        · cases place <;> simp_all [System.at, System.give]
        · simp only [mem_insert, mem_singleton, reduceCtorEq, or_self,
            not_false_eq_true, sum_insert, sum_singleton, System.at_backend,
            System.at_cache, System.at_hands, System.give, Function.update_self]
          rw [← add_assoc (content sys.mp), hmoved]
          abel
      obtain ⟨hdistinct, hnowhere⟩ := hi'.owned hnodup (Function.update_self _ _ _)
      exact ⟨_, some (.ok objs), by rw [step, Option.map_some, hget]; rfl, hi', hlen, hdistinct,
        Function.update_self _ _ _, hnowhere⟩
    · -- The rest is still to be taken from the backend.
      obtain ⟨hcaches, hpending⟩ := @Inv.update _ _ _ _ _ _ _ _ _ _ hi c
        { sys.caches c with len := 0 }
        ⟨(hi.caches c).size_le, (hi.caches c).flushthresh_eq, Nat.zero_le _⟩
        (some ⟨t, n, copyDown (sys.caches c).objs (sys.caches c).len (sys.caches c).len,
          n - (sys.caches c).len, sys.caches c⟩)
        (by rintro p ⟨⟩; exact ⟨hi.caches c, hlt, rfl, rfl, rfl⟩)
      refine ⟨_, none, by rw [step, Option.map_some, hget]; rfl, ⟨?_, hcaches, hpending⟩,
        c, rfl, by simp⟩
      refine Eq.trans (Places.sum_eq_of_agree {.cache c, .table c}
        (fun place hplace => ?_) ?_) hi.total
      · cases place <;> simp_all [System.at, System.setCache]
      · have hsplit := slots_eq_copyDown (sys.caches c).objs (le_refl (sys.caches c).len)
        rw [Nat.sub_self] at hsplit
        simp only [mem_singleton, reduceCtorEq, not_false_eq_true, sum_insert,
          sum_singleton, System.at_cache, System.at_table, System.setCache,
          Function.update_self, hidle,
          Option.elim_some, Option.elim_none, MempoolCache.held, hsplit, Multiset.coe_nil,
          add_zero]

theorem Inv.rest (hnodup : objects.Nodup) {c : κ} (hlegal : Legal sys (.rest c : Call α κ τ)) :
    ∃ sys' ret, step sys (.rest c) = some (sys', ret) ∧ Inv content objects sys' ∧
      CallAnswers content sys sys' (.rest c) ret := by
  obtain ⟨p, hp⟩ := Option.ne_none_iff_exists'.mp hlegal
  have hok := hi.pending c p hp
  have hkeep : ∀ {cache : MempoolCache α}, CacheOk cache → _ := fun hcache =>
    @Inv.update _ _ _ _ _ _ _ _ _ _ hi c _ hcache none nofun
  cases hdequeue : B.dequeueBulk sys.mp p.remaining with
  | mk result mp' =>
    cases result with
    | error ret =>
      obtain ⟨hneg, rfl, hfew⟩ := hB.refuse hdequeue
      have hsame : sys.give p.caller [] = sys.hands := by simp [System.give]
      have hback : { sys.caches c with len := p.n - p.remaining } = p.before := by
        have hlt := hok.lt
        rw [hok.cache_eq, hok.remaining_eq, Nat.sub_sub_self hlt.le]
      refine ⟨{ sys with
        caches := Function.update sys.caches c p.before
        pending := Function.update sys.pending c none }, some (.error ret), ?_,
        ⟨?_, (hkeep hok.before).1, (hkeep hok.before).2⟩, p, hp, _, rfl, hneg, ?_, rfl, rfl, ?_⟩
      · simp only [step, hp, Option.map_some, driverDequeue, hdequeue, Except.toOption,
          Option.getD_none, hsame, hback, System.setCache]
      · refine Eq.trans (Places.sum_eq_of_agree {.cache c, .table c}
          (fun place hplace => ?_) ?_) hi.total
        · cases place <;> simp_all [System.at]
        · have hsplit := slots_eq_copyDown p.before.objs (le_refl p.before.len)
          rw [Nat.sub_self] at hsplit
          have hempty : (sys.caches c).held = [] := by rw [hok.cache_eq]; rfl
          simp only [mem_singleton, reduceCtorEq, not_false_eq_true, sum_insert,
            sum_singleton, System.at_cache, System.at_table, update_self, hp,
            Option.elim_some, Option.elim_none, MempoolCache.held, hsplit, Multiset.coe_nil,
            add_zero, hok.table_eq]
          rw [MempoolCache.held] at hempty
          rw [hempty]
          rfl
      · simp only [Option.map_some, Function.update_self]
      · rw [Option.elim_some, ← hok.remaining_eq]
        exact hfew
    | ok fetched =>
      obtain ⟨hlen, hcontent⟩ := hB.dequeue hdequeue
      have hi' : Inv content objects { sys with
          mp := mp'
          caches := Function.update sys.caches c (sys.caches c)
          pending := Function.update sys.pending c none
          hands := sys.give p.caller (p.obj_table ++ fetched) } := by
        refine ⟨?_, (hkeep (hi.caches c)).1, (hkeep (hi.caches c)).2⟩
        refine Eq.trans (Places.sum_eq_of_agree {.backend, .table c, .hands p.caller}
          (fun place hplace => ?_) ?_) hi.total
        · cases place <;> simp_all [System.at, System.give]
        · simp only [mem_insert, mem_singleton, reduceCtorEq, or_self,
            not_false_eq_true, sum_insert, sum_singleton, System.at_backend,
            System.at_table, System.at_hands, System.give, update_self, hp,
            Option.elim_some, Option.elim_none, hcontent, Multiset.coe_nil, ← Multiset.coe_add]
          abel
      obtain ⟨hdistinct, hnowhere⟩ := hi'.owned hnodup (update_self _ _ _)
      refine ⟨_, some (.ok (p.obj_table ++ fetched)), ?_, hi', p, hp, _, rfl, ?_, hdistinct,
        update_self _ _ _, hnowhere⟩
      · simp only [step, hp, Option.map_some, driverDequeue, hdequeue, Except.toOption,
          Option.getD_some, System.setCache]
      · have hlt := hok.lt
        rw [List.length_append, hlen, hok.table_eq, length_copyDown, hok.remaining_eq]
        omega

/-- Every call keeps the invariant, and answers. -/
theorem Inv.step (hnodup : objects.Nodup) (hcard : objects.card < word32) {call : Call α κ τ}
    (hlegal : Legal sys call) :
    ∃ sys' ret, Mempool.step sys call = some (sys', ret) ∧ Inv content objects sys' ∧
      CallAnswers content sys sys' call ret := by
  cases call with
  | put t c objs =>
    obtain ⟨sys', hstep, hi'⟩ := hi.put hB hcard hlegal
    exact ⟨sys', none, hstep, hi', rfl⟩
  | flush c =>
    obtain ⟨sys', hstep, hi'⟩ := hi.flush hB hlegal
    exact ⟨sys', none, hstep, hi', rfl⟩
  | get t c constant n => exact hi.get hB hnodup hlegal
  | rest c => exact hi.rest hB hnodup hlegal

/-- Every run keeps the invariant. -/
theorem Inv.run (hnodup : objects.Nodup) (hcard : objects.card < word32) {calls : List (Call α κ τ)}
    (hcalls : Runs.AlongOption next Legal sys calls) :
    ∃ sys', Runs.runOption next sys calls = some sys' ∧ Inv content objects sys' := by
  induction calls generalizing sys with
  | nil => exact ⟨sys, rfl, hi⟩
  | cons call calls ih =>
    obtain ⟨hlegal, hrest⟩ := hcalls
    obtain ⟨sys₁, ret, hstep, hi₁, -⟩ := hi.step hB hnodup hcard hlegal
    have hnext : next sys call = some sys₁ := by rw [next, hstep, Option.map_some]
    obtain ⟨sys', hrun, hi'⟩ := ih hi₁ (hrest sys₁ hnext)
    exact ⟨sys', by rw [Runs.runOption, hnext, Option.bind_some, hrun], hi'⟩

end

omit [DecidableEq κ] [DecidableEq τ] [DecidableEq α] in
theorem Inv.start (mp : B.State) (objs : κ → ℕ → α) {size : κ → ℕ}
    (hsize : ∀ c, size c ≤ rteMempoolCacheMaxSize) :
    Inv content (content mp) (System.start B mp objs size : System B κ τ) := by
  refine ⟨?_, fun c => CacheOk.init _ (hsize c), nofun⟩
  refine Eq.trans (sum_eq_single .backend (fun place _ hne => ?_) ?_) rfl
  · cases place with
    | backend => exact absurd rfl hne
    | cache c => rfl
    | table c => rfl
    | hands t => rfl
  · exact fun hmem => absurd (mem_univ _) hmem

/-- **Objects are conserved.** -/
structure Sound (content : B.State → Multiset α) (objects : Multiset α) (sys : System B κ τ) :
    Prop where
  /-- All objects are somewhere. -/
  total : sys.total content = objects
  /-- Each is in exactly one place. -/
  existsUnique : ∀ obj ∈ objects, ∃! place, obj ∈ sys.at content place
  /-- No cache has more than its threshold, which fits its array. -/
  len_le : ∀ c, (sys.caches c).len ≤ (sys.caches c).flushthresh ∧
    (sys.caches c).flushthresh ≤ objsLen

/-- **The objects of a mempool are conserved**, in every run of any callers with any caches.
Each call has a result, which is what it should be. -/
theorem objects_conserved (hB : B.IsBag content) (mp : B.State) (hnodup : (content mp).Nodup)
    (hcard : (content mp).card < word32) (objs : κ → ℕ → α) {size : κ → ℕ}
    (hsize : ∀ c, size c ≤ rteMempoolCacheMaxSize) {calls : List (Call α κ τ)}
    (hcalls : Runs.AlongOption next Legal (System.start B mp objs size) calls) :
    ∃ sys, Runs.runOption next (System.start B mp objs size) calls = some sys ∧
      Sound content (content mp) sys ∧ ∀ call, Legal sys call →
        ∃ sys' ret, step sys call = some (sys', ret) ∧ CallAnswers content sys sys' call ret := by
  obtain ⟨sys, hrun, hi⟩ := (Inv.start mp objs hsize).run hB hnodup hcard hcalls
  refine ⟨sys, hrun, ⟨hi.total, fun obj => hi.existsUnique hnodup,
    fun c => ⟨(hi.caches c).len_le, (hi.caches c).flushthresh_le⟩⟩, fun call hlegal => ?_⟩
  obtain ⟨sys', ret, hstep, -, hanswers⟩ := hi.step hB hnodup hcard hlegal
  exact ⟨sys', ret, hstep, hanswers⟩

/-! ## A backend -/

/-- **A stack** as a backend. -/
def stackBackend : Backend ℕ where
  State := List ℕ
  enqueueBulk s objs := objs ++ s
  dequeueBulk s n := if n ≤ s.length then (.ok (s.take n), s.drop n) else (.error (-105), s)

/-- The objects of a stack. -/
def stackContent (s : List ℕ) : Multiset ℕ := ↑s

theorem stackBackend_isBag : stackBackend.IsBag stackContent where
  enqueue s objs := Multiset.coe_eq_coe.mpr List.perm_append_comm
  dequeue := by
    intro s n objs t h
    simp only [stackBackend] at h
    split_ifs at h with hle
    · obtain ⟨hobjs, rfl⟩ := Prod.mk.inj h
      obtain rfl := Except.ok.inj hobjs
      refine ⟨List.length_take_of_le hle, ?_⟩
      refine (congrArg Multiset.ofList (List.take_append_drop n s)).symm.trans ?_
      exact Multiset.coe_eq_coe.mpr List.perm_append_comm
    · exact absurd (Prod.mk.inj h).1 nofun
  refuse := by
    intro s n r t h
    simp only [stackBackend] at h
    split_ifs at h with hle
    · exact absurd (Prod.mk.inj h).1 nofun
    · obtain ⟨hr, rfl⟩ := Prod.mk.inj h
      obtain rfl := Except.error.inj hr
      exact ⟨by decide, rfl, not_le.mp hle⟩

instance Legal.decidable (sys : System B κ τ) : (call : Call α κ τ) → Decidable (Legal sys call)
  | .put t c objs => inferInstanceAs
      (Decidable ((∀ c' ∈ c, sys.pending c' = none) ∧ (objs : Multiset α) ≤ sys.hands t))
  | .flush c => inferInstanceAs (Decidable (∀ c' ∈ c, sys.pending c' = none))
  | .get _ c _ n => inferInstanceAs
      (Decidable ((∀ c' ∈ c, sys.pending c' = none) ∧ n < word32))
  | .rest c => inferInstanceAs (Decidable (¬ sys.pending c = none))

/-- Two callers, each with a cache. The second finds too few objects for its cache. -/
def twoCallers : List (Call ℕ Bool Bool) :=
  [.get true (some true) false 3, .put true (some true) [5], .get false (some false) true 5,
    .get true none false 1, .rest false, .flush (some true)]

/-- Eight objects in a stack, and two caches. -/
def eightObjects : System stackBackend Bool Bool :=
  System.start stackBackend ([1, 2, 3, 4, 5, 6, 7, 8] : List ℕ) (fun _ _ => 0) fun _ => 2

theorem objects_conserved_two_callers :
    ∃ sys, Runs.runOption next eightObjects twoCallers = some sys ∧
      Sound stackContent (stackContent [1, 2, 3, 4, 5, 6, 7, 8]) sys := by
  have hrun : (Runs.runOption (fun sys call => if Legal sys call then next sys call else none)
      eightObjects twoCallers).isSome := by
    decide
  obtain ⟨sys', hguard⟩ := Option.isSome_iff_exists.mp hrun
  obtain ⟨sys, hsys, hsound, -⟩ := objects_conserved stackBackend_isBag [1, 2, 3, 4, 5, 6, 7, 8]
    (by decide) (by decide) (fun _ _ => 0) (fun _ => by decide) (Runs.runOption_guard hguard).1
  exact ⟨sys, hsys, hsound⟩

end Mempool
