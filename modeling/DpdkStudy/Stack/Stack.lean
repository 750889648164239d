import DpdkStudy.Lib.Runs
import Mathlib.Logic.Function.Basic

/-!
# The lock-free stack

The lock-free stack of `lib/stack`. Its elements are in two linked lists: those in
use, with an object each, and those that are free. A push takes elements from the
free list, puts its objects in them, and puts them in front of the used list; a pop
goes the other way.

The head of a list is a pointer and a count, which a CAS changes together. Beside it
is the length of the list, from which a call reserves before it takes elements and to
which it adds after it has put some back. The calls are taken apart into their
accesses to shared memory, made one after the other in any order by any number of
threads (`step`). A head is read in two halves, in either order. A compare-and-swap
may fail for no reason where the code lets it.

The count of a head is a number that does not wrap; a CAS compares 64 bits of it.
Beside the stack the state keeps what no step reads: the pushes and pops in the order
in which they have changed the used list (`log`), and what calls have returned.
-/

namespace Stack

open Function

/-! ## The stack -/

/-- **The head of a list** (`struct rte_stack_lf_head`), with a null pointer for an
empty list. -/
structure Head where
  top : Option ℕ
  cnt : ℕ
deriving DecidableEq

/-- **A list** (`struct rte_stack_lf_list`). -/
structure LfList where
  head : Head
  len : ℕ

/-- The two lists of a stack. -/
inductive Which
  | used
  | free
deriving DecidableEq

/-- **The stack** (`struct rte_stack_lf`), with the links and the objects of its
elements. -/
structure StackLf (α : Type*) where
  list : Which → LfList
  next : ℕ → Option ℕ
  data : ℕ → α

/-- The values of a `uint64_t`. -/
def word64 : ℕ := 2 ^ 64

/-- `__rte_stack_lf_push_elems` with no other thread around: elements go to the front
of a list. -/
def StackLf.pushElems {α : Type*} (s : StackLf α) (which : Which) (first last num : ℕ) :
    StackLf α :=
  let list := s.list which
  { s with
    next := update s.next last list.head.top
    list := update s.list which
      { head := ⟨some first, list.head.cnt + 1⟩, len := (list.len + num) % word64 } }

/-- **`rte_stack_lf_init`**, on memory whose elements hold anything. -/
def stackLfInit {α : Type*} (next : ℕ → Option ℕ) (data : ℕ → α) (count : ℕ) : StackLf α :=
  (List.range count).foldl (fun s i => s.pushElems .free i i 1)
    { list := fun _ => ⟨⟨none, 0⟩, 0⟩, next := next, data := data }

/-! ## The calls -/

/-- **A call**: of `__rte_stack_lf_push` with its objects, or of
`__rte_stack_lf_pop`. -/
inductive Call (α : Type*)
  | push (objs : List α)
  | pop (n : ℕ)

/-- How many objects a call is about. -/
def Call.num {α : Type*} : Call α → ℕ
  | push objs => objs.length
  | pop n => n

/-- The list that a call takes elements from. -/
def Call.src {α : Type*} : Call α → Which
  | push _ => .free
  | pop _ => .used

/-- The list that a call puts elements to. -/
def Call.dst {α : Type*} : Call α → Which
  | push _ => .used
  | pop _ => .free

/-- What has been read of a head. -/
inductive Part
  | none
  | top (top : Option ℕ)
  | cnt (cnt : ℕ)

/-- **A walk of `__rte_stack_lf_pop_elems`**: the head as it was read, how far the walk
is, and what is in `obj_table`. -/
structure Walk (α : Type*) where
  old : Head
  i : ℕ
  tmp : Option ℕ
  last : Option ℕ
  objs : List α

/-- **The elements that a call has taken** from a list, with the objects that a pop has
found in them. -/
structure Batch (α : Type*) where
  first : ℕ
  last : ℕ
  objs : List α

/-- **Where a thread is**: the access that comes next in its call. -/
inductive Pc (α : Type*)
  | idle
  /-- In front of the load of the length. -/
  | loadLen (c : Call α)
  /-- In front of the CAS that reserves. -/
  | casLen (c : Call α) (len : ℕ)
  /-- In front of a load of half the head of the list to take from. -/
  | popHead (c : Call α) (part : Part)
  /-- In front of a pass of the walk. -/
  | walk (c : Call α) (w : Walk α)
  /-- In a pass of the walk, in front of the load of the link. -/
  | walkNext (c : Call α) (w : Walk α) (tmp : ℕ)
  /-- In front of the CAS that takes elements. -/
  | popCas (c : Call α) (w : Walk α)
  /-- In front of a pass that puts an object in an element. -/
  | fill (c : Call α) (b : Batch α) (i : ℕ) (tmp : Option ℕ)
  /-- In such a pass, in front of the load of the link. -/
  | fillNext (c : Call α) (b : Batch α) (i : ℕ) (tmp : ℕ)
  /-- In front of a load of half the head of the list to put to. -/
  | pushHead (c : Call α) (b : Batch α) (part : Part)
  /-- In front of the store of the link of the last element. -/
  | link (c : Call α) (b : Batch α) (old : Head)
  /-- In front of the CAS that puts elements back. -/
  | pushCas (c : Call α) (b : Batch α) (old : Head)
  /-- In front of the addition to the length. -/
  | addLen (c : Call α) (b : Batch α)

/-- **What has changed the used list.** -/
inductive Op (α : Type*)
  | push (objs : List α)
  | pop (objs : List α)

/-- What a call has returned. -/
structure Result (α : Type*) where
  call : Call α
  ret : ℕ
  objs : List α

/-- **A stack between threads.** -/
structure System (T α : Type*) where
  s : StackLf α
  pc : T → Pc α
  /-- What the calls of a thread have returned, the last one first. -/
  results : T → List (Result α)
  /-- The pushes and pops that have changed the used list, the last one first. -/
  log : List (T × Op α)

/-- The stack with no call under way. -/
def System.init {T α : Type*} (next : ℕ → Option ℕ) (data : ℕ → α) (count : ℕ) : System T α :=
  { s := stackLfInit next data count, pc := fun _ => .idle, results := fun _ => [], log := [] }

/-! ## The accesses -/

variable {T α : Type*} [DecidableEq T]

namespace System

variable (sys : System T α) (t : T)

/-- A thread goes on. -/
def setPc (pc : Pc α) : System T α := { sys with pc := update sys.pc t pc }

/-- A call returns. -/
def finish (c : Call α) (ret : ℕ) (objs : List α) : System T α :=
  { sys with
    pc := update sys.pc t .idle
    results := update sys.results t (⟨c, ret, objs⟩ :: sys.results t) }

/-- A list changes. -/
def setList (which : Which) (list : LfList) : System T α :=
  { sys with s := { sys.s with list := update sys.s.list which list } }

/-- The used list has changed. -/
def record (op : Op α) : System T α := { sys with log := (t, op) :: sys.log }

/-- A call begins; one about no objects is over. -/
def enter (c : Call α) : System T α :=
  if c.num = 0 then sys.finish t c 0 [] else sys.setPc t (.loadLen c)

/-- There are enough elements, or the call returns. -/
def checkLen (c : Call α) (len : ℕ) : System T α :=
  if len < c.num then sys.finish t c 0 [] else sys.setPc t (.casLen c len)

/-- **The CAS that reserves.** Where it fails, the length that it has found is checked
(`RTE_USE_C11_MEM_MODEL`), or the length is loaded again. -/
def casLen (c11 weak : Bool) (c : Call α) (len : ℕ) : System T α :=
  let list := sys.s.list c.src
  if list.len = len ∧ ¬ (c11 ∧ weak) then
    (sys.setList c.src { list with len := len - c.num }).setPc t (.popHead c .none)
  else if c11 then sys.checkLen t c list.len
  else sys.setPc t (.loadLen c)

/-- The head as a walk starts from it. -/
def startWalk (c : Call α) (old : Head) : System T α :=
  sys.setPc t (.walk c ⟨old, 0, old.top, none, []⟩)

/-- Half of the head is loaded, the count first or not. -/
def popHead (cntFirst : Bool) (c : Call α) (part : Part) : System T α :=
  let head := (sys.s.list c.src).head
  match part with
  | .none => sys.setPc t (.popHead c (if cntFirst then .cnt head.cnt else .top head.top))
  | .top top => sys.startWalk t c ⟨top, head.cnt⟩
  | .cnt cnt => sys.startWalk t c ⟨head.top, cnt⟩

/-- **A pass of the walk** loads the object, for a pop. At a null pointer the walk starts
again. -/
def walk (c : Call α) (w : Walk α) : System T α :=
  if w.i < c.num then
    match w.tmp with
    | none => sys.setPc t (.popHead c .none)
    | some e =>
      let objs := match c with
        | .push _ => w.objs
        | .pop _ => w.objs ++ [sys.s.data e]
      sys.setPc t (.walkNext c { w with last := some e, objs := objs } e)
  else sys.setPc t (.popCas c w)

/-- The pass loads the link. -/
def walkNext (c : Call α) (w : Walk α) (tmp : ℕ) : System T α :=
  sys.setPc t (.walk c { w with i := w.i + 1, tmp := sys.s.next tmp })

/-- A head is the one that a CAS expects. -/
def Matches (head old : Head) : Prop :=
  head.top = old.top ∧ head.cnt % word64 = old.cnt % word64

instance (head old : Head) : Decidable (Matches head old) :=
  inferInstanceAs (Decidable (_ ∧ _))

/-- A call has taken its elements. A push fills them. -/
def taken (c : Call α) (b : Batch α) : System T α :=
  match c with
  | .push _ => sys.setPc t (.fill c b 0 (some b.first))
  | .pop _ => (sys.record t (.pop b.objs)).setPc t (.pushHead c b .none)

/-- **The CAS that takes elements**, a weak one without `RTE_USE_C11_MEM_MODEL`. Where it
fails, the walk starts again from the head that it has found. -/
def popCas (c11 weak : Bool) (c : Call α) (w : Walk α) : System T α :=
  let list := sys.s.list c.src
  if Matches list.head w.old ∧ (c11 ∨ ¬ weak) then
    let sys := sys.setList c.src { list with head := ⟨w.tmp, list.head.cnt + 1⟩ }
    match w.old.top, w.last with
    | some first, some last => sys.taken t c ⟨first, last, w.objs⟩
    | _, _ => sys.finish t c 0 []
  else sys.startWalk t c list.head

/-- **A pass that fills an element**, none where the pointer is null or there is no
object. -/
def fill (c : Call α) (b : Batch α) (i : ℕ) (tmp : Option ℕ) : Option (System T α) :=
  if i < c.num then
    match c, tmp with
    | .push objs, some e => (objs[objs.length - i - 1]?).map fun obj =>
      { sys with s := { sys.s with data := update sys.s.data e obj } }.setPc t (.fillNext c b i e)
    | _, _ => none
  else some (sys.setPc t (.pushHead c b .none))

/-- The pass loads the link. -/
def fillNext (c : Call α) (b : Batch α) (i tmp : ℕ) : System T α :=
  sys.setPc t (.fill c b (i + 1) (sys.s.next tmp))

/-- Half of the head is loaded, the count first or not. -/
def pushHead (cntFirst : Bool) (c : Call α) (b : Batch α) (part : Part) : System T α :=
  let head := (sys.s.list c.dst).head
  match part with
  | .none => sys.setPc t (.pushHead c b (if cntFirst then .cnt head.cnt else .top head.top))
  | .top top => sys.setPc t (.link c b ⟨top, head.cnt⟩)
  | .cnt cnt => sys.setPc t (.link c b ⟨head.top, cnt⟩)

/-- The last element is linked to the top. -/
def link (c : Call α) (b : Batch α) (old : Head) : System T α :=
  { sys with s := { sys.s with next := update sys.s.next b.last old.top } }.setPc t
    (.pushCas c b old)

/-- **The CAS that puts elements back.** Where it fails, the last element is linked to
the top that it has found. -/
def pushCas (weak : Bool) (c : Call α) (b : Batch α) (old : Head) : System T α :=
  let list := sys.s.list c.dst
  if Matches list.head old ∧ ¬ weak then
    let sys := sys.setList c.dst { list with head := ⟨some b.first, list.head.cnt + 1⟩ }
    match c with
    | .push objs => (sys.record t (.push objs)).setPc t (.addLen c b)
    | .pop _ => sys.setPc t (.addLen c b)
  else sys.setPc t (.link c b list.head)

/-- The length is added to, and the call returns. -/
def addLen (c : Call α) (b : Batch α) : System T α :=
  let list := sys.s.list c.dst
  (sys.setList c.dst { list with len := (list.len + c.num) % word64 }).finish t c c.num b.objs

end System

/-- **What a thread does next**: it begins a call, or goes on with its own. A flag says
which half of a head is loaded first, or that a CAS fails for no reason. -/
inductive Act (α : Type*)
  | begin (c : Call α)
  | go (flag : Bool)

/-- **One access of a thread.** -/
def step (c11 : Bool) (sys : System T α) (e : T × Act α) : Option (System T α) :=
  let t := e.1
  match sys.pc t, e.2 with
  | .idle, .begin c => some (sys.enter t c)
  | .loadLen c, .go _ => some (sys.checkLen t c (sys.s.list c.src).len)
  | .casLen c len, .go flag => some (sys.casLen t c11 flag c len)
  | .popHead c part, .go flag => some (sys.popHead t flag c part)
  | .walk c w, .go _ => some (sys.walk t c w)
  | .walkNext c w tmp, .go _ => some (sys.walkNext t c w tmp)
  | .popCas c w, .go flag => some (sys.popCas t c11 flag c w)
  | .fill c b i tmp, .go _ => sys.fill t c b i tmp
  | .fillNext c b i tmp, .go _ => some (sys.fillNext t c b i tmp)
  | .pushHead c b part, .go flag => some (sys.pushHead t flag c b part)
  | .link c b old, .go _ => some (sys.link t c b old)
  | .pushCas c b old, .go flag => some (sys.pushCas t flag c b old)
  | .addLen c b, .go _ => some (sys.addLen t c b)
  | _, _ => none

/-- **No count wraps in a call**: the head has not changed `2 ^ 64` times since the
thread has read it. -/
def NoWrap (sys : System T α) (e : T × Act α) : Prop :=
  match sys.pc e.1 with
  | .popCas c w => (sys.s.list c.src).head.cnt < w.old.cnt + word64
  | .pushCas c _ old => (sys.s.list c.dst).head.cnt < old.cnt + word64
  | _ => True

instance (sys : System T α) (e : T × Act α) : Decidable (NoWrap sys e) :=
  match h : sys.pc e.1 with
  | .popCas c w => decidable_of_iff ((sys.s.list c.src).head.cnt < w.old.cnt + word64)
    (by simp [NoWrap, h])
  | .pushCas c b old => decidable_of_iff ((sys.s.list c.dst).head.cnt < old.cnt + word64)
    (by simp [NoWrap, h])
  | .idle | .loadLen .. | .casLen .. | .popHead .. | .walk .. | .walkNext .. | .fill ..
  | .fillNext .. | .pushHead .. | .link .. | .addLen .. => isTrue (by simp [NoWrap, h])

end Stack
