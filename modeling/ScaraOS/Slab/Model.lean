import Mathlib.Algebra.Group.Nat.Defs
import Mathlib.Data.Finset.Basic
import ScaraOS.Layout
import ScaraOS.Lib.Bytes
import ScaraOS.Lib.Run

/-! The object caches: `kernel/memchunk.c` over the page allocator of
`kernel/buddy.c`, with the checks of this build on (`KDEBUG`, `PAGE_POISON`,
`OBJCACHE_POISON`, `OBJCACHE_DEBUG_FREE`). A slab is named by its page frame, a
cache by its position among the caches made so far. Addresses are 32-bit words.
Each call holds `memsem` over all it changes and is one step. -/
namespace ScaraOS.Slab

open Bytes

def objcachePoison : UInt8 := 0xa5
def pagePoison : UInt8 := 0x5a

/-- `page_address` and `virt_to_page`, with the frame in the place of the pointer into `pfa`. -/
def pageAddress (p : Nat) : Nat := (pageOffset + p * pageSize) % wordSize

def virtToPage (a : Nat) : Nat := (wordSize - pageOffset + a) % wordSize / pageSize

inductive PageType where
  | free | reserved | slab | pagecache
  deriving DecidableEq, Repr

/-- `struct page` with the slab header of its union. The header's `list` is the
membership in the lists of the cache. `c_r.ptr` is the same word as `c_o.free_list`. -/
structure Page where
  cache : Nat
  freeList : Nat
  inuse : Nat
  count : Nat
  type : PageType
  deriving DecidableEq, Repr

structure ObjCache where
  oSz : Nat
  oNum : Nat
  oPtr : Nat
  oPtrEnd : Nat
  oCur : Option Nat
  oPartials : List Nat
  oFull : List Nat
  deriving DecidableEq, Repr

/-- `live` and `descs` are ghosts: the objects handed out and not freed, and
among them those that hold the cache descriptors themselves. -/
structure State where
  mem : Mem
  page : Nat → Page
  caches : List ObjCache
  live : Finset Nat
  descs : Finset Nat

/-- Why a call does not return: a `BUG_ON`, a dereference of `NULL`, a list that does not end. -/
inductive Stop where
  | bug | fault | hang
  deriving DecidableEq, Repr

abbrev Result (α : Type) := Except Stop α

def bugOn (c : Prop) [Decidable c] : Result Unit := if c then .error .bug else .ok ()

theorem ok_bind {α β : Type} (a : α) (f : α → Result β) : ((.ok a : Result α) >>= f) = f a := rfl

theorem error_bind {α β : Type} (e : Stop) (f : α → Result β) :
    ((.error e : Result α) >>= f) = .error e := rfl

theorem bugOn_pass {α : Type} {c : Prop} [Decidable c] (passes : ¬ c) (f : Unit → Result α) :
    (bugOn c >>= f) = f () := by
  unfold bugOn
  rw [if_neg passes]
  rfl

theorem bugOn_trip {α : Type} {c : Prop} [Decidable c] (trips : c) (f : Unit → Result α) :
    (bugOn c >>= f) = .error .bug := by
  unfold bugOn
  rw [if_pos trips]
  rfl

theorem bugOn_ok {α : Type} {c : Prop} [Decidable c] {f : Unit → Result α} {r : α} :
    (bugOn c >>= f) = .ok r ↔ ¬ c ∧ f () = .ok r := by
  by_cases trips : c
  · rw [bugOn_trip trips]
    exact ⟨fun h => (by cases h), fun h => absurd trips h.1⟩
  · rw [bugOn_pass trips]
    exact ⟨fun h => ⟨trips, h⟩, fun h => h.2⟩

def setPage (s : State) (p : Nat) (page : Page) : State :=
  { s with page := Function.update s.page p page }

def setCache (s : State) (k : Nat) (o : ObjCache) : State :=
  { s with caches := s.caches.set k o }

/-- `list_move`: off the list the slab is on, if any, and to the front of the other. -/
def moveToFull (o : ObjCache) (c : Nat) : ObjCache :=
  { o with oPartials := o.oPartials.erase c, oFull := c :: o.oFull.erase c }

def moveToPartials (o : ObjCache) (c : Nat) : ObjCache :=
  { o with oPartials := c :: o.oPartials.erase c, oFull := o.oFull.erase c }

def listDel (o : ObjCache) (c : Nat) : ObjCache :=
  { o with oPartials := o.oPartials.erase c, oFull := o.oFull.erase c }

/-- Which page the free list gives is up to the environment; `none` is an empty list. -/
def allocPages (s : State) (page : Option Nat) : Result (State × Nat) :=
  match page with
  | none => .ok (s, 0)
  | some p => do
    bugOn ((s.page p).count ≠ 0)
    .ok (setPage s p { s.page p with count := (s.page p).count + 1 }, pageAddress p)

def freePages (s : State) (ptr : Nat) : Result State :=
  if ptr = 0 then .ok s
  else do
    let s := { s with mem := fill s.mem ptr pageSize pagePoison }
    let p := virtToPage ptr
    bugOn ((s.page p).count = 0)
    let s := setPage s p { s.page p with type := .free, count := (s.page p).count - 1 }
    bugOn ((s.page p).count ≠ 0)
    .ok s

def doCacheInit (objSz : Nat) : ObjCache where
  oSz := objSz
  oNum := pageSize / objSz
  oPtr := 0
  oPtrEnd := 0
  oCur := none
  oPartials := []
  oFull := []

def sizeofObjcache : Nat := 52
def sizeofMempool : Nat := 32
def sizeofPointer : Nat := 4

/-- `_memchunk_init`, from whatever memory and page frames the boot code leaves. -/
def memchunkInit (mem : Mem) (page : Nat → Page) : State where
  mem := mem
  page := page
  caches := [doCacheInit sizeofObjcache, doCacheInit sizeofMempool]
  live := ∅
  descs := ∅

def memchunkGet (s : State) (page : Option Nat) : Result (State × Nat) := do
  let (s, pptr) ← allocPages s page
  bugOn (pptr = 0)
  let p := virtToPage pptr
  bugOn ((s.page p).count ≠ 1)
  .ok (setPage s p { s.page p with type := .slab, freeList := pptr }, p)

def memchunkPut (s : State) (c : Nat) : Result State := freePages s (pageAddress c)

def allocFromPartial (s : State) (k : Nat) (o : ObjCache) (c : Nat) : State × Nat :=
  let ret := (s.page c).freeList
  let rest := load32 s.mem ret
  let s := setPage s c { s.page c with
    freeList := rest, inuse := ((s.page c).inuse + 1) % wordSize }
  let o := if rest = 0 ∧ some c ≠ o.oCur then moveToFull o c else o
  ({ setCache s k o with mem := fill s.mem ret o.oSz objcachePoison }, ret)

def allocFast (s : State) (k : Nat) (o : ObjCache) : Result (State × Nat) :=
  let ret := o.oPtr
  let o := { o with oPtr := (o.oPtr + o.oSz) % wordSize }
  match o.oCur with
  | none => .error .fault
  | some c =>
    let inuse := ((s.page c).inuse + 1) % wordSize
    let s := setPage s c { s.page c with inuse := inuse }
    let o := if inuse = o.oNum ∧ (s.page c).freeList = 0 then
        { moveToFull o c with oCur := none }
      else o
    .ok ({ setCache s k o with mem := fill s.mem ret o.oSz objcachePoison }, ret)

def allocSlow (s : State) (k : Nat) (o : ObjCache) (page : Option Nat) : Result (State × Nat) := do
  let (s, c) ← memchunkGet s page
  let ptr := (s.page c).freeList
  let o := { o with
    oCur := some c, oPtr := ptr, oPtrEnd := (ptr + o.oSz * o.oNum) % wordSize }
  let s := setPage s c { s.page c with cache := k, freeList := 0, inuse := 0 }
  allocFast s k o

def firstPartial (o : ObjCache) : Option Nat := o.oPartials.head?

/-- The first partial slab, when there is one and it has a free list. -/
def usablePartial (s : State) (o : ObjCache) : Option Nat :=
  (firstPartial o).filter fun c => (s.page c).freeList ≠ 0

/-- A position with no cache is the `NULL` handle. -/
def doAlloc (s : State) (k : Nat) (page : Option Nat) : Result (State × Nat) :=
  match s.caches[k]? with
  | none => .ok (s, 0)
  | some o =>
    match usablePartial s o with
    | some c => .ok (allocFromPartial s k o c)
    | none =>
      if (o.oPtr + o.oSz) % wordSize ≤ o.oPtrEnd then allocFast s k o
      else allocSlow s k o page

def objcacheAlloc (s : State) (k : Nat) (page : Option Nat) : Result (State × Nat) :=
  doAlloc s k page

def objcacheInit (s : State) (objSz : Nat) (page : Option Nat) : Result (State × Nat) := do
  bugOn (objSz > pageSize)
  if objSz = 0 then .ok (s, 0)
  else do
    let objSz := if objSz < sizeofPointer then sizeofPointer else objSz
    let (s, o) ← objcacheAlloc s 0 page
    if o = 0 then .ok (s, 0)
    else .ok ({ s with caches := s.caches ++ [doCacheInit objSz] }, o)

/-- The walk of `OBJCACHE_DEBUG_FREE`. A slab has no more than `pageSize` slots,
so a walk that is longer goes round. -/
def debugWalk (mem : Mem) (obj : Nat) : Nat → Nat → Result Unit
  | 0, _ => .error .hang
  | n + 1, tmp =>
    if tmp = 0 then .ok ()
    else if tmp = obj then .error .bug
    else debugWalk mem obj n (load32 mem tmp)

def doCacheFree (s : State) (k : Nat) (o : ObjCache) (c obj : Nat) : Result State := do
  bugOn ((s.page c).inuse = 0)
  bugOn ((s.page c).inuse > o.oNum)
  bugOn (obj ≥ o.oPtr ∧ obj ≤ o.oPtrEnd)
  debugWalk s.mem obj (pageSize + 1) (s.page c).freeList
  bugOn ((s.page c).freeList = 0 ∧ some c ≠ o.oCur ∧ (s.page c).inuse ≠ o.oNum)
  let o := if (s.page c).freeList = 0 then moveToPartials o c else o
  let mem := store32 (fill s.mem obj o.oSz objcachePoison) obj (s.page c).freeList
  let s := { s with mem := mem }
  let s := setPage s c { s.page c with freeList := obj, inuse := (s.page c).inuse - 1 }
  if (s.page c).inuse = 0 then
    let o := listDel o c
    let o := if o.oCur = some c then { o with oPtr := 0, oPtrEnd := 0, oCur := none } else o
    memchunkPut (setCache s k o) c
  else .ok (setCache s k o)

def slabIsOn (c : Nat) (list : List Nat) : Bool := list.contains c

/-- What `objcache_free` and `objcache_free2` share once the page is known to be a slab. -/
def checkedFree (s : State) (c obj : Nat) : Result State :=
  match s.caches[(s.page c).cache]? with
  | none => .error .fault
  | some o => do
    bugOn (some c ≠ o.oCur ∧ slabIsOn c o.oPartials = false ∧ slabIsOn c o.oFull = false)
    doCacheFree s (s.page c).cache o c obj

def objcacheFree (s : State) (obj : Nat) : Result State :=
  if obj = 0 then .ok s
  else do
    let c := virtToPage obj
    bugOn ((s.page c).type ≠ .slab)
    bugOn ((s.page c).count ≠ 1)
    checkedFree s c obj

def objcacheFree2 (s : State) (k obj : Nat) : Result State :=
  if obj = 0 then .ok s
  else do
    let c := virtToPage obj
    bugOn ((s.page c).type ≠ .slab)
    bugOn ((s.page c).count ≠ 1)
    bugOn ((s.page c).cache ≠ k)
    checkedFree s c obj

def objSize (s : State) (obj : Nat) : Nat :=
  ((s.caches[(s.page (virtToPage obj)).cache]?).map ObjCache.oSz).getD 0

/-- The calls of the clients, their writes to objects they hold, and what the
other users of pages do: take, share and release them, and write to them. -/
inductive Op where
  | init (objSz : Nat) (page : Option Nat)
  | alloc (k : Nat) (page : Option Nat)
  | free (obj : Nat)
  | free2 (k obj : Nat)
  | write (obj d : Nat) (v : UInt8)
  | other (p count : Nat) (type : PageType)
  | otherWrite (a : Nat) (v : UInt8)
  deriving DecidableEq, Repr

def Op.page : Op → Option Nat
  | .init _ page | .alloc _ page => page
  | _ => none

def handOut (s : State) (obj : Nat) : State :=
  if obj = 0 then s else { s with live := insert obj s.live }

/-- A cache descriptor stays allocated: `objcache_fini` is not compiled, and the
handle of a cache is not an object of a client to free or to write. -/
def mayFree (s : State) (obj : Nat) : Bool := obj ∈ s.live ∧ obj ∉ s.descs

def step (s : State) : Op → Option State
  | .init objSz page =>
    match objcacheInit s objSz page with
    | .ok (t, obj) =>
      let t := handOut t obj
      some (if obj = 0 then t else { t with descs := insert obj t.descs })
    | .error _ => none
  | .alloc k page =>
    match objcacheAlloc s k page with
    | .ok (t, obj) => some (handOut t obj)
    | .error _ => none
  | .free obj =>
    if mayFree s obj then
      match objcacheFree s obj with
      | .ok t => some { t with live := t.live.erase obj }
      | .error _ => none
    else none
  | .free2 k obj =>
    if mayFree s obj then
      match objcacheFree2 s k obj with
      | .ok t => some { t with live := t.live.erase obj }
      | .error _ => none
    else none
  | .write obj d v =>
    if mayFree s obj ∧ d < objSize s obj then some { s with mem := store8 s.mem (obj + d) v }
    else none
  | .other p count type =>
    if (s.page p).type ≠ .slab ∧ type ≠ .slab then
      some (setPage s p { s.page p with count := count, type := type })
    else none
  | .otherWrite a v =>
    if a < wordSize ∧ (s.page (virtToPage a)).type ≠ .slab then
      some { s with mem := store8 s.mem a v }
    else none

end ScaraOS.Slab
