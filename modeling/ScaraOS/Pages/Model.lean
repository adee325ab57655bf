import Mathlib.Algebra.Group.Nat.Defs
import ScaraOS.Lib.Links
import ScaraOS.Lib.RbInsert
import ScaraOS.Lib.Run

/-! Page frames: `kernel/buddy.c`, the slab allocator's `memchunk_get` and
`memchunk_put`, and `kernel/pagecache.c`. A frame is known by the address of its
`struct page`. The free list, a slab header and a node of a page-cache tree are stored
in the same words of that structure, so a store through one of them is seen through
the others. No result of an operation is a `BUG_ON`, or a caller that may not call. -/
namespace ScaraOS.Pages

open Function RbTree

/-- The union `u`, word by word. As `list` it is `next` and `prev`; as `pagecache`
the parent and colour, the two children and `pc_off`; as `slab_hdr.c_r` it is `next`
and `ptr`, as `slab_hdr.c_o` the cache, the free list, `inuse` and a list node. -/
structure Union where
  w0 : Nat
  w1 : Nat
  w2 : Nat
  w3 : Nat
  w4 : Nat
  deriving DecidableEq, Repr

inductive PageType where
  | free | reserved | slab | pagecache
  deriving DecidableEq, Repr

/-- Who a frame was last handed to. The kernel does not record it. -/
inductive Owner where
  | reserved
  | free
  | caller
  | slab
  | reading (ino : Nat)
  | cached (ino : Nat)
  deriving DecidableEq, Repr

/-- What does not change after boot: the page frame array, which frames are reserved,
the address of `free_list[1]` and `page_address`. -/
structure Machine where
  frames : List Nat
  reserved : Nat → Bool
  freeList : Nat
  pageAddress : Nat → Nat
  distinct : frames.Nodup
  nonzero : ∀ f ∈ frames, f ≠ 0
  aligned : ∀ f ∈ frames, f % 4 = 0
  apart : freeList ∉ frames
  few : frames.length < 2 ^ 32

/-- A call of `pagecache_file_readpage` between its `alloc_page` and the end of its
`pread`, with the place in the tree it found. It holds the `i_sem` of its inode. -/
structure Read where
  page : Nat
  off : Nat
  slot : Slot
  deriving DecidableEq, Repr

/-- `u` covers the head of the free list, too; `root` is the page-cache root of an
inode. `owner` is history. -/
structure State where
  u : Nat → Union
  count : Nat → Nat
  type : Nat → PageType
  nrFreepages : Nat
  root : Nat → Nat
  reading : Nat → Option Read
  owner : Nat → Owner

def links (u : Nat → Union) : Links Nat := ⟨fun a => (u a).w0, fun a => (u a).w1⟩

def withLinks (u : Nat → Union) (σ : Links Nat) : Nat → Union :=
  fun a => { u a with w0 := σ.next a, w1 := σ.prev a }

def nodes (u : Nat → Union) : Nat → RbNode := fun a => ⟨(u a).w0, (u a).w1, (u a).w2⟩

def withNodes (u : Nat → Union) (rb : Nat → RbNode) : Nat → Union :=
  fun a => { u a with w0 := (rb a).parentColor, w1 := (rb a).left, w2 := (rb a).right }

def pcOff (u : Nat → Union) (a : Nat) : Nat := (u a).w3

def setPcOff (u : Nat → Union) (a off : Nat) : Nat → Union :=
  update u a { u a with w3 := off }

/-- `free_pages` of one page; `put_page` and the test after it stop a wrong count. -/
def freePage (m : Machine) (s : State) (f : Nat) : Option State :=
  if s.count f = 0 then none
  else if s.count f - 1 ≠ 0 then none
  else
    some
      { s with
        u := withLinks s.u ((links s.u).listAddTail f m.freeList)
        count := update s.count f (s.count f - 1)
        type := update s.type f .free
        nrFreepages := (s.nrFreepages + 1) % 2 ^ 32
        owner := update s.owner f .free }

/-- `alloc_pages` of one page, with the page. -/
def allocPage (m : Machine) (s : State) : Option (State × Option Nat) :=
  if (links s.u).listEmpty m.freeList then some (s, none)
  else
    let f := (links s.u).next m.freeList
    if s.count f ≠ 0 then none
    else
      some
        ({ s with
            u := withLinks s.u ((links s.u).listDel f)
            count := update s.count f ((s.count f + 1) % 2 ^ 32)
            nrFreepages := (s.nrFreepages + 2 ^ 32 - 1) % 2 ^ 32
            owner := update s.owner f .caller },
          some f)

def memchunkGet (m : Machine) (s : State) : Option State := do
  let (s, page) ← allocPage m s
  let f ← page
  if s.count f ≠ 1 then none
  else
    some
      { s with
        u := update s.u f { s.u f with w1 := m.pageAddress f }
        type := update s.type f .slab
        owner := update s.owner f .slab }

def memchunkPut (m : Machine) (s : State) (f : Nat) : Option State := freePage m s f

/-- The comparison of the search loop. -/
def offDir (u : Nat → Union) (off a : Nat) : Option Side :=
  if off < pcOff u a then some .left
  else if off > pcOff u a then some .right
  else none

def search (m : Machine) (s : State) (ino off : Nat) : Option Found :=
  Tree.descend (offDir s.u off) ⟨nodes s.u, s.root ino⟩ (m.frames.length + 1) .root

/-- `pagecache_file_readpage` up to its `pread`: the page is there, or a page for it
is allocated. -/
def readpage (m : Machine) (s : State) (ino off : Nat) : Option State :=
  if off % 4096 ≠ 0 then none
  else if (s.reading ino).isSome then none
  else do
    match ← search m s ino off with
    | .node a =>
      if s.type a ≠ .pagecache then none
      else some { s with count := update s.count a ((s.count a + 1) % 2 ^ 32) }
    | .slot slot =>
      let (s, page) ← allocPage m s
      match page with
      | none => some s
      | some f =>
        some
          { s with
            reading := update s.reading ino (some ⟨f, off, slot⟩)
            owner := update s.owner f (.reading ino) }

/-- The rest of it, with the result of `pread`. -/
def readDone (m : Machine) (s : State) (ino : Nat) (ret : Int) : Option State := do
  let r ← s.reading ino
  let s := { s with reading := update s.reading ino none }
  if ret ≤ 0 then freePage m s r.page
  else
    let u := setPcOff s.u r.page r.off
    let t ← Tree.insertColor (m.frames.length + 1)
      (Tree.linkNode ⟨nodes u, s.root ino⟩ r.page r.slot) r.page
    some
      { s with
        u := withNodes u t.rb
        type := update s.type r.page .pagecache
        root := update s.root ino t.root
        owner := update s.owner r.page (.cached ino) }

/-- `buddy_init` on a page frame array of zeroes, after `reserve_page_range`. -/
def unpopulated (m : Machine) : State where
  u := withLinks (fun _ => ⟨0, 0, 0, 0, 0⟩) ((links fun _ => ⟨0, 0, 0, 0, 0⟩).initListHead m.freeList)
  count := fun f => if m.reserved f then 1 else 0
  type := fun f => if m.reserved f then .reserved else .free
  nrFreepages := 0
  root := fun _ => 0
  reading := fun _ => none
  owner := fun _ => .reserved

/-- The loop of `ia32_mm_init` that hands the other frames to the allocator. -/
def populate (m : Machine) (s : State) (f : Nat) : Option State :=
  if s.count f ≠ 0 then some s
  else freePage m { s with count := update s.count f 1 } f

def boot (m : Machine) : Option State := m.frames.foldlM (populate m) (unpopulated m)

/-- A slab header is written by its allocator only, `slabStore`. The holder of a page
frees it when no one else has a reference. -/
inductive Label where
  | allocPage
  | freePage (f : Nat)
  | memchunkGet
  | slabStore (f : Nat) (words : Union)
  | memchunkPut (f : Nat)
  | readpage (ino off : Nat)
  | readDone (ino : Nat) (ret : Int)
  deriving DecidableEq, Repr

/-- The frame was handed out by `alloc_page` or by `readpage`, with one reference. -/
def heldOnce (s : State) (f : Nat) : Bool :=
  match s.owner f with
  | .caller => s.count f == 1
  | .cached _ => s.count f == 1
  | _ => false

def step (m : Machine) (s : State) : Label → Option State
  | .allocPage => (allocPage m s).map Prod.fst
  | .freePage f => if heldOnce s f then freePage m s f else none
  | .memchunkGet => memchunkGet m s
  | .slabStore f words =>
    if s.owner f = .slab then some { s with u := update s.u f words } else none
  | .memchunkPut f => if s.owner f = .slab then memchunkPut m s f else none
  | .readpage ino off => readpage m s ino off
  | .readDone ino ret => readDone m s ino ret

def run (m : Machine) (ls : List Label) : Option State :=
  (boot m).bind fun s => Run.exec (step m) s ls

end ScaraOS.Pages
