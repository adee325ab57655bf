import Mathlib.Algebra.Group.Nat.Defs
import ScaraOS.Lib.Loops
import ScaraOS.Paging.Model

/-! Boot memory: `ia32_mm_init` of `arch-ia32/mm.c`, from the map of the BIOS to the
list of free pages. Physical memory is words; the page directory in use, the tables
`map_ram` writes and the page frame array all lie in it, and a page is written only
where the directory of that moment maps it. -/
namespace ScaraOS.Boot

open Function Paging

abbrev Mem := Nat → Nat

def words (m : Mem) : Words := fun f i => m (f * 1024 + i)

def va (x : Nat) : Nat := (x + pageOffset) % 2 ^ 32
def pa (x : Nat) : Nat := (x + (2 ^ 32 - pageOffset)) % 2 ^ 32

/-- An entry of the e820 map. Entries are consistent in size, so that a loop over the
map meets each of them. -/
structure Entry where
  base : Nat
  length : Nat
  type : Nat
  deriving DecidableEq, Repr

def Entry.baseAddrLow (e : Entry) : Nat := e.base % 2 ^ 32
def Entry.lengthLow (e : Entry) : Nat := e.length % 2 ^ 32

def mbfMem : Nat := 1
def mbfBootdev : Nat := 2

/-- `kernel.lnk`: `__rodata_end`, `__init_pgd`, `__init_pgt` and `__bootmem_begin` as page
numbers, and the word `free_list[1]` begins at. `__begin` is at 1 MiB. The tables of 1 GiB
fit behind the kernel in the 4 MiB mapped at first. -/
structure Image where
  rodataEnd : Nat
  initPgd : Nat
  initPgt : Nat
  bootmemBegin : Nat
  freeList : Nat
  code : 256 < rodataEnd
  data : rodataEnd * 1024 ≤ freeList
  bss : freeList + 2 + 2048 ≤ initPgd * 1024
  pgt : initPgt = initPgd + 1
  begins : bootmemBegin = initPgd + 2
  small : bootmemBegin + 256 ≤ 1024

/-- `__begin`, as a page. -/
def imageBegin : Nat := 256

inductive Stop where
  | bug | pageFault
  deriving DecidableEq, Repr

/-- Is the page of `PAGE_OFFSET` on this frame the frame itself? -/
def direct (img : Image) (m : Mem) (page : Nat) : Bool :=
  (translate (words m) img.initPgd (va (page * 4096))).map Mapping.frame = some page

def setupInitmem (img : Image) (m : Mem) : Mem :=
  let m := Loops.stores (fun i => img.initPgd * 1024 + i) (fun _ => 0) (List.range 1024) m
  let m := Loops.stores (fun i => img.initPgt * 1024 + i)
    (fun i => i <<< 12 ||| present ||| readWrite ||| user) (List.range 1024) m
  let m := update m (img.initPgd * 1024) (img.initPgt <<< 12 ||| present ||| readWrite)
  update m (img.initPgd * 1024 + dir pageOffset)
    (img.initPgt <<< 12 ||| present ||| readWrite ||| user)

/-- `bootmem_ptr` and `bootmem_end` are virtual addresses. -/
structure Bootmem where
  mem : Mem
  bootmemPtr : Nat
  bootmemEnd : Nat

def clear (m : Mem) (page pages : Nat) : Mem :=
  fun a => if page ≤ a / 1024 ∧ a / 1024 < page + pages then 0 else m a

/-- The callers have a `BUG_ON` for the result `NULL`. -/
def bootmemAlloc (img : Image) (b : Bootmem) (pages : Nat) : Except Stop (Nat × Bootmem) :=
  if (b.bootmemPtr + pages * 4096) % 2 ^ 32 > b.bootmemEnd then .error .bug
  else if (List.range pages).all fun k => direct img b.mem (pa b.bootmemPtr / 4096 + k) then
    .ok (b.bootmemPtr,
      { b with
        mem := clear b.mem (pa b.bootmemPtr / 4096) pages
        bootmemPtr := (b.bootmemPtr + pages * 4096) % 2 ^ 32 })
  else .error .pageFault

/-- The tables are an array from `pgtbl` on, however many pages were allocated. -/
def mapRam (img : Image) (nrPhyspages pgtbl : Nat) (m : Mem) : Except Stop Mem :=
  if (List.range ((nrPhyspages + 1023) / 1024)).all fun k => direct img m (pa pgtbl / 4096 + k) then
    let m := update m (img.initPgd * 1024) 0
    let m := Loops.stores (fun i => pa pgtbl / 4 + i)
      (fun i => i <<< 12 ||| present ||| readWrite) (List.range nrPhyspages) m
    .ok (Loops.stores (fun i => img.initPgd * 1024 + dir (va (i <<< 12)))
      (fun i => (pa pgtbl + i * 4) ||| present ||| readWrite)
      ((List.range nrPhyspages).filter fun i => i &&& 0x3ff = 0) m)
  else .error .pageFault

/-- The first store after the new tables are in use. They hold the code, data and stack
of the kernel, too, below the page it goes to. -/
def writeProtect (img : Image) (pgtbl vptr len : Nat) (m : Mem) : Except Stop Mem :=
  let paBegin := pa vptr / 4096 * 4096
  let paEnd := (paBegin + len + 0xfff) / 4096 * 4096
  if direct img m (pa pgtbl / 4096) then
    .ok (Loops.stores (fun i => pa pgtbl / 4 + i) (fun i => i <<< 12 ||| present)
      (List.range' (paBegin / 4096) (paEnd / 4096 - paBegin / 4096)) m)
  else .error .pageFault

/-- The entries before the first one that begins where the kernel maps nothing. -/
def scanned (es : List Entry) : List Entry :=
  es.takeWhile fun e => e.baseAddrLow ≤ 0x3fffffff

def sizeUpRam (es : List Entry) : Nat :=
  (scanned es).foldl
    (fun tot e =>
      if e.type ||| (mbfMem ||| mbfBootdev) ≠ 0 then (e.baseAddrLow + e.lengthLow) % 2 ^ 32 else tot)
    0

def setupMaxBootmem (img : Image) (es : List Entry) : Nat :=
  va ((scanned es).foldl
    (fun curEnd e =>
      if curEnd < (e.baseAddrLow + e.lengthLow) % 2 ^ 32 ∧ e.type = mbfMem then
        (e.baseAddrLow + e.lengthLow) % 2 ^ 32
      else curEnd)
    (img.bootmemBegin * 4096))

/-- Word `k` of `pfa[i]`: 0 and 1 are `u.list`, 5 is `count`, 6 `type` and `_flags`. -/
def pageWord (pfa i k : Nat) : Nat := pa pfa / 4 + i * 7 + k

def count (m : Mem) (pfa i : Nat) : Nat := m (pageWord pfa i 5)

def setCount (m : Mem) (pfa i v : Nat) : Mem := update m (pageWord pfa i 5) v

def setType (m : Mem) (pfa i v : Nat) : Mem :=
  update m (pageWord pfa i 6) (m (pageWord pfa i 6) / 65536 * 65536 + v)

def pgFree : Nat := 0
def pgReserved : Nat := 1

def reservePage (pfa : Nat) (m : Mem) (i : Nat) : Mem :=
  setType (setCount m pfa i 1) pfa i pgReserved

def reservePageRange (pfa first last : Nat) (m : Mem) : Mem :=
  (List.range' first (last + 1 - first)).foldl (reservePage pfa) m

def reservePages (pfa vptr len : Nat) (m : Mem) : Mem :=
  let len := (len + (2 ^ 32 - 1)) % 2 ^ 32
  let paBegin := pa vptr / 4096 * 4096
  let paEnd := (pa (vptr + len) + 0xfff) % 2 ^ 32 / 4096 * 4096
  reservePageRange pfa (paBegin / 4096) (paEnd / 4096) m

/-- The hole between `contig_end` and an entry. -/
def reserveHole (pfa : Nat) (s : Mem × Nat) (e : Entry) : Mem × Nat :=
  if e.baseAddrLow ≠ s.2 then
    (reservePages pfa (va s.2) ((e.baseAddrLow + (2 ^ 32 - s.2)) % 2 ^ 32) s.1, e.baseAddrLow)
  else s

/-- One turn of the loop, with `contig_end`. -/
def reserveEntry (pfa : Nat) (s : Mem × Nat) (e : Entry) : Mem × Nat :=
  let s := reserveHole pfa s e
  let m := if e.type ≠ mbfMem then reservePages pfa (va e.baseAddrLow) e.lengthLow s.1 else s.1
  (m, (s.2 + e.lengthLow) % 2 ^ 32)

def reserveFromE820 (pfa : Nat) (es : List Entry) (m : Mem) : Mem :=
  ((scanned es).foldl (reserveEntry pfa) (m, 0)).1

def load (m : Mem) (ptr : Nat) : Nat := m (pa ptr / 4)

def store (m : Mem) (ptr v : Nat) : Mem := update m (pa ptr / 4) v

/-- `INIT_LIST_HEAD` of `free_list[1]`. -/
def buddyInit (img : Image) (m : Mem) : Mem :=
  let head := va (img.freeList * 4)
  store (store m head head) (head + 4) head

def listAddTail (m : Mem) (new head : Nat) : Mem :=
  let prev := load m (head + 4)
  let m := store m (head + 4) new
  let m := store m new head
  let m := store m (new + 4) prev
  store m prev new

/-- `freed` are the frames put on `free_list[1]`, as history. -/
structure State where
  mem : Mem
  bootmemPtr : Nat
  freed : List Nat

def poison (m : Mem) (f : Nat) : Mem := fun a => if a / 1024 = f then 0x5a5a5a5a else m a

/-- `free_page(page_address(p))` of frame `i`. -/
def freePage (img : Image) (pfa : Nat) (s : State) (i : Nat) : Except Stop State :=
  match translate (words s.mem) img.initPgd (va (i * 4096)) with
  | none => .error .pageFault
  | some target =>
    let m := setType (poison s.mem target.frame) pfa i pgFree
    if count m pfa i = 0 then .error .bug
    else
      let m := setCount m pfa i (count m pfa i - 1)
      if count m pfa i ≠ 0 then .error .bug
      else
        .ok { s with
          mem := listAddTail m (pfa + i * 28) (va (img.freeList * 4))
          freed := s.freed ++ [i] }

/-- A turn of the last loop of `ia32_mm_init`. -/
def populate (img : Image) (pfa : Nat) (s : State) (i : Nat) : Except Stop State :=
  if count s.mem pfa i ≠ 0 then .ok s
  else freePage img pfa { s with mem := setCount s.mem pfa i 1 } i

def nrPhyspages (es : List Entry) : Nat := sizeUpRam es / 4096

def nrPgtbls (es : List Entry) : Nat :=
  if sizeUpRam es / 2 ^ 22 = 0 then 1 else sizeUpRam es / 2 ^ 22

def pfaPages (es : List Entry) : Nat := (nrPhyspages es * 28 + 0xfff) / 4096

def pfaPage (img : Image) (es : List Entry) : Nat := img.bootmemBegin + nrPgtbls es
def bootmemPage (img : Image) (es : List Entry) : Nat := pfaPage img es + pfaPages es

/-- The tables, up to `write_protect`. -/
def mapKernel (img : Image) (es : List Entry) (m : Mem) : Except Stop Bootmem := do
  let start := va (img.bootmemBegin * 4096)
  let (tbls, b) ← bootmemAlloc img ⟨setupInitmem img m, start, setupMaxBootmem img es⟩ (nrPgtbls es)
  let m ← mapRam img (nrPhyspages es) tbls b.mem
  let m ← writeProtect img tbls (va (imageBegin * 4096))
    (img.rodataEnd * 4096 - imageBegin * 4096) m
  .ok { b with mem := m }

def frameArray (img : Image) (es : List Entry) (m : Mem) : Except Stop (Nat × Bootmem) := do
  let b ← mapKernel img es m
  let (pfa, b) ← bootmemAlloc img { b with mem := buddyInit img b.mem } (pfaPages es)
  let m := reserveFromE820 pfa es b.mem
  let m := reservePages pfa (va (imageBegin * 4096)) (b.bootmemPtr - va (imageBegin * 4096)) m
  .ok (pfa, { b with mem := m })

/-- `ia32_mm_init` when its last loop has come to frame `k`. -/
def mmInitTo (k : Nat) (img : Image) (es : List Entry) (m : Mem) : Except Stop State := do
  let (pfa, b) ← frameArray img es m
  (List.range k).foldlM (populate img pfa) ⟨b.mem, b.bootmemPtr, []⟩

/-- `mm_init` at its end works on pages it allocates. -/
def ia32MmInit (img : Image) (es : List Entry) (m : Mem) : Except Stop State :=
  mmInitTo (nrPhyspages es) img es m

end ScaraOS.Boot
