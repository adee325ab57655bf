import Mathlib.Data.Finset.Basic
import ScaraOS.Layout
import ScaraOS.Lib.Bits

/-! Address spaces: the page directories and page tables of `arch-ia32/mm.c`. Physical
memory is seen as frames of 1024 words, and the kernel reaches a frame through its
own mapping, so `__va` of a physical address is the frame it lies in. -/
namespace ScaraOS.Paging

def userSlots : Nat := 768

def dir (x : Nat) : Nat := (x &&& 0xFFC00000) >>> 22
def tbl (x : Nat) : Nat := (x &&& 0x003FF000) >>> 12
def pgVal (x : Nat) : Nat := x &&& 0xFFFFF000

/- The flags of directory and table entries have the same bits. -/
def present : Nat := 1
def readWrite : Nat := 2
def user : Nat := 4

def protRead : Nat := 1
def protExec : Nat := 4
def protWrite : Nat := 8

abbrev Words := Nat → Nat → Nat

def setWord (m : Words) (f i v : Nat) : Words := fun g j => if g = f ∧ j = i then v else m g j

def clearFrame (m : Words) (f : Nat) : Words := fun g j => if g = f then 0 else m g j

def copyFrame (m : Words) (source f : Nat) : Words := fun g j => if g = f then m source j else m g j

/-- The entry of a page table that `map_page_to_ctx` adds to a directory. -/
def pdeWord (f : Nat) : Nat := f <<< 12 ||| present ||| readWrite ||| user

def pteWord (page prot : Nat) : Nat :=
  let tblent := page <<< 12 ||| present ||| user
  if prot &&& protWrite ≠ 0 then tblent ||| readWrite else tblent

def tableOf (pde : Nat) : Nat := pgVal pde >>> 12

/-- `alloc` is the frame `alloc_page` returns, should it be called. No result is the `BUG_ON`. -/
def mapPageToCtx (m : Words) (pgd page addr prot : Nat) (alloc : Option Nat) :
    Option (Words × Int) :=
  if addr ≥ pageOffset then none
  else if m pgd (dir addr) &&& present = 0 then
    match alloc with
    | none => some (m, -1)
    | some f =>
      let m := clearFrame m f
      let m := setWord m pgd (dir addr) (pdeWord f)
      some (setWord m f (tbl addr) (pteWord page prot), 0)
  else
    some (setWord m (tableOf (m pgd (dir addr))) (tbl addr) (pteWord page prot), 0)

structure Mapping where
  frame : Nat
  rw : Bool
  user : Bool
  deriving DecidableEq, Repr

def translate (m : Words) (pgd va : Nat) : Option Mapping :=
  let pde := m pgd (dir va)
  if pde &&& present = 0 then none
  else
    let pte := m (tableOf pde) (tbl va)
    if pte &&& present = 0 then none
    else some {
      frame := tableOf pte
      rw := pde &&& readWrite ≠ 0 ∧ pte &&& readWrite ≠ 0
      user := pde &&& user ≠ 0 ∧ pte &&& user ≠ 0 }

/-- `ctxs` are the page directories of the contexts that exist; the first of all is
`__init_pgd`. `used` are the frames that hold a directory or a table. -/
structure System where
  word : Words
  ctxs : List Nat
  used : Finset Nat

def available (s : System) (f : Nat) : Bool := f < nrFrames ∧ f ∉ s.used

/-- `setup_new_ctx` copies `__init_pgd`, `clone_ctx` the directory of another context. -/
def cloneCtx (s : System) (old f : Nat) : Option System :=
  if old ∈ s.ctxs ∧ available s f then
    some { word := copyFrame s.word old f, ctxs := s.ctxs ++ [f], used := insert f s.used }
  else none

structure MapCall where
  page : Nat
  addr : Nat
  prot : Nat
  alloc : Option Nat
  deriving DecidableEq, Repr

/-- A frame is taken for a table only when the directory slot is empty. -/
def usedAfter (s : System) (pgd : Nat) (c : MapCall) : Finset Nat :=
  if s.word pgd (dir c.addr) &&& present = 0 then
    match c.alloc with
    | none => s.used
    | some f => insert f s.used
  else s.used

def mapCall (s : System) (pgd : Nat) (c : MapCall) : Option System :=
  if pgd ∈ s.ctxs ∧ c.alloc.all (available s) ∧ c.page < nrFrames then
    (mapPageToCtx s.word pgd c.page c.addr c.prot c.alloc).map fun r =>
      { s with word := r.1, used := usedAfter s pgd c }
  else none

def mapCalls (pgd : Nat) : System → List MapCall → Option System
  | s, [] => some s
  | s, c :: rest => (mapCall s pgd c).bind fun t => mapCalls pgd t rest

/-- `destroy_ctx`; the page tables are left behind. -/
def destroyCtx (s : System) (pgd : Nat) : Option System :=
  if pgd ∈ s.ctxs then some { s with ctxs := s.ctxs.erase pgd, used := s.used.erase pgd }
  else none

/-- What may happen to the address spaces. Frames that hold neither a directory nor a
table belong to others, who write what they like. -/
inductive Op where
  | clone (old f : Nat)
  | map (pgd : Nat) (c : MapCall)
  | destroy (pgd : Nat)
  | other (f i v : Nat)
  deriving DecidableEq, Repr

def step (s : System) : Op → Option System
  | .clone old f => cloneCtx s old f
  | .map pgd c => mapCall s pgd c
  | .destroy pgd => destroyCtx s pgd
  | .other f i v => if f ∈ s.used then none else some { s with word := setWord s.word f i v }

/-- After boot: `map_ram` has cleared the identity map, so `__init_pgd` has kernel slots only. -/
def boot (memory : Words) (initPgd : Nat) : System where
  word := fun g j => if g = initPgd ∧ j < userSlots then 0 else memory g j
  ctxs := [initPgd]
  used := {initPgd}

end ScaraOS.Paging
