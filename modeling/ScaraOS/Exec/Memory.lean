import ScaraOS.Exec.Content
import ScaraOS.Lib.Run
import ScaraOS.Mm.Fault

/-! The memory of a program that has been loaded: what its accesses do and which bytes
they see. Page tables are the words of the frames in `sys`; the bytes of the pages that
users see are kept apart from them, since no frame is both. -/
namespace ScaraOS.Exec

open Function RbTree Paging Mm

/-- `cache` is the frame of each page of a file that is in a page cache, by inode and
offset, and `pages` are the frames with the pages of files and users. -/
structure Memory where
  sys : System
  cache : Nat × Nat → Option Nat
  pages : Finset Nat
  data : Nat → Nat → UInt8

def Memory.fresh (m : Memory) (f : Nat) : Bool := available m.sys f ∧ f ∉ m.pages

def Memory.give (m : Memory) (f : Nat) (bytes : Nat → UInt8) : Memory :=
  { m with data := update m.data f bytes, pages := insert f m.pages }

/-- An access, with the byte a write stores. `page` and `table` are what `alloc_page`
gives, should a page and a page table be needed. -/
structure Touch where
  va : Nat
  store : Option UInt8
  page : Option Nat
  table : Option Nat
  deriving DecidableEq, Repr

/-- The page of an area at an address, and its frame: `readpage`, or a cleared new page.
No result is a `BUG_ON`, or a frame that is in use. -/
def getFrame (d : Disk) (m : Memory) (v : Vma) (va : Nat) (page : Option Nat) :
    Option (Option (Memory × Nat)) :=
  match pageSource v va with
  | some key =>
    if key.2 % 4096 ≠ 0 then none
    else
      match m.cache key, page with
      | some f, _ => some (some (m, f))
      | none, none => some none
      | none, some f =>
        if m.fresh f then
          (readPage d key.1 key.2 (m.data f)).map fun r => r.map fun bytes =>
            ({ m.give f bytes with cache := update m.cache key (some f) }, f)
        else none
  | none =>
    match page with
    | none => some none
    | some f => if m.fresh f then some (some (m.give f fun _ => 0, f)) else none

/-- The page fault of an access; `some none` is the end of the task. -/
def fault (d : Disk) (fuel : Nat) (ctx : MemCtx) (m : Memory) (a : Touch) :
    Option (Option Memory) :=
  let prot := protOf a.store.isSome
  (lookupVma ctx.vma a.va fuel ctx.root).bind fun n =>
    if n = 0 then some none
    else if (ctx.vma n).vmaProt &&& prot = 0 then some none
    else
      (getFrame d m (ctx.vma n) a.va a.page).bind fun r =>
        match r with
        | none => some none
        | some (m, f) =>
          if a.table.all m.fresh then
            (mmPagefault fuel ctx m.sys ⟨a.va, a.store.isSome, some f, a.table⟩ prot).map fun x =>
              if x.2 = 0 then some { m with sys := x.1 } else none
          else none

/-- The access to a page that is there, with the byte that was there; none is a
protection fault, which ends the task. -/
def use (ctx : MemCtx) (m : Memory) (a : Touch) : Option (Memory × UInt8) :=
  match translate m.sys.word ctx.pgd a.va with
  | none => none
  | some p =>
    if p.user = true ∧ (a.store.isSome = true → p.rw = true) then
      let data := match a.store with
        | none => m.data
        | some v => update m.data p.frame
            (update (m.data p.frame) (a.va % 4096) v)
      some ({ m with data := data }, m.data p.frame (a.va % 4096))
    else none

def touch (d : Disk) (fuel : Nat) (ctx : MemCtx) (m : Memory) (a : Touch) :
    Option (Option (Memory × UInt8)) :=
  match translate m.sys.word ctx.pgd a.va with
  | some _ => some (use ctx m a)
  | none => (fault d fuel ctx m a).map fun r => r.bind fun m => use ctx m a

def touched (d : Disk) (fuel : Nat) (ctx : MemCtx) (m : Memory) (a : Touch) : Option Memory :=
  (touch d fuel ctx m a).join.map Prod.fst

/-- What is in the page caches is what the files hold, and pages are not tables. -/
structure Sound (d : Disk) (m : Memory) : Prop where
  pages : ∀ f ∈ m.pages, f < nrFrames ∧ f ∉ m.sys.used
  cached : ∀ key f, m.cache key = some f → f ∈ m.pages ∧ readable d key.1 key.2 ∧
    ∀ j < 4096, m.data f j = pageByte d key.1 key.2 j

/-- Memory when the program begins: none of its pages is there, and the kernel's are not
for users. -/
structure Start (d : Disk) (ctx : MemCtx) (m : Memory) : Prop extends Sound d m where
  wf : ∃ slot, Wf m.sys slot
  here : ctx.pgd ∈ m.sys.ctxs
  empty : ∀ i < userSlots, m.sys.word ctx.pgd i &&& present = 0
  kernel : ∀ i, userSlots ≤ i → m.sys.word ctx.pgd i &&& user = 0

def Granted (m : Memory) (page table : Nat) : Prop :=
  m.fresh page = true ∧ m.fresh table = true ∧ page ≠ table

/-- Whatever the program has touched before, and however memory was when it began: the
first read of this address gives this byte. -/
def Yields (d : Disk) (fuel : Nat) (ctx : MemCtx) (va : Nat) (e : UInt8) : Prop :=
  ∀ m₀, Start d ctx m₀ → ∀ as m, Run.exec (touched d fuel ctx) m₀ as = some m →
    (∀ a ∈ as, a.va < 2 ^ 32 ∧ (a.va = va → a.store = none)) → ∀ page table, Granted m page table →
      ∃ m', touch d fuel ctx m ⟨va, none, some page, some table⟩ = some (some (m', e))

def areaByte (d : Disk) (v : Vma) (va j : Nat) : Option UInt8 :=
  match pageSource v va with
  | none => some 0
  | some key => if readable d key.1 key.2 then some (pageByte d key.1 key.2 j) else none

def brings (d : Disk) (ctx : MemCtx) (shape : Shape) (b va : Nat) : Option UInt8 :=
  (covering ctx.vma b shape).bind fun n => areaByte d (ctx.vma n) b (va % 4096)

structure Loaded (ctx : MemCtx) (shape : Shape) : Prop where
  rep : Rep (fun n => (ctx.vma n).rbt) ctx.root 0 shape
  read : ∀ n ∈ shape.inorder, (ctx.vma n).vmaProt &&& protRead ≠ 0
  readOnly : ∀ n ∈ shape.inorder, (ctx.vma n).vmaIno ≠ 0 → (ctx.vma n).vmaProt &&& protWrite = 0
  offset : ∀ n ∈ shape.inorder, (ctx.vma n).vmaOff % 4096 = 0

end ScaraOS.Exec
