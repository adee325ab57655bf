import ScaraOS.Lib.Bytes
import ScaraOS.Mm.Setup

/-! Loading a program: `do_exec` of `kernel/exec.c` from the inode on. The file is seen
through its `pread`, which may return anything. -/
namespace ScaraOS.Exec

open Paging Mm

structure Ehdr where
  eIdent : Nat → UInt8
  eType : Nat
  eMachine : Nat
  ePhoff : Nat
  ePhentsize : Nat
  ePhnum : Nat

structure Phdr where
  pType : Nat
  pOffset : Nat
  pVaddr : Nat
  pFilesz : Nat
  pMemsz : Nat
  deriving DecidableEq, Repr

def ehdrSize : Nat := 52
def phdrSize : Nat := 32
def eiNident : Nat := 16
def etExec : Nat := 2
def em386 : Nat := 3
def ptLoad : Nat := 1

def load16 (m : Bytes.Mem) (a : Nat) : Nat := (m a).toNat + 2 ^ 8 * (m (a + 1)).toNat

def ehdr (buf : Bytes.Mem) : Ehdr where
  eIdent := buf
  eType := load16 buf 16
  eMachine := load16 buf 18
  ePhoff := Bytes.load32 buf 28
  ePhentsize := load16 buf 42
  ePhnum := load16 buf 44

def phdr (buf : Bytes.Mem) (a : Nat) : Phdr where
  pType := Bytes.load32 buf a
  pOffset := Bytes.load32 buf (a + 4)
  pVaddr := Bytes.load32 buf (a + 8)
  pFilesz := Bytes.load32 buf (a + 16)
  pMemsz := Bytes.load32 buf (a + 20)

/-- The value a `pread` of `len` bytes at `off` returns, and the buffer after it. -/
structure Image where
  pread : (len off : Nat) → Int × Bytes.Mem

/-- `__init_pgd`, and the bytes that happen to follow the string `ELFMAG`. -/
structure Kernel where
  initPgd : Nat
  rodata : Nat → UInt8

def elfmag (k : Kernel) : Nat → UInt8
  | 0 => 0x7f
  | 1 => 0x45
  | 2 => 0x4c
  | 3 => 0x46
  | 4 => 0
  | i => k.rodata i

/-- A short read is refused, and so is a header whose identification is equal to the
sixteen bytes at `ELFMAG`. -/
def readHeader (k : Kernel) (image : Image) : Option Ehdr :=
  let (ret, buf) := image.pread ehdrSize 0
  let hdr := ehdr buf
  if ret ≤ 0 ∨ ret ≠ ehdrSize then none
  else if ∀ i < eiNident, hdr.eIdent i = elfmag k i then none
  else if hdr.eType ≠ etExec then none
  else if hdr.eMachine ≠ em386 then none
  else if hdr.ePhentsize < phdrSize then none
  else some hdr

def phbufsz (hdr : Ehdr) : Nat := hdr.ePhentsize * hdr.ePhnum

def readPhdrs (image : Image) (hdr : Ehdr) : Option (List Phdr) :=
  let (ret, buf) := image.pread (phbufsz hdr) hdr.ePhoff
  if ret ≤ 0 ∨ ret ≠ phbufsz hdr then none
  else some ((List.range hdr.ePhnum).map fun i => phdr buf (i * hdr.ePhentsize))

def userStackBase : Nat := 0x80000000
def userStackSize : Nat := 128 * 4096

def stack : Request :=
  ⟨userStackBase - userStackSize, userStackSize, protRead ||| protWrite, 0, 0⟩

def request (ino : Nat) (p : Phdr) : Request :=
  if p.pFilesz ≠ 0 then ⟨p.pVaddr, p.pMemsz, protRead ||| protExec, ino, p.pOffset⟩
  else ⟨p.pVaddr, p.pMemsz, protRead ||| protWrite, 0, 0⟩

def requests (ino : Nat) (ps : List Phdr) : List Request :=
  (ps.filter fun p => p.pType = ptLoad).map (request ino) ++ [stack]

def setupAll (w : World) (ctx : Nat) :
    List Request → List (Option Nat) → Except Stop (World × Bool)
  | [], _ => .ok (w, true)
  | _ :: _, [] => .error .stuck
  | r :: rs, alloc :: supply =>
    match setupVma w ctx r alloc with
    | .error e => .error e
    | .ok (w, ret) => if ret ≠ 0 then .ok (w, false) else setupAll w ctx rs supply

/-- What the allocations of one exec give: `kmalloc`, the context, its page directory,
the areas. -/
structure Supply where
  phbuf : Bool
  ctx : Option Nat
  pgd : Option Nat
  vmas : List (Option Nat)
  deriving DecidableEq, Repr

/-- `do_exec` by a task whose context is `old`. The context the task has after a return of
`0`, none for `-1`. -/
def execImage (k : Kernel) (w : World) (ino old : Nat) (image : Image) (supply : Supply) :
    Except Stop (World × Option Nat) :=
  match readHeader k image with
  | none => .ok (w, none)
  | some hdr =>
    if supply.phbuf = false then .ok (w, none)
    else
      match readPhdrs image hdr with
      | none => .ok (w, none)
      | some ps =>
        match memCtxNew k.initPgd w supply.ctx supply.pgd with
        | .error e => .error e
        | .ok (w, ctx) =>
          if ctx = 0 then .ok (w, none)
          else
            match setupAll w ctx (requests ino ps) supply.vmas with
            | .error e => .error e
            | .ok (w, false) => (memCtxPut w ctx).map fun w => (w, none)
            | .ok (w, true) => (memCtxPut w old).map fun w => (w, some ctx)

def programHeaders (k : Kernel) (image : Image) : Option (List Phdr) :=
  (readHeader k image).bind (readPhdrs image)

end ScaraOS.Exec
