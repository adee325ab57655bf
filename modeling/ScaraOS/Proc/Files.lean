import ScaraOS.Proc.Model

/-! Files of a task: `kernel/file.c`, `_sys_open`, `_sys_close` and `_sys_read`. -/
namespace ScaraOS.Proc

open Function Paging Mm

variable {R : Type}

/-- The file or `0`. -/
def fileNew (s : Kernel R) (inode mode : Nat) (alloc : Option Nat) :
    Except Halt (Kernel R × Nat) :=
  match alloc with
  | none => .ok (s, 0)
  | some f =>
    if f = 0 ∨ f ∈ s.files then .error (.mm .stuck)
    else .ok ({ s with
      files := insert f s.files
      file := update s.file f ⟨inode, mode, 0, 1⟩ }, f)

/-- The inode keeps its reference. -/
def fileRelease (s : Kernel R) (f : Nat) : Except Halt (Kernel R) :=
  let less := ((s.file f).refcount + (2 ^ 32 - 1)) % 2 ^ 32
  let s := { s with file := update s.file f { s.file f with refcount := less } }
  if less = 0 then
    match objcacheFree2 s.files f with
    | none => .error (.mm .stuck)
    | some files => .ok { s with files := files }
  else .ok s

/-- `fdt_entry_add` on the table at `a`, which is not looked at when there is no file. -/
def fdtEntryAdd (n : Nat) (s : Kernel R) (a file : Nat) (alloc : Option Nat) :
    Except Halt (Kernel R × Int) :=
  if file = 0 then .ok (s, -1)
  else if a = 0 then .error .nullPointer
  else
    match Fdt.fdtEntryAdd n (s.table a) file alloc with
    | none => .error .loop
    | some (t, ret) => .ok ({ s with table := update s.table a t }, ret)

/-- `walks` bounds the walks over the descriptors. -/
structure OpenCall where
  copied : Bool
  mem : Nat → UInt8
  name : Nat
  fuel : Nat
  mode : Nat
  file : Option Nat
  entry : Option Nat
  walks : Nat

def sysOpen (g : Namei.Graph Nat R) (s : Kernel R) (t : Nat) (c : OpenCall) :
    Except Halt (Kernel R × Int) :=
  if c.copied = false then .ok (s, -1)
  else do
    match ← taskNamei g s t c.mem c.fuel c.name with
    | (s, none) => .ok (s, -1)
    | (s, some inode) =>
      let (s, file) ← fileNew s inode c.mode c.file
      fdtEntryAdd c.walks s (s.task t).fdTable file c.entry

def sysClose (s : Kernel R) (t walks handle : Nat) : Except Halt (Kernel R × Int) :=
  let a := (s.task t).fdTable
  if a = 0 then .error .nullPointer
  else
    match Fdt.fdtEntryDel walks (s.table a) handle with
    | none => .error .loop
    | some (table, none) => .ok ({ s with table := update s.table a table }, 0)
    | some (table, some f) => do
      let s ← fileRelease s f
      .ok ({ s with table := update s.table a table }, 0)

/-- `iSize` and `pread` are those of the inodes. -/
structure ReadCall where
  handle : Nat
  buf : Nat
  size : Nat
  walks : Nat
  iSize : Nat → Nat
  pread : (inode size offset : Nat) → Int

def kernelRead (s : Kernel R) (f : Nat) (c : ReadCall) : Kernel R × Int :=
  let file := s.file f
  let ret := c.pread file.inode (min c.size (c.iSize file.inode)) file.offset
  if 0 < ret then
    let file := { file with offset := (file.offset + ret.toNat) % 2 ^ 32 }
    ({ s with file := update s.file f file }, ret)
  else (s, ret)

def sysRead (s : Kernel R) (t : Nat) (c : ReadCall) : Except Halt (Kernel R × Int) :=
  if uaddrOk c.buf c.size = false then .ok (s, -1)
  else if (s.task t).fdTable = 0 then .error .nullPointer
  else
    match Fdt.fdtEntryRetr c.walks (s.table (s.task t).fdTable) c.handle with
    | none => .error .loop
    | some f => if f = 0 then .ok (s, -1) else .ok (kernelRead s f c)

end ScaraOS.Proc
