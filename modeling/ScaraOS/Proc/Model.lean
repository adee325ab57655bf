import ScaraOS.Exec.Load
import ScaraOS.Fdt.Model
import ScaraOS.Namei.References

/-! Tasks: `_sys_fork` of `kernel/fork.c`, `kernel_thread`, `do_exit` and `flush_delq` of
`kernel/sched.c`, and `do_exec` as a task calls it. A task is known by the page it is in. -/
namespace ScaraOS.Proc

open Function Paging Mm

/-- The fields of a `struct task` that refer to something, and its `pid`. -/
structure Task where
  pid : Nat
  ctx : Nat
  root : Nat
  cwd : Nat
  fdTable : Nat
  deriving DecidableEq, Repr

structure File where
  inode : Nat
  mode : Nat
  offset : Nat
  refcount : Nat
  deriving DecidableEq, Repr

/-- `live` are the tasks that run, wait or sleep, `zombies` those on `delq`. `tables` and
`files` are the objects in use of two caches. `rest` is what a file system works on. -/
structure Kernel (R : Type) where
  world : World
  task : Nat → Task
  live : List Nat
  zombies : List Nat
  idle : Nat
  kthreadCtx : Nat
  nextPid : Nat
  table : Nat → Fdt.Table
  tables : Finset Nat
  file : Nat → File
  files : Finset Nat
  rest : R

/-- Why a call does not return: a stop in the memory management, the use of a null pointer,
the `BUG_ON` of `iput`, or a loop that has not ended. -/
inductive Halt where
  | mm (s : Stop)
  | nullPointer
  | iput
  | loop
  deriving DecidableEq, Repr

variable {R : Type}

def memCtxGet (w : World) (ctx : Nat) : World :=
  let c := w.ctx ctx
  { w with ctx := update w.ctx ctx { c with count := (c.count + 1) % 2 ^ 32 } }

/-- `alloc` is what `alloc_page` returns. -/
def allocPage (w : World) (alloc : Option Nat) : Except Halt (World × Option Nat) :=
  match alloc with
  | none => .ok (w, none)
  | some f =>
    if f ∈ w.frames then .error (.mm .stuck)
    else .ok ({ w with frames := insert f w.frames }, some f)

def freePage (w : World) (f : Nat) : Except Halt World :=
  if f ∈ w.frames then .ok { w with frames := w.frames.erase f } else .error (.mm .stuck)

/-- `tsk->root = iref(current->root)` and the same for `cwd`, each only if there is one. -/
def irefFs (w : World) (parent : Task) : World :=
  let count := if parent.root ≠ 0 then iref w.iCount parent.root else w.iCount
  { w with iCount := if parent.cwd ≠ 0 then iref count parent.cwd else count }

def pidAlloc (s : Kernel R) : Kernel R × Nat :=
  let pid := (s.nextPid + 1) % 2 ^ 32
  ({ s with nextPid := pid }, pid)

def taskToRunq (s : Kernel R) (f : Nat) (t : Task) : Kernel R :=
  { s with
    task := update s.task f t
    live := f :: s.live }

def forkMem : Nat := 1
def forkPid : Nat := 2
def forkFd : Nat := 4
def forkFunc : Nat := 16

structure ForkArgs where
  flags : Nat
  fn : Nat
  stack : Nat
  deriving DecidableEq, Repr

def ForkArgs.refused (a : ForkArgs) : Bool :=
  a.flags &&& forkFunc ≠ 0 ∧ ¬ (uaddrOk a.fn 0 ∧ uaddrOk a.stack 0)

/-- What a fork meets: the allocations of `mem_ctx_clone`, the page of the child, and what is
read through a null pointer, if that is not a fault. -/
structure ForkGrants where
  clone : Mm.Supply
  page : Option Nat
  null : Option Nat
  deriving DecidableEq, Repr

def forkCtx (w : World) (ctx flags : Nat) (supply : Mm.Supply) : Except Halt (World × Nat) :=
  if flags &&& forkMem ≠ 0 then
    match memCtxClone (walk w) w ctx supply with
    | none => .error (.mm .stuck)
    | some r => .ok r
  else .ok (memCtxGet w ctx, ctx)

/-- The stores to the child's page cannot fail. `task_clone` reads the page directory of its
context. -/
def sysFork (s : Kernel R) (current : Nat) (a : ForkArgs) (g : ForkGrants) :
    Except Halt (Kernel R × Int) :=
  if a.refused then .ok (s, -1)
  else do
    let parent := s.task current
    let (s, pid) := if a.flags &&& forkPid ≠ 0 then pidAlloc s else (s, parent.pid)
    let (w, mm) ← forkCtx s.world parent.ctx a.flags g.clone
    match ← allocPage w g.page with
    | (w, none) => .ok ({ s with world := w }, -1)
    | (w, some f) =>
      if mm = 0 ∧ g.null = none then .error .nullPointer
      else .ok (taskToRunq { s with world := irefFs w parent } f
        ⟨pid, mm, parent.root, parent.cwd, 0⟩, Fdt.toInt pid)

structure ThreadGrants where
  page : Option Nat
  table : Option Nat
  fdAlloc : Option Nat
  deriving DecidableEq, Repr

/-- The table or `0`. -/
def fdTableInit (s : Kernel R) (g : ThreadGrants) : Except Halt (Kernel R × Nat) :=
  match g.table, g.fdAlloc with
  | none, _ => .ok (s, 0)
  | some _, none => .ok (s, 0)
  | some a, some c =>
    if a = 0 ∨ a ∈ s.tables then .error (.mm .stuck)
    else .ok ({ s with
      tables := insert a s.tables
      table := update s.table a (Fdt.fdTableInit (s.table a) c) }, a)

def kernelThread (s : Kernel R) (current : Nat) (g : ThreadGrants) :
    Except Halt (Kernel R × Int) := do
  match ← allocPage s.world g.page with
  | (w, none) => .ok ({ s with world := w }, -1)
  | (w, some f) =>
    let parent := s.task current
    let (s, pid) := pidAlloc { s with world := irefFs (memCtxGet w s.kthreadCtx) parent }
    let (s, table) ← fdTableInit s g
    .ok (taskToRunq s f ⟨pid, s.kthreadCtx, parent.root, parent.cwd, table⟩, Fdt.toInt pid)

/-- `do_exit` up to its call of `sched`. -/
def doExit (s : Kernel R) (t : Nat) : Kernel R :=
  { s with live := s.live.erase t, zombies := s.zombies ++ [t] }

/-- One round of `flush_delq`. -/
def reap (s : Kernel R) (t : Nat) : Except Halt (Kernel R) := do
  let w ← freePage s.world t
  .ok { s with world := w, zombies := s.zombies.erase t }

/-- An exec of a path at `name` that has been copied or not; `image` is the content of the
files. -/
structure ExecCall where
  copied : Bool
  mem : Nat → UInt8
  name : Nat
  fuel : Nat
  image : Nat → Exec.Image
  supply : Exec.Supply

def taskNamei (g : Namei.Graph Nat R) (s : Kernel R) (t : Nat) (mem : Nat → UInt8)
    (fuel name : Nat) : Except Halt (Kernel R × Option Nat) :=
  let me := s.task t
  if (if mem name = Namei.slash then me.root else me.cwd) = 0 then .error .nullPointer
  else
    match Namei.namei g.vfs mem me.root me.cwd fuel name ⟨s.world.iCount, s.rest⟩ with
    | none => .error .iput
    | some (ino, r) =>
      .ok ({ s with world := { s.world with iCount := r.count }, rest := r.rest }, ino)

def doExec (k : Exec.Kernel) (g : Namei.Graph Nat R) (s : Kernel R) (t : Nat) (c : ExecCall) :
    Except Halt (Kernel R × Int) :=
  if c.copied = false then .ok (s, -1)
  else do
    match ← taskNamei g s t c.mem c.fuel c.name with
    | (s, none) => .ok (s, -1)
    | (s, some ino) =>
      match Exec.execImage k s.world ino (s.task t).ctx (c.image ino) c.supply with
      | .error e => .error (.mm e)
      | .ok (w, none) => .ok ({ s with world := w }, -1)
      | .ok (w, some ctx) =>
        let me := { s.task t with ctx := ctx }
        .ok ({ s with world := w, task := update s.task t me }, 0)

end ScaraOS.Proc
