import Mathlib.Algebra.Group.Int.Defs
import Mathlib.Algebra.Group.Nat.Defs
import ScaraOS.Layout
import ScaraOS.Lib.Links

/-! The per-process file descriptor table: `kernel/fdt.c`. Entries hang on the list
head of the `fd_table` by the `list_head` at their own start, so `container_of`
turns the head into an entry as well: its handle is then the word behind the head,
the `fd_alloc` pointer, and its file and reference count are the two words behind
the table. Loops take fuel; `none` is a loop that has not ended. -/
namespace ScaraOS.Fdt

open Function

inductive Cell where
  | fds
  | entry (a : Nat)
  deriving DecidableEq, Repr

/-- The words of every entry, and of the head read as one. -/
structure Table where
  links : Links Cell
  handle : Cell → Nat
  file : Cell → Nat
  refcount : Cell → Nat

/-- `fd_table_init` in a memory that holds anything. -/
def fdTableInit (memory : Table) (fdAlloc : Nat) : Table :=
  { memory with
    links := memory.links.initListHead .fds
    handle := update memory.handle .fds fdAlloc }

/-- `list_for_each_entry_safe` with the first statement all three functions put into
its body: the cursor moves to the entry behind `tmp`. The body answers whether it
returns from the function. -/
def forEachEntrySafe {β : Type} (σ : Links Cell) (body : Cell → β → β × Bool) :
    Nat → Cell → Cell → β → Option β
  | 0, _, _, _ => none
  | n + 1, fdt, tmp, acc =>
    if fdt = .fds then some acc
    else
      let fdt := σ.next tmp
      match body fdt acc with
      | (acc, true) => some acc
      | (acc, false) => forEachEntrySafe σ body n tmp (σ.next tmp) acc

def overFds {β : Type} (t : Table) (body : Cell → β → β × Bool) (n : Nat) (acc : β) : Option β :=
  forEachEntrySafe t.links body n (t.links.next .fds) (t.links.next (t.links.next .fds)) acc

def handlePass (t : Table) (n handle : Nat) : Option Nat :=
  overFds t (fun fdt handle =>
    (if t.handle fdt = handle then (handle + 1) % wordSize else handle, false)) n handle

def handleSearch (t : Table) (fuel : Nat) : Nat → Nat → Option Nat
  | 0, _ => none
  | n + 1, oldHandle =>
    (handlePass t fuel oldHandle).bind fun handle =>
      if oldHandle ≠ handle then handleSearch t fuel n handle else some handle

/-- The conversion of the `unsigned int` to the result type. -/
def toInt (handle : Nat) : Int := if handle < 2 ^ 31 then handle else handle - 2 ^ 32

/-- `alloc` is what `objcache_alloc0` returns, `none` for `NULL`. -/
def fdtEntryAdd (n : Nat) (t : Table) (file : Nat) (alloc : Option Nat) : Option (Table × Int) :=
  if file = 0 then some (t, -1)
  else match alloc with
    | none => some (t, -1)
    | some a =>
      let handle := if t.links.listEmpty .fds then some 0 else handleSearch t n n 0
      handle.map fun handle =>
        ({ links := t.links.listAdd (.entry a) .fds
           handle := update t.handle (.entry a) handle
           file := update t.file (.entry a) file
           refcount := update t.refcount (.entry a) 1 }, toInt handle)

/-- The cell at which the walks of `fdt_entry_retr` and `fdt_entry_del` stop. -/
def findHandle (n : Nat) (t : Table) (handle : Nat) : Option (Option Cell) :=
  if t.links.listEmpty .fds then some none
  else overFds t (fun fdt found =>
    if t.handle fdt = handle then (some fdt, true) else (found, false)) n none

def fdtEntryRetr (n : Nat) (t : Table) (handle : Nat) : Option Nat :=
  (findHandle n t handle).map fun found => (found.map t.file).getD 0

/-- The second component is the file given to `file_release`. -/
def fdtEntryDel (n : Nat) (t : Table) (handle : Nat) : Option (Table × Option Nat) :=
  (findHandle n t handle).map fun found =>
    match found with
    | none => (t, none)
    | some fdt =>
      if t.refcount fdt = 1 then
        ({ t with links := t.links.listDel fdt }, some (t.file fdt))
      else
        let less := (t.refcount fdt + (wordSize - 1)) % wordSize
        ({ t with refcount := update t.refcount fdt less }, none)

end ScaraOS.Fdt
