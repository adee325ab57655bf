import ScaraOS.Lib.RbTree
import ScaraOS.Paging.Model

/-! The areas of an address space and the page fault handler: `lookup_vma` and
`mm_pagefault` of `kernel/mm.c`, `page_fault` of `arch-ia32/idt.c`. A `struct vma`
starts with its tree node, so a pointer to the one is a pointer to the other. -/
namespace ScaraOS.Mm

open RbTree Paging

structure Vma where
  rbt : RbNode
  vmaBegin : Nat
  vmaEnd : Nat
  vmaProt : Nat
  vmaOff : Nat
  vmaIno : Nat
  deriving DecidableEq, Repr

/-- The loop of `lookup_vma` from node `n`, `0` for `NULL`. No result is a walk longer
than the fuel. -/
def lookupVma (vma : Nat → Vma) (va : Nat) : Nat → Nat → Option Nat
  | 0, _ => none
  | k + 1, n =>
    if n = 0 then some 0
    else if va < (vma n).vmaBegin then lookupVma vma va k (vma n).rbt.left
    else if va > (vma n).vmaEnd then lookupVma vma va k (vma n).rbt.right
    else some n

structure MemCtx where
  vma : Nat → Vma
  root : Nat
  pgd : Nat

/-- The inode and the offset `readpage` is asked for; `none` for an anonymous area. -/
def pageSource (v : Vma) (va : Nat) : Option (Nat × Nat) :=
  if v.vmaIno ≠ 0 then
    some (v.vmaIno, (v.vmaOff + pgVal ((va + (2 ^ 32 - v.vmaBegin)) % 2 ^ 32)) % 2 ^ 32)
  else none

/-- A user access. `page` is what `readpage` or `alloc_page` gives, should the access
fault, and `table` what `alloc_page` gives `map_page_to_ctx`. -/
structure Access where
  va : Nat
  write : Bool
  page : Option Nat
  table : Option Nat
  deriving DecidableEq, Repr

def mmPagefault (fuel : Nat) (ctx : MemCtx) (s : System) (a : Access) (prot : Nat) :
    Option (System × Int) := do
  let n ← lookupVma ctx.vma a.va fuel ctx.root
  if n = 0 then some (s, -1)
  else if (ctx.vma n).vmaProt &&& prot = 0 then some (s, -1)
  else
    match a.page with
    | none => some (s, -1)
    | some page =>
      -- An anonymous page is cleared, a page of a file comes as it is.
      let s := match pageSource (ctx.vma n) a.va with
        | some _ => s
        | none => { s with word := clearFrame s.word page }
      let (_, ret) ← mapPageToCtx s.word ctx.pgd page (pgVal a.va) prot a.table
      let t ← mapCall s ctx.pgd ⟨page, pgVal a.va, prot, a.table⟩
      if ret ≠ 0 then some (t, -1) else some (t, 0)

def pagefaultProtection : Nat := 1
def pagefaultWrite : Nat := 2
def pagefaultUser : Nat := 4

/-- `killed` is `_sys_exit`; what the kernel does about its own faults is left open. -/
inductive Outcome where
  | returned | killed | kernelFault
  deriving DecidableEq, Repr

def protOf (write : Bool) : Nat := if write then protWrite else protRead

/-- `page_fault` with this error code. The branch for copy on write repeats the test of
the one before it, so it is never taken. -/
def pageFault (fuel : Nat) (ctx : MemCtx) (s : System) (a : Access) (errCode : Nat) :
    Option (System × Outcome) :=
  let prot := protOf (errCode &&& pagefaultWrite ≠ 0)
  let failed := if errCode &&& pagefaultUser ≠ 0 then Outcome.killed else .kernelFault
  if errCode &&& pagefaultProtection = 0 then
    (mmPagefault fuel ctx s a prot).map fun r =>
      if r.2 = 0 then (r.1, .returned) else (r.1, failed)
  else some (s, failed)

def errorCode (there write : Bool) : Nat :=
  pagefaultUser ||| (if write then pagefaultWrite else 0) |||
    (if there then pagefaultProtection else 0)

/-- The hardware: a page that is not there faults, and so does a write to one that is
read-only. A fault that is handled lets the instruction run again. -/
def access (fuel : Nat) (ctx : MemCtx) (s : System) (a : Access) : Option (System × Outcome) :=
  match translate s.word ctx.pgd a.va with
  | none => pageFault fuel ctx s a (errorCode false a.write)
  | some m =>
    if a.write = true → m.rw = true then some (s, .returned)
    else pageFault fuel ctx s a (errorCode true a.write)

def accesses (fuel : Nat) (ctx : MemCtx) : System → List Access → Option Outcome
  | _, [] => some .returned
  | s, a :: rest =>
    (access fuel ctx s a).bind fun r =>
      if r.2 = .returned then accesses fuel ctx r.1 rest else some r.2

end ScaraOS.Mm
