import ScaraOS.Mm.Model

/-! Memory contexts as objects: `mem_ctx_clone` and `mem_ctx_free` of `kernel/mm.c`
with the recursions over the tree of areas. Object caches are seen as the sets of
objects they have handed out; what an allocation gives is part of the label. -/
namespace ScaraOS.Mm

open Function RbTree Paging

/-- `struct mem_ctx`: the root of the areas, the page directory, the reference count. -/
structure CtxObject where
  rbNode : Nat
  pgd : Nat
  count : Nat
  deriving DecidableEq, Repr

/-- `vmas` and `memctx` are the objects in use of the two caches, `frames` the pages. -/
structure World where
  vma : Nat → Vma
  ctx : Nat → CtxObject
  vmas : Finset Nat
  memctx : Finset Nat
  frames : Finset Nat
  word : Words
  iCount : Nat → Nat

/-- `none` is the `NULL` of a failed allocation. No result is an object still in use. -/
def objcacheAlloc (live : Finset Nat) : Option Nat → Option (Finset Nat × Nat)
  | none => some (live, 0)
  | some a => if a = 0 ∨ a ∈ live then none else some (insert a live, a)

/-- No result is the panic on an object that is not in use. -/
def objcacheFree2 (live : Finset Nat) (a : Nat) : Option (Finset Nat) :=
  if a ∈ live then some (live.erase a) else none

def iref (iCount : Nat → Nat) (ino : Nat) : Nat → Nat :=
  update iCount ino ((iCount ino + 1) % 2 ^ 32)

/-- The copy of an area: all but the tree node, and a reference to the inode if any. -/
def copyVma (w : World) (orig new : Nat) : World :=
  let v := { w.vma orig with rbt := ⟨0, 0, 0⟩ }
  { w with
    vma := update w.vma new v
    iCount := if v.vmaIno ≠ 0 then iref w.iCount v.vmaIno else w.iCount }

/-- A `struct rb_node **`. -/
inductive Link where
  | root (ctx : Nat)
  | left (vma : Nat)
  | right (vma : Nat)
  deriving DecidableEq, Repr

/-- `supply` has the results of the allocations to come and is returned with those left.
Nothing is stored through `pnew`. -/
def doCloneVma : Nat → World → List (Option Nat) → Nat → Link →
    Option (World × List (Option Nat) × Bool)
  | 0, _, _, _, _ => none
  | fuel + 1, w, supply, orig, _pnew =>
    if orig = 0 then some (w, supply, true)
    else
      match supply with
      | [] => none
      | x :: supply =>
        (objcacheAlloc w.vmas x).bind fun (vmas, new) =>
          if new = 0 then some ({ w with vmas := vmas }, supply, false)
          else
            let w := copyVma { w with vmas := vmas } orig new
            (doCloneVma fuel w supply (w.vma orig).rbt.left (.left new)).bind fun (w, supply, ok) =>
              if ok then doCloneVma fuel w supply (w.vma orig).rbt.right (.right new)
              else some (w, supply, false)

def doFreeVma : Nat → World → Nat → Option World
  | 0, _, _ => none
  | fuel + 1, w, vma =>
    if vma = 0 then some w
    else
      (doFreeVma fuel w (w.vma vma).rbt.left).bind fun w =>
        (doFreeVma fuel w (w.vma vma).rbt.right).bind fun w =>
          (objcacheFree2 w.vmas vma).map fun vmas => { w with vmas := vmas }

structure Supply where
  ctx : Option Nat
  pgd : Option Nat
  vmas : List (Option Nat)
  deriving DecidableEq, Repr

/-- `clone_ctx`, with the value it returns. -/
def cloneArch (w : World) (old new : Nat) : Option Nat → Option (World × Int)
  | none => some (w, -1)
  | some f =>
    if f ∈ w.frames then none
    else some ({ w with
      frames := insert f w.frames
      word := copyFrame w.word (w.ctx old).pgd f
      ctx := update w.ctx new { w.ctx new with pgd := f } }, 0)

def freeCtx (w : World) (ctx : Nat) : Option World :=
  (objcacheFree2 w.memctx ctx).map fun memctx => { w with memctx := memctx }

/-- The new context or `0`. On the way out after `do_clone_vma` it is the tree of `ctx`
that is freed. -/
def memCtxClone (fuel : Nat) (w : World) (ctx : Nat) (supply : Supply) : Option (World × Nat) :=
  (objcacheAlloc w.memctx supply.ctx).bind fun (memctx, new) =>
    let w := { w with memctx := memctx }
    if new = 0 then some (w, 0)
    else
      (cloneArch w ctx new supply.pgd).bind fun (w, ret) =>
        if ret ≠ 0 then (freeCtx w new).map fun w => (w, 0)
        else
          let w := { w with ctx := update w.ctx new { w.ctx new with rbNode := 0 } }
          (doCloneVma fuel w supply.vmas (w.ctx ctx).rbNode (.root new)).bind fun (w, _, ok) =>
            if ok then
              some ({ w with ctx := update w.ctx new { w.ctx new with count := 1 } }, new)
            else
              (doFreeVma fuel w (w.ctx ctx).rbNode).bind fun w =>
                (freeCtx w new).map fun w => (w, 0)

end ScaraOS.Mm
