import Mathlib.Algebra.Group.Nat.Defs
import Mathlib.Data.Finset.Card
import ScaraOS.Lib.RbInsert
import ScaraOS.Lib.RbSearch
import ScaraOS.Mm.Clone
import ScaraOS.Mm.Fault

/-! Building an address space and giving it back: `setup_vma` with `vma_insert`,
`mem_ctx_new`, `mem_ctx_put` and `mem_ctx_free`. -/
namespace ScaraOS.Mm

open Function RbTree Paging

/-- The `BUG_ON`s on the way, by the function they stand in. -/
inductive Site where
  | setupVma | vmaInsert | memCtxPut
  deriving DecidableEq, Repr

/-- Why a call does not return: a `BUG_ON`, or something that cannot be: an allocator
that hands out what is in use, a tree that is none. -/
inductive Stop where
  | bug (site : Site)
  | stuck
  deriving DecidableEq, Repr

def vaRoundDown (va : Nat) : Nat := pgVal va
def vaRoundUp (va : Nat) : Nat := pgVal ((va + 0xfff) % 2 ^ 32)

theorem vaRoundDown_eq {va : Nat} (word : va < 2 ^ 32) : vaRoundDown va = va / 4096 * 4096 := by
  unfold vaRoundDown
  rw [pgVal_eq]
  omega

structure Request where
  va : Nat
  len : Nat
  prot : Nat
  ino : Nat
  off : Nat
  deriving DecidableEq, Repr

def Request.area (r : Request) : Vma where
  rbt := ⟨0, 0, 0⟩
  vmaBegin := vaRoundDown r.va
  vmaEnd := vaRoundUp ((r.va + r.len) % 2 ^ 32)
  vmaProt := r.prot
  vmaOff := if r.ino ≠ 0 then (r.off + 2 ^ 32 - (r.va - vaRoundDown r.va)) % 2 ^ 32 else 0
  vmaIno := r.ino

/-- The way `vma_insert` goes on at an area; none is its `BUG_ON`. -/
def side (new area : Vma) : Option Side :=
  if new.vmaEnd ≤ area.vmaBegin then some .left
  else if new.vmaBegin ≥ area.vmaEnd then some .right
  else none

theorem side_clear {new old : Vma} :
    side new old ≠ none ↔ new.vmaEnd ≤ old.vmaBegin ∨ old.vmaEnd ≤ new.vmaBegin := by
  unfold side
  by_cases left : new.vmaEnd ≤ old.vmaBegin
  · simp [left]
  · by_cases right : new.vmaBegin ≥ old.vmaEnd
    · simp [left, right]
    · simp [left, right]

/-- No walk is longer than there are areas. -/
def walk (w : World) : Nat := w.vmas.card + 1

def areaTree (w : World) (ctx : Nat) : Tree := ⟨fun n => (w.vma n).rbt, (w.ctx ctx).rbNode⟩

def vmaInsert (w : World) (ctx n : Nat) : Except Stop World :=
  let w := { w with vma := update w.vma n { w.vma n with rbt := ⟨0, 0, 0⟩ } }
  match (areaTree w ctx).descend (fun a => side (w.vma n) (w.vma a)) (walk w) .root with
  | none => .error .stuck
  | some (.node _) => .error (.bug .vmaInsert)
  | some (.slot s) =>
    match ((areaTree w ctx).linkNode n s).insertColor (walk w) n with
    | none => .error .stuck
    | some t =>
      .ok { w with
        vma := fun a => { w.vma a with rbt := t.rb a }
        ctx := update w.ctx ctx { w.ctx ctx with rbNode := t.root } }

def made (w : World) (r : Request) (n : Nat) : World :=
  { w with
    vmas := insert n w.vmas
    vma := update w.vma n { r.area with rbt := (w.vma n).rbt }
    iCount := if r.ino ≠ 0 then iref w.iCount r.ino else w.iCount }

/-- `alloc` is what `objcache_alloc` gives. -/
def setupVma (w : World) (ctx : Nat) (r : Request) (alloc : Option Nat) :
    Except Stop (World × Int) :=
  match objcacheAlloc w.vmas alloc with
  | none => .error .stuck
  | some (_, n) =>
    if n = 0 then .ok (w, -1)
    else if r.area.vmaOff % 4096 ≠ 0 then .error (.bug .setupVma)
    else (vmaInsert (made w r n) ctx n).map fun w => (w, 0)

/-- The new context or `0`. `setup_new_ctx` copies `__init_pgd`. -/
def memCtxNew (initPgd : Nat) (w : World) (obj pgd : Option Nat) : Except Stop (World × Nat) :=
  match objcacheAlloc w.memctx obj with
  | none => .error .stuck
  | some (memctx, new) =>
    if new = 0 then .ok (w, 0)
    else
      match pgd with
      | none => .ok (w, 0)
      | some f =>
        if f ∈ w.frames then .error .stuck
        else
          .ok ({ w with
            memctx := memctx
            frames := insert f w.frames
            word := copyFrame w.word initPgd f
            ctx := update w.ctx new ⟨0, f, 1⟩ }, new)

def memCtxFree (w : World) (ctx : Nat) : Except Stop World :=
  match doFreeVma (walk w) w (w.ctx ctx).rbNode with
  | none => .error .stuck
  | some w =>
    if (w.ctx ctx).pgd ∉ w.frames then .error .stuck
    else
      match objcacheFree2 w.memctx ctx with
      | none => .error .stuck
      | some memctx => .ok { w with frames := w.frames.erase (w.ctx ctx).pgd, memctx := memctx }

def memCtxPut (w : World) (ctx : Nat) : Except Stop World :=
  if (w.ctx ctx).count = 0 then .error (.bug .memCtxPut)
  else
    let w := { w with
      ctx := update w.ctx ctx { w.ctx ctx with count := (w.ctx ctx).count - 1 } }
    if (w.ctx ctx).count = 0 then memCtxFree w ctx else .ok w

structure AreaTree (w : World) (ctx : Nat) (shape : Shape) : Prop extends Areas w ctx shape where
  aligned : ∀ n ∈ shape.inorder, n % 4 = 0
  redBlack : RedBlack (fun n => (w.vma n).rbt) shape

def Vma.area (v : Vma) : Vma := { v with rbt := ⟨0, 0, 0⟩ }

structure Grew (w w' : World) (ctx : Nat) (shape shape' : Shape) (n : Nat) : Prop where
  tree : AreaTree w' ctx shape'
  members : ∀ m, m ∈ shape'.inorder ↔ m = n ∨ m ∈ shape.inorder
  outside : ∀ m, m ∉ shape'.inorder → w'.vma m = w.vma m
  areas : ∀ m, (w'.vma m).area = (w.vma m).area
  ctxs : ∀ c, c ≠ ctx → w'.ctx c = w.ctx c
  pgd : (w'.ctx ctx).pgd = (w.ctx ctx).pgd
  count : (w'.ctx ctx).count = (w.ctx ctx).count
  vmas : w'.vmas = w.vmas
  memctx : w'.memctx = w.memctx
  frames : w'.frames = w.frames
  word : w'.word = w.word
  iCount : w'.iCount = w.iCount

def Placed (w : World) (n : Nat) (shape shape' : Shape) : Prop :=
  ∃ q : Path, Path.plug .leaf q = shape ∧ shape'.inorder = q.before ++ n :: q.after ∧
    ∀ f ∈ q, side (w.vma n) (w.vma f.addr) = some f.side

variable {w : World} {shape : Shape} {ctx : Nat}

theorem Areas.short (areas : Areas w ctx shape) : shape.inorder.length < walk w := by
  have inside : shape.inorder.toFinset ⊆ w.vmas := by
    intro n member
    exact areas.live n (List.mem_toFinset.mp member)
  have fits := Finset.card_le_card inside
  rw [List.toFinset_card_of_nodup areas.nodup] at fits
  exact Nat.lt_succ_of_le fits

theorem Areas.low (areas : Areas w ctx shape) : shape.height < walk w :=
  Nat.lt_of_le_of_lt (height_le shape) areas.short

theorem areaTree_congr {w' : World} (tree : AreaTree w ctx shape)
    (vma : ∀ n ∈ shape.inorder, (w'.vma n).rbt = (w.vma n).rbt)
    (root : (w'.ctx ctx).rbNode = (w.ctx ctx).rbNode) (live : ∀ n ∈ shape.inorder, n ∈ w'.vmas)
    (here : ctx ∈ w'.memctx) : AreaTree w' ctx shape where
  __ := tree
  here := here
  rep := by
    rw [root]
    exact rep_congr vma tree.rep
  live := live
  redBlack := by
    have black : ∀ n ∈ shape.inorder, isBlack (w'.vma n).rbt = isBlack (w.vma n).rbt :=
      fun n member => by rw [vma n member]
    obtain ⟨top, balanced⟩ := tree.redBlack
    exact ⟨(rootBlack_congr black).trans top, (congrArg _ (blackHeight_congr black)).trans balanced⟩

theorem vmaInsert_cases {n : Nat} (tree : AreaTree w ctx shape) (fresh : n ∉ shape.inorder)
    (nonzero : n ≠ 0) (aligned : n % 4 = 0) (live : n ∈ w.vmas) :
    (∃ a ∈ shape.inorder, side (w.vma n) (w.vma a) = none ∧
      vmaInsert w ctx n = .error (.bug .vmaInsert)) ∨
    ∃ w' shape', vmaInsert w ctx n = .ok w' ∧ Grew w w' ctx shape shape' n ∧
      Placed w n shape shape' := by
  let w₀ : World := { w with vma := update w.vma n { w.vma n with rbt := ⟨0, 0, 0⟩ } }
  have other : ∀ a, a ≠ n → w₀.vma a = w.vma a := fun a apart => update_of_ne apart _ _
  have inTree : ∀ a ∈ shape.inorder, a ≠ n := by
    rintro a member rfl
    exact fresh member
  have tree₀ : AreaTree w₀ ctx shape :=
    areaTree_congr tree (fun a member => by rw [other a (inTree a member)]) rfl tree.live tree.here
  let dir : Nat → Option Side := fun a => side (w₀.vma n) (w₀.vma a)
  have turn : ∀ a ∈ shape.inorder, dir a = side (w.vma n) (w.vma a) := by
    intro a member
    have same : w₀.vma n = { w.vma n with rbt := ⟨0, 0, 0⟩ } := update_self ..
    simp only [dir, same, other a (inTree a member), side]
  have start : Rep (areaTree w₀ ctx).rb (areaTree w₀ ctx).root 0 (Path.plug shape []) := tree₀.rep
  rcases Tree.descend_total dir start tree₀.low (by simp) with
    ⟨a, member, stop, found⟩ | ⟨q, plugged, turns, found⟩
  · have overlap : side (w.vma n) (w.vma a) = none := (turn a member).symm.trans stop
    have ran : (areaTree w₀ ctx).descend dir (walk w₀) .root = some (.node a) := found
    exact .inl ⟨a, member, overlap, by simp only [vmaInsert]; rw [ran]⟩
  · have same : Path.plug .leaf q = shape := plugged
    have short : q.length < walk w₀ :=
      Nat.lt_of_le_of_lt (Path.length_le .leaf q) (by rw [same]; exact tree₀.short)
    have shaped : (areaTree w₀ ctx).Shaped shape := ⟨tree₀.rep, tree₀.nodup, tree₀.aligned⟩
    obtain ⟨t, shape', inserted, shaped', order, redBlack, frame⟩ := Tree.insert_node
      (same ▸ shaped) (same ▸ tree₀.redBlack) nonzero aligned (same ▸ fresh) short
    rw [same] at frame
    have perm := Path.perm_hole same order
    have members : ∀ m, m ∈ shape'.inorder ↔ m = n ∨ m ∈ shape.inorder := by
      intro m
      rw [perm.mem_iff, List.mem_cons]
    have ran : (areaTree w₀ ctx).descend dir (walk w₀) .root = some (.slot q.slot) := found
    refine .inr ⟨{ w₀ with
      vma := fun a => { w₀.vma a with rbt := t.rb a }
      ctx := update w.ctx ctx { w.ctx ctx with rbNode := t.root } }, shape', ?_, ?_,
      q, same, order, ?_⟩
    · simp only [vmaInsert]
      rw [ran]
      simp only [w₀] at inserted ⊢
      rw [inserted]
    · constructor
      case tree =>
        refine ⟨⟨tree.here, ?_, ?_, shaped'.distinct⟩, shaped'.aligned, redBlack⟩
        · simp only [update_self]
          exact shaped'.rep
        · intro m member
          rcases (members m).mp member with rfl | old
          · exact live
          · exact tree.live m old
      case members => exact members
      case outside =>
        intro m out
        rw [members, not_or] at out
        have kept : t.rb m = (w₀.vma m).rbt := frame m out.1 out.2
        simp only [kept, other m out.1]
      case areas =>
        intro m
        by_cases isNew : m = n
        · simp [isNew, w₀, Vma.area]
        · simp [other m isNew, Vma.area]
      case ctxs => exact fun c apart => update_of_ne apart _ _
      case pgd => simp
      case count => simp
      case vmas => rfl
      case memctx => rfl
      case frames => rfl
      case word => rfl
      case iCount => rfl
    · intro f inPath
      rw [← turn f.addr (by rw [← same]; exact Path.mem_plug.mpr (.inr (Path.addr_mem inPath)))]
      exact turns f inPath

def Given (live : Finset Nat) (alloc : Option Nat) : Prop :=
  ∀ a, alloc = some a → a ≠ 0 ∧ a ∉ live ∧ a % 4 = 0

theorem setupVma_cases (r : Request) {alloc : Option Nat} (tree : AreaTree w ctx shape)
    (given : Given w.vmas alloc) :
    (alloc = none ∧ setupVma w ctx r alloc = .ok (w, -1)) ∨
    ∃ n, alloc = some n ∧
      (r.area.vmaOff % 4096 ≠ 0 ∧ setupVma w ctx r alloc = .error (.bug .setupVma) ∨
      (∃ a ∈ shape.inorder, side r.area (w.vma a) = none) ∧
        setupVma w ctx r alloc = .error (.bug .vmaInsert) ∨
      r.area.vmaOff % 4096 = 0 ∧ ∃ w' shape', setupVma w ctx r alloc = .ok (w', 0) ∧
        Grew (made w r n) w' ctx shape shape' n ∧ Placed (made w r n) n shape shape') := by
  cases alloc with
  | none => exact .inl ⟨rfl, rfl⟩
  | some n =>
    obtain ⟨nonzero, unused, aligned⟩ := given n rfl
    refine .inr ⟨n, rfl, ?_⟩
    have started : setupVma w ctx r (some n) =
        if r.area.vmaOff % 4096 ≠ 0 then .error (.bug .setupVma)
        else (vmaInsert (made w r n) ctx n).map fun w => (w, 0) := by
      simp only [setupVma, objcacheAlloc_fresh nonzero unused, if_neg nonzero]
    rw [started]
    by_cases off : r.area.vmaOff % 4096 = 0
    · rw [if_neg (not_not.mpr off)]
      have apart : ∀ a ∈ shape.inorder, a ≠ n := by
        rintro a member rfl
        exact unused (tree.live a member)
      have older : ∀ a, a ≠ n → (made w r n).vma a = w.vma a :=
        fun a other => update_of_ne other _ _
      have tree' : AreaTree (made w r n) ctx shape :=
        areaTree_congr tree (fun a member => by rw [older a (apart a member)]) rfl
          (fun a member => Finset.mem_insert_of_mem (tree.live a member)) tree.here
      rcases vmaInsert_cases tree' (fun member => apart n member rfl) nonzero aligned
        (Finset.mem_insert_self n w.vmas) with
        ⟨a, member, overlap, ran⟩ | ⟨w', shape', ran, grew, placed⟩
      · refine .inr (.inl ⟨⟨a, member, ?_⟩, by rw [ran]; rfl⟩)
        have new : (made w r n).vma n = { r.area with rbt := (w.vma n).rbt } :=
          update_self ..
        simpa only [new, older a (apart a member), side] using overlap
      · exact .inr (.inr ⟨off, w', shape', by rw [ran]; rfl, grew, placed⟩)
    · rw [if_pos off]
      exact .inl ⟨off, rfl⟩

def freed (w : World) (ctx : Nat) (shape : Shape) : World :=
  { w with
    ctx := update w.ctx ctx { w.ctx ctx with count := 0 }
    vmas := w.vmas \ shape.inorder.toFinset
    frames := w.frames.erase (w.ctx ctx).pgd
    memctx := w.memctx.erase ctx }

theorem memCtxPut_last (areas : Areas w ctx shape) (last : (w.ctx ctx).count = 1)
    (pgd : (w.ctx ctx).pgd ∈ w.frames) : memCtxPut w ctx = .ok (freed w ctx shape) := by
  let w₁ : World := { w with ctx := update w.ctx ctx { w.ctx ctx with count := 0 } }
  have freeing := doFreeVma_spec (w := w₁) (walk w) areas.rep areas.live areas.nodup areas.low
  have root : (w₁.ctx ctx).rbNode = (w.ctx ctx).rbNode := by simp [w₁]
  have put : memCtxPut w ctx = memCtxFree w₁ ctx := by simp [memCtxPut, last, w₁]
  rw [put, memCtxFree, root, show walk w₁ = walk w from rfl, freeing]
  simp [objcacheFree2, areas.here, pgd, freed, w₁]

theorem memCtxPut_more (more : 1 < (w.ctx ctx).count) :
    memCtxPut w ctx = .ok { w with
      ctx := update w.ctx ctx { w.ctx ctx with count := (w.ctx ctx).count - 1 } } := by
  have some : (w.ctx ctx).count ≠ 0 := by omega
  have left : (w.ctx ctx).count - 1 ≠ 0 := by omega
  simp [memCtxPut, some, left]

def started (initPgd : Nat) (w : World) (ctx f : Nat) : World :=
  { w with
    memctx := insert ctx w.memctx
    frames := insert f w.frames
    word := copyFrame w.word initPgd f
    ctx := update w.ctx ctx ⟨0, f, 1⟩ }

theorem memCtxNew_cases (initPgd : Nat) {obj pgd : Option Nat}
    (ctx : ∀ a, obj = some a → a ≠ 0 ∧ a ∉ w.memctx) (frame : ∀ f, pgd = some f → f ∉ w.frames) :
    (memCtxNew initPgd w obj pgd = .ok (w, 0) ∧ (obj = none ∨ pgd = none)) ∨
    ∃ c f, obj = some c ∧ pgd = some f ∧
      memCtxNew initPgd w obj pgd = .ok (started initPgd w c f, c) := by
  cases obj with
  | none => exact .inl ⟨rfl, .inl rfl⟩
  | some c =>
    obtain ⟨nonzero, unused⟩ := ctx c rfl
    cases pgd with
    | none => exact .inl ⟨by simp [memCtxNew, objcacheAlloc_fresh nonzero unused], .inr rfl⟩
    | some f =>
      refine .inr ⟨c, f, rfl, rfl, ?_⟩
      simp [memCtxNew, objcacheAlloc_fresh nonzero unused, nonzero, frame f rfl, started]

end ScaraOS.Mm
