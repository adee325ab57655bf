import Mathlib.Data.Finset.Lattice.Fold
import ScaraOS.Exec.Load
import ScaraOS.Lib.Loops
import ScaraOS.Mm.Fault

/-! Which images the kernel survives. `do_exec` checks nothing about the segments, so a
bad image stops the kernel or is run. -/
namespace ScaraOS.Exec

open Function RbTree Paging Mm

def loads (ps : List Phdr) : List Phdr := ps.filter fun p => p.pType = ptLoad

def segBegin (p : Phdr) : Nat := p.pVaddr / 4096 * 4096
def segEnd (p : Phdr) : Nat := (p.pVaddr + p.pMemsz + 4095) / 4096 * 4096

/-- Segments whose file offsets fit their addresses, that stay below the kernel and do
not run into each other or the stack. -/
structure Loadable (ps : List Phdr) : Prop where
  offsets : ∀ p ∈ loads ps, p.pFilesz ≠ 0 → p.pOffset % 4096 = p.pVaddr % 4096
  low : ∀ p ∈ loads ps, segEnd p ≤ pageOffset
  stack : ∀ p ∈ loads ps, segEnd p ≤ userStackBase - userStackSize ∨ userStackBase ≤ segBegin p
  apart : (loads ps).Pairwise fun p q => segEnd p ≤ segBegin q ∨ segEnd q ≤ segBegin p

def Phdr.Words (p : Phdr) : Prop :=
  p.pOffset < 2 ^ 32 ∧ p.pVaddr < 2 ^ 32 ∧ p.pFilesz < 2 ^ 32 ∧ p.pMemsz < 2 ^ 32

variable {k : Kernel} {image : Image} {ps : List Phdr} {ino fuel n c old : Nat} {p : Phdr}
  {s : System} {w w' : World} {shape oldShape : Shape}

theorem programHeaders_words (accepted : programHeaders k image = some ps) : ∀ p ∈ ps, p.Words := by
  obtain ⟨hdr, -, table⟩ := Option.bind_eq_some_iff.mp accepted
  unfold readPhdrs at table
  obtain ⟨-, eq⟩ := Option.ite_none_left_eq_some.mp table
  cases eq
  intro p member
  obtain ⟨i, -, rfl⟩ := List.mem_map.mp member
  exact ⟨Bytes.load32_lt _ _, Bytes.load32_lt _ _, Bytes.load32_lt _ _, Bytes.load32_lt _ _⟩

theorem area_begin (words : p.Words) : (request ino p).area.vmaBegin = segBegin p := by
  have va : (request ino p).va = p.pVaddr := by
    unfold request
    split <;> rfl
  simp only [Request.area, va]
  exact vaRoundDown_eq words.2.1

theorem area_end (low : segEnd p ≤ pageOffset) : (request ino p).area.vmaEnd = segEnd p := by
  have both : (request ino p).va = p.pVaddr ∧ (request ino p).len = p.pMemsz := by
    unfold request
    split <;> exact ⟨rfl, rfl⟩
  unfold segEnd pageOffset at low
  simp only [Request.area, both.1, both.2, vaRoundUp, pgVal_eq, segEnd]
  omega

theorem area_offset (inode : ino ≠ 0) (words : p.Words) :
    (request ino p).area.vmaOff % 4096 = 0 ↔
      (p.pFilesz ≠ 0 → p.pOffset % 4096 = p.pVaddr % 4096) := by
  obtain ⟨off, va, -, -⟩ := words
  by_cases file : p.pFilesz ≠ 0
  · simp only [request, if_pos file, Request.area, if_pos inode, vaRoundDown_eq va]
    omega
  · simp [request, file, Request.area]

theorem stack_area : stack.area.vmaBegin = userStackBase - userStackSize ∧
    stack.area.vmaEnd = userStackBase ∧ stack.area.vmaOff = 0 := by
  decide

theorem loadable_fits (inode : ino ≠ 0) (words : ∀ p ∈ ps, p.Words) (good : Loadable ps) :
    Fits [] (requests ino ps) := by
  have word : ∀ p ∈ loads ps, p.Words := fun p member => words p (List.mem_of_mem_filter member)
  obtain ⟨top, bottom, none⟩ := stack_area
  constructor
  case offsets =>
    intro r member
    rcases List.mem_append.mp member with segment | last
    · obtain ⟨p, load, rfl⟩ := List.mem_map.mp segment
      exact (area_offset inode (word p load)).mpr (good.offsets p load)
    · rw [List.mem_singleton.mp last, none]
  case clear => simp
  case apart =>
    refine List.pairwise_append.mpr ⟨?_, List.pairwise_singleton _ _, ?_⟩
    · refine List.pairwise_map.mpr (good.apart.imp_of_mem ?_)
      intro p q first second apart
      rw [side_clear, area_begin (word p first), area_begin (word q second),
        area_end (good.low p first), area_end (good.low q second)]
      exact apart.symm
    · intro r segment q last
      obtain ⟨p, load, rfl⟩ := List.mem_map.mp segment
      rw [List.mem_singleton.mp last, side_clear, area_begin (word p load),
        area_end (good.low p load), top, bottom]
      exact (good.stack p load).symm

theorem loadable_low (good : Loadable ps) : ∀ r ∈ requests ino ps, r.area.vmaEnd ≤ pageOffset := by
  intro r member
  rcases List.mem_append.mp member with segment | last
  · obtain ⟨p, load, rfl⟩ := List.mem_map.mp segment
    rw [area_end (good.low p load)]
    exact good.low p load
  · rw [List.mem_singleton.mp last, stack_area.2.1]
    decide

def memCtxOf (w : World) (c : Nat) : MemCtx := ⟨w.vma, (w.ctx c).rbNode, (w.ctx c).pgd⟩

/-- Memory at some later time: the kernel's part of the address space is that of
`__init_pgd`. -/
structure Later (k : Kernel) (w : World) (ctx : MemCtx) (s : System) : Prop where
  here : ctx.pgd ∈ s.ctxs
  kernel : ∀ va, pageOffset ≤ va → translate s.word ctx.pgd va = translate w.word k.initPgd va

structure Frames (s : System) (a : Access) : Prop where
  page : ∀ f ∈ a.page, f < nrFrames
  table : ∀ f ∈ a.table, available s f = true

/-- Whatever a task touches later that is not there, `mm_pagefault` returns. -/
def FaultsReturn (k : Kernel) (w w' : World) (c : Nat) : Prop :=
  ∀ s, Later k w (memCtxOf w' c) s → ∀ a : Access, a.va < 2 ^ 32 →
    translate s.word (memCtxOf w' c).pgd a.va = none → Frames s a →
      (mmPagefault (walk w') (memCtxOf w' c) s a (protOf a.write)).isSome

theorem mmPagefault_returns {ctx : MemCtx} {a : Access} {prot : Nat} (here : ctx.pgd ∈ s.ctxs)
    (frames : Frames s a) (found : lookupVma ctx.vma a.va fuel ctx.root = some n)
    (low : n ≠ 0 → pgVal a.va < pageOffset) : (mmPagefault fuel ctx s a prot).isSome := by
  unfold mmPagefault
  simp only [found, Option.bind_eq_bind, Option.bind_some]
  by_cases null : n = 0
  · simp [null]
  by_cases denied : (ctx.vma n).vmaProt &&& prot = 0
  · simp [null, denied]
  simp only [if_neg null, if_neg denied]
  cases given : a.page with
  | none => rfl
  | some page =>
    have frame := frames.page page given
    cases pageSource (ctx.vma n) a.va with
    | some key =>
      obtain ⟨x, t, mapped, called⟩ :=
        mapPage_returns prot here frame frames.table (low null)
      simp only [mapped, called, Option.bind_some]
      split <;> rfl
    | none =>
      -- clearing the page changes no frame's availability
      obtain ⟨x, t, mapped, called⟩ := mapPage_returns prot
        (s := { s with word := clearFrame s.word page }) here frame frames.table (low null)
      simp only [mapped, called, Option.bind_some]
      split <;> rfl

theorem pgVal_kernel {va : Nat} (word : va < 2 ^ 32) (high : pageOffset ≤ pgVal va) :
    pageOffset ≤ va := by
  unfold pageOffset at high ⊢
  rw [pgVal_eq] at high
  omega

theorem faults_return (boot : translate w.word k.initPgd pageOffset ≠ none)
    (rep : Rep (fun n => (w'.vma n).rbt) (w'.ctx c).rbNode 0 shape) (short : shape.height < walk w')
    (low : ∀ n ∈ shape.inorder, (w'.vma n).vmaEnd ≤ pageOffset) : FaultsReturn k w w' c := by
  intro s later a word absent frames
  apply mmPagefault_returns later.here frames (lookupVma_covering a.va rep short).1
  intro area
  obtain ⟨n, found⟩ : ∃ n, covering w'.vma a.va shape = some n :=
    Option.ne_none_iff_exists'.mp fun none => area (by rw [none]; rfl)
  obtain ⟨member, -, below⟩ := covering_reaches found
  by_contra high
  have kernel := pgVal_kernel word (Nat.le_of_not_lt high)
  have edge : a.va = pageOffset := Nat.le_antisymm (Nat.le_trans below (low n member)) kernel
  rw [later.kernel a.va kernel, edge] at absent
  exact boot absent

/-- The call returns; if it returns `0`, the image was a good one, and no page fault of
the new program stops the kernel. -/
def Unharmed (k : Kernel) (w : World) (ino old : Nat) (image : Image) (supply : Supply) : Prop :=
  ∃ w' r, execImage k w ino old image supply = .ok (w', r) ∧
    ∀ c, r = some c → (∀ ps, programHeaders k image = some ps → Loadable ps) ∧ FaultsReturn k w w' c

theorem put_keeps_new {w₁ : World} {f : Nat} {rs : List Request} (ready : Ready w old oldShape)
    (unusedCtx : c ∉ w.memctx) (built : Built (started k.initPgd w c f) w₁ c rs shape)
    (put : memCtxPut w₁ old = .ok w') :
    AreaTree w' c shape ∧ w'.vma = w₁.vma ∧ w'.ctx c = w₁.ctx c := by
  have other : c ≠ old := by
    rintro rfl
    exact unusedCtx ready.here
  obtain ⟨w'', again, cases⟩ := put_old ready unusedCtx built
  cases put.symm.trans again
  rcases cases with ⟨-, rfl⟩ | ⟨-, rfl⟩
  · have ctx : update w₁.ctx old
        { w₁.ctx old with count := (w₁.ctx old).count - 1 } c = w₁.ctx c :=
      update_of_ne other _ _
    exact ⟨areaTree_congr built.tree (fun _ _ => rfl) (congrArg _ ctx) built.tree.live built.tree.here,
      rfl, ctx⟩
  · have ctx : (freed w₁ old oldShape).ctx c = w₁.ctx c := update_of_ne other _ _
    refine ⟨areaTree_congr built.tree (fun _ _ => rfl) (congrArg _ ctx) ?_ ?_, rfl, ctx⟩
    · intro n member
      refine Finset.mem_sdiff.mpr ⟨built.tree.live n member, ?_⟩
      intro inOld
      exact built.newer n member (ready.live n (List.mem_toFinset.mp inOld))
    · exact Finset.mem_erase.mpr ⟨other, built.tree.here⟩

theorem unharmed_of_loadable {supply : Supply} (ready : Ready w old oldShape)
    (boot : translate w.word k.initPgd pageOffset ≠ none) (inode : ino ≠ 0)
    (good : ∀ ps, programHeaders k image = some ps → Loadable ps)
    (provided : ∀ ps, programHeaders k image = some ps →
      Provided w supply (requests ino ps).length) : Unharmed k w ino old image supply := by
  rcases execImage_cases ready provided with
    ⟨w', refused, -⟩ | ⟨ps, accepted, ⟨-, misfit⟩ | ⟨c, f, w₁, shape, w', obj, pgd, built, put, ran⟩⟩
  · exact ⟨w', none, refused, by simp⟩
  · exact absurd (loadable_fits inode (programHeaders_words accepted) (good ps accepted)) misfit
  · refine ⟨w', some c, ran, ?_⟩
    intro d eq
    cases eq
    refine ⟨good, ?_⟩
    obtain ⟨tree, vma, -⟩ := put_keeps_new ready ((provided ps accepted).ctx c obj).2 built put
    apply faults_return boot tree.rep tree.low
    intro n member
    obtain ⟨r, asked, same⟩ := built.areas n member
    have end_ : (w'.vma n).vmaEnd = r.area.vmaEnd := by
      have areas : (w₁.vma n).area.vmaEnd = r.area.vmaEnd := by rw [same]
      rw [vma]
      exact areas
    rw [end_]
    exact loadable_low (good ps accepted) r asked

theorem exists_above (live : Finset Nat) : ∃ b, b ≠ 0 ∧ ∀ a ∈ live, a < b :=
  ⟨live.sup id + 1, Nat.succ_ne_zero _,
    fun _ member => Nat.lt_succ_of_le (Finset.le_sup (f := id) member)⟩

theorem exists_objects (live : Finset Nat) (n : Nat) :
    ∃ supply : List (Option Nat), Objects live supply ∧ n ≤ supply.length ∧ none ∉ supply := by
  obtain ⟨b, nonzero, above⟩ := exists_above live
  let addrs := (List.range n).map fun i => 4 * (b + i)
  have all : (addrs.map some).reduceOption = addrs := by simp [List.reduceOption]
  refine ⟨addrs.map some, ⟨⟨?_, ?_⟩, ?_⟩, by simp [addrs], by simp⟩
  · rw [all]
    apply List.nodup_range.map
    intro i j eq
    simp only at eq
    omega
  · rw [all]
    intro a member
    obtain ⟨i, -, rfl⟩ := List.mem_map.mp member
    refine ⟨by omega, ?_⟩
    intro old
    have := above _ old
    omega
  · rw [all]
    intro a member
    obtain ⟨i, -, rfl⟩ := List.mem_map.mp member
    omega

/-- No image harms the kernel, whatever the allocations give, exactly if one that gets
past the checks of the headers has good segments only. -/
theorem exec_unharmed_iff (k : Kernel) (w : World) (ino old : Nat) (oldShape : Shape)
    (ready : Ready w old oldShape) (boot : translate w.word k.initPgd pageOffset ≠ none)
    (inode : ino ≠ 0) (image : Image) :
    (∀ supply, (∀ ps, programHeaders k image = some ps →
        Provided w supply (requests ino ps).length) → Unharmed k w ino old image supply) ↔
      ∀ ps, programHeaders k image = some ps → Loadable ps := by
  constructor
  · intro unharmed ps accepted
    -- with every allocation granted the call ends at a `BUG_ON` or in the new program
    obtain ⟨vs, objects, long, granted⟩ := exists_objects w.vmas (requests ino ps).length
    obtain ⟨c, nonzero, aboveCtx⟩ := exists_above w.memctx
    obtain ⟨f, -, aboveFrames⟩ := exists_above w.frames
    have unusedCtx : c ∉ w.memctx := fun old => Nat.lt_irrefl c (aboveCtx c old)
    have unused : f ∉ w.frames := fun old => Nat.lt_irrefl f (aboveFrames f old)
    have provided : ∀ qs, programHeaders k image = some qs →
        Provided w ⟨true, some c, some f, vs⟩ (requests ino qs).length := by
      intro qs again
      cases accepted.symm.trans again
      refine ⟨?_, ?_, objects, long⟩
      · rintro a eq
        cases eq
        exact ⟨nonzero, unusedCtx⟩
      · rintro g eq
        cases eq
        exact unused
    obtain ⟨w', r, ran, good⟩ := unharmed ⟨true, some c, some f, vs⟩ provided
    rcases execImage_cases ready provided with
      ⟨w₁, refused, -, none | failed⟩ | ⟨qs, -, ⟨bug, -⟩ | ⟨d, g, w₁, shape, w₂, -, -, -, -, done⟩⟩
    · rw [accepted] at none
      cases none
    · simp [Supply.Fails, granted] at failed
    · rcases bug with bug | bug <;> cases ran.symm.trans bug
    · cases ran.symm.trans done
      exact (good d rfl).1 ps accepted
  · exact fun good supply provided => unharmed_of_loadable ready boot inode good provided

def fileImage (bytes : List UInt8) : Image where
  pread len off := ((min len (bytes.length - off) : Nat), fun i => bytes.getD (off + i) 0)

def le16 (n : Nat) : List UInt8 := [UInt8.ofNat n, UInt8.ofNat (n / 2 ^ 8)]

def le32 (n : Nat) : List UInt8 := le16 n ++ le16 (n / 2 ^ 16)

/-- An executable for this machine: the header, then one program header for each
segment. -/
def elf (segments : List Phdr) : List UInt8 :=
  [0x7f, 0x45, 0x4c, 0x46, 1, 1, 1, 0, 0, 0, 0, 0, 0, 0, 0, 0] ++ le16 etExec ++ le16 em386 ++
    le32 1 ++ le32 0x400000 ++ le32 52 ++ le32 0 ++ le32 0 ++ le16 52 ++ le16 32 ++
    le16 segments.length ++ le16 0 ++ le16 0 ++ le16 0 ++
    segments.flatMap fun p => le32 p.pType ++ le32 p.pOffset ++ le32 p.pVaddr ++ le32 p.pVaddr ++
      le32 p.pFilesz ++ le32 p.pMemsz ++ le32 5 ++ le32 4096

def sampleKernel : Kernel := ⟨1, fun _ => 0⟩

/-- A kernel thread, whose context is `__init_pgd` with one page of the kernel, is about
to run a program. -/
def sampleWorld : World where
  vma := fun _ => ⟨⟨0, 0, 0⟩, 0, 0, 0, 0, 0⟩
  ctx := fun _ => ⟨0, 1, 2⟩
  vmas := ∅
  memctx := {64}
  frames := {0, 1, 3}
  word := fun f i => if f = 1 ∧ i = 768 then 0x3003 else if f = 3 ∧ i = 0 then 3 else 0
  iCount := fun _ => 1

theorem sampleWorld_ready : Ready sampleWorld 64 .leaf where
  here := by decide
  rep := rfl
  live := by simp [Shape.inorder]
  nodup := by simp [Shape.inorder]
  counted := by decide
  pgd := by decide

def goodSegments : List Phdr := [⟨1, 0, 0x400000, 0x200, 0x200⟩, ⟨1, 0, 0x401000, 0, 0x1000⟩]

theorem goodSegments_loadable : Loadable goodSegments := by
  constructor <;> decide

theorem exec_unharmed_iff_good :
    programHeaders sampleKernel (fileImage (elf goodSegments)) = some goodSegments ∧
    ∀ supply, (∀ ps, programHeaders sampleKernel (fileImage (elf goodSegments)) = some ps →
        Provided sampleWorld supply (requests 5 ps).length) →
      Unharmed sampleKernel sampleWorld 5 64 (fileImage (elf goodSegments)) supply := by
  have accepted : programHeaders sampleKernel (fileImage (elf goodSegments)) = some goodSegments := by
    decide +kernel
  refine ⟨accepted, ?_⟩
  apply (exec_unharmed_iff sampleKernel sampleWorld 5 64 .leaf sampleWorld_ready (by decide)
    (by decide) (fileImage (elf goodSegments))).mpr
  intro ps again
  cases accepted.symm.trans again
  exact goodSegments_loadable

def sampleSupply : Supply := ⟨true, some 128, some 7, [some 16, some 32, some 48]⟩

def sampleSystem : System := ⟨copyFrame sampleWorld.word 1 7, [7], {7}⟩

theorem sampleSystem_later {ctx : MemCtx} (pgd : ctx.pgd = 7) :
    Later sampleKernel sampleWorld ctx sampleSystem := by
  refine ⟨by rw [pgd]; decide, ?_⟩
  intro va _
  rw [pgd]
  by_cases first : dir va = 768
  · simp [Paging.translate, first, sampleSystem, copyFrame, sampleWorld, sampleKernel, tableOf, pgVal,
      present]
  · simp [Paging.translate, first, sampleSystem, copyFrame, sampleWorld, sampleKernel]

theorem error_of_map {α β : Type} {x : Except Stop α} {f : α → β} {e : Stop}
    (eq : x.map f = .error e) : x = .error e := by
  cases x with
  | error e' =>
    cases eq
    rfl
  | ok a => cases eq

/-- A file offset that does not fit the address; two segments in one page; a segment in
the part of the kernel where nothing is, touched by the new program. -/
theorem bad_image_harms :
    execImage sampleKernel sampleWorld 5 64 (fileImage (elf [⟨1, 0x10, 0x400000, 0x200, 0x200⟩]))
      sampleSupply = .error (.bug .setupVma) ∧
    execImage sampleKernel sampleWorld 5 64 (fileImage (elf [⟨1, 0, 0x400000, 0x200, 0x200⟩,
      ⟨1, 0, 0x400200, 0, 0x200⟩])) sampleSupply = .error (.bug .vmaInsert) ∧
    ∃ w' c, execImage sampleKernel sampleWorld 5 64
        (fileImage (elf [⟨1, 0, 0xf0000000, 0, 0x1000⟩])) sampleSupply = .ok (w', some c) ∧
      ¬ FaultsReturn sampleKernel sampleWorld w' c := by
  refine ⟨error_of_map (f := fun _ => ()) ?_, error_of_map (f := fun _ => ()) ?_, ?_⟩
  · decide +kernel
  · decide +kernel
  · let a : Access := ⟨0xf0000000, false, some 9, none⟩
    obtain ⟨w', c, ran, pgd, stops, absent⟩ := Loops.ok_of_decided
      (x := execImage sampleKernel sampleWorld 5 64
        (fileImage (elf [⟨1, 0, 0xf0000000, 0, 0x1000⟩])) sampleSupply)
      (fun w c => (memCtxOf w c).pgd = 7 ∧
        (mmPagefault (walk w) (memCtxOf w c) sampleSystem a (protOf a.write)).isSome = false ∧
        (translate sampleSystem.word 7 a.va).isSome = false) (by decide +kernel)
    refine ⟨w', c, ran, ?_⟩
    intro returns
    have frames : Frames sampleSystem a := ⟨by simp [a, nrFrames], by simp [a]⟩
    have returned := returns sampleSystem (sampleSystem_later pgd) a (by decide)
      (by rw [pgd]; exact Option.not_isSome_iff_eq_none.mp (by simp [absent])) frames
    simp [stops] at returned

end ScaraOS.Exec
