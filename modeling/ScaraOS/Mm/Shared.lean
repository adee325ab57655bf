import Mathlib.Data.Fintype.Defs
import ScaraOS.Lib.Run
import ScaraOS.Mm.Fault
import ScaraOS.Paging.Invariant

/-! Page faults of tasks that share an address space. A page fault is a trap, so the
handler can lose the processor wherever it is; the steps of `mm_pagefault` and of
`map_page_to_ctx` are taken one at a time here, and so is the read of CR2 before them. -/
namespace ScaraOS.Mm.Shared

open Function Paging

/-- Where a task is in its page fault: before `page_fault` has read CR2, where `va` is what the
processor put there for it; before it has a page; before the test of the directory entry;
before the allocation of a page table; before the two stores. -/
inductive Pc where
  | idle
  | trapped (va prot : Nat)
  | acquire (va prot : Nat)
  | test (va prot page : Nat)
  | table (va prot page : Nat)
  | storeDir (va prot page pt : Nat)
  | storePte (va prot page pt : Nat)
  deriving DecidableEq, Repr

def Pc.va : Pc → Option Nat
  | .idle => none
  | .trapped va _ => some va
  | .acquire va _ => some va
  | .test va _ _ => some va
  | .table va _ _ => some va
  | .storeDir va _ _ _ => some va
  | .storePte va _ _ _ => some va

def Pc.unread : Pc → Option Nat
  | .trapped va _ => some va
  | _ => none

/-- `cache` is the frame of each page of a file that is in a page cache, by inode and
offset. `pages` are the frames that hold the pages of files and users. -/
structure State (T : Type) where
  pc : T → Pc
  cr2 : Nat
  sys : System
  cache : Nat × Nat → Option Nat
  pages : Finset Nat

variable {T : Type} [DecidableEq T]

def State.goto (s : State T) (t : T) (pc : Pc) : State T :=
  { s with pc := update s.pc t pc }

def fresh (s : State T) (f : Nat) : Bool := available s.sys f ∧ f ∉ s.pages

/-- The page of an area: `readpage`, which holds `i_sem` all the time, or a cleared new
page. `alloc` is the frame a call of `alloc_page` gets; `none` also stands for a read
that fails. -/
def getPage (s : State T) (t : T) (v : Vma) (va prot : Nat) (alloc : Option Nat) :
    Option (State T) :=
  match pageSource v va with
  | some key =>
    if key.2 % 4096 ≠ 0 then none
    else
      match s.cache key, alloc with
      | some page, _ => some (s.goto t (.test va prot page))
      | none, none => some (s.goto t .idle)
      | none, some page =>
        if fresh s page then
          some
            { s.goto t (.test va prot page) with
              cache := update s.cache key (some page)
              pages := insert page s.pages }
        else none
  | none =>
    match alloc with
    | none => some (s.goto t .idle)
    | some page =>
      if fresh s page then
        some
          { s.goto t (.test va prot page) with
            sys := { s.sys with word := clearFrame s.sys.word page }
            pages := insert page s.pages }
      else none

/-- `mm_pagefault` up to `map_page_to_ctx`. -/
def acquire (fuel : Nat) (ctx : MemCtx) (s : State T) (t : T) (va prot : Nat)
    (alloc : Option Nat) : Option (State T) := do
  let n ← lookupVma ctx.vma va fuel ctx.root
  if n = 0 then some (s.goto t .idle)
  else if (ctx.vma n).vmaProt &&& prot = 0 then some (s.goto t .idle)
  else getPage s t (ctx.vma n) va prot alloc

def advance (fuel : Nat) (ctx : MemCtx) (s : State T) (t : T) (alloc : Option Nat) :
    Option (State T) :=
  match s.pc t with
  | .idle => none
  | .trapped _ prot => some (s.goto t (.acquire s.cr2 prot))
  | .acquire va prot => acquire fuel ctx s t va prot alloc
  | .test va prot page =>
    if pgVal va ≥ pageOffset then none
    else if s.sys.word ctx.pgd (dir (pgVal va)) &&& present = 0 then
      some (s.goto t (.table va prot page))
    else some (s.goto t (.storePte va prot page (tableOf (s.sys.word ctx.pgd (dir (pgVal va))))))
  | .table va prot page =>
    match alloc with
    | none => some (s.goto t .idle)
    | some f =>
      if fresh s f then
        some
          { s.goto t (.storeDir va prot page f) with
            sys := { s.sys with
              word := clearFrame s.sys.word f
              used := insert f s.sys.used } }
      else none
  | .storeDir va prot page f =>
    some
      { s.goto t (.storePte va prot page f) with
        sys := { s.sys with word := setWord s.sys.word ctx.pgd (dir (pgVal va)) (pdeWord f) } }
  | .storePte va prot page f =>
    some
      { s.goto t .idle with
        sys := { s.sys with word := setWord s.sys.word f (tbl (pgVal va)) (pteWord page prot) } }

/-- `elsewhere` is a page fault of a task with another address space. -/
inductive Label (T : Type) where
  | fault (t : T) (va : Nat) (write : Bool)
  | elsewhere (va : Nat)
  | advance (t : T) (alloc : Option Nat)
  deriving DecidableEq, Repr

def step (fuel : Nat) (ctx : MemCtx) (s : State T) : Label T → Option (State T)
  | .fault t va write =>
    if s.pc t = .idle ∧ va < 2 ^ 32 ∧ translate s.sys.word ctx.pgd va = none then
      some { s.goto t (.trapped va (protOf write)) with cr2 := va }
    else none
  | .elsewhere va => some { s with cr2 := va }
  | .advance t alloc => advance fuel ctx s t alloc

/-- The page of a file an access to `va` is served from, if it is one. -/
def source (fuel : Nat) (ctx : MemCtx) (va : Nat) : Option (Nat × Nat) :=
  (lookupVma ctx.vma va fuel ctx.root).bind fun n => pageSource (ctx.vma n) va

variable {prot va' f va page : Nat} {r : Int} {v : Vma} {a : Access} {pc : Pc} {alloc : Option Nat}

section Alone

variable {fuel : Nat} {ctx : MemCtx} {s : State T} {t : T}

theorem mapPageToCtx_alone (fuel : Nat) {table : Option Nat} {m : Words}
    (at_ : s.pc t = .test va prot page) (free : ∀ f ∈ table, fresh s f = true)
    (ran : mapPageToCtx s.sys.word ctx.pgd page (pgVal va) prot table = some (m, r)) :
    ∃ ls, Run.exec (step fuel ctx) s ls = some
      { s.goto t .idle with
        sys := { s.sys with
          word := m
          used := usedAfter s.sys ctx.pgd ⟨page, pgVal va, prot, table⟩ } } := by
  obtain ⟨low, cases⟩ := mapPageToCtx_cases ran
  have inside : ¬ pgVal va ≥ pageOffset := Nat.not_le_of_lt low
  rcases cases with ⟨empty, rfl, rfl⟩ | ⟨f, empty, rfl, rfl⟩ | ⟨there, rfl⟩
  · refine ⟨[.advance t none, .advance t none], ?_⟩
    simp [Run.exec, step, advance, at_, inside, empty, State.goto, usedAfter]
  · have given : fresh { s with pc := update s.pc t (.table va prot page) } f = true :=
      free f rfl
    refine ⟨[.advance t none, .advance t (some f), .advance t none, .advance t none], ?_⟩
    simp [Run.exec, step, advance, at_, inside, empty, State.goto, usedAfter, given]
  · refine ⟨[.advance t none, .advance t none], ?_⟩
    simp [Run.exec, step, advance, at_, inside, there, State.goto, usedAfter]

def Supplied (s : State T) (v : Vma) (a : Access) : Prop :=
  match pageSource v a.va with
  | some key => key.2 % 4096 = 0 ∧
      (s.cache key = a.page ∨ s.cache key = none ∧ ∀ f ∈ a.page, fresh s f = true)
  | none => ∀ f ∈ a.page, fresh s f = true

theorem getPage_alone (t : T) (prot : Nat) (given : a.page = some page)
    (supplied : Supplied s v a) :
    ∃ alloc s', getPage s t v a.va prot alloc = some s' ∧
      s'.pc = update s.pc t (.test a.va prot page) ∧
      s'.sys = (match pageSource v a.va with
        | some _ => s.sys
        | none => { s.sys with word := clearFrame s.sys.word page }) ∧
      ∀ f, f ≠ page → fresh s f = true → fresh s' f = true := by
  unfold Supplied at supplied
  cases file : pageSource v a.va with
  | some key =>
    simp only [file, given] at supplied
    obtain ⟨aligned, cached | ⟨missing, free⟩⟩ := supplied
    · exact ⟨none, s.goto t (.test a.va prot page), by simp [getPage, file, aligned, cached], rfl, rfl,
        fun _ _ free => free⟩
    · have unused := free page rfl
      refine ⟨some page,
        { s.goto t (.test a.va prot page) with
          cache := update s.cache key (some page)
          pages := insert page s.pages },
        by simp [getPage, file, aligned, missing, unused], rfl, rfl, ?_⟩
      intro f apart free
      simpa [fresh, State.goto, apart] using free
  | none =>
    simp only [file, given] at supplied
    have unused := supplied page rfl
    refine ⟨some page,
      { s.goto t (.test a.va prot page) with
        sys := { s.sys with word := clearFrame s.sys.word page }
        pages := insert page s.pages },
      by simp [getPage, file, unused], rfl, rfl, ?_⟩
    intro f apart free
    simpa [fresh, State.goto, available, apart] using free

theorem mmPagefault_alone {sys : System} (at_ : s.pc t = .acquire a.va prot)
    (supplied : ∀ n, Supplied s (ctx.vma n) a)
    (free : ∀ f ∈ a.table, a.page ≠ some f ∧ fresh s f = true)
    (ran : mmPagefault fuel ctx s.sys a prot = some (sys, r)) :
    ∃ ls s', Run.exec (step fuel ctx) s ls = some s' ∧
      s'.pc = update s.pc t .idle ∧ s'.sys = sys := by
  have acquires : ∀ alloc, step fuel ctx s (.advance t alloc) =
      acquire fuel ctx s t a.va prot alloc := by
    intro alloc
    simp only [step, advance, at_]
  -- a fault that is refused ends with this step
  have refused : acquire fuel ctx s t a.va prot none = some (s.goto t .idle) → sys = s.sys →
      ∃ ls s', Run.exec (step fuel ctx) s ls = some s' ∧
        s'.pc = update s.pc t .idle ∧ s'.sys = sys := by
    intro ends same
    refine ⟨[.advance t none], s.goto t .idle, ?_, rfl, same.symm⟩
    rw [Run.exec_cons, acquires]
    exact ⟨_, ends, rfl⟩
  obtain ⟨n, found, rest⟩ := Option.bind_eq_some_iff.mp ran
  by_cases null : n = 0
  · simp only [if_pos null, Option.some.injEq, Prod.mk.injEq] at rest
    exact refused (by simp [acquire, found, null]) rest.1.symm
  by_cases denied : (ctx.vma n).vmaProt &&& prot = 0
  · simp only [if_neg null, if_pos denied, Option.some.injEq, Prod.mk.injEq] at rest
    exact refused (by simp [acquire, found, null, denied]) rest.1.symm
  have gets : ∀ alloc, acquire fuel ctx s t a.va prot alloc =
      getPage s t (ctx.vma n) a.va prot alloc := by
    intro alloc
    simp [acquire, found, null, denied]
  simp only [if_neg null, if_neg denied] at rest
  cases given : a.page with
  | none =>
    simp only [given, Option.some.injEq, Prod.mk.injEq] at rest
    have supply := supplied n
    apply refused _ rest.1.symm
    rw [gets]
    unfold Supplied at supply
    cases file : pageSource (ctx.vma n) a.va with
    | some key =>
      simp only [file, given] at supply
      have missing : s.cache key = none := by
        rcases supply.2 with none | ⟨none, -⟩ <;> exact none
      simp [getPage, file, supply.1, missing]
    | none => simp [getPage, file]
  | some page =>
    simp only [given] at rest
    obtain ⟨alloc, s₁, got, pcs, sys₁, kept⟩ := getPage_alone t prot given (supplied n)
    have rest : (mapPageToCtx s₁.sys.word ctx.pgd page (pgVal a.va) prot a.table).bind (fun x =>
        (mapCall s₁.sys ctx.pgd ⟨page, pgVal a.va, prot, a.table⟩).bind fun sys =>
          if x.2 ≠ 0 then some (sys, -1) else some (sys, 0)) = some (sys, r) := by
      cases file : pageSource (ctx.vma n) a.va with
      | some key | none =>
        simp only [file] at rest sys₁
        rw [sys₁]
        exact rest
    obtain ⟨⟨m, ret⟩, mapped, rest⟩ := Option.bind_eq_some_iff.mp rest
    obtain ⟨sys₂, called, rest⟩ := Option.bind_eq_some_iff.mp rest
    obtain rfl : sys₂ = sys := by
      dsimp only at rest
      split at rest
      · exact congrArg Prod.fst (Option.some.inj rest)
      · exact congrArg Prod.fst (Option.some.inj rest)
    have tables : ∀ f ∈ a.table, fresh s₁ f = true := by
      intro f member
      obtain ⟨apart, unused⟩ := free f member
      exact kept f (fun eq => apart (by rw [given, eq])) unused
    obtain ⟨ls, ends⟩ := mapPageToCtx_alone fuel (by rw [pcs]; exact update_self ..)
      tables mapped
    have whole := (Run.exec_cons (step fuel ctx) s _ (.advance t alloc) ls).mpr
      ⟨s₁, by rw [acquires, gets]; exact got, ends⟩
    refine ⟨_, _, whole, ?_, ?_⟩
    · simp [State.goto, pcs]
    · obtain ⟨-, eq⟩ := Option.ite_none_right_eq_some.mp called
      simp only [mapped, Option.map_some, Option.some.injEq] at eq
      exact eq

end Alone

/-- Every page that is mapped stays mapped, and to the same frame. -/
def Kept (ctx : MemCtx) (s s' : State T) : Prop :=
  ∀ va < pageOffset, ∀ m, translate s.sys.word ctx.pgd va = some m →
    ∃ m', translate s'.sys.word ctx.pgd va = some m' ∧ m'.frame = m.frame

/-- Two faults that cannot harm each other: if they are on one page, both find it in
the same place of a page cache; if they are in one slot of the directory, its page
table is there. -/
def Compatible (fuel : Nat) (ctx : MemCtx) (s : State T) (va va' : Nat) : Prop :=
  (SamePage va va' → (source fuel ctx va).isSome ∧ source fuel ctx va = source fuel ctx va') ∧
    (dir va = dir va' → s.sys.word ctx.pgd (dir va) &&& present ≠ 0)

/-- No task waits to read another address from CR2. -/
def Unread (s : State T) (va : Nat) : Prop := ∀ u, ∀ va' ∈ (s.pc u).unread, va' = va

/-- A fault is taken only when it is compatible with all that are in flight, and a fault of any
address space only when nobody's CR2 is lost. -/
def Apart (fuel : Nat) (ctx : MemCtx) (s : State T) : Label T → Prop
  | .fault t va _ => Unread s va ∧
      ∀ u, u ≠ t → ∀ va' ∈ (s.pc u).va, Compatible fuel ctx s va va'
  | .elsewhere va => Unread s va
  | .advance _ _ => True

structure Start (ctx : MemCtx) (s : State T) : Prop where
  idle : ∀ t, s.pc t = .idle
  reached : ∃ memory initPgd ops, Run.exec Paging.step (boot memory initPgd) ops = some s.sys
  here : ctx.pgd ∈ s.sys.ctxs
  frames : ∀ key f, s.cache key = some f → f < nrFrames

def Holds (fuel : Nat) (ctx : MemCtx) (s : State T) (va page : Nat) : Prop :=
  page < nrFrames ∧ ∀ key, source fuel ctx va = some key → s.cache key = some page

structure NewTable (s : State T) (slot : Nat → Nat) (va f : Nat) : Prop where
  frame : f < nrFrames
  used : f ∈ s.sys.used
  notDir : f ∉ s.sys.ctxs
  index : slot f = dir va
  clear : ∀ j, s.sys.word f j = 0

def At (fuel : Nat) (ctx : MemCtx) (s : State T) (slot : Nat → Nat) : Pc → Prop
  | .idle => True
  | .trapped va _ => va < 2 ^ 32 ∧ s.cr2 = va
  | .acquire va _ => va < 2 ^ 32
  | .test va _ page => va < 2 ^ 32 ∧ Holds fuel ctx s va page
  | .table va _ page => va < pageOffset ∧ Holds fuel ctx s va page ∧
      s.sys.word ctx.pgd (dir va) &&& present = 0
  | .storeDir va _ page f => va < pageOffset ∧ Holds fuel ctx s va page ∧
      s.sys.word ctx.pgd (dir va) &&& present = 0 ∧ NewTable s slot va f
  | .storePte va _ page f => va < pageOffset ∧ Holds fuel ctx s va page ∧
      s.sys.word ctx.pgd (dir va) = pdeWord f ∧ f < nrFrames ∧ f ∈ s.sys.used ∧
      f ∉ s.sys.ctxs ∧ slot f = dir va

structure Inv (fuel : Nat) (ctx : MemCtx) (s : State T) (slot : Nat → Nat) : Prop where
  wf : Wf s.sys slot
  here : ctx.pgd ∈ s.sys.ctxs
  frames : ∀ key f, s.cache key = some f → f < nrFrames
  tasks : ∀ t, At fuel ctx s slot (s.pc t)
  served : ∀ t, ∀ va ∈ (s.pc t).va, va < pageOffset →
    ∀ m, translate s.sys.word ctx.pgd va = some m →
      ∃ key, source fuel ctx va = some key ∧ s.cache key = some m.frame
  apart : ∀ t u, t ≠ u → ∀ va ∈ (s.pc t).va, ∀ va' ∈ (s.pc u).va, Compatible fuel ctx s va va'

section Steps

variable {fuel : Nat} {ctx : MemCtx} {s s' : State T} {slot slot' : Nat → Nat} {t u : T}

omit [DecidableEq T] in
theorem Compatible.symm (both : Compatible fuel ctx s va va') :
    Compatible fuel ctx s va' va := by
  constructor
  · intro same
    obtain ⟨found, eq⟩ := both.1 ⟨same.1.symm, same.2.symm⟩
    exact ⟨eq ▸ found, eq.symm⟩
  · intro same
    rw [same]
    exact both.2 same.symm

omit [DecidableEq T] in
theorem start_inv (start : Start ctx s) : ∃ slot, Inv fuel ctx s slot := by
  obtain ⟨memory, initPgd, ops, ran⟩ := start.reached
  obtain ⟨slot, wf⟩ := run_wf ran
  refine ⟨slot, wf, start.here, start.frames, ?_, ?_, ?_⟩
  · intro t
    rw [start.idle t]
    trivial
  · intro t va inFlight
    simp [start.idle t, Pc.va] at inFlight
  · intro t u _ va inFlight
    simp [start.idle t, Pc.va] at inFlight

omit [DecidableEq T] in
theorem At.other (at_ : At fuel ctx s slot pc) (cr2 : ∀ va ∈ pc.unread, s.cr2 = va → s'.cr2 = va)
    (cache : ∀ key f, s.cache key = some f → s'.cache key = some f)
    (ctxs : s'.sys.ctxs = s.sys.ctxs) (grows : s.sys.used ⊆ s'.sys.used)
    (slots : ∀ f ∈ s.sys.used, slot' f = slot f)
    (dirs : ∀ va ∈ pc.va, s'.sys.word ctx.pgd (dir va) = s.sys.word ctx.pgd (dir va))
    (new : ∀ va ∈ pc.va, s.sys.word ctx.pgd (dir va) &&& present = 0 →
      ∀ f, NewTable s slot va f → s'.sys.word f = s.sys.word f) : At fuel ctx s' slot' pc := by
  have holds : ∀ va page, Holds fuel ctx s va page → Holds fuel ctx s' va page :=
    fun va page h => ⟨h.1, fun key found => cache key page (h.2 key found)⟩
  cases pc with
  | idle => trivial
  | trapped va prot => exact ⟨at_.1, cr2 va rfl at_.2⟩
  | acquire va prot => exact at_
  | test va prot page => exact ⟨at_.1, holds va page at_.2⟩
  | table va prot page =>
    obtain ⟨low, held, empty⟩ := at_
    exact ⟨low, holds va page held, by rw [dirs va rfl]; exact empty⟩
  | storeDir va prot page f =>
    obtain ⟨low, held, empty, table⟩ := at_
    refine ⟨low, holds va page held, by rw [dirs va rfl]; exact empty, table.frame,
      grows table.used, by rw [ctxs]; exact table.notDir, (slots f table.used).trans table.index, ?_⟩
    rw [new va rfl empty f table]
    exact table.clear
  | storePte va prot page f =>
    obtain ⟨low, held, table, frame, used, notDir, index⟩ := at_
    exact ⟨low, holds va page held, by rw [dirs va rfl]; exact table, frame, grows used,
      by rw [ctxs]; exact notDir, (slots f used).trans index⟩

structure Change (fuel : Nat) (ctx : MemCtx) (s s' : State T) (slot slot' : Nat → Nat) (t : T)
    (pc : Pc) : Prop where
  pcs : s'.pc = update s.pc t pc
  va : pc.va = none ∨ pc.va = (s.pc t).va
  wf : Wf s'.sys slot'
  ctxs : s'.sys.ctxs = s.sys.ctxs
  cache : ∀ key f, s.cache key = some f → s'.cache key = some f
  frames : ∀ key f, s'.cache key = some f → f < nrFrames
  here : At fuel ctx s' slot' pc
  present : ∀ i, s.sys.word ctx.pgd i &&& present ≠ 0 → s'.sys.word ctx.pgd i &&& present ≠ 0
  others : ∀ u ≠ t, At fuel ctx s slot (s.pc u) → At fuel ctx s' slot' (s.pc u)
  served : ∀ u, ∀ va ∈ (s.pc u).va, va < pageOffset → (u = t → pc.va = some va) →
    ∀ m, translate s'.sys.word ctx.pgd va = some m →
      translate s.sys.word ctx.pgd va = some m ∨
        ∃ key, source fuel ctx va = some key ∧ s'.cache key = some m.frame

theorem Inv.change (inv : Inv fuel ctx s slot) (c : Change fuel ctx s s' slot slot' t pc) :
    Inv fuel ctx s' slot' := by
  have flight : ∀ u, ∀ va ∈ (s'.pc u).va, va ∈ (s.pc u).va ∧ (u = t → pc.va = some va) := by
    intro u va inFlight
    rw [c.pcs] at inFlight
    by_cases same : u = t
    · subst same
      rw [update_self] at inFlight
      rcases c.va with none | kept
      · simp [none] at inFlight
      · exact ⟨kept ▸ inFlight, fun _ => inFlight⟩
    · rw [update_of_ne same] at inFlight
      exact ⟨inFlight, fun eq => absurd eq same⟩
  refine ⟨c.wf, c.ctxs ▸ inv.here, c.frames, ?_, ?_, ?_⟩
  · intro u
    rw [c.pcs]
    by_cases same : u = t
    · rw [same, update_self]
      exact c.here
    · rw [update_of_ne same]
      exact c.others u same (inv.tasks u)
  · intro u va inFlight low m there
    obtain ⟨before, own⟩ := flight u va inFlight
    rcases c.served u va before low own m there with old | new
    · obtain ⟨key, from_, cached⟩ := inv.served u va before low m old
      exact ⟨key, from_, c.cache key m.frame cached⟩
    · exact new
  · intro u v apart va inFlight va' inFlight'
    obtain ⟨page, slots⟩ :=
      inv.apart u v apart va (flight u va inFlight).1 va' (flight v va' inFlight').1
    exact ⟨page, fun same => c.present _ (slots same)⟩

omit [DecidableEq T] in
theorem kept_of_eq (same : ∀ va < pageOffset,
    translate s'.sys.word ctx.pgd va = translate s.sys.word ctx.pgd va) : Kept ctx s s' :=
  fun va low m there => ⟨m, (same va low).trans there, rfl⟩

omit [DecidableEq T] in
theorem At.same (at_ : At fuel ctx s slot pc) (cr2 : ∀ va ∈ pc.unread, s.cr2 = va → s'.cr2 = va)
    (sys : s'.sys = s.sys) (cache : ∀ key f, s.cache key = some f → s'.cache key = some f) :
    At fuel ctx s' slot pc :=
  at_.other cr2 cache (by rw [sys]) (by rw [sys]) (fun _ _ => rfl) (fun _ _ => by rw [sys])
    (fun _ _ _ _ _ => by rw [sys])

theorem Inv.move (inv : Inv fuel ctx s slot) (pcs : s'.pc = update s.pc t pc)
    (cr2 : s'.cr2 = s.cr2) (sys : s'.sys = s.sys)
    (cache : ∀ key f, s.cache key = some f → s'.cache key = some f)
    (frames : ∀ key f, s'.cache key = some f → f < nrFrames)
    (va : pc.va = none ∨ pc.va = (s.pc t).va) (here : At fuel ctx s' slot pc) :
    Inv fuel ctx s' slot ∧ Kept ctx s s' := by
  have change : Change fuel ctx s s' slot slot t pc := by
    refine ⟨pcs, va, by rw [sys]; exact inv.wf, by rw [sys], cache, frames, here, ?_, ?_, ?_⟩
    · intro i set
      rw [sys]
      exact set
    · intro u _ at_
      exact at_.same (fun _ _ is => cr2.trans is) sys cache
    · intro u va _ _ _ m there
      rw [sys] at there
      exact .inl there
  exact ⟨inv.change change, kept_of_eq fun _ _ => by rw [sys]⟩

theorem Inv.goto (inv : Inv fuel ctx s slot) (va : pc.va = none ∨ pc.va = (s.pc t).va)
    (here : At fuel ctx s slot pc) : Inv fuel ctx (s.goto t pc) slot ∧ Kept ctx s (s.goto t pc) :=
  inv.move rfl rfl rfl (fun _ _ found => found) inv.frames va
    (here.same (fun _ _ is => is) rfl fun _ _ found => found)

theorem Inv.idle (inv : Inv fuel ctx s slot) (t : T) :
    Inv fuel ctx (s.goto t .idle) slot ∧ Kept ctx s (s.goto t .idle) :=
  inv.goto (.inl rfl) trivial

omit [DecidableEq T] in
theorem Inv.at_pc (inv : Inv fuel ctx s slot) (at_ : s.pc t = pc) : At fuel ctx s slot pc :=
  at_ ▸ inv.tasks t

omit [DecidableEq T] in
theorem fresh_frame (free : fresh s f = true) : f < nrFrames ∧ f ∉ s.sys.used ∧ f ∉ s.pages := by
  obtain ⟨⟨frame, unused⟩, out⟩ : (f < nrFrames ∧ f ∉ s.sys.used) ∧ f ∉ s.pages := by
    simpa [fresh, available] using free
  exact ⟨frame, unused, out⟩

theorem Inv.clear {used : Finset Nat} (inv : Inv fuel ctx s slot) (unused : f ∉ s.sys.used)
    (pcs : s'.pc = update s.pc t pc) (cr2 : s'.cr2 = s.cr2)
    (sys : s'.sys = { s.sys with word := clearFrame s.sys.word f, used := used })
    (grows : s.sys.used ⊆ used) (slots : ∀ g ∈ s.sys.used, slot' g = slot g)
    (cache : s'.cache = s.cache) (va : pc.va = (s.pc t).va)
    (here : s'.sys.word ctx.pgd = s.sys.word ctx.pgd → At fuel ctx s' slot' pc) :
    Inv fuel ctx s' slot' ∧ Kept ctx s s' := by
  have same : ∀ g ∈ s.sys.used, s'.sys.word g = s.sys.word g := by
    rw [sys]
    exact clearFrame_used unused
  have dirs := same ctx.pgd (inv.wf.dirs ctx.pgd inv.here)
  have translates : ∀ va < pageOffset,
      translate s'.sys.word ctx.pgd va = translate s.sys.word ctx.pgd va :=
    fun va low => translate_outside inv.wf same inv.here low
  have wf : Wf s'.sys slot' := by
    obtain ⟨-, nodup, tables⟩ := wf_outside inv.wf same
    have ctxs : s'.sys.ctxs = s.sys.ctxs := by rw [sys]
    have uses : s.sys.used ⊆ s'.sys.used := by rw [sys]; exact grows
    refine ⟨fun g member => uses (inv.wf.dirs g (ctxs ▸ member)), ctxs ▸ nodup, ?_⟩
    rw [ctxs]
    intro g member i user there
    obtain ⟨h, bound, table, inUse, notDir, index⟩ := tables g member i user there
    exact ⟨h, bound, table, uses inUse, notDir, (slots h inUse).trans index⟩
  have change : Change fuel ctx s s' slot slot' t pc := by
    refine ⟨pcs, .inr va, wf, by rw [sys], ?_, ?_, here dirs, ?_, ?_, ?_⟩
    · rw [cache]
      exact fun _ _ found => found
    · rw [cache]
      exact inv.frames
    · rw [dirs]
      exact fun _ set => set
    · intro u _ at_
      exact at_.other (fun _ _ is => cr2.trans is) (by rw [cache]; exact fun _ _ found => found)
        (by rw [sys]) (by rw [sys]; exact grows) slots (fun _ _ => by rw [dirs])
        (fun _ _ _ h new => same h new.used)
    · intro u va _ low _ m there
      rw [translates va low] at there
      exact .inl there
  exact ⟨inv.change change, kept_of_eq translates⟩

theorem getPage_inv (inv : Inv fuel ctx s slot) (at_ : s.pc t = .acquire va prot)
    (from_ : source fuel ctx va = pageSource v va) (stepped : getPage s t v va prot alloc = some s') :
    Inv fuel ctx s' slot ∧ Kept ctx s s' := by
  have bound : va < 2 ^ 32 := inv.at_pc at_
  have flight : ∀ page, (Pc.test va prot page).va = (s.pc t).va := by
    intro page
    rw [at_]
    rfl
  cases file : pageSource v va with
  | some key =>
    have only : ∀ other, source fuel ctx va = some other → other = key := by
      intro other found
      rw [from_, file] at found
      exact (Option.some.inj found).symm
    simp only [getPage, file] at stepped
    obtain ⟨-, rest⟩ := Option.ite_none_left_eq_some.mp stepped
    cases cached : s.cache key with
    | some page =>
      simp only [cached, Option.some.injEq] at rest
      subst rest
      refine inv.goto (.inr (flight page)) ⟨bound, inv.frames key page cached, ?_⟩
      intro other found
      rw [only other found]
      exact cached
    | none =>
      cases alloc with
      | none =>
        simp only [cached, Option.some.injEq] at rest
        exact rest ▸ inv.idle t
      | some page =>
        simp only [cached] at rest
        obtain ⟨free, eq⟩ := Option.ite_none_right_eq_some.mp rest
        cases eq
        have keeps : ∀ other f, s.cache other = some f →
            update s.cache key (some page) other = some f := by
          intro other f found
          have apart : other ≠ key := by
            rintro rfl
            rw [cached] at found
            cases found
          rw [update_of_ne apart]
          exact found
        refine inv.move rfl rfl rfl keeps ?_ (.inr (flight page)) ⟨bound, (fresh_frame free).1, ?_⟩
        · intro other f found
          by_cases same : other = key
          · simp only [same, update_self, Option.some.injEq] at found
            exact found ▸ (fresh_frame free).1
          · exact inv.frames other f (by simpa [same] using found)
        · intro other found
          rw [only other found]
          exact update_self ..
  | none =>
    simp only [getPage, file] at stepped
    cases alloc with
    | none =>
      cases stepped
      exact inv.idle t
    | some page =>
      obtain ⟨free, eq⟩ := Option.ite_none_right_eq_some.mp stepped
      cases eq
      refine inv.clear (fresh_frame free).2.1 rfl rfl rfl (Finset.Subset.refl _) (fun _ _ => rfl) rfl
        (flight page) (fun _ => ⟨bound, (fresh_frame free).1, ?_⟩)
      intro key found
      rw [from_, file] at found
      cases found

theorem acquire_inv (inv : Inv fuel ctx s slot) (at_ : s.pc t = .acquire va prot)
    (stepped : acquire fuel ctx s t va prot alloc = some s') :
    Inv fuel ctx s' slot ∧ Kept ctx s s' := by
  obtain ⟨n, found, rest⟩ := Option.bind_eq_some_iff.mp stepped
  by_cases absent : n = 0
  · simp only [if_pos absent, Option.some.injEq] at rest
    exact rest ▸ inv.idle t
  · by_cases refused : (ctx.vma n).vmaProt &&& prot = 0
    · simp only [if_neg absent, if_pos refused, Option.some.injEq] at rest
      exact rest ▸ inv.idle t
    · simp only [if_neg absent, if_neg refused] at rest
      exact getPage_inv inv at_ (by simp [source, found]) rest

theorem dir_page (va : Nat) : dir (pgVal va) = dir va := by
  rw [dir_eq, dir_eq, pgVal_eq]
  omega

theorem tbl_page (va : Nat) : tbl (pgVal va) = tbl va := by
  rw [tbl_eq, tbl_eq, pgVal_eq]
  omega

theorem low_of_page (bound : va < 2 ^ 32) (low : pgVal va < pageOffset) :
    va < pageOffset := by
  unfold pageOffset at low ⊢
  rw [pgVal_eq] at low
  omega

omit [DecidableEq T] in
theorem Inv.alone (inv : Inv fuel ctx s slot) (inFlight : (s.pc t).va = some va)
    (empty : s.sys.word ctx.pgd (dir va) &&& present = 0) (other : u ≠ t)
    (inFlight' : va' ∈ (s.pc u).va) : dir va' ≠ dir va := by
  intro same
  exact (inv.apart t u other.symm va inFlight va' inFlight').2 same.symm empty

section

variable (inv : Inv fuel ctx s slot)
include inv

omit [DecidableEq T] in
theorem Inv.translate_same (low : va < pageOffset)
    (dirs : s'.sys.word ctx.pgd (dir va) = s.sys.word ctx.pgd (dir va))
    (words : ∀ h, h ∉ s.sys.ctxs → slot h = dir va → s'.sys.word h (tbl va) = s.sys.word h (tbl va)) :
    translate s'.sys.word ctx.pgd va = translate s.sys.word ctx.pgd va := by
  by_cases set : s.sys.word ctx.pgd (dir va) &&& present = 0
  · rw [translate_absent set, translate_absent (dirs ▸ set)]
  · obtain ⟨h, bound, table, -, notDir, index⟩ :=
      inv.wf.tables ctx.pgd inv.here (dir va) (dir_user low) set
    rw [translate_table bound (dirs.trans table), translate_table bound table, words h notDir index]

theorem test_inv (at_ : s.pc t = .test va prot page) (low : va < pageOffset)
    (there : s.sys.word ctx.pgd (dir va) &&& present ≠ 0) :
    Inv fuel ctx (s.goto t (.storePte va prot page (tableOf (s.sys.word ctx.pgd (dir va))))) slot ∧
      Kept ctx s (s.goto t (.storePte va prot page (tableOf (s.sys.word ctx.pgd (dir va))))) := by
  obtain ⟨f, frame, table, used, notDir, index⟩ :=
    inv.wf.tables ctx.pgd inv.here (dir va) (dir_user low) there
  rw [table, tableOf_pdeWord frame]
  exact inv.goto (.inr (by rw [at_]; rfl))
    ⟨low, (inv.at_pc at_).2, table, frame, used, notDir, index⟩

theorem table_inv (at_ : s.pc t = .table va prot page) (free : fresh s f = true) :
    let s' : State T :=
      { s.goto t (.storeDir va prot page f) with
        sys := { s.sys with
          word := clearFrame s.sys.word f
          used := insert f s.sys.used } }
    Inv fuel ctx s' (update slot f (dir va)) ∧ Kept ctx s s' := by
  intro s'
  obtain ⟨frame, unused, -⟩ := fresh_frame free
  obtain ⟨low, holds, empty⟩ := inv.at_pc at_
  have slots : ∀ g ∈ s.sys.used, update slot f (dir va) g = slot g := by
    intro g inUse
    have away : g ≠ f := fun eq => unused (eq ▸ inUse)
    exact update_of_ne away _ _
  refine inv.clear unused rfl rfl rfl (Finset.subset_insert f s.sys.used) slots rfl
    (by rw [at_]; rfl) ?_
  intro dirs
  exact ⟨low, holds, by rw [dirs]; exact empty, frame, Finset.mem_insert_self f s.sys.used,
    fun member => unused (inv.wf.dirs f member), update_self .., fun _ => if_pos rfl⟩

theorem storeDir_inv (at_ : s.pc t = .storeDir va prot page f) : let s' : State T :=
      { s.goto t (.storePte va prot page f) with
        sys := { s.sys with word := setWord s.sys.word ctx.pgd (dir va) (pdeWord f) } }
    Inv fuel ctx s' slot ∧ Kept ctx s s' := by
  intro s'
  obtain ⟨low, holds, empty, new⟩ := inv.at_pc at_
  have notPgd : ∀ g, g ∉ s.sys.ctxs → s'.sys.word g = s.sys.word g := by
    intro g out
    have away : g ≠ ctx.pgd := fun eq => out (eq ▸ inv.here)
    exact funext fun j => setWord_ne (.inl away)
  have entry_ : s'.sys.word ctx.pgd (dir va) = pdeWord f := setWord_self ..
  have wf : Wf s'.sys slot := by
    refine ⟨inv.wf.dirs, inv.wf.nodup, ?_⟩
    intro g member i user there
    by_cases changed : g = ctx.pgd ∧ i = dir va
    · obtain ⟨rfl, rfl⟩ := changed
      exact ⟨f, new.frame, entry_, new.used, new.notDir, new.index⟩
    · have same : s'.sys.word g i = s.sys.word g i := setWord_ne (by tauto)
      rw [same] at there ⊢
      exact inv.wf.tables g member i user there
  -- nothing was mapped through this slot, and the new table is empty
  have translates : ∀ va' < pageOffset,
      translate s'.sys.word ctx.pgd va' = translate s.sys.word ctx.pgd va' := by
    intro va' low'
    by_cases same : dir va' = dir va
    · rw [translate_table new.frame (same ▸ entry_), notPgd f new.notDir, new.clear,
        translate_absent (same ▸ empty), entry_zero]
    · exact inv.translate_same low' (setWord_ne (.inr same)) fun h notDir _ => by
        rw [notPgd h notDir]
  have change : Change fuel ctx s s' slot slot t (.storePte va prot page f) := by
    refine ⟨rfl, .inr (by rw [at_]; rfl), wf, rfl, fun _ _ found => found, inv.frames, ?_, ?_, ?_,
      ?_⟩
    · exact ⟨low, holds, entry_, new.frame, new.used, new.notDir, new.index⟩
    · intro i set
      by_cases same : i = dir va
      · rw [same, entry_]
        exact pdeWord_present f
      · have kept : s'.sys.word ctx.pgd i = s.sys.word ctx.pgd i := setWord_ne (.inr same)
        rw [kept]
        exact set
    · intro u other at_u
      refine at_u.other (fun _ _ is => is) (fun _ _ found => found) rfl (Finset.Subset.refl _)
        (fun _ _ => rfl) ?_ (fun _ _ _ h table => notPgd h table.notDir)
      intro va' inFlight
      exact setWord_ne (.inr (inv.alone (by rw [at_]; rfl) empty other inFlight))
    · intro u va' _ low' _ m there
      rw [translates va' low'] at there
      exact .inl there
  exact ⟨inv.change change, kept_of_eq translates⟩

/-- The page is entered. If the entry was there already, another fault had the same
page of a file. -/
theorem storePte_inv (at_ : s.pc t = .storePte va prot page f) : let s' : State T :=
      { s.goto t .idle with
        sys := { s.sys with word := setWord s.sys.word f (tbl va) (pteWord page prot) } }
    Inv fuel ctx s' slot ∧ Kept ctx s s' := by
  intro s'
  obtain ⟨low, holds, table, frame, used, notDir, index⟩ := inv.at_pc at_
  have inFlight : va ∈ (s.pc t).va := by
    rw [at_]
    rfl
  have dirs : ∀ g ∈ s.sys.ctxs, s'.sys.word g = s.sys.word g := by
    intro g member
    have away : g ≠ f := fun eq => notDir (eq ▸ member)
    exact funext fun j => setWord_ne (.inl away)
  have dirs' := dirs ctx.pgd inv.here
  have wf : Wf s'.sys slot := by
    refine ⟨inv.wf.dirs, inv.wf.nodup, ?_⟩
    intro g member i user there
    rw [dirs g member] at there ⊢
    exact inv.wf.tables g member i user there
  have own : ∀ va', SamePage va' va →
      ∃ m, translate s'.sys.word ctx.pgd va' = some m ∧ m.frame = page := by
    intro va' same
    refine ⟨⟨page, prot &&& protWrite ≠ 0, true⟩, ?_, rfl⟩
    have stored : s'.sys.word f (tbl va) = pteWord page prot := setWord_self ..
    rw [translate_same_page same, translate_table frame (dirs' ▸ table), stored,
      entry_pteWord holds.1]
  have others : ∀ va' < pageOffset, ¬ SamePage va' va →
      translate s'.sys.word ctx.pgd va' = translate s.sys.word ctx.pgd va' := by
    intro va' low' apart
    refine inv.translate_same low' (by rw [dirs']) fun h _ myIndex => ?_
    apply setWord_ne
    by_contra both
    obtain ⟨rfl, entries⟩ : h = f ∧ tbl va' = tbl va := by tauto
    exact apart ⟨myIndex.symm.trans index, entries⟩
  have change : Change fuel ctx s s' slot slot t .idle := by
    refine ⟨rfl, .inl rfl, wf, rfl, fun _ _ found => found, inv.frames, trivial, ?_, ?_, ?_⟩
    · rw [dirs']
      exact fun _ set => set
    · intro u other at_u
      refine at_u.other (fun _ _ is => is) (fun _ _ found => found) rfl (Finset.Subset.refl _)
        (fun _ _ => rfl) (fun _ _ => by rw [dirs']) ?_
      intro va' _ empty h new
      have away : h ≠ f := by
        rintro rfl
        rw [← new.index, index, table] at empty
        exact pdeWord_present h empty
      exact funext fun j => setWord_ne (.inl away)
    · intro u va' inFlight' low' mine m there
      by_cases same : SamePage va' va
      · obtain ⟨m', is, frame'⟩ := own va' same
        have eq : m = m' := Option.some.inj (there.symm.trans is)
        have other : u ≠ t := fun eq => by simpa [Pc.va] using mine eq
        obtain ⟨found, sources⟩ := (inv.apart u t other va' inFlight' va inFlight).1 same
        obtain ⟨key, from_⟩ := Option.isSome_iff_exists.mp found
        refine .inr ⟨key, from_, ?_⟩
        rw [eq, frame']
        exact holds.2 key (sources ▸ from_)
      · rw [others va' low' same] at there
        exact .inl there
  refine ⟨inv.change change, ?_⟩
  intro va' low' m there
  by_cases same : SamePage va' va
  · obtain ⟨m', is, frame'⟩ := own va' same
    rw [translate_same_page same] at there
    obtain ⟨key, from_, cached⟩ := inv.served t va inFlight low m there
    have eq : page = m.frame := Option.some.inj ((holds.2 key from_).symm.trans cached)
    exact ⟨m', is, frame'.trans eq⟩
  · exact ⟨m, (others va' low' same).trans there, rfl⟩

theorem advance_inv (stepped : advance fuel ctx s t alloc = some s') :
    ∃ slot, Inv fuel ctx s' slot ∧ Kept ctx s s' := by
  have here := inv.tasks t
  unfold advance at stepped
  generalize at_ : s.pc t = pc at stepped here
  cases pc with
  | idle => cases stepped
  | trapped va prot =>
    rw [here.2] at stepped
    cases stepped
    exact ⟨slot, inv.goto (.inr (by rw [at_]; rfl)) here.1⟩
  | acquire va prot => exact ⟨slot, acquire_inv inv at_ stepped⟩
  | test va prot page =>
    simp only [dir_page] at stepped
    obtain ⟨low, rest⟩ := Option.ite_none_left_eq_some.mp stepped
    have low' : va < pageOffset := low_of_page here.1 (Nat.lt_of_not_ge low)
    by_cases empty : s.sys.word ctx.pgd (dir va) &&& present = 0
    · rw [if_pos empty] at rest
      cases rest
      exact ⟨slot, inv.goto (.inr (by rw [at_]; rfl)) ⟨low', here.2, empty⟩⟩
    · rw [if_neg empty] at rest
      cases rest
      exact ⟨slot, test_inv inv at_ low' empty⟩
  | table va prot page =>
    cases alloc with
    | none =>
      cases stepped
      exact ⟨slot, inv.idle t⟩
    | some f =>
      obtain ⟨free, eq⟩ := Option.ite_none_right_eq_some.mp stepped
      cases eq
      exact ⟨_, table_inv inv at_ free⟩
  | storeDir va prot page f =>
    simp only [dir_page] at stepped
    cases stepped
    exact ⟨slot, storeDir_inv inv at_⟩
  | storePte va prot page f =>
    simp only [tbl_page] at stepped
    cases stepped
    exact ⟨slot, storePte_inv inv at_⟩

theorem fault_inv (idle : s.pc t = .idle) (bound : va < 2 ^ 32)
    (absent : translate s.sys.word ctx.pgd va = none) (unread : Unread s va)
    (ok : ∀ u, u ≠ t → ∀ va' ∈ (s.pc u).va, Compatible fuel ctx s va va') :
    Inv fuel ctx { s.goto t (.trapped va prot) with cr2 := va } slot := by
  have flight : ∀ u, ∀ va' ∈ (update s.pc t (.trapped va prot) u).va,
      u = t ∧ va' = va ∨ u ≠ t ∧ va' ∈ (s.pc u).va := by
    intro u va' inFlight
    by_cases same : u = t
    · rw [same, update_self] at inFlight
      exact .inl ⟨same, (Option.some.inj inFlight).symm⟩
    · rw [update_of_ne same] at inFlight
      exact .inr ⟨same, inFlight⟩
  refine ⟨inv.wf, inv.here, inv.frames, ?_, ?_, ?_⟩
  · intro u
    by_cases same : u = t
    · simp only [State.goto, same, update_self]
      exact ⟨bound, rfl⟩
    · simp only [State.goto, update_of_ne same]
      exact (inv.tasks u).same (fun va' is _ => (unread u va' is).symm) rfl fun _ _ found => found
  · intro u va' inFlight low m there
    rcases flight u va' inFlight with ⟨-, rfl⟩ | ⟨-, before⟩
    · exact absurd (absent.symm.trans there) (by simp)
    · exact inv.served u va' before low m there
  · intro u v apart va₁ inFlight₁ va₂ inFlight₂
    rcases flight u va₁ inFlight₁ with ⟨rfl, rfl⟩ | ⟨-, before₁⟩
    · rcases flight v va₂ inFlight₂ with ⟨rfl, rfl⟩ | ⟨other, before₂⟩
      · exact absurd rfl apart
      · exact ok v other va₂ before₂
    · rcases flight v va₂ inFlight₂ with ⟨rfl, rfl⟩ | ⟨-, before₂⟩
      · exact (ok u apart va₁ before₁).symm
      · exact inv.apart u v apart va₁ before₁ va₂ before₂

end

theorem step_inv {l : Label T} (ok : Apart fuel ctx s l) (inv : Inv fuel ctx s slot)
    (stepped : step fuel ctx s l = some s') :
    ∃ slot, Inv fuel ctx s' slot ∧ Kept ctx s s' := by
  cases l with
  | fault t va write =>
    obtain ⟨⟨idle, bound, absent⟩, eq⟩ := Option.ite_none_right_eq_some.mp stepped
    cases eq
    exact ⟨slot, fault_inv inv idle bound absent ok.1 ok.2, kept_of_eq fun _ _ => rfl⟩
  | elsewhere va =>
    cases stepped
    refine ⟨slot, ⟨inv.wf, inv.here, inv.frames, fun u => ?_, inv.served, inv.apart⟩,
      kept_of_eq fun _ _ => rfl⟩
    exact (inv.tasks u).same (fun va' is _ => (ok u va' is).symm) rfl fun _ _ found => found
  | advance t alloc => exact advance_inv inv stepped

omit [DecidableEq T] in
theorem kept_trans {s₁ s₂ s₃ : State T} (first : Kept ctx s₁ s₂) (second : Kept ctx s₂ s₃) :
    Kept ctx s₁ s₃ := by
  intro va low m there
  obtain ⟨m₂, there₂, frame₂⟩ := first va low m there
  obtain ⟨m₃, there₃, frame₃⟩ := second va low m₂ there₂
  exact ⟨m₃, there₃, frame₃.trans frame₂⟩

end Steps

/-- In every run in which faults are taken only when they are compatible with those in
flight, what is mapped at some time stays mapped to the same frame ever after. -/
theorem faults_keep_mappings {fuel : Nat} {ctx : MemCtx} {s₀ s s' : State T}
    {before after : List (Label T)} (start : Start ctx s₀)
    (ok : Run.Along (step fuel ctx) (Apart fuel ctx) s₀ (before ++ after))
    (ran : Run.exec (step fuel ctx) s₀ before = some s)
    (further : Run.exec (step fuel ctx) s after = some s') : Kept ctx s s' := by
  obtain ⟨okBefore, okAfter⟩ := Run.along_append ok ran
  have reached := Run.along_invariant (fun r => ∃ slot, Inv fuel ctx r slot)
    (fun _ _ _ ok inv stepped => by
      obtain ⟨slot, inv⟩ := inv
      obtain ⟨slot', inv', -⟩ := step_inv ok inv stepped
      exact ⟨slot', inv'⟩)
    okBefore (start_inv start) ran
  have later := Run.along_invariant (fun r => (∃ slot, Inv fuel ctx r slot) ∧ Kept ctx s r)
    (fun _ _ _ ok inv stepped => by
      obtain ⟨⟨slot, inv⟩, kept⟩ := inv
      obtain ⟨slot', inv', next⟩ := step_inv ok inv stepped
      exact ⟨⟨slot', inv'⟩, kept_trans kept next⟩)
    okAfter ⟨reached, kept_of_eq fun _ _ => rfl⟩ further
  exact later.2

instance decidableCompatible (fuel : Nat) (ctx : MemCtx) (s : State T) (va va' : Nat) :
    Decidable (Compatible fuel ctx s va va') :=
  inferInstanceAs (Decidable (_ ∧ _))

instance decidableUnread [Fintype T] (s : State T) (va : Nat) : Decidable (Unread s va) :=
  inferInstanceAs (Decidable (∀ _, _))

instance decidableApart [Fintype T] (fuel : Nat) (ctx : MemCtx) (s : State T) :
    (l : Label T) → Decidable (Apart fuel ctx s l)
  | .fault t va _ => inferInstanceAs (Decidable (Unread s va ∧
      ∀ u, u ≠ t → ∀ va' ∈ (s.pc u).va, Compatible fuel ctx s va va'))
  | .elsewhere va => decidableUnread s va
  | .advance _ _ => isTrue trivial

def loaded : MemCtx where
  vma := fun n =>
    if n = 16 then ⟨⟨1, 0, 32⟩, 0x400000, 0x402000, protRead, 0, 8⟩
    else ⟨⟨16, 0, 0⟩, 0x600000, 0x602000, protRead ||| protWrite, 0, 0⟩
  root := 16
  pgd := 2

def untouched : State Bool where
  pc := fun _ => .idle
  cr2 := 0
  sys := { word := copyFrame (boot (fun _ _ => 0) 1).word 1 2, ctxs := [1, 2], used := {2, 1} }
  cache := fun _ => none
  pages := ∅

theorem untouched_start : Start loaded untouched where
  idle := fun _ => rfl
  reached := ⟨fun _ _ => 0, 1, [.clone 1 2], rfl⟩
  here := by decide
  frames := fun _ _ found => by cases found

def writeFault (t : Bool) (va page table : Nat) : List (Label Bool) :=
  [.fault t va true, .advance t none, .advance t (some page), .advance t none,
    .advance t (some table), .advance t none, .advance t none]

def readFaults : List (Label Bool) :=
  [.fault false 0x400000 false, .advance false none, .fault true 0x400004 false,
    .advance true none, .elsewhere 0x500000, .advance true (some 11), .advance false none,
    .advance true none, .advance false none, .advance false none,
    .advance true none]

theorem faults_keep_mappings_sample : ∃ s s',
    Run.Along (step 3 loaded) (Apart 3 loaded) untouched
      (writeFault false 0x600000 10 3 ++ readFaults) ∧
    Run.exec (step 3 loaded) untouched (writeFault false 0x600000 10 3) = some s ∧
    Run.exec (step 3 loaded) s readFaults = some s' ∧
    translate s.sys.word loaded.pgd 0x600000 = some ⟨10, true, true⟩ ∧ Kept loaded s s' := by
  have ok : Run.Along (step 3 loaded) (Apart 3 loaded) untouched
      (writeFault false 0x600000 10 3 ++ readFaults) := by
    decide +kernel
  have whole : ((Run.exec (step 3 loaded) untouched (writeFault false 0x600000 10 3)).map fun s =>
      decide (translate s.sys.word loaded.pgd 0x600000 = some ⟨10, true, true⟩) &&
        (Run.exec (step 3 loaded) s readFaults).isSome) = some true := by
    decide +kernel
  obtain ⟨s, ran, both⟩ := Option.map_eq_some_iff.mp whole
  simp only [Bool.and_eq_true, decide_eq_true_eq, Option.isSome_iff_exists] at both
  obtain ⟨there, s', further⟩ := both
  exact ⟨s, s', ok, ran, further, there, faults_keep_mappings untouched_start ok ran further⟩

omit [DecidableEq T] in
theorem not_kept {s s' : State T} {ctx : MemCtx} {m : Mapping} (low : va < pageOffset)
    (there : translate s.sys.word ctx.pgd va = some m)
    (gone : (translate s'.sys.word ctx.pgd va).map Mapping.frame ≠ some m.frame) :
    ¬ Kept ctx s s' := by
  intro kept
  obtain ⟨m', there', frame⟩ := kept va low m there
  rw [there', Option.map_some, frame] at gone
  exact gone rfl

/-- Both tasks write to one anonymous page for the first time; the one that comes second
has its page before the first has made its entry. -/
def sameAnonymous : List (Label Bool) :=
  [.fault true 0x600000 true, .advance true none, .advance true (some 11)] ++
    writeFault false 0x600000 10 3

def sameSlot : List (Label Bool) :=
  [.fault true 0x601000 true, .advance true none, .advance true (some 11), .advance true none] ++
    writeFault false 0x600000 10 3

/-- Two faults on pages of different areas. The one reads the address of the other. -/
def cr2Lost : List (Label Bool) :=
  [.fault true 0x400000 false] ++ writeFault false 0x600000 10 3

/-- A later step of task `true` takes the mapped page of task `false` away. -/
theorem fault_unmaps_page :
    (∃ s s', Run.exec (step 3 loaded) untouched sameAnonymous = some s ∧
      Run.exec (step 3 loaded) s [.advance true none, .advance true none] = some s' ∧
      ¬ Kept loaded s s') ∧
    (∃ s s', Run.exec (step 3 loaded) untouched sameSlot = some s ∧
      Run.exec (step 3 loaded) s [.advance true (some 4), .advance true none] = some s' ∧
      ¬ Kept loaded s s') ∧
    ∃ s s', Run.exec (step 3 loaded) untouched cr2Lost = some s ∧
      Run.exec (step 3 loaded) s [.advance true none, .advance true (some 11), .advance true none,
        .advance true none] = some s' ∧ ¬ Kept loaded s s' := by
  have lost : ∀ before after : List (Label Bool),
      ((Run.exec (step 3 loaded) untouched before).map fun s =>
        (Run.exec (step 3 loaded) s after).map fun s' =>
          decide (translate s.sys.word loaded.pgd 0x600000 = some ⟨10, true, true⟩ ∧
            (translate s'.sys.word loaded.pgd 0x600000).map Mapping.frame ≠ some 10)) =
          some (some true) →
      ∃ s s', Run.exec (step 3 loaded) untouched before = some s ∧
        Run.exec (step 3 loaded) s after = some s' ∧ ¬ Kept loaded s s' := by
    intro before after whole
    obtain ⟨s, ran, rest⟩ := Option.map_eq_some_iff.mp whole
    obtain ⟨s', further, values⟩ := Option.map_eq_some_iff.mp rest
    obtain ⟨there, gone⟩ := of_decide_eq_true values
    exact ⟨s, s', ran, further, not_kept (by decide) there gone⟩
  exact ⟨lost _ _ (by decide +kernel), lost _ _ (by decide +kernel), lost _ _ (by decide +kernel)⟩

end ScaraOS.Mm.Shared
