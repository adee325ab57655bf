import ScaraOS.Mm.Setup
import ScaraOS.Proc.Model

/-! When a fork that fails leaves nothing behind. -/
namespace ScaraOS.Proc

open Function RbTree Paging Mm

variable {R : Type}

structure Parent (s : Kernel R) (t : Nat) (shape : Shape) : Prop where
  nonzero : (s.task t).ctx ≠ 0
  areas : Areas s.world (s.task t).ctx shape
  count : (s.world.ctx (s.task t).ctx).count < 2 ^ 32

/-- The allocators hand out what is not in use; each allocation may fail. -/
structure Granted (w : World) (g : ForkGrants) (n : Nat) : Prop where
  clone : Supplied w g.clone n
  page : ∀ f, g.page = some f → f ∉ w.frames ∧ g.clone.pgd ≠ some f

inductive ChildCtx (s : Kernel R) (t flags : Nat) (supply : Mm.Supply) (shape : Shape) (w : World)
    (mm : Nat) : Prop where
  | shared (mem : flags &&& forkMem = 0) (get : w = memCtxGet s.world (s.task t).ctx)
    (same : mm = (s.task t).ctx)
  | failed (mem : flags &&& forkMem ≠ 0) (fails : supply.FailsFor shape.inorder.length)
    (null : mm = 0)
    (left : (supply.ctx = none ∨ supply.pgd = none) ∧ w = s.world ∨
      ∃ f, supply.ctx ≠ none ∧ supply.pgd = some f ∧ f ∉ s.world.frames ∧
        w.frames = insert f s.world.frames)
  | cloned (mem : flags &&& forkMem ≠ 0) (works : ¬ supply.FailsFor shape.inorder.length)
    (f : Nat) (cloned : Cloned s.world w (s.task t).ctx shape supply mm f)

variable {w : World} {mm f : Nat}

section

variable {s : Kernel R} {t : Nat} {a : ForkArgs} {g : ForkGrants} {shape : Shape}

theorem forkCtx_cases (parent : Parent s t shape)
    (supplied : Supplied s.world g.clone shape.inorder.length) :
    ∃ w mm, forkCtx s.world (s.task t).ctx a.flags g.clone = .ok (w, mm) ∧
      ChildCtx s t a.flags g.clone shape w mm := by
  unfold forkCtx
  by_cases mem : a.flags &&& forkMem ≠ 0
  · obtain ⟨w, mm, ran, outcome⟩ :=
      memCtxClone_outcome parent.areas parent.areas.low supplied
    rw [if_pos mem, ran]
    refine ⟨w, mm, rfl, ?_⟩
    rcases outcome with ⟨fails, null, left⟩ | ⟨works, f, cloned⟩
    · exact .failed mem fails null left
    · exact .cloned mem works f cloned
  · rw [if_neg mem]
    exact ⟨_, _, rfl, .shared (not_not.mp mem) rfl rfl⟩

theorem ChildCtx.unused (ctx : ChildCtx s t a.flags g.clone shape w mm)
    (granted : Granted s.world g shape.inorder.length) (page : g.page = some f) : f ∉ w.frames := by
  obtain ⟨unused, other⟩ := granted.page f page
  have apart (d : Nat) (pgd : g.clone.pgd = some d) (frames : w.frames = insert d s.world.frames) :
      f ∉ w.frames := by
    rw [frames, Finset.mem_insert]
    rintro (rfl | old)
    · exact other pgd
    · exact unused old
  cases ctx with
  | shared _ get => exact get ▸ unused
  | failed _ _ _ left =>
    rcases left with ⟨_, rfl⟩ | ⟨d, _, pgd, _, frames⟩
    · exact unused
    · exact apart d pgd frames
  | cloned _ _ d cloned => exact apart d cloned.given.2 cloned.frames

section

variable (accepted : a.refused = false)
  (ctx : forkCtx s.world (s.task t).ctx a.flags g.clone = .ok (w, mm))
include accepted ctx

theorem sysFork_lost (page : g.page = none) :
    ∃ n, sysFork s t a g = .ok ({ s with world := w, nextPid := n }, -1) := by
  unfold sysFork
  rw [accepted, if_neg (by decide)]
  by_cases new : a.flags &&& forkPid ≠ 0
  · simp only [if_pos new, pidAlloc, ctx, bind, Except.bind, page, allocPage]
    exact ⟨_, rfl⟩
  · simp only [if_neg new, ctx, bind, Except.bind, page, allocPage]
    exact ⟨s.nextPid, rfl⟩

theorem sysFork_noPage (page : g.page = none) :
    ∃ s', sysFork s t a g = .ok (s', -1) ∧ s'.world = w ∧ s'.live = s.live := by
  obtain ⟨n, ran⟩ := sysFork_lost accepted ctx page
  exact ⟨_, ran, rfl, rfl⟩

theorem sysFork_child (page : g.page = some f) (unused : f ∉ w.frames) :
    (mm = 0 ∧ g.null = none ∧ sysFork s t a g = .error .nullPointer) ∨
    ¬ (mm = 0 ∧ g.null = none) ∧ ∃ n pid, sysFork s t a g = .ok (taskToRunq { s with
      nextPid := n
      world := irefFs { w with frames := insert f w.frames } (s.task t) } f
        ⟨pid, mm, (s.task t).root, (s.task t).cwd, 0⟩, Fdt.toInt pid) := by
  unfold sysFork
  rw [accepted, if_neg (by decide)]
  by_cases fault : mm = 0 ∧ g.null = none
  · left
    refine ⟨fault.1, fault.2, ?_⟩
    by_cases new : a.flags &&& forkPid ≠ 0
    · simp only [if_pos new, pidAlloc, ctx, bind, Except.bind, page, allocPage, if_neg unused,
        if_pos fault]
    · simp only [if_neg new, ctx, bind, Except.bind, page, allocPage, if_neg unused, if_pos fault]
  · right
    refine ⟨fault, ?_⟩
    by_cases new : a.flags &&& forkPid ≠ 0
    · simp only [if_pos new, pidAlloc, ctx, bind, Except.bind, page, allocPage, if_neg unused,
        if_neg fault]
      exact ⟨_, _, rfl⟩
    · simp only [if_neg new, ctx, bind, Except.bind, page, allocPage, if_neg unused, if_neg fault]
      exact ⟨s.nextPid, _, rfl⟩

theorem sysFork_page (page : g.page = some f) (unused : f ∉ w.frames) :
    (mm = 0 ∧ g.null = none ∧ sysFork s t a g = .error .nullPointer) ∨
    ¬ (mm = 0 ∧ g.null = none) ∧ ∃ s' pid, sysFork s t a g = .ok (s', Fdt.toInt pid) ∧
      s'.live = f :: s.live ∧
      s'.world = irefFs { w with frames := insert f w.frames } (s.task t) ∧
      s'.task = update s.task f ⟨pid, mm, (s.task t).root, (s.task t).cwd, 0⟩ := by
  refine (sysFork_child accepted ctx page unused).imp id ?_
  rintro ⟨readable, n, pid, ran⟩
  exact ⟨readable, _, pid, ran, rfl, rfl, rfl⟩

end

end

def Fails (a : ForkArgs) (g : ForkGrants) (n : Nat) : Prop :=
  a.refused = false ∧ (a.flags &&& forkMem ≠ 0 ∧ g.clone.FailsFor n ∨ g.page = none)

structure Undone (s s' : Kernel R) (t : Nat) : Prop where
  live : s'.live = s.live
  count : (s'.world.ctx (s.task t).ctx).count = (s.world.ctx (s.task t).ctx).count
  memctx : s'.world.memctx = s.world.memctx
  frames : s'.world.frames = s.world.frames

/-- A fork that fails returns `-1` and is undone, and a child has a context. -/
def Atomic (s : Kernel R) (t : Nat) (a : ForkArgs) (g : ForkGrants) (n : Nat) : Prop :=
  (Fails a g n → ∃ s', sysFork s t a g = .ok (s', -1) ∧ Undone s s' t) ∧
  ∀ s' r f, sysFork s t a g = .ok (s', r) → s'.live = f :: s.live → (s'.task f).ctx ≠ 0

/-- No allocation fails, or the last one does and before it nothing has been allocated. -/
def Recoverable (a : ForkArgs) (g : ForkGrants) (n : Nat) : Prop :=
  ¬ Fails a g n ∨
    a.flags &&& forkMem ≠ 0 ∧ (g.clone.ctx = none ∨ g.clone.pgd = none) ∧ g.page = none

section

variable {s : Kernel R} {t : Nat} {a : ForkArgs} {g : ForkGrants} {shape : Shape}

section

variable (parent : Parent s t shape) (granted : Granted s.world g shape.inorder.length)
  (accepted : a.refused = false)
include parent granted accepted

theorem atomic_noPage (page : g.page = none) : Atomic s t a g shape.inorder.length ↔
      a.flags &&& forkMem ≠ 0 ∧ (g.clone.ctx = none ∨ g.clone.pgd = none) := by
  have fails : Fails a g shape.inorder.length := ⟨accepted, .inr page⟩
  obtain ⟨w, mm, ctx, outcome⟩ := forkCtx_cases (a := a) parent granted.clone
  obtain ⟨s', ran, world, live⟩ := sysFork_noPage accepted ctx page
  have undone (atomic : Atomic s t a g shape.inorder.length) : Undone s s' t := by
    obtain ⟨s'', again, undone⟩ := atomic.1 fails
    rw [ran] at again
    cases again
    exact undone
  constructor
  · intro atomic
    have undone := undone atomic
    cases outcome with
    | shared _ get =>
      have count := undone.count
      rw [world, get] at count
      simp only [memCtxGet, update_self] at count
      have := parent.count
      omega
    | failed mem _ _ left =>
      rcases left with ⟨early, _⟩ | ⟨f, _, _, free, kept⟩
      · exact ⟨mem, early⟩
      · rw [← world, undone.frames] at kept
        exact absurd (kept ▸ Finset.mem_insert_self f s.world.frames) free
    | cloned _ _ _ cloned =>
      have memctx := undone.memctx
      rw [world, cloned.memctx] at memctx
      exact absurd (memctx ▸ Finset.mem_insert_self mm s.world.memctx) cloned.unused.2.1
  · rintro ⟨mem, early⟩
    refine ⟨fun _ => ⟨s', ran, ?_⟩, ?_⟩
    · cases outcome with
      | shared none => exact absurd none mem
      | failed _ _ _ left =>
        rcases left with ⟨_, same⟩ | ⟨f, given, pgd, _⟩
        · rw [same] at world
          exact ⟨live, by rw [world], by rw [world], by rw [world]⟩
        · rcases early with none | none
          · exact absurd none given
          · cases pgd.symm.trans none
      | cloned _ works => exact absurd (early.imp id .inl) works
    · intro u r f again grew
      rw [ran] at again
      cases again
      rw [live] at grew
      exact absurd grew (List.cons_ne_self f s.live).symm

theorem atomic_page (page : g.page = some f) : Atomic s t a g shape.inorder.length ↔
      ¬ (a.flags &&& forkMem ≠ 0 ∧ g.clone.FailsFor shape.inorder.length) := by
  obtain ⟨w, mm, ctx, outcome⟩ := forkCtx_cases (a := a) parent granted.clone
  have unused : f ∉ w.frames := outcome.unused granted page
  constructor
  · rintro atomic ⟨mem, fails⟩
    have null : mm = 0 := by
      cases outcome with
      | shared none => exact absurd none mem
      | failed _ _ null => exact null
      | cloned _ works => exact absurd fails works
    obtain ⟨s', ran, undone⟩ := atomic.1 ⟨accepted, .inl ⟨mem, fails⟩⟩
    rcases sysFork_page accepted ctx page unused with ⟨_, _, fault⟩ | ⟨_, u, pid, child, live, _⟩
    · cases fault.symm.trans ran
    · obtain ⟨rfl, _⟩ := Prod.mk.inj (Except.ok.inj (child.symm.trans ran))
      exact absurd (live.symm.trans undone.live) (List.cons_ne_self f s.live)
  · intro works
    have given : mm ≠ 0 := by
      cases outcome with
      | shared _ _ same => exact same ▸ parent.nonzero
      | failed mem fails => exact absurd ⟨mem, fails⟩ works
      | cloned _ _ _ cloned => exact cloned.unused.1
    refine ⟨?_, ?_⟩
    · rintro ⟨_, fails | none⟩
      · exact absurd fails works
      · cases page.symm.trans none
    · intro s' r child ran grew
      rcases sysFork_page accepted ctx page unused with ⟨null, _⟩ |
        ⟨_, u, pid, again, live, _, task⟩
      · exact absurd null given
      · cases again.symm.trans ran
        rw [live] at grew
        cases grew
        rw [task, update_self]
        exact given

end

end

theorem fork_atomic_iff (s : Kernel R) (t : Nat) (a : ForkArgs) (g : ForkGrants) (shape : Shape)
    (parent : Parent s t shape) (granted : Granted s.world g shape.inorder.length) :
    Atomic s t a g shape.inorder.length ↔ Recoverable a g shape.inorder.length := by
  cases accepted : a.refused with
  | true =>
    have ran : sysFork s t a g = .ok (s, -1) := if_pos accepted
    have succeeds : ¬ Fails a g shape.inorder.length := by
      rintro ⟨not, _⟩
      cases not.symm.trans accepted
    refine ⟨fun _ => .inl succeeds, fun _ => ⟨fun fails => absurd fails succeeds, ?_⟩⟩
    intro s' r f again grew
    cases again.symm.trans ran
    exact absurd grew.symm (List.cons_ne_self f s.live)
  | false =>
    unfold Recoverable Fails
    cases page : g.page with
    | none =>
      rw [atomic_noPage parent granted accepted page]
      simp [accepted]
    | some f =>
      rw [atomic_page parent granted accepted page]
      simp [accepted]

def forking : Kernel Unit where
  world := { sample 16 with frames := {2, 9} }
  task := fun _ => ⟨1, 64, 0, 0, 48⟩
  live := [9]
  zombies := []
  idle := 8
  kthreadCtx := 96
  nextPid := 1
  table := fun _ => ⟨⟨fun _ => .fds, fun _ => .fds⟩, fun _ => 0, fun _ => 0, fun _ => 0⟩
  tables := {48}
  file := fun _ => ⟨0, 0, 0, 0⟩
  files := ∅
  rest := ()

theorem forking_parent : Parent forking 9 (.node 16 .leaf .leaf) where
  nonzero := by decide
  areas := ⟨by decide, ⟨rfl, by decide, rfl, rfl, rfl⟩, by decide, by decide⟩
  count := by decide

theorem forking_granted (ctx pgd page null : Option Nat) (newCtx : ∀ a, ctx = some a → a = 128)
    (newPgd : ∀ f, pgd = some f → f = 5) (newPage : ∀ f, page = some f → f = 6) :
    Granted forking.world ⟨⟨ctx, pgd, [some 32]⟩, page, null⟩ 1 where
  clone := by
    refine ⟨?_, ?_, ⟨List.nodup_singleton 32, by simp [forking, sample]⟩, by simp⟩
    · intro a is
      rw [newCtx a is]
      decide
    · intro f is
      rw [newPgd f is]
      decide
  page := by
    intro f is
    rw [newPage f is]
    refine ⟨by decide, ?_⟩
    intro same
    cases newPgd 6 same

theorem fork_atomic_iff_context :
    Atomic forking 9 ⟨forkMem, 0, 0⟩ ⟨⟨none, none, [some 32]⟩, none, none⟩ 1 := by
  have granted := forking_granted none none none none (by simp) (by simp) (by simp)
  exact (fork_atomic_iff _ 9 _ _ _ forking_parent granted).mpr
    (.inr ⟨by decide, .inl rfl, rfl⟩)

/- The count stays up when the child has no page. When the clone has no context, it is used
nevertheless: a fault, or a child without a context. -/
theorem fork_keeps_count :
    (sysFork forking 9 ⟨0, 0, 0⟩ ⟨⟨none, none, [some 32]⟩, none, none⟩).toOption.map
      (fun r => (r.2, (r.1.world.ctx 64).count)) = some (-1, 2) ∧
    ¬ Atomic forking 9 ⟨0, 0, 0⟩ ⟨⟨none, none, [some 32]⟩, none, none⟩ 1 ∧
    sysFork forking 9 ⟨forkMem, 0, 0⟩ ⟨⟨none, none, [some 32]⟩, some 6, none⟩ =
      .error .nullPointer ∧
    (sysFork forking 9 ⟨forkMem, 0, 0⟩ ⟨⟨none, none, [some 32]⟩, some 6, some 0⟩).toOption.map
      (fun r => (r.1.live, (r.1.task 6).ctx)) = some ([6, 9], 0) := by
  refine ⟨by decide, ?_, rfl, by decide⟩
  rintro ⟨undone, _⟩
  obtain ⟨s', ran, undone⟩ := undone ⟨by decide, .inr rfl⟩
  cases ran
  exact absurd undone.count (by decide)

inductive TableOp where
  | add (file : Nat) (alloc : Option Nat)
  | del (handle : Nat)
  deriving DecidableEq, Repr

def tableStep (n a : Nat) (table : Nat → Fdt.Table) (op : TableOp) : Option (Nat → Fdt.Table) :=
  match op with
  | .add file alloc =>
    (Fdt.fdtEntryAdd n (table a) file alloc).map fun r => update table a r.1
  | .del handle => (Fdt.fdtEntryDel n (table a) handle).map fun r => update table a r.1

/-- Calls on table `a` do not change what is retrieved from table `b`. -/
def Separate (table : Nat → Fdt.Table) (a b : Nat) : Prop :=
  ∀ n ops table', Run.exec (tableStep n a) table ops = some table' →
    ∀ m h, Fdt.fdtEntryRetr m (table' b) h = Fdt.fdtEntryRetr m (table b) h

structure Inherits (s s' : Kernel R) (t f flags : Nat) : Prop where
  table : (s'.task f).fdTable ≠ 0
  retr : ∀ n h, Fdt.fdtEntryRetr n (s'.table (s'.task f).fdTable) h =
    Fdt.fdtEntryRetr n (s.table (s.task t).fdTable) h
  separate : flags &&& forkFd ≠ 0 →
    Separate s'.table (s'.task t).fdTable (s'.task f).fdTable ∧
      Separate s'.table (s'.task f).fdTable (s'.task t).fdTable

/-- The fork makes no child: it is refused, or has no page, or stops at the missing context. -/
def Childless (a : ForkArgs) (g : ForkGrants) (n : Nat) : Prop :=
  a.refused = true ∨ g.page = none ∨
    a.flags &&& forkMem ≠ 0 ∧ g.clone.FailsFor n ∧ g.null = none

/-- No child inherits anything: its table is the null pointer. -/
theorem fork_inherits_iff (s : Kernel R) (t : Nat) (a : ForkArgs) (g : ForkGrants) (shape : Shape)
    (parent : Parent s t shape) (granted : Granted s.world g shape.inorder.length) :
    (∀ s' r f, sysFork s t a g = .ok (s', r) → s'.live = f :: s.live →
      Inherits s s' t f a.flags) ↔ Childless a g shape.inorder.length := by
  cases accepted : a.refused with
  | true =>
    have ran : sysFork s t a g = .ok (s, -1) := if_pos accepted
    refine ⟨fun _ => .inl accepted, ?_⟩
    intro _ s' r f again grew
    cases again.symm.trans ran
    exact absurd grew.symm (List.cons_ne_self f s.live)
  | false =>
    obtain ⟨w, mm, ctx, outcome⟩ := forkCtx_cases (a := a) parent granted.clone
    cases page : g.page with
    | none =>
      obtain ⟨u, ran, _, live⟩ := sysFork_noPage accepted ctx page
      refine ⟨fun _ => .inr (.inl page), ?_⟩
      intro _ s' r f again grew
      cases again.symm.trans ran
      rw [live] at grew
      exact absurd grew.symm (List.cons_ne_self f s.live)
    | some f =>
      rcases sysFork_page accepted ctx page (outcome.unused granted page) with
        ⟨null, reads, fault⟩ | ⟨reads, u, pid, ran, live, _, task⟩
      · have fails : a.flags &&& forkMem ≠ 0 ∧ g.clone.FailsFor shape.inorder.length := by
          cases outcome with
          | shared _ _ same => exact absurd (same ▸ null) parent.nonzero
          | failed mem fails => exact ⟨mem, fails⟩
          | cloned _ _ _ cloned => exact absurd null cloned.unused.1
        refine ⟨fun _ => .inr (.inr ⟨fails.1, fails.2, reads⟩), ?_⟩
        intro _ s' r f again _
        cases again.symm.trans fault
      · constructor
        · intro inherits
          have table := (inherits u _ f ran live).table
          rw [task, update_self] at table
          exact absurd rfl table
        · rintro (refused | none | ⟨mem, fails, null⟩)
          · cases accepted.symm.trans refused
          · cases page.symm.trans none
          · cases outcome with
            | shared none => exact absurd none mem
            | failed _ _ zero => exact absurd ⟨zero, null⟩ reads
            | cloned _ works => exact absurd fails works

theorem fork_inherits_iff_page :
    (∃ s', sysFork forking 9 ⟨forkFd, 0, 0⟩ ⟨⟨none, none, [some 32]⟩, none, none⟩ = .ok (s', -1)) ∧
    ∀ s' r f, sysFork forking 9 ⟨forkFd, 0, 0⟩ ⟨⟨none, none, [some 32]⟩, none, none⟩ = .ok (s', r) →
      s'.live = f :: forking.live → Inherits forking s' 9 f forkFd := by
  have granted := forking_granted none none none none (by simp) (by simp) (by simp)
  exact ⟨⟨_, rfl⟩, (fork_inherits_iff _ 9 _ _ _ forking_parent granted).mpr (.inr (.inl rfl))⟩

/- A fork that succeeds. -/
theorem fork_loses_table : ∃ s',
    sysFork forking 9 ⟨forkPid ||| forkFd, 0, 0⟩ ⟨⟨none, none, [some 32]⟩, some 6, none⟩ =
      .ok (s', 2) ∧
    s'.live = [6, 9] ∧ (s'.task 6).fdTable = 0 ∧ ¬ Inherits forking s' 9 6 (forkPid ||| forkFd) := by
  refine ⟨_, rfl, rfl, by decide, ?_⟩
  intro inherits
  exact absurd inherits.table (by decide)

end ScaraOS.Proc
