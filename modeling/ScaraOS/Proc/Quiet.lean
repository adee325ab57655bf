import ScaraOS.Lib.Loops
import ScaraOS.Proc.Run
import ScaraOS.Proc.Spaces

/-! What the calls leave alone: those on files the tasks and the address spaces, those that
start a task everything but what the task needs. -/
namespace ScaraOS.Proc

open Function Paging Mm

variable {R : Type}

structure Quiet (s s' : Kernel R) : Prop where
  live : s'.live = s.live
  zombies : s'.zombies = s.zombies
  task : s'.task = s.task
  idle : s'.idle = s.idle
  kthreadCtx : s'.kthreadCtx = s.kthreadCtx
  world : Exec.Restored s.world s'.world
  words : (∀ i, s.world.iCount i < 2 ^ 32) → ∀ i, s'.world.iCount i < 2 ^ 32

theorem quiet_refl (s : Kernel R) : Quiet s s :=
  ⟨rfl, rfl, rfl, rfl, rfl, Exec.restored_refl s.world, id⟩

theorem Quiet.trans {s₁ s₂ s₃ : Kernel R} (first : Quiet s₁ s₂) (second : Quiet s₂ s₃) :
    Quiet s₁ s₃ where
  live := second.live.trans first.live
  zombies := second.zombies.trans first.zombies
  task := second.task.trans first.task
  idle := second.idle.trans first.idle
  kthreadCtx := second.kthreadCtx.trans first.kthreadCtx
  world := by
    have before := first.world
    have after := second.world
    refine ⟨?_, after.vmas.trans before.vmas, ?_, after.memctx.trans before.memctx,
      after.frames.trans before.frames, ?_⟩
    · exact fun n member => (after.vma n (before.vmas ▸ member)).trans (before.vma n member)
    · exact fun c member => (after.ctx c (before.memctx ▸ member)).trans (before.ctx c member)
    · exact fun f member => (after.word f (before.frames ▸ member)).trans (before.word f member)
  words := second.words ∘ first.words

theorem taskNamei_cases (g : Namei.Graph Nat R) (s : Kernel R) (t : Nat) (mem : Nat → UInt8)
    (fuel name : Nat) :
    (taskNamei g s t mem fuel name = .error .nullPointer ∨
      taskNamei g s t mem fuel name = .error .iput) ∨
    ∃ found r, Namei.namei g.vfs mem (s.task t).root (s.task t).cwd fuel name
        ⟨s.world.iCount, s.rest⟩ = some (found, r) ∧
      taskNamei g s t mem fuel name =
        .ok ({ s with world := { s.world with iCount := r.count }, rest := r.rest }, found) := by
  unfold taskNamei
  by_cases nowhere : (if mem name = Namei.slash then (s.task t).root else (s.task t).cwd) = 0
  · exact .inl (.inl (if_pos nowhere))
  · simp only [if_neg nowhere]
    cases Namei.namei g.vfs mem (s.task t).root (s.task t).cwd fuel name ⟨s.world.iCount, s.rest⟩ with
    | none => exact .inl (.inr rfl)
    | some result => exact .inr ⟨result.1, result.2, rfl, rfl⟩

variable {g : Namei.Graph Nat R} {s s' : Kernel R} {t f : Nat} {alloc : Option Nat} {r : Int}
  {w : World}

theorem taskNamei_quiet {fuel name : Nat} {mem : Nat → UInt8} {found : Option Nat}
    (ran : taskNamei g s t mem fuel name = .ok (s', found)) : Quiet s s' := by
  rcases taskNamei_cases g s t mem fuel name with (stop | stop) | ⟨got, r, looked, ran'⟩
  · cases stop.symm.trans ran
  · cases stop.symm.trans ran
  · obtain ⟨rfl, -⟩ := Prod.mk.inj (Except.ok.inj (ran'.symm.trans ran))
    refine ⟨rfl, rfl, rfl, rfl, rfl, ?_, ?_⟩
    · exact ⟨fun _ _ => rfl, rfl, fun _ _ => rfl, rfl, rfl, fun _ _ => rfl⟩
    · exact fun words => Namei.namei_words (s := ⟨s.world.iCount, s.rest⟩) words looked

theorem fileNew_quiet {inode mode : Nat} (ran : fileNew s inode mode alloc = .ok (s', f)) :
    Quiet s s' := by
  unfold fileNew at ran
  split at ran
  · cases ran
    exact quiet_refl s
  · split at ran
    · cases ran
    · cases ran
      exact { quiet_refl s with }

theorem fileRelease_quiet (ran : fileRelease s f = .ok s') : Quiet s s' := by
  unfold fileRelease at ran
  dsimp only at ran
  split at ran
  · split at ran
    · cases ran
    · cases ran
      exact { quiet_refl s with }
  · cases ran
    exact { quiet_refl s with }

theorem fdtEntryAdd_quiet {n a file : Nat} (ran : fdtEntryAdd n s a file alloc = .ok (s', r)) :
    Quiet s s' := by
  unfold fdtEntryAdd at ran
  split at ran
  · cases ran
    exact quiet_refl s
  · split at ran
    · cases ran
    · split at ran
      · cases ran
      · cases ran
        exact { quiet_refl s with }

theorem sysOpen_quiet {c : OpenCall} (ran : sysOpen g s t c = .ok (s', r)) : Quiet s s' := by
  unfold sysOpen at ran
  split at ran
  · cases ran
    exact quiet_refl s
  · obtain ⟨⟨s₁, found⟩, looked, ran⟩ := Loops.bind_ok.mp ran
    have walked := taskNamei_quiet looked
    cases found with
    | none =>
      cases ran
      exact walked
    | some inode =>
      obtain ⟨⟨s₂, file⟩, made, ran⟩ := Loops.bind_ok.mp ran
      exact (walked.trans (fileNew_quiet made)).trans (fdtEntryAdd_quiet ran)

theorem sysClose_quiet {walks handle : Nat} (ran : sysClose s t walks handle = .ok (s', r)) :
    Quiet s s' := by
  unfold sysClose at ran
  dsimp only at ran
  split at ran
  · cases ran
  · split at ran
    · cases ran
    · cases ran
      exact { quiet_refl s with }
    · obtain ⟨s₁, released, ran⟩ := Loops.bind_ok.mp ran
      cases ran
      exact { fileRelease_quiet released with }

theorem sysRead_quiet {c : ReadCall} (ran : sysRead s t c = .ok (s', r)) : Quiet s s' := by
  unfold sysRead at ran
  split at ran
  · cases ran
    exact quiet_refl s
  · split at ran
    · cases ran
    · split at ran
      · cases ran
      · split at ran
        · cases ran
          exact quiet_refl s
        · rename_i f _ _
          have same : (kernelRead s f c).1 = s' := congrArg Prod.fst (Except.ok.inj ran)
          rw [← same, kernelRead]
          dsimp only
          split
          · exact { quiet_refl s with }
          · exact quiet_refl s

theorem irefFs_words (words : ∀ i, w.iCount i < 2 ^ 32) (parent : Task) (i : Nat) :
    (irefFs w parent).iCount i < 2 ^ 32 := by
  have root : ∀ i, (if parent.root ≠ 0 then iref w.iCount parent.root else w.iCount) i < 2 ^ 32 := by
    intro i
    split
    · exact iref_lt words _ i
    · exact words i
  simp only [irefFs]
  split
  · exact iref_lt root _ i
  · exact root i

structure Spawned (s s' : Kernel R) (w : World) (parent : Task) (f : Nat) (task : Task) : Prop where
  live : s'.live = f :: s.live
  zombies : s'.zombies = s.zombies
  task : s'.task = update s.task f task
  idle : s'.idle = s.idle
  kthreadCtx : s'.kthreadCtx = s.kthreadCtx
  world : s'.world = irefFs { w with frames := insert f w.frames } parent

structure Tabled (s s' : Kernel R) (a : Nat) : Prop where
  older : ∀ b ∈ s.tables, b ∈ s'.tables ∧ s'.table b = s.table b
  empty : a ≠ 0 → a ∉ s.tables ∧ a ∈ s'.tables ∧ Links.Ring (s'.table a).links .fds []
  file : s'.file = s.file
  files : s'.files = s.files

theorem fork_spawned {a : ForkArgs} {g : ForkGrants} {mm : Nat} (accepted : a.refused = false)
    (ctx : forkCtx s.world (s.task t).ctx a.flags g.clone = .ok (w, mm)) (nonzero : mm ≠ 0)
    (page : g.page = some f) (unused : f ∉ w.frames) :
    ∃ s' pid, sysFork s t a g = .ok (s', Fdt.toInt pid) ∧
      Spawned s s' w (s.task t) f ⟨pid, mm, (s.task t).root, (s.task t).cwd, 0⟩ ∧ Tabled s s' 0 := by
  rcases sysFork_child accepted ctx page unused with ⟨null, -⟩ | ⟨-, n, pid, ran⟩
  · exact absurd null nonzero
  · refine ⟨_, pid, ran, ⟨rfl, rfl, rfl, rfl, rfl, rfl⟩, ?_⟩
    exact ⟨fun b member => ⟨member, rfl⟩, fun no => absurd rfl no, rfl, rfl⟩

theorem thread_spawned {g : ThreadGrants} (page : g.page = some f) (unused : f ∉ s.world.frames)
    (table : ∀ a, g.table = some a → a ≠ 0 ∧ a ∉ s.tables) :
    ∃ s' r pid fdTable, kernelThread s t g = .ok (s', r) ∧
      Spawned s s' (memCtxGet s.world s.kthreadCtx) (s.task t) f
        ⟨pid, s.kthreadCtx, (s.task t).root, (s.task t).cwd, fdTable⟩ ∧ Tabled s s' fdTable := by
  have paged : allocPage s.world g.page =
      .ok ({ s.world with frames := insert f s.world.frames }, some f) := by
    rw [page, allocPage, if_neg unused]
  simp only [kernelThread, paged, bind, Except.bind, pidAlloc]
  have none : ∀ s' : Kernel R, s'.tables = s.tables → s'.table = s.table → s'.file = s.file →
      s'.files = s.files → Tabled s s' 0 := by
    intro s' tables same file files
    refine ⟨fun b member => ⟨tables ▸ member, by rw [same]⟩, fun no => absurd rfl no, file, files⟩
  cases given : g.table with
  | none =>
    simp only [fdTableInit, given]
    exact ⟨_, _, _, _, rfl, ⟨rfl, rfl, rfl, rfl, rfl, rfl⟩, none _ rfl rfl rfl rfl⟩
  | some a =>
    cases alloc : g.fdAlloc with
    | none =>
      simp only [fdTableInit, given, alloc]
      exact ⟨_, _, _, _, rfl, ⟨rfl, rfl, rfl, rfl, rfl, rfl⟩, none _ rfl rfl rfl rfl⟩
    | some c =>
      obtain ⟨nonzero, free⟩ := table a given
      simp only [fdTableInit, given, alloc, if_neg (not_or.mpr ⟨nonzero, free⟩)]
      refine ⟨_, _, _, _, rfl, ⟨rfl, rfl, rfl, rfl, rfl, rfl⟩, ?_, ?_, rfl, rfl⟩
      · intro b member
        refine ⟨Finset.mem_insert_of_mem member, update_of_ne ?_ _ _⟩
        rintro rfl
        exact free member
      · refine fun _ => ⟨free, Finset.mem_insert_self a s.tables, ?_⟩
        simp only [taskToRunq, update_self]
        exact Links.initListHead_ring _ _

end ScaraOS.Proc
