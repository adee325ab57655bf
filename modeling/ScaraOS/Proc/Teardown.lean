import ScaraOS.Lib.Loops
import ScaraOS.Proc.Fork
import ScaraOS.Proc.Run

/-! What becomes of the references of a task that ends: `do_exit` moves the task to `delq`,
and `flush_delq` frees its page. -/
namespace ScaraOS.Proc

variable {R : Type}

/-- A context loses one user in a step, and is freed with the last one. -/
structure PutIn (s s' : Kernel R) (c : Nat) : Prop where
  count : (s'.world.ctx c).count + 1 = (s.world.ctx c).count
  freed : (s.world.ctx c).count = 1 → c ∈ s.world.memctx ∧ c ∉ s'.world.memctx

def Task.holds (t : Task) (i : Nat) : Nat :=
  (if t.root = i then 1 else 0) + if t.cwd = i then 1 else 0

/-- What task `t` held when it exited (from `s₁` to `s₂`) has been dropped in that step or in
the one in which it was freed (from `s₃` to `s₄`). -/
structure Dropped (s₁ s₂ s₃ s₄ : Kernel R) (t : Nat) : Prop where
  ctx : (s₁.task t).ctx ≠ 0 → PutIn s₁ s₂ (s₁.task t).ctx ∨ PutIn s₃ s₄ (s₁.task t).ctx
  inodes : ∀ i, i ≠ 0 → (s₁.task t).holds i ≤
    (s₁.world.iCount i - s₂.world.iCount i) + (s₃.world.iCount i - s₄.world.iCount i)
  table : (s₁.task t).fdTable ≠ 0 →
    ((s₁.task t).fdTable ∈ s₁.tables ∧ (s₁.task t).fdTable ∉ s₂.tables) ∨
      ((s₁.task t).fdTable ∈ s₃.tables ∧ (s₁.task t).fdTable ∉ s₄.tables)
  files : (s₁.task t).fdTable ≠ 0 → ∀ n h f,
    Fdt.fdtEntryRetr n (s₁.table (s₁.task t).fdTable) h = some f → f ≠ 0 →
      (f ∈ s₁.files ∧ f ∉ s₂.files) ∨ (f ∈ s₃.files ∧ f ∉ s₄.files)

def Task.bare (t : Task) : Prop := t.ctx = 0 ∧ t.root = 0 ∧ t.cwd = 0 ∧ t.fdTable = 0

/-- Something holds of every task that exits in the run and is freed in it. -/
def EveryTeardown (sys : System R) (s₀ : Kernel R) (ops : List Op)
    (holds : (s₁ s₂ s₃ s₄ : Kernel R) → Nat → Prop) : Prop :=
  ∀ pre t mid post, ops = pre ++ .exit t :: (mid ++ .reap t :: post) →
    (∀ op ∈ mid, op ≠ .exit t ∧ op ≠ .reap t) →
    ∀ s₁ s₂ s₃ s₄, Run.exec (step sys) s₀ pre = some s₁ → step sys s₁ (.exit t) = some s₂ →
      Run.exec (step sys) s₂ mid = some s₃ → step sys s₃ (.reap t) = some s₄ →
      holds s₁ s₂ s₃ s₄ t

variable {sys : System R} {s s' : Kernel R} {t : Nat}

theorem exit_keeps (ran : step sys s (.exit t) = some s') :
    s'.world = s.world ∧ s'.tables = s.tables := by
  obtain ⟨-, ran⟩ := step_some.mp ran
  cases ran
  exact ⟨rfl, rfl⟩

theorem reap_keeps (ran : step sys s (.reap t) = some s') :
    s'.world.ctx = s.world.ctx ∧ s'.world.iCount = s.world.iCount ∧ s'.tables = s.tables := by
  obtain ⟨-, ran⟩ := step_some.mp ran
  obtain ⟨w, freed, ran⟩ := Loops.bind_ok.mp ran
  cases ran
  unfold freePage at freed
  split at freed
  · cases freed
    exact ⟨rfl, rfl, rfl⟩
  · cases freed

theorem putIn_false {c : Nat} (same : s'.world.ctx = s.world.ctx) : ¬ PutIn s s' c := by
  intro put
  have count := put.count
  rw [same] at count
  omega

theorem dropped_iff {s₁ s₂ s₃ s₄ : Kernel R} (exits : step sys s₁ (.exit t) = some s₂)
    (freed : step sys s₃ (.reap t) = some s₄) : Dropped s₁ s₂ s₃ s₄ t ↔ (s₁.task t).bare := by
  obtain ⟨world, tables⟩ := exit_keeps exits
  obtain ⟨ctx, iCount, tables'⟩ := reap_keeps freed
  constructor
  · intro dropped
    have released : ∀ i, i ≠ 0 → (s₁.task t).holds i = 0 := by
      intro i inode
      have few := dropped.inodes i inode
      rw [world, iCount, Nat.sub_self, Nat.sub_self] at few
      exact Nat.le_zero.mp few
    have noInode : ∀ i, i = (s₁.task t).root ∨ i = (s₁.task t).cwd → i = 0 := by
      intro i held
      by_contra inode
      have none := released i inode
      unfold Task.holds at none
      rcases held with root | cwd
      · rw [if_pos root.symm] at none
        omega
      · rw [if_pos cwd.symm] at none
        omega
    refine ⟨?_, noInode _ (.inl rfl), noInode _ (.inr rfl), ?_⟩
    · by_contra some_ctx
      rcases dropped.ctx some_ctx with first | second
      · exact putIn_false (congrArg _ world) first
      · exact putIn_false ctx second
    · by_contra some_table
      rcases dropped.table some_table with ⟨there, gone⟩ | ⟨there, gone⟩
      · rw [tables] at gone
        exact gone there
      · rw [tables'] at gone
        exact gone there
  · rintro ⟨noCtx, noRoot, noCwd, noTable⟩
    refine ⟨fun some_ctx => absurd noCtx some_ctx, ?_, fun some_table => absurd noTable some_table,
      fun some_table => absurd noTable some_table⟩
    intro i inode
    have none : (s₁.task t).holds i = 0 := by
      unfold Task.holds
      rw [noRoot, noCwd, if_neg inode.symm]
    rw [none]
    exact Nat.zero_le _

/-- Every task that is torn down has dropped what it held exactly if it held nothing. -/
theorem teardown_iff (sys : System R) (s₀ : Kernel R) (ops : List Op) :
    EveryTeardown sys s₀ ops Dropped ↔
      EveryTeardown sys s₀ ops fun s₁ _ _ _ t => (s₁.task t).bare := by
  constructor
  · intro all pre t mid post split between s₁ s₂ s₃ s₄ before exits meanwhile freed
    exact (dropped_iff exits freed).mp
      (all pre t mid post split between s₁ s₂ s₃ s₄ before exits meanwhile freed)
  · intro all pre t mid post split between s₁ s₂ s₃ s₄ before exits meanwhile freed
    exact (dropped_iff exits freed).mpr
      (all pre t mid post split between s₁ s₂ s₃ s₄ before exits meanwhile freed)

def shortLife (flags : Nat) (null : Option Nat) : List Op :=
  [.fork 9 ⟨flags, 0, 0⟩ ⟨⟨some 128, none, []⟩, some 6, null⟩, .exit 6, .reap 6]

/-- A child whose context got no page directory, where address 0 can be read. -/
theorem teardown_iff_bare : EveryTeardown noFiles forking (shortLife forkMem (some 0)) Dropped := by
  refine (teardown_iff _ _ _).mpr ?_
  intro pre t mid post split _ s₁ s₂ s₃ s₄ before _ _ _
  have child : (Run.exec (step noFiles) forking
      [.fork 9 ⟨forkMem, 0, 0⟩ ⟨⟨some 128, none, []⟩, some 6, some 0⟩]).map (fun s => s.task 6) =
        some ⟨1, 0, 0, 0, 0⟩ := by
    decide
  cases pre with
  | nil => cases (List.cons.inj split).1
  | cons op rest =>
    obtain ⟨rfl, later⟩ := List.cons.inj split
    cases rest with
    | nil =>
      obtain rfl : 6 = t := Op.exit.inj (List.cons.inj later).1
      rw [before] at child
      have task : s₁.task 6 = ⟨1, 0, 0, 0, 0⟩ := Option.some.inj child
      rw [task]
      exact ⟨rfl, rfl, rfl, rfl⟩
    | cons op rest =>
      have length := congrArg List.length (List.cons.inj later).2
      simp only [List.append_eq, List.length_append, List.length_cons, List.length_nil] at length
      omega

/- A child that shares the context of its parent leaves the count as it was. -/
theorem child_keeps_context :
    (Run.exec (step noFiles) forking (shortLife 0 none)).map
      (fun s => (s.live, s.zombies, (s.world.ctx 64).count)) = some ([9], [], 2) ∧
    ¬ EveryTeardown noFiles forking (shortLife 0 none) Dropped := by
  refine ⟨by decide, ?_⟩
  intro all
  have dropped := all [_] 6 [] [] rfl nofun _ _ _ _ rfl rfl rfl rfl
  have bare := (dropped_iff (show step noFiles _ _ = _ from rfl) (show step noFiles _ _ = _ from rfl)).mp
    dropped
  exact absurd bare.1 (by decide)

end ScaraOS.Proc
