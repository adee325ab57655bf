import ScaraOS.Exec.Panic
import ScaraOS.Proc.Housed

/-! The contexts of live tasks. A context is counted by the tasks that share it, and an exec
that puts the last reference frees it. -/
namespace ScaraOS.Proc

open Function RbTree Paging Mm

variable {R : Type}

def users (s : Kernel R) (c : Nat) : Nat := s.live.countP fun t => (s.task t).ctx = c

structure Safe (s : Kernel R) : Prop where
  counted : ∀ c ∈ s.world.memctx, users s c ≤ (s.world.ctx c).count
  inUse : ∀ t ∈ s.live, (s.task t).ctx ∈ s.world.memctx
  pgd : ∀ t ∈ s.live, (s.world.ctx (s.task t).ctx).pgd ∈ s.world.frames

/-- The state after a call is safe, no task has a context the call has freed, and what an
exec puts or frees is in use. -/
structure Right (sys : System R) (s : Kernel R) (op : Op) : Prop where
  after : ∀ s', perform sys s op = .ok s' → Safe s' ∧
    ∀ c ∈ s.world.memctx, c ∉ s'.world.memctx → ∀ t ∈ s'.live, (s'.task t).ctx ≠ c
  once : ∀ t c, op = .exec t c →
    perform sys s op ≠ .error (.mm .stuck) ∧ perform sys s op ≠ .error (.mm (.bug .memCtxPut))

structure Succeeds (s : Kernel R) (t : Nat) (a : ForkArgs) (g : ForkGrants) : Prop where
  clone : a.flags &&& forkMem ≠ 0 → ∀ tree, Areas s.world (s.task t).ctx tree →
    Supplied s.world g.clone tree.inorder.length ∧ ¬ g.clone.FailsFor tree.inorder.length
  page : ∃ f, g.page = some f ∧ f ∉ s.world.frames ∧
    (a.flags &&& forkMem ≠ 0 → g.clone.pgd ≠ some f)

/-- A call of a task that can make it, where the allocators hand out what is not in use. -/
def Legal (sys : System R) (s : Kernel R) (op : Op) : Prop :=
  Enabled s op ∧
    match op with
    | .kernelThread _ g => (∀ f, g.page = some f → f ∉ s.world.frames) ∧
        ∀ a, g.table = some a → a ≠ 0 ∧ a ∉ s.tables
    | .fork t a g => a.refused = false → Succeeds s t a g
    | .exec _ c => ∀ ino ps, Exec.programHeaders sys.kernel (c.image ino) = some ps →
        Exec.Provided s.world c.supply (Exec.requests ino ps).length
    | _ => True

def Room (s : Kernel R) : Op → Prop
  | .kernelThread _ g => g.page.isSome → (s.world.ctx s.kthreadCtx).count + 1 < 2 ^ 32
  | .fork t a _ => a.refused = false → a.flags &&& forkMem = 0 →
      (s.world.ctx (s.task t).ctx).count + 1 < 2 ^ 32
  | _ => True

/-- After `sched_init` there is the idle task and the context of the kernel threads. -/
structure Booted (s : Kernel R) : Prop where
  live : s.live = [s.idle]
  zombies : s.zombies = []
  ctx : (s.task s.idle).ctx = s.kthreadCtx
  memctx : s.world.memctx = {s.kthreadCtx}
  nonzero : s.kthreadCtx ≠ 0
  empty : (s.world.ctx s.kthreadCtx).rbNode = 0
  count : (s.world.ctx s.kthreadCtx).count = 1
  pgd : (s.world.ctx s.kthreadCtx).pgd ∈ s.world.frames
  page : s.idle ∈ s.world.frames ∧ (s.world.ctx s.kthreadCtx).pgd ≠ s.idle
  words : ∀ i, s.world.iCount i < 2 ^ 32

structure Sound (s : Kernel R) : Prop where
  housed : ∃ shape, Housed s shape
  counted : ∀ c ∈ s.world.memctx, users s c ≤ (s.world.ctx c).count
  idle : s.idle ∈ s.live ∧ (s.task s.idle).ctx = s.kthreadCtx

variable {s : Kernel R} {w : World} {c t n : Nat} {sys : System R} {op : Op}

theorem Sound.inUse (sound : Sound s) : ∀ t ∈ s.live, (s.task t).ctx ∈ s.world.memctx := by
  obtain ⟨shape, housed⟩ := sound.housed
  exact housed.inUse

theorem Sound.spaces (sound : Sound s) : ∃ shape, Spaces s.world shape :=
  sound.housed.imp fun _ housed => housed.spaces

theorem Sound.safe (sound : Sound s) : Safe s where
  counted := sound.counted
  inUse := sound.inUse
  pgd t member := by
    obtain ⟨shape, spaces⟩ := sound.spaces
    exact spaces.pgd _ (sound.inUse t member)

theorem Sound.kthreadCtx (sound : Sound s) : s.kthreadCtx ∈ s.world.memctx :=
  sound.idle.2 ▸ sound.inUse s.idle sound.idle.1

theorem booted_sound (booted : Booted s) : Sound s := by
  have only : ∀ c ∈ s.world.memctx, c = s.kthreadCtx := by
    intro c here
    rw [booted.memctx] at here
    exact Finset.mem_singleton.mp here
  have here : s.kthreadCtx ∈ s.world.memctx := by
    rw [booted.memctx]
    exact Finset.mem_singleton_self _
  have spaces : Spaces s.world fun _ => .leaf := by
    refine ⟨?_, ?_, ?_, ?_, ?_, ?_, booted.words⟩
    · exact fun zero => booted.nonzero (only 0 zero).symm
    · intro c member
      rw [only c member]
      exact ⟨here, booted.empty, by simp [Shape.inorder], by simp [Shape.inorder]⟩
    · intro c member d there other
      exact absurd ((only c member).trans (only d there).symm) other
    · intro c member
      rw [only c member]
      exact booted.pgd
    · exact fun c member d there _ => (only c member).trans (only d there).symm
    · intro c member
      rw [only c member, booted.count]
      decide
  constructor
  case housed =>
    refine ⟨_, spaces, by simp [booted.live, booted.zombies], ?_, ?_⟩
    · intro t member
      rw [booted.live, booted.zombies, List.append_nil, List.mem_singleton] at member
      rw [member]
      refine ⟨booted.page.1, ?_⟩
      intro c inside
      rw [only c inside]
      exact booted.page.2
    · intro t member
      rw [booted.live, List.mem_singleton] at member
      rw [member, booted.ctx]
      exact here
  case counted =>
    intro c member
    rw [only c member, booted.count, users, booted.live]
    exact List.countP_le_length
  case idle =>
    rw [booted.live]
    exact ⟨List.mem_singleton_self _, booted.ctx⟩

theorem Sound.quiet {s' : Kernel R} (sound : Sound s) (quiet : Quiet s s') : Sound s' := by
  obtain ⟨shape, housed⟩ := sound.housed
  have same := quiet.world
  refine ⟨⟨shape, housed.quiet quiet⟩, ?_, ?_⟩
  · intro c here
    rw [same.memctx] at here
    rw [users, quiet.live, quiet.task, same.ctx c here]
    exact sound.counted c here
  · rw [quiet.idle, quiet.live, quiet.task, quiet.kthreadCtx]
    exact sound.idle

theorem Sound.add {f : Nat} {tree : Shape} (sound : Sound s) (added : Added s.world w c f tree)
    (words : ∀ i, w.iCount i < 2 ^ 32) : Sound { s with world := w } ∧ users s c = 0 := by
  obtain ⟨shape, housed⟩ := sound.housed
  have nobody : users s c = 0 := by
    refine List.countP_eq_zero.mpr ?_
    intro t member
    simp only [decide_eq_true_eq]
    rintro rfl
    exact added.unused (sound.inUse t member)
  refine ⟨⟨⟨_, housed.add added words⟩, ?_, sound.idle⟩, nobody⟩
  intro d here
  by_cases new : d = c
  · subst new
    exact nobody ▸ Nat.zero_le _
  · simp only [added.memctx, Finset.mem_insert, new, false_or] at here
    simp only [added.older d new]
    exact sound.counted d here

theorem Sound.get (sound : Sound s) (room : (s.world.ctx c).count + 1 < 2 ^ 32) :
    Sound { s with world := memCtxGet s.world c } := by
  obtain ⟨shape, housed⟩ := sound.housed
  refine ⟨⟨shape, housed.get c⟩, ?_, sound.idle⟩
  intro d here
  refine Nat.le_trans (sound.counted d here) ?_
  by_cases mine : d = c
  · subst mine
    simp only [memCtxGet, update_self, Nat.mod_eq_of_lt room]
    exact Nat.le_succ _
  · exact Nat.le_of_eq (by simp only [memCtxGet, update_of_ne mine])

section Spawn

variable {s s' : Kernel R} {w : World} {parent task : Task} {f : Nat}

section

variable (sound : Sound { s with world := w }) (unused : f ∉ w.frames)
  (spawned : Spawned s s' w parent f task)
include sound unused spawned

theorem Spawned.users (c : Nat) : users s' c = users s c + if task.ctx = c then 1 else 0 := by
  obtain ⟨shape, housed⟩ := sound.housed
  have same := (spawned.fresh housed unused).2
  have older : s.live.countP (fun t => (s'.task t).ctx = c) =
      s.live.countP fun t => (s.task t).ctx = c :=
    List.countP_congr fun t member => by rw [same t member]
  have mine : (s'.task f).ctx = task.ctx := by rw [spawned.task, update_self]
  simp only [Proc.users, spawned.live, List.countP_cons, older, mine, decide_eq_true_eq]

theorem Sound.spawn (here : task.ctx ∈ w.memctx)
    (room : users s task.ctx + 1 ≤ (w.ctx task.ctx).count) : Sound s' := by
  obtain ⟨shape, housed⟩ := sound.housed
  refine ⟨⟨shape, housed.spawn unused spawned here⟩, ?_, ?_⟩
  · intro c inside
    rw [spawned.memctx] at inside
    rw [spawned.users sound unused, spawned.ctx]
    by_cases mine : task.ctx = c
    · rw [if_pos mine, ← mine]
      exact room
    · rw [if_neg mine, Nat.add_zero]
      exact sound.counted c inside
  · rw [spawned.idle, spawned.kthreadCtx, spawned.live]
    refine ⟨List.mem_cons_of_mem f sound.idle.1, ?_⟩
    rw [(spawned.fresh housed unused).2 s.idle sound.idle.1]
    exact sound.idle.2

end

variable {c : Nat}

theorem Sound.share (sound : Sound s) (here : c ∈ s.world.memctx)
    (room : (s.world.ctx c).count + 1 < 2 ^ 32) (unused : f ∉ s.world.frames)
    (spawned : Spawned s s' (memCtxGet s.world c) parent f task) (shares : task.ctx = c) : Sound s' := by
  subst shares
  refine Sound.spawn (sound.get room) unused spawned here ?_
  have before := sound.counted task.ctx here
  simp only [memCtxGet, update_self, Nat.mod_eq_of_lt room]
  omega

theorem share_wraps (word : (s.world.ctx c).count < 2 ^ 32) (here : c ∈ s.world.memctx)
    (full : ¬ (s.world.ctx c).count + 1 < 2 ^ 32)
    (spawned : Spawned s s' (memCtxGet s.world c) parent f task) (shares : task.ctx = c) : ¬ Safe s' := by
  intro safe
  have count : (s'.world.ctx c).count = ((s.world.ctx c).count + 1) % 2 ^ 32 := by
    rw [spawned.ctx]
    simp only [memCtxGet, update_self]
  have child : f ∈ s'.live ∧ (s'.task f).ctx = c := by
    rw [spawned.live, spawned.task, update_self]
    exact ⟨List.mem_cons_self, shares⟩
  have some : 0 < users s' c := List.countP_pos_iff.mpr ⟨f, child.1, decide_eq_true child.2⟩
  have counted := safe.counted c (spawned.memctx.symm ▸ here)
  omega

end Spawn

theorem Sound.exit (sound : Sound s) (running : t ∈ s.live) (other : t ≠ s.idle) :
    Sound (doExit s t) := by
  obtain ⟨shape, housed⟩ := sound.housed
  refine ⟨⟨shape, housed.exit running⟩, ?_, ?_⟩
  · intro c here
    exact Nat.le_trans (List.Sublist.countP_le List.erase_sublist) (sound.counted c here)
  · exact ⟨(List.mem_erase_of_ne (Ne.symm other)).mpr sound.idle.1, sound.idle.2⟩

theorem Sound.reap (sound : Sound s) (dead : t ∈ s.zombies) :
    ∃ s', reap s t = .ok s' ∧ Sound s' := by
  obtain ⟨shape, housed⟩ := sound.housed
  obtain ⟨s', ran, housed', rfl⟩ := housed.reap dead
  exact ⟨_, ran, ⟨shape, housed'⟩, sound.counted, sound.idle⟩

def others (s : Kernel R) (t c : Nat) : Nat := (s.live.erase t).countP fun u => (s.task u).ctx = c

theorem users_eq (running : t ∈ s.live) (c : Nat) :
    users s c = others s t c + if (s.task t).ctx = c then 1 else 0 := by
  have split := (List.perm_cons_erase running).countP_eq fun u => decide ((s.task u).ctx = c)
  rw [users, split, List.countP_cons, others]
  simp only [decide_eq_true_eq]

def switched (s : Kernel R) (w : World) (t c : Nat) : Kernel R :=
  { s with world := w, task := update s.task t { s.task t with ctx := c } }

theorem users_switched (w : World) (nodup : s.live.Nodup) (running : t ∈ s.live) (c d : Nat) :
    users (switched s w t c) d = others s t d + if c = d then 1 else 0 := by
  have same : others (switched s w t c) t d = others s t d := by
    refine List.countP_congr fun u member => ?_
    have apart : u ≠ t := ((List.Nodup.mem_erase_iff nodup).mp member).1
    simp only [switched, update_of_ne apart]
  have mine : ((switched s w t c).task t).ctx = c := by
    simp only [switched, update_self]
  rw [users_eq (s := switched s w t c) running, same, mine]

section

variable (sound : Sound s) (running : t ∈ s.live) (other : t ≠ s.idle)
include sound running other

theorem Sound.switch (spaces : ∃ shape, Spaces w shape) (there : c ∈ w.memctx)
    (new : others s t c + 1 ≤ (w.ctx c).count) (fewer : w.memctx ⊆ s.world.memctx)
    (gone : ∀ d ∈ s.world.memctx, d ∉ w.memctx → others s t d = 0)
    (left : ∀ d ∈ w.memctx, others s t d ≤ (w.ctx d).count)
    (pgd : ∀ d ∈ w.memctx, (w.ctx d).pgd = (s.world.ctx d).pgd)
    (pages : ∀ u ∈ s.live ++ s.zombies, u ∈ w.frames) : Sound (switched s w t c) := by
  obtain ⟨_, housed⟩ := sound.housed
  obtain ⟨shape, spaces⟩ := spaces
  constructor
  case housed =>
    refine ⟨shape, spaces, housed.nodup, ?_, ?_⟩
    · intro u member
      refine ⟨pages u member, ?_⟩
      intro d here
      simp only [switched, pgd d here]
      exact (housed.pages u member).2 d (fewer here)
    · intro u member
      by_cases mine : u = t
      · subst mine
        simp only [switched, update_self]
        exact there
      · simp only [switched, update_of_ne mine]
        by_contra lost
        have none := List.countP_eq_zero.mp (gone _ (sound.inUse u member) lost) u
          ((List.mem_erase_of_ne mine).mpr member)
        exact none (decide_eq_true rfl)
  case counted =>
    intro d here
    rw [users_switched w (List.nodup_append.mp housed.nodup).1 running]
    by_cases mine : c = d
    · rw [if_pos mine, ← mine]
      exact new
    · rw [if_neg mine, Nat.add_zero]
      exact left d here
  case idle =>
    simp only [switched, update_of_ne (Ne.symm other)]
    exact sound.idle

theorem Sound.put (there : c ∈ s.world.memctx) (nobody : users s c = 0)
    (one : (s.world.ctx c).count = 1) :
    ∃ w, memCtxPut s.world (s.task t).ctx = .ok w ∧ Sound (switched s w t c) := by
  obtain ⟨shape, housed⟩ := sound.housed
  have spaces := housed.spaces
  set old := (s.task t).ctx with isOld
  have here : old ∈ s.world.memctx := sound.inUse t running
  have before := users_eq running old
  rw [if_pos isOld.symm] at before
  have counted := sound.counted old here
  have apart : c ≠ old := by
    intro same
    rw [same] at nobody
    omega
  have nobodyElse : others s t c = 0 := by
    have mine := users_eq running c
    omega
  have few : ∀ d ∈ s.world.memctx, others s t d ≤ (s.world.ctx d).count := by
    intro d inUse
    exact Nat.le_trans (users_eq running d ▸ Nat.le_add_right _ _) (sound.counted d inUse)
  have pages : ∀ u ∈ s.live ++ s.zombies, u ∈ s.world.frames := fun u member => (housed.pages u member).1
  by_cases more : 1 < (s.world.ctx old).count
  · refine ⟨_, memCtxPut_more more, ?_⟩
    have recounted := spaces.recount (c := old)
      (Nat.lt_of_le_of_lt (Nat.sub_le _ 1) (spaces.counts old here))
    refine sound.switch running other ⟨shape, recounted⟩ there ?_ (Finset.Subset.refl _) ?_ ?_ ?_ pages
    · simp only [update_of_ne apart, nobodyElse, one]
      exact Nat.le_refl _
    · exact fun d inUse lost => absurd inUse lost
    · intro d inUse
      by_cases mine : d = old
      · subst mine
        simp only [update_self]
        omega
      · simp only [update_of_ne mine]
        exact few d inUse
    · intro d _
      by_cases mine : d = old
      · subst mine
        simp only [update_self]
      · simp only [update_of_ne mine]
  · have last : (s.world.ctx old).count = 1 := by omega
    refine ⟨_, memCtxPut_last (spaces.areas old here) last (spaces.pgd old here), ?_⟩
    have ctx (d : Nat) (else' : d ≠ old) : (freed s.world old (shape old)).ctx d = s.world.ctx d :=
      update_of_ne else' _ _
    refine sound.switch running other ⟨shape, spaces.drop here⟩ (Finset.mem_erase.mpr ⟨apart, there⟩) ?_
      (Finset.erase_subset _ _) ?_ ?_ ?_ ?_
    · rw [ctx c apart, nobodyElse, one]
    · intro d inUse lost
      by_cases mine : d = old
      · subst mine
        omega
      · exact absurd (Finset.mem_erase.mpr ⟨mine, inUse⟩) lost
    · intro d inUse
      obtain ⟨else', inUse⟩ := Finset.mem_erase.mp inUse
      rw [ctx d else']
      exact few d inUse
    · intro d inUse
      rw [ctx d (Finset.mem_erase.mp inUse).1]
    · intro u member
      exact Finset.mem_erase.mpr ⟨Ne.symm ((housed.pages u member).2 old here), pages u member⟩

theorem doExec_sound {k : Exec.Kernel} {g : Namei.Graph Nat R} {c : ExecCall}
    (provided : ∀ ino ps, Exec.programHeaders k (c.image ino) = some ps →
      Exec.Provided s.world c.supply (Exec.requests ino ps).length) :
    (∃ e, doExec k g s t c = .error e ∧ e ≠ .mm .stuck ∧ e ≠ .mm (.bug .memCtxPut)) ∨
      ∃ s' r, doExec k g s t c = .ok (s', r) ∧ Sound s' := by
  unfold doExec
  by_cases copied : c.copied = false
  · exact .inr ⟨s, -1, if_pos copied, sound⟩
  · rw [if_neg copied]
    rcases taskNamei_cases g s t c.mem c.fuel c.name with (stop | stop) | ⟨found, r, -, walked⟩
    · exact .inl ⟨.nullPointer, by rw [stop]; rfl, by simp, by simp⟩
    · exact .inl ⟨.iput, by rw [stop]; rfl, by simp, by simp⟩
    have quiet := taskNamei_quiet walked
    simp only [walked, bind, Except.bind]
    set s₁ : Kernel R := { s with world := { s.world with iCount := r.count }, rest := r.rest }
    have sound₁ : Sound s₁ := sound.quiet quiet
    cases found with
    | none => exact .inr ⟨_, _, rfl, sound₁⟩
    | some ino =>
      obtain ⟨shape, spaces⟩ := sound₁.spaces
      have here : (s₁.task t).ctx ∈ s₁.world.memctx := sound₁.inUse t running
      have mine : 0 < (s₁.world.ctx (s₁.task t).ctx).count := by
        refine Nat.lt_of_lt_of_le ?_ (sound₁.counted _ here)
        exact List.countP_pos_iff.mpr ⟨t, running, decide_eq_true rfl⟩
      have ready : Exec.Ready s₁.world (s₁.task t).ctx (shape (s₁.task t).ctx) :=
        ⟨spaces.areas _ here, mine, spaces.pgd _ here⟩
      have given : ∀ ps, Exec.programHeaders k (c.image ino) = some ps →
          Exec.Provided s₁.world c.supply (Exec.requests ino ps).length := by
        intro ps accepted
        have before := provided ino ps accepted
        exact ⟨before.ctx, before.pgd, before.vmas, before.long⟩
      rcases Exec.execImage_cases ready given with
        ⟨w, ran, restored, -⟩ | ⟨ps, accepted, ⟨bug, -⟩ | ⟨d, f, w₁, tree, w, obj, pgd, built, put, ran⟩⟩
      · refine .inr ⟨{ s₁ with world := w }, -1, by simp only [ran], ?_⟩
        refine sound₁.quiet ⟨rfl, rfl, rfl, rfl, rfl, restored, ?_⟩
        exact fun words => Exec.execImage_words words ran
      · rcases bug with bug | bug
        · exact .inl ⟨.mm (.bug .setupVma), by simp only [bug], by simp, by simp⟩
        · exact .inl ⟨.mm (.bug .vmaInsert), by simp only [bug], by simp, by simp⟩
      · obtain ⟨nonzero, unused⟩ := (given ps accepted).ctx d obj
        have added := built_added nonzero unused ((given ps accepted).pgd f pgd) built
        have words : ∀ i, w₁.iCount i < 2 ^ 32 := by
          rw [← Exec.memCtxPut_iCount put]
          exact Exec.execImage_words spaces.words ran
        obtain ⟨sound₂, nobody⟩ := sound₁.add added words
        obtain ⟨w', put', sound'⟩ := sound₂.put running other added.areas.here nobody added.ctx.2
        obtain rfl : w = w' := Except.ok.inj (put.symm.trans put')
        exact .inr ⟨switched s₁ w t d, 0, by simp only [ran]; rfl, sound'⟩

end

theorem perform_sound (sound : Sound s) (legal : Legal sys s op) (room : Room s op) :
    (∃ e, perform sys s op = .error e ∧
      ∀ t c, op = .exec t c → e ≠ .mm .stuck ∧ e ≠ .mm (.bug .memCtxPut)) ∨
    ∃ s', perform sys s op = .ok s' ∧ Sound s' := by
  have quietly (run : Except Halt (Kernel R × Int)) (same : perform sys s op = run.map Prod.fst)
      (noExec : ∀ t c, op ≠ .exec t c) (quiet : ∀ s' r, run = .ok (s', r) → Quiet s s') :
      (∃ e, perform sys s op = .error e ∧
        ∀ t c, op = .exec t c → e ≠ .mm .stuck ∧ e ≠ .mm (.bug .memCtxPut)) ∨
      ∃ s', perform sys s op = .ok s' ∧ Sound s' := by
    cases run with
    | error e => exact .inl ⟨e, same, fun t c is => absurd is (noExec t c)⟩
    | ok result => exact .inr ⟨result.1, same, sound.quiet (quiet result.1 result.2 rfl)⟩
  obtain ⟨enabled, legal⟩ := legal
  cases op with
  | kernelThread t g =>
    obtain ⟨pages, tables⟩ := legal
    cases page : g.page with
    | none =>
      refine .inr ⟨s, ?_, sound⟩
      simp only [perform, kernelThread, page, allocPage]
      rfl
    | some f =>
      obtain ⟨s', r, pid, fdTable, ran, spawned, -⟩ :=
        thread_spawned (t := t) page (pages f page) tables
      refine .inr ⟨s', by rw [perform, ran]; rfl, ?_⟩
      exact sound.share sound.kthreadCtx (room (by rw [page]; rfl)) (pages f page) spawned rfl
  | fork t a g =>
    cases accepted : a.refused with
    | true =>
      refine .inr ⟨s, ?_, sound⟩
      simp only [perform, sysFork, accepted, if_true]
      rfl
    | false =>
      have succeeds := legal accepted
      obtain ⟨f, page, unused, differ⟩ := succeeds.page
      obtain ⟨shape, spaces⟩ := sound.spaces
      have here := sound.inUse t enabled
      have nonzero : (s.task t).ctx ≠ 0 := fun zero => spaces.nonzero (zero ▸ here)
      by_cases mem : a.flags &&& forkMem = 0
      · have shared : forkCtx s.world (s.task t).ctx a.flags g.clone =
            .ok (memCtxGet s.world (s.task t).ctx, (s.task t).ctx) := if_neg (not_not.mpr mem)
        obtain ⟨s', pid, ran, spawned, -⟩ := fork_spawned accepted shared nonzero page unused
        refine .inr ⟨s', by rw [perform, ran]; rfl, ?_⟩
        exact sound.share here (room accepted mem) unused spawned rfl
      · have areas := spaces.areas _ here
        obtain ⟨supplied, works⟩ := succeeds.clone mem _ areas
        obtain ⟨w, mm, ctx, outcome⟩ := forkCtx_cases (a := a)
          ⟨nonzero, areas, spaces.counts _ here⟩ supplied
        cases outcome with
        | shared none => exact absurd none mem
        | failed _ fails => exact absurd fails works
        | cloned _ _ d cloned =>
          have added := cloned_added cloned
          obtain ⟨sound₁, nobody⟩ := sound.add added (cloned.words spaces.words)
          have free : f ∉ w.frames := by
            rw [cloned.frames, Finset.mem_insert]
            rintro (rfl | old)
            · exact differ mem cloned.given.2
            · exact unused old
          obtain ⟨s', pid, ran, spawned, -⟩ := fork_spawned accepted ctx added.nonzero page free
          refine .inr ⟨s', by rw [perform, ran]; rfl, ?_⟩
          refine sound₁.spawn free spawned added.areas.here ?_
          rw [nobody, added.ctx.2]
  | exec t c =>
    rcases doExec_sound (k := sys.kernel) (g := sys.graph) sound enabled.1 enabled.2 legal with
      ⟨e, ran, harmless⟩ | ⟨s', r, ran, sound'⟩
    · exact .inl ⟨e, by rw [perform, ran]; rfl, fun _ _ _ => harmless⟩
    · exact .inr ⟨s', by rw [perform, ran]; rfl, sound'⟩
  | exit t => exact .inr ⟨_, rfl, sound.exit enabled.1 enabled.2⟩
  | reap t => exact .inr (sound.reap enabled)
  | openFile t c => exact quietly _ rfl (by simp) fun _ _ ran => sysOpen_quiet ran
  | closeFile t walks handle => exact quietly _ rfl (by simp) fun _ _ ran => sysClose_quiet ran
  | readFile t c => exact quietly _ rfl (by simp) fun _ _ ran => sysRead_quiet ran

theorem right_iff (sound : Sound s) (legal : Legal sys s op) : Right sys s op ↔ Room s op := by
  constructor
  · intro right
    obtain ⟨shape, spaces⟩ := sound.spaces
    cases op with
    | kernelThread t g =>
      intro given
      obtain ⟨f, page⟩ := Option.isSome_iff_exists.mp given
      by_contra full
      obtain ⟨s', r, pid, fdTable, ran, spawned, -⟩ :=
        thread_spawned (t := t) page (legal.2.1 f page) legal.2.2
      have here := sound.kthreadCtx
      refine share_wraps (spaces.counts _ here) here full spawned rfl ?_
      exact (right.after s' (by rw [perform, ran]; rfl)).1
    | fork t a g =>
      intro accepted mem
      by_contra full
      obtain ⟨f, page, unused, -⟩ := (legal.2 accepted).page
      have here := sound.inUse t legal.1
      have shared : forkCtx s.world (s.task t).ctx a.flags g.clone =
          .ok (memCtxGet s.world (s.task t).ctx, (s.task t).ctx) := if_neg (not_not.mpr mem)
      obtain ⟨s', pid, ran, spawned, -⟩ :=
        fork_spawned accepted shared (fun zero => spaces.nonzero (zero ▸ here)) page unused
      refine share_wraps (spaces.counts _ here) here full spawned rfl ?_
      exact (right.after s' (by rw [perform, ran]; rfl)).1
    | exec t c | exit t | reap t | openFile t c | closeFile t walks handle => trivial
    | readFile t c => trivial
  · intro room
    rcases perform_sound sound legal room with ⟨e, stop, harmless⟩ | ⟨s', ran, sound'⟩
    · refine ⟨fun s' ran => absurd (stop.symm.trans ran) nofun, ?_⟩
      intro t c is
      obtain ⟨free, put⟩ := harmless t c is
      rw [stop]
      exact ⟨fun same => free (Except.error.inj same), fun same => put (Except.error.inj same)⟩
    · constructor
      · intro u again
        cases ran.symm.trans again
        refine ⟨sound'.safe, ?_⟩
        rintro c - gone t member rfl
        exact gone (sound'.inUse t member)
      · intro t c _
        rw [ran]
        exact ⟨nofun, nofun⟩

/-- From the state after `sched_init` on, with allocations that succeed inside a fork, no live
task ever has a context that has been freed, exactly if no context is shared once more than
its count can tell. -/
theorem contexts_safe_iff (sys : System R) (s₀ : Kernel R) (ops : List Op) (booted : Booted s₀)
    (legal : Run.Along (step sys) (Legal sys) s₀ ops) :
    Run.Along (step sys) (Right sys) s₀ ops ↔ Run.Along (step sys) Room s₀ ops := by
  refine Run.along_iff_of_legal Sound ?_ ?_ legal (booted_sound booted)
  · intro s op allowed sound
    exact right_iff sound allowed
  · intro s op s' allowed room sound ran
    rcases perform_sound sound allowed room with ⟨e, stop, -⟩ | ⟨u, ended, sound'⟩
    · cases stop.symm.trans (step_some.mp ran).2
    · obtain rfl := Except.ok.inj (ended.symm.trans (step_some.mp ran).2)
      exact sound'

/-- Every path leads to a program. -/
def initSystem : System Unit where
  kernel := Exec.sampleKernel
  graph := ⟨fun r _ _ _ => (some 3, r), fun r _ => r⟩

def bootedKernel : Kernel Unit where
  world := { sample 0 with ctx := fun _ => ⟨0, 1, 1⟩, vmas := ∅, memctx := {96}, frames := {1, 8} }
  task := fun _ => ⟨0, 96, 2, 2, 0⟩
  live := [8]
  zombies := []
  idle := 8
  kthreadCtx := 96
  nextPid := 0
  table := forking.table
  tables := ∅
  file := forking.file
  files := ∅
  rest := ()

theorem bootedKernel_booted : Booted bootedKernel where
  live := rfl
  zombies := rfl
  ctx := rfl
  memctx := rfl
  nonzero := by decide
  empty := rfl
  count := rfl
  pgd := by decide
  page := by decide
  words := fun _ => (by decide : 1 < 2 ^ 32)

def initCall : ExecCall where
  copied := true
  mem := Namei.samplePath
  name := 100
  fuel := 8
  image := fun _ => Exec.fileImage (Exec.elf Exec.goodSegments)
  supply := Exec.sampleSupply

def startInit : List Op := [.kernelThread 8 ⟨some 6, some 32, some 48⟩, .exec 6 initCall]

/-- A thread of the program that ends at once. -/
def shortChild : List Op := [.fork 6 ⟨0, 0, 0⟩ ⟨⟨none, none, []⟩, some 9, none⟩, .exit 9, .reap 9]

def shortChildren (n : Nat) : List Op := (List.replicate n shortChild).flatten

structure Resting (s : Kernel Unit) (n : Nat) : Prop where
  live : s.live = [6, 8]
  zombies : s.zombies = []
  idle : s.idle = 8
  ctx : (s.task 6).ctx = 128 ∧ (s.task 8).ctx = 96
  memctx : 128 ∈ s.world.memctx
  frames : 9 ∉ s.world.frames
  count : (s.world.ctx 128).count = n

theorem startInit_rests : Run.Along (step initSystem) (Legal initSystem) bootedKernel startInit ∧
    ∃ s, Run.exec (step initSystem) bootedKernel startInit = some s ∧ Resting s 1 := by
  have accepted : Exec.programHeaders Exec.sampleKernel (Exec.fileImage (Exec.elf Exec.goodSegments)) =
      some Exec.goodSegments := by
    decide +kernel
  have unused : 6 ∉ bootedKernel.world.frames := by decide
  have table : ∀ a, some 32 = some a → a ≠ 0 ∧ a ∉ bootedKernel.tables := by
    rintro a ⟨⟩
    decide
  constructor
  · refine ⟨⟨?_, ?_, table⟩, fun s₁ ran => ⟨⟨?_, ?_⟩, fun _ _ => trivial⟩⟩
    · exact List.mem_singleton_self 8
    · rintro f ⟨⟩
      exact unused
    all_goals
      obtain ⟨u, r, pid, fdTable, called, spawned, -⟩ :=
        thread_spawned (s := bootedKernel) (t := 8) (g := ⟨some 6, some 32, some 48⟩) rfl unused table
      have same : perform initSystem bootedKernel (.kernelThread 8 ⟨some 6, some 32, some 48⟩) =
          .ok u := by
        rw [perform, called]
        rfl
      obtain rfl := Except.ok.inj (same.symm.trans (step_some.mp ran).2)
    · rw [Enabled, spawned.live, spawned.idle]
      decide
    · intro ino ps again
      cases accepted.symm.trans again
      rw [spawned.world]
      refine ⟨?_, ?_, ⟨⟨by decide, by decide⟩, by decide⟩, Nat.le_refl 3⟩
      · rintro a ⟨⟩
        exact ⟨by decide, show 128 ∉ bootedKernel.world.memctx by decide⟩
      · rintro f ⟨⟩
        exact show 7 ∉ insert 6 bootedKernel.world.frames by decide
  · have ends : (Run.exec (step initSystem) bootedKernel startInit).map (fun s => ((s.live, s.zombies,
        s.idle), ((s.task 6).ctx, (s.task 8).ctx), decide (128 ∈ s.world.memctx),
        decide (9 ∈ s.world.frames), (s.world.ctx 128).count)) =
          some (([6, 8], [], 8), (128, 96), true, false, 1) := by
      decide +kernel
    obtain ⟨s, ran, eq⟩ := Option.map_eq_some_iff.mp ends
    simp only [Prod.mk.injEq, decide_eq_true_eq, decide_eq_false_iff_not] at eq
    obtain ⟨⟨live, zombies, idle⟩, ctx, memctx, frames, count⟩ := eq
    exact ⟨s, ran, live, zombies, idle, ctx, memctx, frames, count⟩

theorem shortChild_rests {s : Kernel Unit} (rests : Resting s n) :
    Run.Along (step initSystem) (Legal initSystem) s shortChild ∧
      ∃ s', Run.exec (step initSystem) s shortChild = some s' ∧ Resting s' ((n + 1) % 2 ^ 32) := by
  have shared : forkCtx s.world (s.task 6).ctx 0 ⟨none, none, []⟩ = .ok (memCtxGet s.world 128, 128) := by
    rw [rests.ctx.1]
    rfl
  obtain ⟨s₁, pid, ran, spawned, -⟩ := fork_spawned (s := s) (t := 6) (a := ⟨0, 0, 0⟩)
    (g := ⟨⟨none, none, []⟩, some 9, none⟩) rfl shared (by decide) rfl rests.frames
  have live₁ : s₁.live = [9, 6, 8] := by rw [spawned.live, rests.live]
  have frames₁ : s₁.world.frames = insert 9 s.world.frames := by
    rw [spawned.world]
    rfl
  have here : Enabled s (.fork 6 ⟨0, 0, 0⟩ ⟨⟨none, none, []⟩, some 9, none⟩) := by
    rw [Enabled, rests.live]
    decide
  have first : step initSystem s (.fork 6 ⟨0, 0, 0⟩ ⟨⟨none, none, []⟩, some 9, none⟩) = some s₁ :=
    step_some.mpr ⟨here, by rw [perform, ran]; rfl⟩
  have running : Enabled s₁ (.exit 9) := by
    rw [Enabled, live₁, spawned.idle, rests.idle]
    decide
  have second : step initSystem s₁ (.exit 9) = some (doExit s₁ 9) := step_some.mpr ⟨running, rfl⟩
  have dead : Enabled (doExit s₁ 9) (.reap 9) := List.mem_append_right _ (List.mem_singleton_self 9)
  have page : (9 : Nat) ∈ (doExit s₁ 9).world.frames := by
    rw [doExit, frames₁]
    exact Finset.mem_insert_self _ _
  have freed : reap (doExit s₁ 9) 9 = .ok { doExit s₁ 9 with
      world := { s₁.world with frames := s₁.world.frames.erase 9 }
      zombies := (doExit s₁ 9).zombies.erase 9 } := by
    rw [reap, freePage, if_pos page]
    rfl
  have third : step initSystem (doExit s₁ 9) (.reap 9) = some _ := step_some.mpr ⟨dead, freed⟩
  refine ⟨⟨⟨here, fun _ => ⟨fun cloned => absurd rfl cloned, 9, rfl, rests.frames, fun cloned =>
    absurd rfl cloned⟩⟩, ?_⟩, _, (Run.exec_cons _ _ _ _ _).mpr ⟨_, first,
      (Run.exec_cons _ _ _ _ _).mpr ⟨_, second, (Run.exec_cons _ _ _ _ _).mpr ⟨_, third, rfl⟩⟩⟩, ?_⟩
  · intro u is
    cases first.symm.trans is
    refine ⟨⟨running, trivial⟩, ?_⟩
    intro u is
    cases second.symm.trans is
    exact ⟨⟨dead, trivial⟩, fun _ _ => trivial⟩
  · constructor
    case live => simp [doExit, live₁]
    case zombies => simp [doExit, spawned.zombies, rests.zombies]
    case idle => exact spawned.idle.trans rests.idle
    case ctx => simpa [doExit, spawned.task, update_of_ne] using rests.ctx
    case memctx =>
      dsimp only
      rw [spawned.memctx]
      exact rests.memctx
    case frames =>
      dsimp only
      exact Finset.notMem_erase _ _
    case count =>
      dsimp only
      rw [spawned.ctx, ← rests.count]
      simp only [memCtxGet, update_self]

theorem shortChildren_rest (k : Nat) {s : Kernel Unit} (word : n < 2 ^ 32) (rests : Resting s n) :
    Run.Along (step initSystem) (Legal initSystem) s (shortChildren k) ∧ ∃ s',
      Run.exec (step initSystem) s (shortChildren k) = some s' ∧ Resting s' ((n + k) % 2 ^ 32) := by
  induction k generalizing s n with
  | zero =>
    refine ⟨trivial, s, rfl, ?_⟩
    rw [Nat.add_zero, Nat.mod_eq_of_lt word]
    exact rests
  | succ k ih =>
    have more : shortChildren (k + 1) = shortChild ++ shortChildren k := by
      rw [shortChildren, List.replicate_succ, List.flatten_cons, shortChildren]
    obtain ⟨legal, s₁, ran, rests₁⟩ := shortChild_rests rests
    obtain ⟨legal', s', ran', rests'⟩ := ih (Nat.mod_lt _ (by decide)) rests₁
    have count : ((n + 1) % 2 ^ 32 + k) % 2 ^ 32 = (n + (k + 1)) % 2 ^ 32 := by
      rw [Nat.mod_add_mod, Nat.add_assoc, Nat.add_comm 1 k]
    rw [more, ← count]
    refine ⟨Run.along_join ran legal legal', s', ?_, rests'⟩
    rw [Run.exec_append, ran]
    exact ran'

/-- The program is started and has so many threads, one after the other. -/
theorem initRun_rests (k : Nat) : Run.Along (step initSystem) (Legal initSystem) bootedKernel
    (startInit ++ shortChildren k) ∧ ∃ s, Run.exec (step initSystem) bootedKernel
      (startInit ++ shortChildren k) = some s ∧ Resting s ((1 + k) % 2 ^ 32) := by
  obtain ⟨legal, s₁, ran, rests⟩ := startInit_rests
  obtain ⟨legal', s', ran', rests'⟩ := shortChildren_rest k (by decide) rests
  refine ⟨Run.along_join ran legal legal', s', ?_, rests'⟩
  rw [Run.exec_append, ran]
  exact ran'

theorem contexts_safe_iff_thread : Booted bootedKernel ∧
    Run.Along (step initSystem) (Right initSystem) bootedKernel (startInit ++ shortChildren 1) := by
  obtain ⟨-, s₁, ran, rests⟩ := startInit_rests
  refine ⟨bootedKernel_booted, (contexts_safe_iff initSystem bootedKernel _ bootedKernel_booted
    (initRun_rests 1).1).mpr (Run.along_join ran ?_ ?_)⟩
  · exact ⟨fun _ => (by decide : 1 + 1 < 2 ^ 32), fun _ _ => ⟨trivial, fun _ _ => trivial⟩⟩
  · refine ⟨fun _ _ => ?_, fun _ _ => ⟨trivial, fun _ _ => ⟨trivial, fun _ _ => trivial⟩⟩⟩
    rw [rests.ctx.1, rests.count]
    decide

/-- No thread gives its reference back. After 2³² - 1 of them the count is 0, while the program
has the context. -/
theorem shared_ctx_wraps : Booted bootedKernel ∧
    Run.Along (step initSystem) (Legal initSystem) bootedKernel
      (startInit ++ shortChildren (2 ^ 32 - 1)) ∧
    (∃ s, Run.exec (step initSystem) bootedKernel (startInit ++ shortChildren (2 ^ 32 - 1)) = some s ∧
      s.live = [6, 8] ∧ (s.task 6).ctx = 128 ∧ (s.world.ctx 128).count = 0) ∧
    ¬ Run.Along (step initSystem) (Right initSystem) bootedKernel
      (startInit ++ shortChildren (2 ^ 32 - 1)) := by
  obtain ⟨legal, s, ran, rests⟩ := initRun_rests (2 ^ 32 - 1)
  have zero : (s.world.ctx 128).count = 0 := by
    rw [rests.count]
    decide
  refine ⟨bootedKernel_booted, legal, ⟨s, ran, rests.live, rests.ctx.1, zero⟩, ?_⟩
  intro right
  have safe : Safe s := by
    refine Run.along_invariant Safe ?_ right (booted_sound bootedKernel_booted).safe ran
    intro s₁ op s₂ right _ made
    exact (right.after s₂ (step_some.mp made).2).1
  have counted := safe.counted 128 rests.memctx
  have one : users s 128 = 1 := by
    simp [users, rests.live, rests.ctx]
  rw [zero, one] at counted
  exact absurd counted (by decide)

end ScaraOS.Proc
