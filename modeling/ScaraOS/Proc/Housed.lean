import ScaraOS.Proc.Quiet

/-! Where the tasks are: each has a page of its own, and a live one a context in use. -/
namespace ScaraOS.Proc

open Function RbTree Paging Mm

variable {R : Type} {s s' : Kernel R} {shape : Nat → Shape}

structure Housed (s : Kernel R) (shape : Nat → Shape) : Prop where
  spaces : Spaces s.world shape
  nodup : (s.live ++ s.zombies).Nodup
  pages : ∀ t ∈ s.live ++ s.zombies, t ∈ s.world.frames ∧
    ∀ c ∈ s.world.memctx, (s.world.ctx c).pgd ≠ t
  inUse : ∀ t ∈ s.live, (s.task t).ctx ∈ s.world.memctx

theorem Housed.quiet (housed : Housed s shape) (quiet : Quiet s s') : Housed s' shape := by
  have same := quiet.world
  constructor
  case spaces => exact housed.spaces.restored same (quiet.words housed.spaces.words)
  case nodup =>
    rw [quiet.live, quiet.zombies]
    exact housed.nodup
  case pages =>
    intro t member
    rw [quiet.live, quiet.zombies] at member
    obtain ⟨inside, apart⟩ := housed.pages t member
    refine ⟨same.frames ▸ inside, ?_⟩
    intro c here
    rw [same.memctx] at here
    rw [same.ctx c here]
    exact apart c here
  case inUse =>
    intro t member
    rw [quiet.live] at member
    rw [quiet.task, same.memctx]
    exact housed.inUse t member

theorem Housed.add {w : World} {c f : Nat} {tree : Shape} (housed : Housed s shape)
    (added : Added s.world w c f tree) (words : ∀ i, w.iCount i < 2 ^ 32) :
    Housed { s with world := w } (update shape c tree) := by
  constructor
  case spaces => exact housed.spaces.add added words
  case nodup => exact housed.nodup
  case pages =>
    intro t member
    obtain ⟨inside, apart⟩ := housed.pages t member
    refine ⟨added.frames ▸ Finset.mem_insert_of_mem inside, ?_⟩
    intro d here
    by_cases new : d = c
    · subst new
      simp only [added.ctx.1]
      rintro rfl
      exact added.free inside
    · simp only [added.memctx, Finset.mem_insert, new, false_or] at here
      simp only [added.older d new]
      exact apart d here
  case inUse =>
    intro t member
    exact added.memctx ▸ Finset.mem_insert_of_mem (housed.inUse t member)

theorem memCtxGet_pgd (w : World) (c d : Nat) : ((memCtxGet w c).ctx d).pgd = (w.ctx d).pgd := by
  by_cases here : d = c
  · subst here
    simp only [memCtxGet, update_self]
  · simp only [memCtxGet, update_of_ne here]

theorem Housed.get (housed : Housed s shape) (c : Nat) :
    Housed { s with world := memCtxGet s.world c } shape := by
  constructor
  case spaces => exact housed.spaces.recount (Nat.mod_lt _ (by decide))
  case nodup => exact housed.nodup
  case pages =>
    intro t member
    obtain ⟨inside, apart⟩ := housed.pages t member
    refine ⟨inside, ?_⟩
    intro d here
    rw [memCtxGet_pgd]
    exact apart d here
  case inUse => exact housed.inUse

section Spawn

variable {w : World} {parent task : Task} {f : Nat}

theorem Spawned.fresh (housed : Housed { s with world := w } shape) (unused : f ∉ w.frames)
    (spawned : Spawned s s' w parent f task) :
    f ∉ s.live ++ s.zombies ∧ ∀ t ∈ s.live, s'.task t = s.task t := by
  have apart : f ∉ s.live ++ s.zombies := fun member => unused (housed.pages f member).1
  refine ⟨apart, ?_⟩
  intro t member
  rw [spawned.task, update_of_ne]
  rintro rfl
  exact apart (List.mem_append_left _ member)

theorem Spawned.memctx (spawned : Spawned s s' w parent f task) : s'.world.memctx = w.memctx := by
  rw [spawned.world]
  rfl

theorem Spawned.ctx (spawned : Spawned s s' w parent f task) : s'.world.ctx = w.ctx := by
  rw [spawned.world]
  rfl

theorem Housed.spawn (housed : Housed { s with world := w } shape) (unused : f ∉ w.frames)
    (spawned : Spawned s s' w parent f task) (here : task.ctx ∈ w.memctx) : Housed s' shape := by
  obtain ⟨apart, same⟩ := spawned.fresh housed unused
  have spaces : Spaces w shape := housed.spaces
  have frames : s'.world.frames = insert f w.frames := by
    rw [spawned.world]
    rfl
  constructor
  case spaces =>
    rw [spawned.world]
    refine spaces.pages (fun c here => Finset.mem_insert_of_mem (spaces.pgd c here)) ?_
    exact irefFs_words (w := { w with frames := insert f w.frames }) spaces.words parent
  case nodup =>
    rw [spawned.live, spawned.zombies]
    exact List.nodup_cons.mpr ⟨apart, housed.nodup⟩
  case pages =>
    intro t member
    rw [spawned.live, spawned.zombies, List.cons_append, List.mem_cons] at member
    rw [frames, spawned.memctx, spawned.ctx]
    rcases member with rfl | old
    · refine ⟨Finset.mem_insert_self t w.frames, ?_⟩
      rintro c here rfl
      exact unused (spaces.pgd c here)
    · obtain ⟨inside, other⟩ := housed.pages t old
      exact ⟨Finset.mem_insert_of_mem inside, other⟩
  case inUse =>
    intro t member
    rw [spawned.memctx]
    rw [spawned.live, List.mem_cons] at member
    rcases member with rfl | old
    · rw [spawned.task, update_self]
      exact here
    · rw [same t old]
      exact housed.inUse t old

end Spawn

theorem Housed.exit {t : Nat} (housed : Housed s shape) (running : t ∈ s.live) :
    Housed (doExit s t) shape := by
  have moved : ((doExit s t).live ++ (doExit s t).zombies).Perm (s.live ++ s.zombies) := by
    calc s.live.erase t ++ (s.zombies ++ [t])
      _ = (s.live.erase t ++ s.zombies) ++ [t] := (List.append_assoc _ _ _).symm
      List.Perm _ (t :: (s.live.erase t ++ s.zombies)) := List.perm_append_singleton t _
      List.Perm _ (s.live ++ s.zombies) := (List.perm_cons_erase running).symm.append_right _
  constructor
  case spaces => exact housed.spaces
  case nodup => exact moved.nodup_iff.mpr housed.nodup
  case pages => exact fun u member => housed.pages u (moved.mem_iff.mp member)
  case inUse => exact fun u member => housed.inUse u (List.mem_of_mem_erase member)

theorem Housed.reap {t : Nat} (housed : Housed s shape) (dead : t ∈ s.zombies) :
    ∃ s', reap s t = .ok s' ∧ Housed s' shape ∧ s' = { s with
      world := { s.world with frames := s.world.frames.erase t }
      zombies := s.zombies.erase t } := by
  obtain ⟨inside, apart⟩ := housed.pages t (List.mem_append_right _ dead)
  obtain ⟨-, nodup, disjoint⟩ := List.nodup_append.mp housed.nodup
  have freed : freePage s.world t = .ok { s.world with frames := s.world.frames.erase t } := if_pos inside
  refine ⟨_, by rw [Proc.reap, freed]; rfl, ?_, rfl⟩
  constructor
  case spaces =>
    refine housed.spaces.pages (fun c here => ?_) housed.spaces.words
    exact Finset.mem_erase.mpr ⟨apart c here, housed.spaces.pgd c here⟩
  case nodup =>
    exact List.Nodup.sublist ((List.Sublist.refl _).append List.erase_sublist) housed.nodup
  case pages =>
    intro u member
    have before : u ∈ s.live ++ s.zombies ∧ u ≠ t := by
      rcases List.mem_append.mp member with live | zombie
      · exact ⟨List.mem_append_left _ live, disjoint u live t dead⟩
      · obtain ⟨other, old⟩ := (List.Nodup.mem_erase_iff nodup).mp zombie
        exact ⟨List.mem_append_right _ old, other⟩
    obtain ⟨used, others⟩ := housed.pages u before.1
    exact ⟨Finset.mem_erase.mpr ⟨before.2, used⟩, others⟩
  case inUse => exact housed.inUse

end ScaraOS.Proc
