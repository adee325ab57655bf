import ScaraOS.Exec.Load
import ScaraOS.Proc.Fork

/-! The address spaces in use: each context has its areas and its page directory to itself. -/
namespace ScaraOS.Proc

open Function RbTree Paging Mm

structure Spaces (w : World) (shape : Nat → Shape) : Prop where
  nonzero : 0 ∉ w.memctx
  areas : ∀ c ∈ w.memctx, Areas w c (shape c)
  apart : ∀ c ∈ w.memctx, ∀ d ∈ w.memctx, c ≠ d → ∀ n ∈ (shape c).inorder, n ∉ (shape d).inorder
  pgd : ∀ c ∈ w.memctx, (w.ctx c).pgd ∈ w.frames
  own : ∀ c ∈ w.memctx, ∀ d ∈ w.memctx, (w.ctx c).pgd = (w.ctx d).pgd → c = d
  counts : ∀ c ∈ w.memctx, (w.ctx c).count < 2 ^ 32
  words : ∀ i, w.iCount i < 2 ^ 32

variable {w w' : World} {shape : Nat → Shape} {tree : Shape}

theorem Spaces.congr (spaces : Spaces w shape) (vma : ∀ n ∈ w.vmas, w'.vma n = w.vma n)
    (vmas : w.vmas ⊆ w'.vmas) (memctx : w'.memctx = w.memctx)
    (root : ∀ c ∈ w.memctx, (w'.ctx c).rbNode = (w.ctx c).rbNode)
    (pgd : ∀ c ∈ w.memctx, (w'.ctx c).pgd = (w.ctx c).pgd)
    (counts : ∀ c ∈ w.memctx, (w'.ctx c).count < 2 ^ 32)
    (frames : ∀ c ∈ w.memctx, (w.ctx c).pgd ∈ w'.frames)
    (words : ∀ i, w'.iCount i < 2 ^ 32) : Spaces w' shape where
  nonzero := by
    rw [memctx]
    exact spaces.nonzero
  areas c here := by
    rw [memctx] at here
    have areas := spaces.areas c here
    refine ⟨memctx ▸ here, ?_, fun n member => vmas (areas.live n member), areas.nodup⟩
    rw [root c here]
    exact rep_congr (fun n member => by rw [vma n (areas.live n member)]) areas.rep
  apart c here d there := by
    rw [memctx] at here there
    exact spaces.apart c here d there
  pgd c here := by
    rw [memctx] at here
    rw [pgd c here]
    exact frames c here
  own c here d there same := by
    rw [memctx] at here there
    rw [pgd c here, pgd d there] at same
    exact spaces.own c here d there same
  counts c here := counts c (memctx ▸ here)
  words := words

theorem Spaces.restored (spaces : Spaces w shape) (restored : Exec.Restored w w')
    (words : ∀ i, w'.iCount i < 2 ^ 32) : Spaces w' shape := by
  refine spaces.congr restored.vma (by rw [restored.vmas]) restored.memctx ?_ ?_ ?_ ?_ words
  · exact fun c here => by rw [restored.ctx c here]
  · exact fun c here => by rw [restored.ctx c here]
  · intro c here
    rw [restored.ctx c here]
    exact spaces.counts c here
  · intro c here
    rw [restored.frames]
    exact spaces.pgd c here

variable {c f : Nat}

theorem Spaces.recount (spaces : Spaces w shape) {n : Nat} (word : n < 2 ^ 32) :
    Spaces { w with ctx := update w.ctx c { w.ctx c with count := n } } shape := by
  have same (d : Nat) : (update w.ctx c { w.ctx c with count := n } d).rbNode = (w.ctx d).rbNode ∧
      (update w.ctx c { w.ctx c with count := n } d).pgd = (w.ctx d).pgd := by
    by_cases here : d = c
    · subst here
      rw [update_self]
      exact ⟨rfl, rfl⟩
    · rw [update_of_ne here]
      exact ⟨rfl, rfl⟩
  refine spaces.congr (fun _ _ => rfl) (Finset.Subset.refl _) rfl (fun d _ => (same d).1)
    (fun d _ => (same d).2) ?_ spaces.pgd spaces.words
  intro d there
  by_cases here : d = c
  · subst here
    simp only [update_self]
    exact word
  · simp only [update_of_ne here]
    exact spaces.counts d there

theorem Spaces.pages (spaces : Spaces w shape) {frames : Finset Nat} {iCount : Nat → Nat}
    (kept : ∀ c ∈ w.memctx, (w.ctx c).pgd ∈ frames) (words : ∀ i, iCount i < 2 ^ 32) :
    Spaces { w with frames := frames, iCount := iCount } shape :=
  spaces.congr (fun _ _ => rfl) (Finset.Subset.refl _) rfl (fun _ _ => rfl) (fun _ _ => rfl)
    spaces.counts kept words

structure Added (w w' : World) (c f : Nat) (tree : Shape) : Prop where
  nonzero : c ≠ 0
  unused : c ∉ w.memctx
  free : f ∉ w.frames
  areas : Areas w' c tree
  newer : ∀ n ∈ tree.inorder, n ∉ w.vmas
  ctx : (w'.ctx c).pgd = f ∧ (w'.ctx c).count = 1
  older : ∀ d, d ≠ c → w'.ctx d = w.ctx d
  memctx : w'.memctx = insert c w.memctx
  frames : w'.frames = insert f w.frames
  vma : ∀ n ∈ w.vmas, w'.vma n = w.vma n
  vmas : w.vmas ⊆ w'.vmas

theorem Spaces.add (spaces : Spaces w shape) (added : Added w w' c f tree)
    (words : ∀ i, w'.iCount i < 2 ^ 32) : Spaces w' (update shape c tree) := by
  have older : ∀ d ∈ w.memctx, d ≠ c := by
    rintro d member rfl
    exact added.unused member
  have either : ∀ d ∈ w'.memctx, d = c ∨ d ∈ w.memctx := by
    intro d member
    rw [added.memctx] at member
    exact Finset.mem_insert.mp member
  have ctx : ∀ d ∈ w.memctx, w'.ctx d = w.ctx d := fun d member => added.older d (older d member)
  have shapes : ∀ d ∈ w.memctx, update shape c tree d = shape d :=
    fun d member => update_of_ne (older d member) _ _
  have live : ∀ d ∈ w.memctx, ∀ n ∈ (shape d).inorder, n ∈ w.vmas :=
    fun d member => (spaces.areas d member).live
  constructor
  case nonzero =>
    intro member
    rcases either 0 member with new | old
    · exact added.nonzero new.symm
    · exact spaces.nonzero old
  case areas =>
    intro d member
    rcases either d member with rfl | old
    · rw [update_self]
      exact added.areas
    · have areas := spaces.areas d old
      rw [shapes d old]
      refine ⟨member, ?_, fun n inside => added.vmas (areas.live n inside), areas.nodup⟩
      rw [ctx d old]
      exact rep_congr (fun n inside => by rw [added.vma n (areas.live n inside)]) areas.rep
  case apart =>
    intro d member e there other n inside inside'
    rcases either d member with rfl | old
    · rcases either e there with rfl | old'
      · exact other rfl
      · rw [update_self] at inside
        rw [shapes e old'] at inside'
        exact added.newer n inside (live e old' n inside')
    · rw [shapes d old] at inside
      rcases either e there with rfl | old'
      · rw [update_self] at inside'
        exact added.newer n inside' (live d old n inside)
      · rw [shapes e old'] at inside'
        exact spaces.apart d old e old' other n inside inside'
  case pgd =>
    intro d member
    rw [added.frames]
    rcases either d member with rfl | old
    · rw [added.ctx.1]
      exact Finset.mem_insert_self f w.frames
    · rw [ctx d old]
      exact Finset.mem_insert_of_mem (spaces.pgd d old)
  case own =>
    intro d member e there same
    rcases either d member with rfl | old
    · rcases either e there with rfl | old'
      · rfl
      · rw [added.ctx.1, ctx e old'] at same
        exact absurd (same ▸ spaces.pgd e old') added.free
    · rcases either e there with rfl | old'
      · rw [added.ctx.1, ctx d old] at same
        exact absurd (same ▸ spaces.pgd d old) added.free
      · rw [ctx d old, ctx e old'] at same
        exact spaces.own d old e old' same
  case counts =>
    intro d member
    rcases either d member with rfl | old
    · rw [added.ctx.2]
      decide
    · rw [ctx d old]
      exact spaces.counts d old
  case words => exact words

theorem cloned_added {orig : Nat} {supply : Mm.Supply}
    (cloned : Cloned w w' orig tree supply c f) : Added w w' c f .leaf where
  __ := cloned
  nonzero := cloned.unused.1
  unused := cloned.unused.2.1
  free := cloned.unused.2.2
  areas := by
    refine ⟨?_, ?_, by simp [Shape.inorder], by simp [Shape.inorder]⟩
    · rw [cloned.memctx]
      exact Finset.mem_insert_self c w.memctx
    · rw [cloned.ctx, update_self]
      exact rfl
  newer := by simp [Shape.inorder]
  ctx := by
    rw [cloned.ctx, update_self]
    exact ⟨rfl, rfl⟩
  older d other := by rw [cloned.ctx, update_of_ne other]

theorem built_added {k : Exec.Kernel} {rs : List Request} (nonzero : c ≠ 0)
    (unused : c ∉ w.memctx) (free : f ∉ w.frames)
    (built : Exec.Built (started k.initPgd w c f) w' c rs tree) : Added w w' c f tree where
  __ := built
  nonzero := nonzero
  unused := unused
  free := free
  areas := built.tree.toAreas
  ctx := by
    rw [built.pgd, built.count]
    simp [started]
  older d other := (built.ctxs d other).trans (update_of_ne other _ _)
  vma := built.older
  vmas := by
    rw [built.vmas]
    exact Finset.subset_union_left

theorem Spaces.drop (spaces : Spaces w shape) (here : c ∈ w.memctx) :
    Spaces (freed w c (shape c)) shape := by
  have kept : ∀ d ∈ (freed w c (shape c)).memctx, d ≠ c ∧ d ∈ w.memctx :=
    fun d member => Finset.mem_erase.mp member
  have ctx : ∀ d, d ≠ c → (freed w c (shape c)).ctx d = w.ctx d :=
    fun d other => update_of_ne other _ _
  constructor
  case nonzero => exact fun member => spaces.nonzero (kept 0 member).2
  case areas =>
    intro d member
    obtain ⟨other, old⟩ := kept d member
    have areas := spaces.areas d old
    refine ⟨member, ?_, ?_, areas.nodup⟩
    · rw [ctx d other]
      exact areas.rep
    · intro n inside
      refine Finset.mem_sdiff.mpr ⟨areas.live n inside, ?_⟩
      rw [List.mem_toFinset]
      exact spaces.apart d old c here other n inside
  case apart =>
    intro d member e there
    exact spaces.apart d (kept d member).2 e (kept e there).2
  case pgd =>
    intro d member
    obtain ⟨other, old⟩ := kept d member
    rw [ctx d other]
    refine Finset.mem_erase.mpr ⟨?_, spaces.pgd d old⟩
    exact fun same => other (spaces.own d old c here same)
  case own =>
    intro d member e there same
    obtain ⟨other, old⟩ := kept d member
    obtain ⟨other', old'⟩ := kept e there
    rw [ctx d other, ctx e other'] at same
    exact spaces.own d old e old' same
  case counts =>
    intro d member
    obtain ⟨other, old⟩ := kept d member
    rw [ctx d other]
    exact spaces.counts d old
  case words => exact spaces.words

end ScaraOS.Proc
