import ScaraOS.Mm.Cloned

/-! What `mem_ctx_clone` leaves behind: a clone has no areas, and a call that fails among
the areas is not undone. -/
namespace ScaraOS.Mm

open Function RbTree Paging

def area (w : World) (n : Nat) : Nat × Nat × Nat × Nat × Nat :=
  ((w.vma n).vmaBegin, (w.vma n).vmaEnd, (w.vma n).vmaProt, (w.vma n).vmaOff, (w.vma n).vmaIno)

/-- The context `new` of `w'` has copies of the areas that had this shape in `w`. -/
def Copied (w w' : World) (shape : Shape) (new : Nat) : Prop :=
  ∃ copy, Rep (fun n => (w'.vma n).rbt) (w'.ctx new).rbNode 0 copy ∧
    copy.inorder.map (area w') = shape.inorder.map (area w) ∧
    RedBlack (fun n => (w'.vma n).rbt) copy ∧ ∀ n ∈ copy.inorder, n ∉ shape.inorder

/-- A clone has the areas of the original only if there are none. -/
theorem clone_copied_iff (w : World) (ctx fuel : Nat) (shape : Shape) (supply : Supply)
    (areas : Areas w ctx shape) (enough : shape.height < fuel)
    (supplied : Supplied w supply shape.inorder.length) :
    ∃ w' r, memCtxClone fuel w ctx supply = some (w', r) ∧
      (r ≠ 0 → (Copied w w' shape r ↔ (w.ctx ctx).rbNode = 0)) := by
  obtain ⟨w', r, ran, outcome⟩ := memCtxClone_outcome areas enough supplied
  refine ⟨w', r, ran, ?_⟩
  intro given
  rcases outcome with ⟨_, null, _⟩ | ⟨_, f, cloned⟩
  · exact absurd null given
  · have empty : (w'.ctx r).rbNode = 0 := by rw [cloned.ctx, update_self]
    constructor
    · rintro ⟨copy, rep, same, _⟩
      rw [empty] at rep
      rw [rep_zero rep] at same
      have none : shape.inorder = [] := List.map_eq_nil_iff.mp same.symm
      cases shape with
      | leaf => exact areas.rep
      | node a l r => simp [Shape.inorder] at none
    · intro root
      have leaf : shape = .leaf := rep_zero (root ▸ areas.rep)
      subst leaf
      exact ⟨.leaf, empty, rfl, ⟨rfl, rfl⟩, by simp [Shape.inorder]⟩

def sample (root : Nat) : World where
  vma := fun _ => ⟨⟨1, 0, 0⟩, 0x400000, 0x401000, protRead, 0, 7⟩
  ctx := fun _ => ⟨root, 2, 1⟩
  vmas := {16}
  memctx := {64}
  frames := {2}
  word := fun _ _ => 0
  iCount := fun _ => 1

theorem sample_areas : Areas (sample 16) 64 (.node 16 .leaf .leaf) where
  here := by decide
  rep := ⟨rfl, by decide, rfl, rfl, rfl⟩
  live := by decide
  nodup := by decide

theorem sample_supplied (ctx pgd area : Option Nat) (newCtx : ∀ a, ctx = some a → a = 128)
    (newPgd : ∀ f, pgd = some f → f = 5) (newArea : ∀ a, area = some a → a = 32) (root : Nat) :
    Supplied (sample root) ⟨ctx, pgd, [area]⟩ 1 where
  ctx := by
    intro a is
    rw [newCtx a is]
    exact ⟨by decide, by simp [sample]⟩
  pgd := by
    intro f is
    rw [newPgd f is]
    simp [sample]
  vmas := by
    cases area with
    | none => exact ⟨List.nodup_nil, by simp⟩
    | some a =>
      rw [newArea a rfl]
      exact ⟨List.nodup_singleton 32, by simp [sample]⟩
  long := by simp

theorem clone_copied_iff_empty : ∃ w',
    memCtxClone 1 (sample 0) 64 ⟨some 128, some 5, []⟩ = some (w', 128) ∧
    Copied (sample 0) w' .leaf 128 := by
  have areas : Areas (sample 0) 64 .leaf := ⟨by decide, rfl, by decide, by decide⟩
  have supplied : Supplied (sample 0) ⟨some 128, some 5, []⟩ 0 :=
    ⟨by simp [sample], by simp [sample], ⟨List.nodup_nil, by simp⟩, by simp⟩
  obtain ⟨w', r, ran, iff⟩ := clone_copied_iff _ 64 1 .leaf _ areas (by decide) supplied
  have value : (memCtxClone 1 (sample 0) 64 ⟨some 128, some 5, []⟩).map Prod.snd = some 128 := by
    decide
  rw [ran] at value
  cases value
  exact ⟨w', ran, (iff (by decide)).mpr rfl⟩

/- The clone of a context with one area has none. -/
theorem clone_loses_area : ∃ w',
    Supplied (sample 16) ⟨some 128, some 5, [some 32]⟩ 1 ∧
    Areas (sample 16) 64 (.node 16 .leaf .leaf) ∧
    memCtxClone 2 (sample 16) 64 ⟨some 128, some 5, [some 32]⟩ = some (w', 128) ∧
    (w'.ctx 128).rbNode = 0 ∧ ¬ Copied (sample 16) w' (.node 16 .leaf .leaf) 128 := by
  refine ⟨_, sample_supplied _ _ _ (by simp) (by simp) (by simp) 16, sample_areas, rfl,
    by decide, ?_⟩
  rintro ⟨copy, rep, same, _⟩
  have leaf := rep_zero (s := copy) rep
  rw [leaf] at same
  cases same

/-- Everything in use before is in use and unchanged, and nothing else is. -/
structure Clean (w w' : World) : Prop where
  vma : ∀ n ∈ w.vmas, w'.vma n = w.vma n
  ctx : ∀ c ∈ w.memctx, w'.ctx c = w.ctx c
  vmas : w'.vmas = w.vmas
  memctx : w'.memctx = w.memctx
  frames : w'.frames = w.frames
  iCount : w'.iCount = w.iCount

theorem clone_failure_clean_iff (w : World) (ctx fuel : Nat) (shape : Shape) (supply : Supply)
    (areas : Areas w ctx shape) (enough : shape.height < fuel)
    (supplied : Supplied w supply shape.inorder.length) :
    ∃ w' r, memCtxClone fuel w ctx supply = some (w', r) ∧
      (r = 0 → (Clean w w' ↔ supply.ctx = none ∨ supply.pgd = none)) := by
  obtain ⟨w', r, ran, outcome⟩ := memCtxClone_outcome areas enough supplied
  refine ⟨w', r, ran, ?_⟩
  intro null
  rcases outcome with ⟨_, _, ⟨early, rfl⟩ | ⟨f, noCtx, pgd, free, kept⟩⟩ | ⟨_, _, cloned⟩
  · exact ⟨fun _ => early, fun _ => ⟨fun _ _ => rfl, fun _ _ => rfl, rfl, rfl, rfl, rfl⟩⟩
  · constructor
    · intro clean
      rw [clean.frames] at kept
      exact absurd (kept ▸ Finset.mem_insert_self f w.frames) free
    · intro early
      rcases early with ctxNone | pgdNone
      · exact absurd ctxNone noCtx
      · rw [pgd] at pgdNone
        cases pgdNone
  · exact absurd null cloned.unused.1

theorem clone_failure_clean_iff_directory : ∃ w',
    memCtxClone 2 (sample 16) 64 ⟨some 128, none, [none]⟩ = some (w', 0) ∧
    Clean (sample 16) w' := by
  obtain ⟨w', r, ran, iff⟩ := clone_failure_clean_iff _ 64 2 _ _ sample_areas (by decide)
    (sample_supplied (some 128) none none (by simp) (by simp) (by simp) 16)
  have value : (memCtxClone 2 (sample 16) 64 ⟨some 128, none, [none]⟩).map Prod.snd = some 0 := by
    decide
  rw [ran] at value
  cases value
  exact ⟨w', ran, (iff rfl).mpr (.inr rfl)⟩

/- The copy of the area cannot be made: the original's is freed, the directory is not. -/
theorem clone_failure_frees_original : ∃ w',
    Supplied (sample 16) ⟨some 128, some 5, [none]⟩ 1 ∧
    Areas (sample 16) 64 (.node 16 .leaf .leaf) ∧
    memCtxClone 2 (sample 16) 64 ⟨some 128, some 5, [none]⟩ = some (w', 0) ∧
    16 ∉ w'.vmas ∧ 5 ∈ w'.frames ∧ ¬ Clean (sample 16) w' := by
  refine ⟨_, sample_supplied _ _ _ (by simp) (by simp) (by simp) 16, sample_areas, rfl,
    by decide, by decide, ?_⟩
  intro clean
  have kept : 16 ∈ (sample 16).vmas := by decide
  rw [← clean.vmas] at kept
  exact absurd kept (by decide)

end ScaraOS.Mm
