import Mathlib.Data.Finset.SDiff
import Mathlib.Data.List.ReduceOption
import ScaraOS.Mm.Context

/-! What `mem_ctx_clone` needs and what it has done when it succeeds. The copies of the areas
are made and never linked; when a copy cannot be made, the areas that are freed are those of
the original. -/
namespace ScaraOS.Mm

open Function RbTree Paging

/-- The tree of areas of a context, all of them in use and each in one place. -/
structure Areas (w : World) (ctx : Nat) (shape : Shape) : Prop where
  here : ctx ∈ w.memctx
  rep : Rep (fun n => (w.vma n).rbt) (w.ctx ctx).rbNode 0 shape
  live : ∀ n ∈ shape.inorder, n ∈ w.vmas
  nodup : shape.inorder.Nodup

structure Fresh (live : Finset Nat) (supply : List (Option Nat)) : Prop where
  nodup : supply.reduceOption.Nodup
  unused : ∀ a ∈ supply.reduceOption, a ≠ 0 ∧ a ∉ live

structure Supplied (w : World) (supply : Supply) (n : Nat) : Prop where
  ctx : ∀ a, supply.ctx = some a → a ≠ 0 ∧ a ∉ w.memctx
  pgd : ∀ f, supply.pgd = some f → f ∉ w.frames
  vmas : Fresh w.vmas supply.vmas
  long : n ≤ supply.vmas.length

structure Extends (w w' : World) : Prop where
  vma : ∀ n ∈ w.vmas, w'.vma n = w.vma n
  vmas : w.vmas ⊆ w'.vmas
  ctx : w'.ctx = w.ctx
  memctx : w'.memctx = w.memctx
  frames : w'.frames = w.frames

theorem extends_refl (w : World) : Extends w w :=
  ⟨fun _ _ => rfl, Finset.Subset.refl _, rfl, rfl, rfl⟩

theorem extends_trans {a b c : World} (first : Extends a b) (second : Extends b c) :
    Extends a c where
  vma n member := (second.vma n (first.vmas member)).trans (first.vma n member)
  vmas := Finset.Subset.trans first.vmas second.vmas
  ctx := second.ctx.trans first.ctx
  memctx := second.memctx.trans first.memctx
  frames := second.frames.trans first.frames

theorem extends_copyVma {w : World} (orig : Nat) {new : Nat} (unused : new ∉ w.vmas) :
    Extends w (copyVma { w with vmas := insert new w.vmas } orig new) := by
  refine ⟨?_, Finset.subset_insert new w.vmas, rfl, rfl, rfl⟩
  intro n member
  have other : n ≠ new := fun same => unused (same ▸ member)
  exact update_of_ne other _ _

theorem objcacheAlloc_fresh {live : Finset Nat} {a : Nat} (nonzero : a ≠ 0) (unused : a ∉ live) :
    objcacheAlloc live (some a) = some (insert a live, a) :=
  if_neg fun bad => bad.elim nonzero unused

theorem fresh_tail {live : Finset Nat} {a : Nat} {supply : List (Option Nat)}
    (fresh : Fresh live (some a :: supply)) : Fresh (insert a live) supply := by
  obtain ⟨nodup, unused⟩ := fresh
  rw [List.reduceOption_cons_of_some] at nodup unused
  obtain ⟨apart, rest⟩ := List.nodup_cons.mp nodup
  refine ⟨rest, ?_⟩
  intro b member
  obtain ⟨nonzero, absent⟩ := unused b (List.mem_cons_of_mem a member)
  refine ⟨nonzero, ?_⟩
  intro inside
  rcases Finset.mem_insert.mp inside with rfl | old
  · exact apart member
  · exact absent old

def areasOf (w : World) (shape : Shape) (ino : Nat) : Nat :=
  shape.inorder.countP fun n => (w.vma n).vmaIno = ino

theorem areasOf_congr {w w' : World} {shape : Shape} (same : ∀ n ∈ shape.inorder, w'.vma n = w.vma n)
    (ino : Nat) : areasOf w' shape ino = areasOf w shape ino := by
  refine List.countP_congr fun n member => ?_
  rw [same n member]

theorem areasOf_node (w : World) (a : Nat) (l r : Shape) (ino : Nat) :
    areasOf w (.node a l r) ino =
      (if (w.vma a).vmaIno = ino then 1 else 0) + areasOf w l ino + areasOf w r ino := by
  simp only [areasOf, Shape.inorder, List.countP_append, List.countP_cons, decide_eq_true_eq]
  omega

theorem copyVma_iCount (w : World) (orig new : Nat) {x : Nat} (nonzero : x ≠ 0) :
    (copyVma w orig new).iCount x % 2 ^ 32 =
      (w.iCount x + if (w.vma orig).vmaIno = x then 1 else 0) % 2 ^ 32 := by
  have count : (copyVma w orig new).iCount =
      if (w.vma orig).vmaIno ≠ 0 then iref w.iCount (w.vma orig).vmaIno else w.iCount := rfl
  rw [count]
  by_cases here : (w.vma orig).vmaIno = x
  · rw [if_pos here, if_pos (by rw [here]; exact nonzero), here, iref, update_self, Nat.mod_mod]
  · rw [if_neg here, Nat.add_zero]
    by_cases file : (w.vma orig).vmaIno ≠ 0
    · rw [if_pos file, iref, update_of_ne (Ne.symm here)]
    · rw [if_neg file]

theorem iref_lt {iCount : Nat → Nat} (words : ∀ x, iCount x < 2 ^ 32) (ino x : Nat) :
    iref iCount ino x < 2 ^ 32 := by
  unfold iref
  by_cases same : x = ino
  · subst same
    rw [update_self]
    exact Nat.mod_lt _ (by decide)
  · rw [update_of_ne same]
    exact words x

theorem copyVma_words {w : World} (words : ∀ x, w.iCount x < 2 ^ 32) (orig new x : Nat) :
    (copyVma w orig new).iCount x < 2 ^ 32 := by
  simp only [copyVma]
  split
  · exact iref_lt words _ x
  · exact words x

structure Copies (w w' : World) (shape : Shape) (used : List (Option Nat)) (ok : Bool) : Prop where
  older : Extends w w'
  word : w'.word = w.word
  words : (∀ x, w.iCount x < 2 ^ 32) → ∀ x, w'.iCount x < 2 ^ 32
  all : ok = true → used.length = shape.inorder.length ∧ none ∉ used ∧
    ∀ x ≠ 0, w'.iCount x % 2 ^ 32 = (w.iCount x + areasOf w shape x) % 2 ^ 32
  some : ok = false → none ∈ used ∧ used.length ≤ shape.inorder.length
  areas : ∀ n ∈ w'.vmas, n ∈ w.vmas ∨ .some n ∈ used

section Copies

variable {w u v : World} {root new : Nat} {l r : Shape} {usedL usedR : List (Option Nat)} {ok : Bool}
  (copiesL : Copies (copyVma { w with vmas := insert new w.vmas } root new) u l usedL ok)

include copiesL

theorem Copies.area {n : Nat} (member : n ∈ u.vmas) : n ∈ w.vmas ∨ .some n ∈ .some new :: usedL := by
  rcases copiesL.areas n member with old | given
  · rcases Finset.mem_insert.mp old with rfl | old
    · exact .inr List.mem_cons_self
    · exact .inl old
  · exact .inr (List.mem_cons_of_mem _ given)

theorem Copies.stopped (unused : new ∉ w.vmas) (failed : ok = false) :
    Copies w u (.node root l r) (.some new :: usedL) false where
  older := extends_trans (extends_copyVma root unused) copiesL.older
  word := copiesL.word
  words := fun words => copiesL.words (copyVma_words words root new)
  all := by simp
  some := by
    intro _
    obtain ⟨lost, few⟩ := copiesL.some failed
    refine ⟨List.mem_cons_of_mem _ lost, ?_⟩
    simp only [Shape.inorder, List.length_append, List.length_cons]
    omega
  areas := fun _ member => copiesL.area member

theorem Copies.node {ok' : Bool} (copiesR : Copies u v r usedR ok') (unused : new ∉ w.vmas)
    (done : ok = true) (live : ∀ n ∈ (Shape.node root l r).inorder, n ∈ w.vmas) :
    Copies w v (.node root l r) (.some new :: usedL ++ usedR) ok' := by
  have copied := extends_copyVma root unused
  have extU := extends_trans copied copiesL.older
  obtain ⟨countL, goodL, refsL⟩ := copiesL.all done
  have liveL : ∀ n ∈ l.inorder, n ∈ w.vmas := fun n member =>
    live n (by simp [Shape.inorder, member])
  have liveR : ∀ n ∈ r.inorder, n ∈ w.vmas := fun n member =>
    live n (by simp [Shape.inorder, member])
  refine ⟨extends_trans extU copiesR.older, copiesR.word.trans copiesL.word,
    fun words => copiesR.words (copiesL.words (copyVma_words words root new)), ?_, ?_, ?_⟩
  · intro all
    obtain ⟨countR, goodR, refsR⟩ := copiesR.all all
    refine ⟨?_, by simp [goodL, goodR], ?_⟩
    · simp only [Shape.inorder, List.length_append, List.length_cons, countL, countR]
      omega
    · intro x nonzero
      have first : (copyVma { w with vmas := insert new w.vmas } root new).iCount x % 2 ^ 32 =
          (w.iCount x + if (w.vma root).vmaIno = x then 1 else 0) % 2 ^ 32 :=
        copyVma_iCount _ root new nonzero
      have countL := refsL x nonzero
      have countR := refsR x nonzero
      rw [areasOf_congr fun n member => copied.vma n (liveL n member)] at countL
      rw [areasOf_congr fun n member => extU.vma n (liveR n member)] at countR
      rw [areasOf_node]
      omega
  · intro failed
    obtain ⟨lost, few⟩ := copiesR.some failed
    refine ⟨List.mem_append_right _ lost, ?_⟩
    simp only [Shape.inorder, List.length_append, List.length_cons, countL]
    omega
  · intro n member
    rcases copiesR.areas n member with old | given
    · exact (copiesL.area old).imp id (List.mem_append_left _)
    · exact .inr (List.mem_append_right _ given)

end Copies

theorem doCloneVma_copies {shape : Shape} {root parent : Nat} {w : World}
    {supply : List (Option Nat)} (fuel : Nat) (pnew : Link)
    (rep : Rep (fun n => (w.vma n).rbt) root parent shape)
    (live : ∀ n ∈ shape.inorder, n ∈ w.vmas) (enough : shape.height < fuel)
    (fresh : Fresh w.vmas supply) (long : shape.inorder.length ≤ supply.length) :
    ∃ w' used rest ok, doCloneVma fuel w supply root pnew = some (w', rest, ok) ∧
      supply = used ++ rest ∧ (ok = true → Fresh w'.vmas rest) ∧ Copies w w' shape used ok := by
  induction shape generalizing root parent w supply fuel pnew with
  | leaf =>
    cases fuel with
    | zero => omega
    | succ fuel =>
      exact ⟨w, [], supply, true, if_pos rep, rfl, fun _ => fresh, extends_refl w, rfl, id,
        fun _ => ⟨rfl, by simp, fun _ _ => rfl⟩, by simp, fun _ => .inl⟩
  | node a l r left right =>
    obtain ⟨rfl, here, _, repL, repR⟩ := rep
    have size : (Shape.node root l r).inorder.length = l.inorder.length + r.inorder.length + 1 := by
      simp only [Shape.inorder, List.length_append, List.length_cons]
      omega
    unfold Shape.height at enough
    cases fuel with
    | zero => omega
    | succ fuel =>
      cases supply with
      | nil =>
        rw [size] at long
        exact absurd long (by simp)
      | cons x supply =>
        simp only [doCloneVma, if_neg here]
        cases x with
        | none =>
          exact ⟨w, [none], supply, false, rfl, rfl, by simp, extends_refl w, rfl, id, by simp,
            fun _ => ⟨List.mem_singleton_self _, by rw [size]; exact Nat.le_add_left ..⟩, fun _ => .inl⟩
        | some new =>
          have unused := fresh.unused new (by simp)
          have given := objcacheAlloc_fresh unused.1 unused.2
          have copied := extends_copyVma root unused.2
          have isLive : root ∈ w.vmas := live root (by simp [Shape.inorder])
          have liveL : ∀ n ∈ l.inorder, n ∈ w.vmas := fun n member =>
            live n (by simp [Shape.inorder, member])
          have liveR : ∀ n ∈ r.inorder, n ∈ w.vmas := fun n member =>
            live n (by simp [Shape.inorder, member])
          simp only [given, Option.bind_some, if_neg unused.1, copied.vma root isLive]
          simp only [List.length_cons, size] at long ⊢
          -- The left subtree of the original is where it was, and so is then the right one.
          obtain ⟨u, usedL, restL, ok, ranL, splitL, freshL, copiesL⟩ := left
            fuel (.left new)
            (rep_congr (fun n member => by rw [copied.vma n (liveL n member)]) repL)
            (fun n member => copied.vmas (liveL n member)) (by omega) (fresh_tail fresh) (by omega)
          have extU := extends_trans copied copiesL.older
          rw [ranL]
          have front : some new :: supply = (some new :: usedL) ++ restL := by rw [splitL]; rfl
          cases ok with
          | false =>
            exact ⟨u, some new :: usedL, restL, false, rfl, front, by simp,
              copiesL.stopped unused.2 rfl⟩
          | true =>
            have longR : r.inorder.length ≤ restL.length := by
              have countL := (copiesL.all rfl).1
              have total := congrArg List.length splitL
              rw [List.length_append] at total
              omega
            obtain ⟨v, usedR, restR, ok', ranR, splitR, freshR, copiesR⟩ := right
              fuel (.right new)
              (rep_congr (fun n member => by rw [extU.vma n (liveR n member)]) repR)
              (fun n member => extU.vmas (liveR n member)) (by omega) (freshL rfl) longR
            have ran : (if true = true then doCloneVma fuel u restL (u.vma root).rbt.right (.right new)
                else some (u, restL, false)) = some (v, restR, ok') := by
              rw [if_pos rfl, extU.vma root isLive]
              exact ranR
            refine ⟨v, (some new :: usedL) ++ usedR, restR, ok', ran, ?_, freshR,
              copiesL.node copiesR unused.2 rfl live⟩
            rw [front, splitR, List.append_assoc]

theorem doFreeVma_spec {shape : Shape} {root parent : Nat} {w : World} (fuel : Nat)
    (rep : Rep (fun n => (w.vma n).rbt) root parent shape)
    (live : ∀ n ∈ shape.inorder, n ∈ w.vmas) (nodup : shape.inorder.Nodup)
    (enough : shape.height < fuel) :
    doFreeVma fuel w root = some { w with vmas := w.vmas \ shape.inorder.toFinset } := by
  induction shape generalizing root parent w fuel with
  | leaf =>
    cases fuel with
    | zero => omega
    | succ fuel =>
      simp only [doFreeVma, Shape.inorder, List.toFinset_nil, Finset.sdiff_empty]
      exact if_pos rep
  | node a l r left right =>
    obtain ⟨rfl, here, _, repL, repR⟩ := rep
    unfold Shape.height at enough
    simp only [Shape.inorder] at live nodup
    obtain ⟨nodupL, nodupAR, apart⟩ := List.nodup_append.mp nodup
    obtain ⟨notR, nodupR⟩ := List.nodup_cons.mp nodupAR
    have notL : root ∉ l.inorder := fun member => apart root member root List.mem_cons_self rfl
    cases fuel with
    | zero => omega
    | succ fuel =>
      have freeL := left fuel repL (fun n member => live n (List.mem_append_left _ member)) nodupL
        (by omega)
      have liveR : ∀ n ∈ r.inorder, n ∈ w.vmas \ l.inorder.toFinset := by
        intro n member
        have inTail : n ∈ root :: r.inorder := List.mem_cons_of_mem root member
        refine Finset.mem_sdiff.mpr ⟨live n (List.mem_append_right _ inTail), ?_⟩
        intro inL
        exact apart n (List.mem_toFinset.mp inL) n inTail rfl
      have freeR := right (w := { w with vmas := w.vmas \ l.inorder.toFinset }) fuel repR liveR
        nodupR (by omega)
      have still : root ∈ (w.vmas \ l.inorder.toFinset) \ r.inorder.toFinset := by
        simp only [Finset.mem_sdiff, List.mem_toFinset]
        exact ⟨⟨live root (List.mem_append_right _ List.mem_cons_self), notL⟩, notR⟩
      simp only [doFreeVma, if_neg here, freeL, Option.bind_some, freeR, objcacheFree2,
        if_pos still, Option.map_some]
      congr 2
      ext n
      simp only [Shape.inorder, Finset.mem_erase, Finset.mem_sdiff, List.mem_toFinset,
        List.mem_append, List.mem_cons]
      tauto

def Supply.FailsFor (supply : Supply) (n : Nat) : Prop :=
  supply.ctx = none ∨ supply.pgd = none ∨ none ∈ supply.vmas.take n

structure Cloned (w w' : World) (orig : Nat) (shape : Shape) (supply : Supply) (new f : Nat) :
    Prop where
  given : supply.ctx = some new ∧ supply.pgd = some f
  unused : new ≠ 0 ∧ new ∉ w.memctx ∧ f ∉ w.frames
  ctx : w'.ctx = update w.ctx new ⟨0, f, 1⟩
  memctx : w'.memctx = insert new w.memctx
  frames : w'.frames = insert f w.frames
  word : w'.word = copyFrame w.word (w.ctx orig).pgd f
  vma : ∀ n ∈ w.vmas, w'.vma n = w.vma n
  vmas : w.vmas ⊆ w'.vmas
  areas : ∀ n ∈ w'.vmas, n ∈ w.vmas ∨ some n ∈ supply.vmas
  words : (∀ x, w.iCount x < 2 ^ 32) → ∀ x, w'.iCount x < 2 ^ 32
  refs : ∀ x ≠ 0, w'.iCount x % 2 ^ 32 = (w.iCount x + areasOf w shape x) % 2 ^ 32

/-- What a call can end in: nothing happened; a failure among the areas, with the new page
directory kept; or a context without areas. -/
theorem memCtxClone_outcome {w : World} {ctx fuel : Nat} {shape : Shape} {supply : Supply}
    (areas : Areas w ctx shape) (enough : shape.height < fuel)
    (supplied : Supplied w supply shape.inorder.length) :
    ∃ w' r, memCtxClone fuel w ctx supply = some (w', r) ∧
      (supply.FailsFor shape.inorder.length ∧ r = 0 ∧
        ((supply.ctx = none ∨ supply.pgd = none) ∧ w' = w ∨
          ∃ f, supply.ctx ≠ none ∧ supply.pgd = some f ∧ f ∉ w.frames ∧ w'.frames = insert f w.frames) ∨
      ¬ supply.FailsFor shape.inorder.length ∧ ∃ f, Cloned w w' ctx shape supply r f) := by
  unfold memCtxClone
  cases ctxGiven : supply.ctx with
  | none => exact ⟨w, 0, rfl, .inl ⟨.inl ctxGiven, rfl, .inl ⟨.inl rfl, rfl⟩⟩⟩
  | some new =>
    obtain ⟨nonzero, unused⟩ := supplied.ctx new ctxGiven
    have other : ctx ≠ new := fun same => unused (same ▸ areas.here)
    simp only [objcacheAlloc_fresh nonzero unused, Option.bind_some, if_neg nonzero]
    cases pgdGiven : supply.pgd with
    | none =>
      refine ⟨w, 0, ?_, .inl ⟨.inr (.inl pgdGiven), rfl, .inl ⟨.inr rfl, rfl⟩⟩⟩
      simp [cloneArch, freeCtx, objcacheFree2, Finset.erase_insert unused]
    | some f =>
      have free := supplied.pgd f pgdGiven
      simp only [cloneArch, if_neg free, Option.bind_some, ne_eq, not_true, if_false,
        update_self, update_of_ne other]
      obtain ⟨u, used, rest, ok, ran, split, -, copies⟩ := doCloneVma_copies
        (w := { w with
          memctx := insert new w.memctx
          frames := insert f w.frames
          word := copyFrame w.word (w.ctx ctx).pgd f
          ctx := update (update w.ctx new { w.ctx new with pgd := f }) new
            { w.ctx new with pgd := f, rbNode := 0 } })
        fuel (.root new) areas.rep areas.live enough supplied.vmas supplied.long
      rw [ran]
      have ext := copies.older
      cases ok with
      | true =>
        obtain ⟨length, good, refs⟩ := copies.all rfl
        have succeeds : ¬ supply.FailsFor shape.inorder.length := by
          rintro (lost | lost | lost)
          · cases ctxGiven.symm.trans lost
          · cases pgdGiven.symm.trans lost
          · rw [split, ← length, List.take_left' rfl] at lost
            exact good lost
        refine ⟨_, new, rfl, .inr ⟨succeeds, f, ?_⟩⟩
        constructor
        case given => exact ⟨ctxGiven, pgdGiven⟩
        case unused => exact ⟨nonzero, unused, free⟩
        case ctx =>
          simp only [ext.ctx, update_self, update_idem]
        case memctx => exact ext.memctx
        case frames => exact ext.frames
        case word => exact copies.word
        case vma => exact ext.vma
        case vmas => exact ext.vmas
        case areas =>
          intro n member
          rcases copies.areas n member with old | given
          · exact .inl old
          · exact .inr (split ▸ List.mem_append_left _ given)
        case words => exact copies.words
        case refs => exact refs
      | false =>
        obtain ⟨lost, few⟩ := copies.some rfl
        have fails : supply.FailsFor shape.inorder.length := by
          refine .inr (.inr ?_)
          rw [split, List.take_append]
          exact List.mem_append_left _ (by rw [List.take_of_length_le few]; exact lost)
        have root : (u.ctx ctx).rbNode = (w.ctx ctx).rbNode := by
          rw [ext.ctx]
          simp only [update_of_ne other]
        have freed := doFreeVma_spec (w := u) fuel
          (rep_congr (fun n member => by rw [ext.vma n (areas.live n member)]) areas.rep)
          (fun n member => ext.vmas (areas.live n member)) areas.nodup enough
        have mine : new ∈ u.memctx := by
          rw [ext.memctx]
          exact Finset.mem_insert_self new w.memctx
        simp only [Option.bind_some, Bool.false_eq_true, if_false, root, freed, freeCtx,
          objcacheFree2, if_pos mine, Option.map_some]
        exact ⟨_, 0, rfl, .inl ⟨fails, rfl, .inr ⟨f, by simp, rfl, free, ext.frames⟩⟩⟩

end ScaraOS.Mm
