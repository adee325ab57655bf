import ScaraOS.Lib.RbErase
import ScaraOS.Lib.RbSearch

/-! Several red-black trees in one memory, each with its own root and its own nodes. An
operation on one of them leaves the others. -/
namespace RbTree

open Function
open Path (plug)

variable {κ : Type*} [DecidableEq κ]

structure Forest (rb : Nat → RbNode) (root : κ → Nat) (tree : κ → Shape) : Prop where
  rep : ∀ k, Rep rb (root k) 0 (tree k)
  redBlack : ∀ k, RedBlack rb (tree k)
  distinct : ∀ k, (tree k).inorder.Nodup
  aligned : ∀ k, ∀ a ∈ (tree k).inorder, a % 4 = 0
  apart : ∀ k k' a, a ∈ (tree k).inorder → a ∈ (tree k').inorder → k = k'

theorem redBlack_congr {rb rb' : Nat → RbNode} {s : Shape} (same : ∀ n ∈ s.inorder, rb' n = rb n)
    (redBlack : RedBlack rb s) : RedBlack rb' s := by
  have colours : ∀ n ∈ s.inorder, isBlack (rb' n) = isBlack (rb n) := fun n member => by
    rw [same n member]
  exact ⟨(rootBlack_congr colours).trans redBlack.1,
    (congrArg Option.isSome (blackHeight_congr colours)).trans redBlack.2⟩

theorem Path.inorder_erase {a : Nat} {l r : Shape} {p : Path}
    (distinct : (plug (.node a l r) p).inorder.Nodup) :
    p.before ++ (l.inorder ++ r.inorder) ++ p.after =
      (plug (.node a l r) p).inorder.erase a := by
  rw [Path.inorder_plug] at distinct ⊢
  simp only [Shape.inorder, List.append_assoc, List.cons_append] at distinct ⊢
  have outB : a ∉ p.before := fun inB =>
    (List.nodup_append.mp distinct).2.2 a inB a (by simp) rfl
  have outL : a ∉ l.inorder := fun inL =>
    (List.nodup_append.mp (List.nodup_append.mp distinct).2.1).2.2 a inL a (by simp) rfl
  rw [List.erase_append_right _ outB, List.erase_append_right _ outL, List.erase_cons_head]

namespace Forest

variable {rb : Nat → RbNode} {root : κ → Nat} {tree : κ → Shape} {k : κ}

omit [DecidableEq κ] in
theorem congr {rb' : Nat → RbNode} (forest : Forest rb root tree)
    (same : ∀ k, ∀ n ∈ (tree k).inorder, rb' n = rb n) : Forest rb' root tree where
  __ := forest
  rep := fun k => rep_congr (same k) (forest.rep k)
  redBlack := fun k => redBlack_congr (same k) (forest.redBlack k)

section

variable (forest : Forest rb root tree)
include forest

omit [DecidableEq κ] in
theorem shaped (k : κ) : Tree.Shaped ⟨rb, root k⟩ (tree k) :=
  ⟨forest.rep k, forest.distinct k, forest.aligned k⟩

theorem change {t : Tree} {shape : Shape} (shaped : t.Shaped shape)
    (redBlack : RedBlack t.rb shape)
    (own : ∀ a ∈ shape.inorder, ∀ k', k' ≠ k → a ∉ (tree k').inorder)
    (frame : ∀ k', k' ≠ k → ∀ n ∈ (tree k').inorder, t.rb n = rb n) :
    Forest t.rb (update root k t.root) (update tree k shape) := by
  constructor
  case rep =>
    intro k'
    by_cases same : k' = k
    · subst same
      simpa using shaped.rep
    · rw [update_of_ne same, update_of_ne same]
      exact rep_congr (frame k' same) (forest.rep k')
  case redBlack =>
    intro k'
    by_cases same : k' = k
    · subst same
      simpa using redBlack
    · rw [update_of_ne same]
      exact redBlack_congr (frame k' same) (forest.redBlack k')
  case distinct =>
    intro k'
    by_cases same : k' = k
    · subst same
      simpa using shaped.distinct
    · rw [update_of_ne same]
      exact forest.distinct k'
  case aligned =>
    intro k'
    by_cases same : k' = k
    · subst same
      simpa using shaped.aligned
    · rw [update_of_ne same]
      exact forest.aligned k'
  case apart =>
    intro k₁ k₂ a one two
    by_cases same : k₁ = k
    · subst same
      by_cases same' : k₂ = k₁
      · exact same'.symm
      · rw [update_self] at one
        rw [update_of_ne same'] at two
        exact absurd two (own a one k₂ same')
    · rw [update_of_ne same] at one
      by_cases same' : k₂ = k
      · subst same'
        rw [update_self] at two
        exact absurd one (own a two k₁ same)
      · rw [update_of_ne same'] at two
        exact forest.apart k₁ k₂ a one two

theorem insert {p : Path} {node fuel : Nat} (place : plug .leaf p = tree k)
    (nonzero : node ≠ 0) (aligned : node % 4 = 0) (fresh : ∀ k', node ∉ (tree k').inorder)
    (enough : (tree k).inorder.length < fuel) :
    ∃ t shape, Tree.insertColor fuel (Tree.linkNode ⟨rb, root k⟩ node p.slot) node = some t ∧
      shape.inorder = p.before ++ node :: p.after ∧
      (∀ n, n ≠ node → n ∉ (tree k).inorder → t.rb n = rb n) ∧
      Forest t.rb (update root k t.root) (update tree k shape) := by
  have short : p.length < fuel := by
    refine Nat.lt_of_le_of_lt (Path.length_le .leaf p) ?_
    rw [place]
    exact enough
  obtain ⟨t, shape, ran, shaped, order, redBlack, frame⟩ := Tree.insert_node (p := p)
    (place ▸ forest.shaped k) (place ▸ forest.redBlack k) nonzero aligned (place ▸ fresh k) short
  rw [place] at frame
  have perm := Path.perm_hole place order
  refine ⟨t, shape, ran, order, frame, forest.change shaped redBlack ?_ ?_⟩
  · intro a member k' other inside
    rcases List.mem_cons.mp (perm.mem_iff.mp member) with rfl | old
    · exact fresh k' inside
    · exact other (forest.apart k' k a inside old)
  · intro k' other n inside
    refine frame n ?_ fun mine => other (forest.apart k' k n inside mine)
    rintro rfl
    exact fresh k' inside

theorem erase {node fuel : Nat} (member : node ∈ (tree k).inorder)
    (enough : (tree k).inorder.length < fuel) :
    ∃ t shape, Tree.erase fuel ⟨rb, root k⟩ node = some t ∧
      shape.inorder = (tree k).inorder.erase node ∧
      (∀ n, n ∉ (tree k).inorder → t.rb n = rb n) ∧
      Forest t.rb (update root k t.root) (update tree k shape) := by
  obtain ⟨l, r, p, place⟩ := Path.exists_plug member
  have shaped := forest.shaped k
  have redBlack := forest.redBlack k
  rw [← place] at shaped redBlack enough
  obtain ⟨t, shape, ran, erased⟩ := Tree.erase_node shaped redBlack enough
  have order := erased.order.trans (Path.inorder_erase shaped.distinct)
  have frame := erased.frame
  rw [place] at order frame
  have fewer : ∀ a ∈ shape.inorder, a ∈ (tree k).inorder := by
    rw [order]
    exact fun a inside => List.mem_of_mem_erase inside
  refine ⟨t, shape, ran, order, frame, forest.change erased.tree erased.redBlack ?_ ?_⟩
  · intro a inside k' other there
    exact other (forest.apart k' k a there (fewer a inside))
  · intro k' other n inside
    exact frame n fun mine => other (forest.apart k' k n inside mine)

end

omit [DecidableEq κ] in
theorem search (forest : Forest rb root tree) {key : Nat → Nat} {fuel : Nat} (x : Nat)
    (sorted : Sorted key (tree k).inorder) (enough : (tree k).inorder.length < fuel) :
    (∃ a ∈ (tree k).inorder, key a = x ∧
      Tree.descend (keyDir key x) ⟨rb, root k⟩ fuel .root = some (.node a)) ∨
    ∃ p : Path, plug .leaf p = tree k ∧ p.Between key x ∧
      Tree.descend (keyDir key x) ⟨rb, root k⟩ fuel .root = some (.slot p.slot) := by
  have low : (tree k).height < fuel := Nat.lt_of_le_of_lt (height_le _) enough
  rcases Tree.descend_total (keyDir key x) (t := ⟨rb, root k⟩) (p := []) (forest.rep k) low (by simp)
    with ⟨a, member, stops, found⟩ | ⟨p, place, turns, found⟩
  · exact .inl ⟨a, member, keyDir_none.mp stops, found⟩
  · exact .inr ⟨p, place, Path.between_of_turns place sorted turns, found⟩

end Forest

end RbTree
