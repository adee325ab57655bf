import ScaraOS.Lib.RbForest

/-! `kernel/rbtree.c` as its users see it: what `rb_link_node` with `rb_insert_color` and
what `rb_erase` do to a tree that is in order. -/
namespace ScaraOS.Rbtree

open RbTree

/-- A red-black tree of this shape: the links and the parents agree, the nodes are
different and where the two low bits of a pointer are free, and the colours are right. -/
structure Valid (t : Tree) (shape : Shape) : Prop extends t.Shaped shape where
  redBlack : RedBlack t.rb shape

def EmptyPlace (t : Tree) (shape : Shape) : Slot → Prop
  | .root => shape = .leaf
  | .child a side => a ∈ shape.inorder ∧ (t.rb a).child side = 0

theorem emptyPlace_path {t : Tree} {shape : Shape} {slot : Slot} (valid : Valid t shape)
    (empty : EmptyPlace t shape slot) : ∃ p : Path, Path.plug .leaf p = shape ∧ p.slot = slot := by
  cases slot with
  | root => exact ⟨[], Eq.symm empty, rfl⟩
  | child a side =>
    obtain ⟨member, zero⟩ := empty
    obtain ⟨l, r, p, rfl⟩ := Path.exists_plug member
    obtain ⟨x, y, same⟩ := Shape.exists_join side a l r
    rw [same] at valid ⊢
    obtain ⟨-, here⟩ := Path.hole_of_rep valid.rep
    obtain ⟨-, -, -, repX, -⟩ := rep_join.mp here
    rw [zero] at repX
    obtain rfl := rep_zero repX
    exact ⟨⟨side, a, y⟩ :: p, rfl, rfl⟩

/-- A node linked in at any empty place: `rb_insert_color` ends, and leaves a valid tree
with the nodes in the order they have after the link. -/
theorem insert_color_valid (t : Tree) (shape : Shape) (slot : Slot) (node fuel : Nat)
    (valid : Valid t shape) (empty : EmptyPlace t shape slot) (nonzero : node ≠ 0)
    (aligned : node % 4 = 0) (fresh : node ∉ shape.inorder) (enough : shape.inorder.length < fuel) :
    ∃ linked before after, shape.inorder = before ++ after ∧
      RbTree.Rep (t.linkNode node slot).rb (t.linkNode node slot).root 0 linked ∧
      linked.inorder = before ++ node :: after ∧
      ∃ t' shape', (t.linkNode node slot).insertColor fuel node = some t' ∧ Valid t' shape' ∧
        shape'.inorder = linked.inorder := by
  obtain ⟨p, rfl, rfl⟩ := emptyPlace_path valid empty
  obtain ⟨fixing, -⟩ := Tree.fixing_link valid.toShaped valid.redBlack nonzero aligned fresh
  have short : p.length < fuel := Nat.lt_of_le_of_lt (Path.length_le .leaf p) enough
  obtain ⟨t', shape', ran, repaired⟩ := Tree.insertColor_repairs short fixing
  refine ⟨Path.plug (.node node .leaf .leaf) p, p.before, p.after, ?_, fixing.rep, ?_, t', shape', ran,
    ⟨repaired.tree, repaired.redBlack⟩, repaired.order⟩
  · rw [Path.inorder_plug]
    simp [Shape.inorder]
  · rw [Path.inorder_plug]
    simp [Shape.inorder]

def three : Tree where
  rb := fun n => if n = 8 then ⟨1, 4, 12⟩ else ⟨8, 0, 0⟩
  root := 8

theorem three_valid : Valid three (.node 8 (.node 4 .leaf .leaf) (.node 12 .leaf .leaf)) where
  rep := by simp [three, RbTree.Rep, rbParent]
  distinct := by decide
  aligned := by decide
  redBlack := ⟨by decide, by decide⟩

theorem insert_color_valid_three : ∃ t' shape',
    (three.linkNode 16 (.child 12 .right)).insertColor 4 16 = some t' ∧ Valid t' shape' ∧
      shape'.inorder = [4, 8, 12, 16] := by
  obtain ⟨linked, before, after, -, rep, -, t', shape', ran, valid, order⟩ :=
    insert_color_valid three (.node 8 (.node 4 .leaf .leaf) (.node 12 .leaf .leaf))
      (.child 12 .right) 16 4 three_valid ⟨by decide, by decide⟩ (by decide) (by decide) (by decide)
      (by decide)
  have shape : RbTree.Rep (three.linkNode 16 (.child 12 .right)).rb
      (three.linkNode 16 (.child 12 .right)).root 0
      (.node 8 (.node 4 .leaf .leaf) (.node 12 .leaf (.node 16 .leaf .leaf))) := by
    simp [three, RbTree.Rep, rbParent, Tree.linkNode, Tree.write, Tree.set, Slot.parent, RbNode.setChild]
  rw [rep_unique rep shape] at order
  exact ⟨t', shape', ran, valid, order⟩

/-- `rb_erase` ends, follows no null pointer, and leaves a valid tree with the other nodes in
their order. -/
theorem erase_valid (t : Tree) (shape : Shape) (node fuel : Nat) (valid : Valid t shape)
    (member : node ∈ shape.inorder) (enough : shape.inorder.length < fuel) :
    ∃ t' shape', t.erase fuel node = some t' ∧ Valid t' shape' ∧
      shape'.inorder = shape.inorder.erase node ∧
      ∀ n ∉ shape.inorder, t'.rb n = t.rb n := by
  obtain ⟨l, r, p, rfl⟩ := Path.exists_plug member
  obtain ⟨t', shape', ran, erased⟩ := Tree.erase_node valid.toShaped valid.redBlack enough
  have order : shape'.inorder = (Path.plug (.node node l r) p).inorder.erase node :=
    erased.order.trans (Path.inorder_erase valid.distinct)
  exact ⟨t', shape', ran, ⟨erased.tree, erased.redBlack⟩, order, erased.frame⟩

theorem erase_valid_top : ∃ t' shape', three.erase 4 8 = some t' ∧ Valid t' shape' ∧
    shape'.inorder = [4, 12] := by
  obtain ⟨t', shape', ran, valid, order, -⟩ :=
    erase_valid three (.node 8 (.node 4 .leaf .leaf) (.node 12 .leaf .leaf)) 8 4 three_valid
      (by decide) (by decide)
  exact ⟨t', shape', ran, valid, order⟩

end ScaraOS.Rbtree
