import Mathlib.Tactic.Common

/-! Red-black trees threaded through memory. A node has two child pointers and one
word that holds its parent's address and, in the low bit, its colour. `Shape` is the
tree of addresses a root pointer leads to. -/
namespace RbTree

structure RbNode where
  parentColor : Nat
  left : Nat
  right : Nat
  deriving DecidableEq, Repr

/-- `rb_parent_color & ~3` and `rb_parent_color & 1`. -/
def rbParent (n : RbNode) : Nat := n.parentColor / 4 * 4

def isBlack (n : RbNode) : Bool := n.parentColor % 2 = 1

inductive Shape where
  | leaf
  | node (a : Nat) (l r : Shape)
  deriving DecidableEq, Repr

def Shape.inorder : Shape → List Nat
  | .leaf => []
  | .node a l r => l.inorder ++ a :: r.inorder

def Shape.height : Shape → Nat
  | .leaf => 0
  | .node _ l r => max l.height r.height + 1

def Shape.under (c a : Nat) : Shape → Prop
  | .leaf => False
  | .node n l r => (n = c ∧ (a ∈ l.inorder ∨ a ∈ r.inorder)) ∨ l.under c a ∨ r.under c a

variable {s : Shape} {rb : Nat → RbNode}

theorem Shape.under_mem {c a : Nat} (below : s.under c a) : c ∈ s.inorder ∧ a ∈ s.inorder := by
  induction s with
  | leaf => exact below.elim
  | node n l r left right =>
    simp only [Shape.inorder, List.mem_append, List.mem_cons]
    rcases below with ⟨rfl, here⟩ | inL | inR
    · tauto
    · have := left inL
      tauto
    · have := right inR
      tauto

/-- The tree at this root pointer, under this parent, has this shape. -/
def Rep (rb : Nat → RbNode) : Nat → Nat → Shape → Prop
  | root, _, .leaf => root = 0
  | root, parent, .node a l r =>
    root = a ∧ a ≠ 0 ∧ rbParent (rb a) = parent ∧
      Rep rb (rb a).left a l ∧ Rep rb (rb a).right a r

def rootBlack (rb : Nat → RbNode) : Shape → Bool
  | .leaf => true
  | .node a _ _ => isBlack (rb a)

/-- The number of black nodes on every path down, if no red node has a red child. -/
def blackHeight (rb : Nat → RbNode) : Shape → Option Nat
  | .leaf => some 0
  | .node a l r =>
    match blackHeight rb l, blackHeight rb r with
    | some x, some y =>
      if x = y ∧ (isBlack (rb a) ∨ (rootBlack rb l ∧ rootBlack rb r)) then
        some (if isBlack (rb a) then x + 1 else x)
      else none
    | _, _ => none

def RedBlack (rb : Nat → RbNode) (s : Shape) : Prop :=
  rootBlack rb s = true ∧ (blackHeight rb s).isSome = true

theorem rep_congr {rb' : Nat → RbNode} {root parent : Nat} (same : ∀ n ∈ s.inorder, rb' n = rb n)
    (rep : Rep rb root parent s) : Rep rb' root parent s := by
  induction s generalizing root parent with
  | leaf => exact rep
  | node a l r left right =>
    obtain ⟨rfl, here, up, repL, repR⟩ := rep
    have mine : rb' root = rb root := same root (by simp [Shape.inorder])
    refine ⟨rfl, here, ?_, ?_, ?_⟩
    · rw [mine]
      exact up
    · rw [mine]
      exact left (fun n member => same n (by simp [Shape.inorder, member])) repL
    · rw [mine]
      exact right (fun n member => same n (by simp [Shape.inorder, member])) repR

theorem rep_zero {parent : Nat} (rep : Rep rb 0 parent s) : s = .leaf := by
  cases s with
  | leaf => rfl
  | node a l r => exact absurd rep.1.symm rep.2.1

theorem rep_unique {root parent : Nat} {t : Shape} (rep : Rep rb root parent s)
    (rep' : Rep rb root parent t) : s = t := by
  induction s generalizing root parent t with
  | leaf =>
    have zero : root = 0 := rep
    subst zero
    exact (rep_zero rep').symm
  | node a l r left right =>
    obtain ⟨rfl, here, -, repL, repR⟩ := rep
    cases t with
    | leaf => exact absurd rep' here
    | node b l' r' =>
      obtain ⟨rfl, -, -, repL', repR'⟩ := rep'
      rw [left repL repL', right repR repR']

end RbTree
