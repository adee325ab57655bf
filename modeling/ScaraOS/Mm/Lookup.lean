import ScaraOS.Exec.Memory

/-! `lookup_vma` against the intervals. Its descent takes an area to reach to its end
inclusive, so at an address where one area ends and the next begins the answer depends
on which of the two stands higher in the tree. -/
namespace ScaraOS.Mm

open RbTree Exec

def Holds (v : Vma) (va : Nat) : Prop := v.vmaBegin ≤ va ∧ va < v.vmaEnd

instance (v : Vma) (va : Nat) : Decidable (Holds v va) := inferInstanceAs (Decidable (_ ∧ _))

structure DisjointAreas (vma : Nat → Vma) (shape : Shape) : Prop where
  nodup : shape.inorder.Nodup
  forward : ∀ n ∈ shape.inorder, (vma n).vmaBegin ≤ (vma n).vmaEnd
  order : shape.inorder.Pairwise fun a b => (vma a).vmaEnd ≤ (vma b).vmaBegin

def Agrees (vma : Nat → Vma) (shape : Shape) (va n : Nat) : Prop :=
  (n ∈ shape.inorder ∧ Holds (vma n) va) ∨ (n = 0 ∧ ∀ m ∈ shape.inorder, ¬ Holds (vma m) va)

section
variable {vma : Nat → Vma} {a : Nat} {l r : Shape}

theorem DisjointAreas.node (tree : DisjointAreas vma (.node a l r)) :
    DisjointAreas vma l ∧ DisjointAreas vma r ∧ (vma a).vmaBegin ≤ (vma a).vmaEnd ∧
      a ∉ l.inorder ∧ a ∉ r.inorder ∧
      (∀ n ∈ l.inorder, (vma n).vmaBegin ≤ (vma n).vmaEnd ∧ (vma n).vmaEnd ≤ (vma a).vmaBegin) ∧
      ∀ n ∈ r.inorder, (vma n).vmaBegin ≤ (vma n).vmaEnd ∧ (vma a).vmaEnd ≤ (vma n).vmaBegin := by
  obtain ⟨nodup, forward, order⟩ := tree
  simp only [Shape.inorder] at nodup forward order
  have inL : ∀ n ∈ l.inorder, n ∈ l.inorder ++ a :: r.inorder :=
    fun n member => List.mem_append_left _ member
  have inR : ∀ n ∈ r.inorder, n ∈ l.inorder ++ a :: r.inorder :=
    fun n member => List.mem_append_right _ (List.mem_cons_of_mem a member)
  obtain ⟨orderL, orderA, across⟩ := List.pairwise_append.mp order
  obtain ⟨first, orderR⟩ := List.pairwise_cons.mp orderA
  obtain ⟨apart, rest⟩ := List.nodup_cons.mp (List.nodup_middle.mp nodup)
  rw [List.mem_append, not_or] at apart
  refine ⟨⟨(List.nodup_append.mp rest).1, fun n member => forward n (inL n member), orderL⟩,
    ⟨(List.nodup_append.mp rest).2.1, fun n member => forward n (inR n member), orderR⟩,
    forward a (by simp), apart.1, apart.2, ?_, ?_⟩
  · exact fun n member => ⟨forward n (inL n member), across n member a List.mem_cons_self⟩
  · exact fun n member => ⟨forward n (inR n member), first n member⟩

theorem covering_meets {va n : Nat} {shape : Shape} (tree : DisjointAreas vma shape)
    (member : n ∈ shape.inorder) (starts : (vma n).vmaBegin ≤ va) (ends : va ≤ (vma n).vmaEnd) :
    covering vma va shape ≠ none := by
  induction shape with
  | leaf => cases member
  | node a l r left right =>
    obtain ⟨treeL, treeR, forward, -, -, boundL, boundR⟩ := tree.node
    simp only [Shape.inorder, List.mem_append, List.mem_cons] at member
    unfold covering
    split
    · refine left treeL ?_
      rcases member with inL | rfl | inR
      · exact inL
      · omega
      · have := boundR n inR
        omega
    · split
      · refine right treeR ?_
        rcases member with inL | rfl | inR
        · have := boundL n inL
          omega
        · omega
        · exact inR
      · exact Option.some_ne_none a

theorem covering_above {va n m : Nat} {shape : Shape} (tree : DisjointAreas vma shape)
    (found : covering vma va shape = some n) (member : m ∈ shape.inorder)
    (ends : (vma m).vmaEnd = va) (other : m ≠ n) : shape.under n m := by
  induction shape with
  | leaf => cases member
  | node a l r left right =>
    obtain ⟨treeL, treeR, forward, -, -, boundL, boundR⟩ := tree.node
    simp only [Shape.inorder, List.mem_append, List.mem_cons] at member
    unfold covering at found
    split at found
    · refine .inr (.inl (left treeL found ?_))
      rcases member with inL | rfl | inR
      · exact inL
      · omega
      · have := boundR m inR
        omega
    · split at found
      · refine .inr (.inr (right treeR found ?_))
        rcases member with inL | rfl | inR
        · have := boundL m inL
          omega
        · omega
        · exact inR
      · cases found
        refine .inl ⟨rfl, ?_⟩
        rcases member with inL | rfl | inR
        · exact .inl inL
        · exact absurd rfl other
        · exact .inr inR

theorem covering_first {va n c : Nat} {shape : Shape} (tree : DisjointAreas vma shape)
    (found : covering vma va shape = some n) (holds : Holds (vma c) va) : ¬ shape.under c n := by
  induction shape with
  | leaf => exact id
  | node a l r left right =>
    obtain ⟨treeL, treeR, forward, outL, outR, boundL, boundR⟩ := tree.node
    obtain ⟨-, starts, ends⟩ := covering_reaches found
    obtain ⟨holdsLow, holdsHigh⟩ := holds
    unfold covering at found
    rintro (⟨rfl, inside⟩ | inL | inR)
    · split at found
      · omega
      · split at found
        · omega
        · cases found
          exact inside.elim outL outR
    · have inLeft := (Shape.under_mem inL).2
      have := boundL n inLeft
      split at found
      · exact left treeL found inL
      · split at found
        · omega
        · cases found
          exact outL inLeft
    · have inRight := (Shape.under_mem inR).2
      have := boundR n inRight
      split at found
      · omega
      · split at found
        · exact right treeR found inR
        · cases found
          exact outR inRight

end

/-- `lookup_vma` returns, and gives the answer of the intervals exactly when every area
that ends at the address lies in the tree under the one that holds the address. -/
theorem lookup_agrees_iff (vma : Nat → Vma) (root va fuel : Nat) (shape : Shape)
    (rep : Rep (fun n => (vma n).rbt) root 0 shape) (tree : DisjointAreas vma shape)
    (enough : shape.height < fuel) :
    ∃ n, lookupVma vma va fuel root = some n ∧
      (Agrees vma shape va n ↔ ∀ m ∈ shape.inorder, (vma m).vmaEnd = va →
        ∃ c, Holds (vma c) va ∧ shape.under c m) := by
  obtain ⟨lookup, nonzero⟩ := lookupVma_covering va rep enough
  refine ⟨_, lookup, ?_⟩
  cases found : covering vma va shape with
  | none =>
    -- no area reaches to the address, so none holds it and none ends there
    have away : ∀ m ∈ shape.inorder, ¬ ((vma m).vmaBegin ≤ va ∧ va ≤ (vma m).vmaEnd) :=
      fun m member reach => covering_meets tree member reach.1 reach.2 found
    constructor
    · intro _ m member ends
      have forward := tree.forward m member
      exact absurd ⟨by omega, by omega⟩ (away m member)
    · intro _
      refine .inr ⟨rfl, fun m member holds => ?_⟩
      exact away m member ⟨holds.1, Nat.le_of_lt holds.2⟩
  | some n =>
    rw [found] at nonzero
    obtain ⟨member, starts, ends⟩ := covering_reaches found
    constructor
    · rintro (⟨-, holds⟩ | ⟨zero, -⟩)
      · intro m inside atEnd
        refine ⟨n, holds, covering_above tree found inside atEnd ?_⟩
        rintro rfl
        exact absurd atEnd (Nat.ne_of_gt holds.2)
      · exact absurd (congrArg some zero) nonzero
    · intro good
      refine .inl ⟨member, starts, ?_⟩
      by_contra past
      obtain ⟨c, holds, below⟩ := good n member (Nat.le_antisymm (Nat.le_of_not_lt past) ends)
      exact covering_first tree found holds below

def adjacent (first second : RbNode) : Nat → Vma := fun n =>
  if n = 16 then ⟨first, 0x1000, 0x2000, 1, 0, 0⟩ else ⟨second, 0x2000, 0x3000, 1, 0, 0⟩

theorem adjacent_disjoint (first second : RbNode) {shape : Shape}
    (order : shape.inorder = [16, 32]) : DisjointAreas (adjacent first second) shape := by
  constructor
  · rw [order]
    decide
  · rw [order]
    simp [adjacent]
  · rw [order]
    simp [adjacent]

/-- With the second of them on top, the address between them is found right. -/
theorem lookup_agrees_iff_top : ∃ n,
    lookupVma (adjacent ⟨32, 0, 0⟩ ⟨1, 16, 0⟩) 0x2000 3 32 = some n ∧
      Agrees (adjacent ⟨32, 0, 0⟩ ⟨1, 16, 0⟩) (.node 32 (.node 16 .leaf .leaf) .leaf) 0x2000 n := by
  obtain ⟨n, lookup, right⟩ := lookup_agrees_iff (adjacent ⟨32, 0, 0⟩ ⟨1, 16, 0⟩) 32 0x2000 3
    (.node 32 (.node 16 .leaf .leaf) .leaf)
    ⟨rfl, by decide, rfl, ⟨rfl, by decide, rfl, rfl, rfl⟩, rfl⟩
    (adjacent_disjoint _ _ rfl) (by decide)
  refine ⟨n, lookup, right.mpr fun m member ends => ⟨32, by decide, .inl ⟨rfl, ?_⟩⟩⟩
  rcases List.mem_cons.mp member with rfl | last
  · exact .inl List.mem_cons_self
  · rw [List.mem_singleton.mp last] at ends
    exact absurd ends (by decide)

/-- With the first on top, that address is taken to be in the first. -/
theorem lookup_takes_end :
    RedBlack (fun n => (adjacent ⟨1, 0, 32⟩ ⟨16, 0, 0⟩ n).rbt)
      (.node 16 .leaf (.node 32 .leaf .leaf)) ∧
    DisjointAreas (adjacent ⟨1, 0, 32⟩ ⟨16, 0, 0⟩) (.node 16 .leaf (.node 32 .leaf .leaf)) ∧
    lookupVma (adjacent ⟨1, 0, 32⟩ ⟨16, 0, 0⟩) 0x2000 3 16 = some 16 ∧
    Holds (adjacent ⟨1, 0, 32⟩ ⟨16, 0, 0⟩ 32) 0x2000 ∧
    ¬ Agrees (adjacent ⟨1, 0, 32⟩ ⟨16, 0, 0⟩) (.node 16 .leaf (.node 32 .leaf .leaf)) 0x2000 16 := by
  refine ⟨⟨by decide, by decide⟩, adjacent_disjoint _ _ rfl, by decide, by decide, ?_⟩
  rintro (⟨-, holds⟩ | ⟨zero, -⟩)
  · exact absurd holds (by decide)
  · exact absurd zero (by decide)

end ScaraOS.Mm
