import ScaraOS.Lib.RbInsert

/-! Search by a key in a tree that is sorted by it. -/
namespace RbTree

variable {key : Nat → Nat} {k : Nat}

def keyDir (key : Nat → Nat) (k a : Nat) : Option Side :=
  if k < key a then some .left
  else if k > key a then some .right
  else none

variable {a : Nat} {key' : Nat → Nat} {l : List Nat} {p : Path} {shape : Shape}

theorem keyDir_left : keyDir key k a = some .left ↔ k < key a := by
  unfold keyDir
  split
  · simpa
  · split <;> simp <;> omega

theorem keyDir_right : keyDir key k a = some .right ↔ key a < k := by
  unfold keyDir
  split
  · simp
    omega
  · split <;> simp <;> omega

theorem keyDir_none : keyDir key k a = none ↔ key a = k := by
  unfold keyDir
  split
  · simp
    omega
  · split <;> simp <;> omega

def Sorted (key : Nat → Nat) (l : List Nat) : Prop := l.Pairwise fun a b => key a < key b

theorem sorted_congr (same : ∀ a ∈ l, key' a = key a) (sorted : Sorted key l) : Sorted key' l := by
  refine List.Pairwise.imp_of_mem ?_ sorted
  intro a b inA inB lt
  rw [same a inA, same b inB]
  exact lt

theorem sorted_inj (sorted : Sorted key l) {b : Nat} (inA : a ∈ l) (inB : b ∈ l)
    (same : key a = key b) : a = b := by
  induction l with
  | nil => cases inA
  | cons x rest ih =>
    obtain ⟨first, later⟩ := List.pairwise_cons.mp sorted
    rcases List.mem_cons.mp inA with rfl | laterA
    · rcases List.mem_cons.mp inB with rfl | laterB
      · rfl
      · exact absurd same (Nat.ne_of_lt (first b laterB))
    · rcases List.mem_cons.mp inB with rfl | laterB
      · exact absurd same (Nat.ne_of_gt (first a laterA))
      · exact ih later laterA laterB

namespace Path

theorem inorder_hole (place : plug .leaf p = shape) : shape.inorder = p.before ++ p.after := by
  rw [← place, inorder_plug]
  simp [Shape.inorder]

theorem perm_hole {shape' : Shape} {node : Nat} (place : plug .leaf p = shape)
    (order : shape'.inorder = p.before ++ node :: p.after) :
    shape'.inorder.Perm (node :: shape.inorder) := by
  rw [order, inorder_hole place]
  exact List.perm_middle

def Between (key : Nat → Nat) (k : Nat) (p : Path) : Prop :=
  (∀ a ∈ p.before, key a < k) ∧ ∀ a ∈ p.after, k < key a

theorem between_congr (same : ∀ a ∈ p.before ++ p.after, key' a = key a) (between : Between key k p) :
    Between key' k p := by
  constructor
  · intro a member
    rw [same a (List.mem_append_left _ member)]
    exact between.1 a member
  · intro a member
    rw [same a (List.mem_append_right _ member)]
    exact between.2 a member

theorem between_of_turns (place : plug .leaf p = shape) (sorted : Sorted key shape.inorder)
    (turns : ∀ f ∈ p, keyDir key k f.addr = some f.side) : Between key k p := by
  rw [inorder_hole place] at sorted
  obtain ⟨sortedBefore, sortedAfter, -⟩ := List.pairwise_append.mp sorted
  constructor
  · intro a member
    refine keyDir_right.mp (before_right ?_ turns sortedBefore a member)
    intro b c lt turned
    exact keyDir_right.mpr (Nat.lt_trans lt (keyDir_right.mp turned))
  · intro a member
    refine keyDir_left.mp (after_left ?_ turns sortedAfter a member)
    intro b c lt turned
    exact keyDir_left.mpr (Nat.lt_trans (keyDir_left.mp turned) lt)

theorem between_absent (place : plug .leaf p = shape) (between : Between key k p) :
    ∀ a ∈ shape.inorder, key a ≠ k := by
  intro a member
  rw [inorder_hole place] at member
  rcases List.mem_append.mp member with before | after
  · exact Nat.ne_of_lt (between.1 a before)
  · exact Nat.ne_of_gt (between.2 a after)

theorem between_sorted {n : Nat} (place : plug .leaf p = shape) (sorted : Sorted key shape.inorder)
    (between : Between key (key n) p) : Sorted key (p.before ++ n :: p.after) := by
  rw [inorder_hole place] at sorted
  obtain ⟨sortedBefore, sortedAfter, apart⟩ := List.pairwise_append.mp sorted
  refine List.pairwise_append.mpr ⟨sortedBefore, List.pairwise_cons.mpr ⟨between.2, sortedAfter⟩, ?_⟩
  intro a inBefore b inAfter
  rcases List.mem_cons.mp inAfter with rfl | later
  · exact between.1 a inBefore
  · exact apart a inBefore b later

end Path

end RbTree
