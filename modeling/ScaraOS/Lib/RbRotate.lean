import Mathlib.Data.List.Nodup
import Mathlib.Data.List.Perm.Basic
import Mathlib.Logic.Function.Basic
import ScaraOS.Lib.Bits
import ScaraOS.Lib.RbTree

/-! Rotations of a tree threaded through memory, as pointer assignments, and what they
do to its shape. A `Path` leads from a place in the tree up to its root, so that a
rotation deep in the tree is stated where it happens. -/

namespace RbTree

inductive Side where
  | left | right
  deriving DecidableEq, Repr

def Side.other : Side → Side
  | .left => .right
  | .right => .left

@[simp] theorem Side.other_other (s : Side) : s.other.other = s := by cases s <;> rfl
theorem Side.eq_or_other (s u : Side) : u = s ∨ u = s.other := by
  cases s <;> cases u <;> decide

namespace RbNode

def child (n : RbNode) : Side → Nat
  | .left => n.left
  | .right => n.right

def setChild (n : RbNode) : Side → Nat → RbNode
  | .left, c => { n with left := c }
  | .right, c => { n with right := c }

@[simp] theorem child_setChild (n : RbNode) (s : Side) (c : Nat) : (n.setChild s c).child s = c := by
  cases s <;> rfl

@[simp] theorem child_setChild_other (n : RbNode) (s : Side) (c : Nat) :
    (n.setChild s c).child s.other = n.child s.other := by
  cases s <;> rfl

@[simp] theorem child_other_setChild (n : RbNode) (s : Side) (c : Nat) :
    (n.setChild s.other c).child s = n.child s := by
  cases s <;> rfl

@[simp] theorem rbParent_setChild (n : RbNode) (s : Side) (c : Nat) :
    rbParent (n.setChild s c) = rbParent n := by
  cases s <;> rfl

@[simp] theorem isBlack_setChild (n : RbNode) (s : Side) (c : Nat) :
    isBlack (n.setChild s c) = isBlack n := by
  cases s <;> rfl

end RbNode

/-- `(rb_parent_color & 3) | p`. -/
def rbSetParent (n : RbNode) (p : Nat) : RbNode :=
  { n with parentColor := n.parentColor % 4 ||| p }

/-- `rb_parent_color |= 1` and `rb_parent_color &= ~1`. -/
def rbSetBlack (n : RbNode) : RbNode := { n with parentColor := n.parentColor / 2 * 2 + 1 }
def rbSetRed (n : RbNode) : RbNode := { n with parentColor := n.parentColor / 2 * 2 }

theorem rbSetParent_word (n : RbNode) {p : Nat} (aligned : p % 4 = 0) :
    (rbSetParent n p).parentColor = p + n.parentColor % 4 := by
  have shifted : p = (p / 4) <<< 2 := by
    rw [Nat.shiftLeft_eq]
    omega
  have low : n.parentColor % 4 < 2 ^ 2 := Nat.mod_lt _ (by decide)
  have word := Bits.or_low low (p / 4)
  rw [← shifted] at word
  simp only [rbSetParent, Nat.or_comm _ p, word]
  omega

@[simp] theorem child_rbSetParent (n : RbNode) (p : Nat) (s : Side) :
    (rbSetParent n p).child s = n.child s := by
  cases s <;> rfl

@[simp] theorem child_rbSetBlack (n : RbNode) (s : Side) : (rbSetBlack n).child s = n.child s := by
  cases s <;> rfl

@[simp] theorem child_rbSetRed (n : RbNode) (s : Side) : (rbSetRed n).child s = n.child s := by
  cases s <;> rfl

theorem rbParent_rbSetParent (n : RbNode) {p : Nat} (aligned : p % 4 = 0) :
    rbParent (rbSetParent n p) = p := by
  simp only [rbParent, rbSetParent_word n aligned]
  omega

theorem isBlack_rbSetParent (n : RbNode) {p : Nat} (aligned : p % 4 = 0) :
    isBlack (rbSetParent n p) = isBlack n := by
  have low : (p + n.parentColor % 4) % 2 = n.parentColor % 2 := by omega
  simp only [isBlack, rbSetParent_word n aligned, low]

@[simp] theorem rbParent_rbSetBlack (n : RbNode) : rbParent (rbSetBlack n) = rbParent n := by
  simp only [rbParent, rbSetBlack]
  omega

@[simp] theorem rbParent_rbSetRed (n : RbNode) : rbParent (rbSetRed n) = rbParent n := by
  simp only [rbParent, rbSetRed]
  omega

@[simp] theorem isBlack_rbSetBlack (n : RbNode) : isBlack (rbSetBlack n) = true := by
  simp [isBlack, rbSetBlack]

@[simp] theorem isBlack_rbSetRed (n : RbNode) : isBlack (rbSetRed n) = false := by
  simp [isBlack, rbSetRed]

theorem rbSetBlack_of_isBlack {n : RbNode} (black : isBlack n = true) : rbSetBlack n = n := by
  have odd : n.parentColor % 2 = 1 := by simpa [isBlack] using black
  have word : n.parentColor / 2 * 2 + 1 = n.parentColor := by omega
  simp [rbSetBlack, word]

structure Tree where
  rb : Nat → RbNode
  root : Nat

/-- The tree has this shape, with each node in one place and where the two low bits of a
pointer are free. -/
structure Tree.Shaped (t : Tree) (s : Shape) : Prop where
  rep : Rep t.rb t.root 0 s
  distinct : s.inorder.Nodup
  aligned : ∀ n ∈ s.inorder, n % 4 = 0

variable {n a ptr par new root parent : Nat} {s : Side} {x y t : Shape} {rb rb' : Nat → RbNode}

namespace Tree

theorem Shaped.reorder {t t' : Tree} (tree : t.Shaped x) (rep : Rep t'.rb t'.root 0 y)
    (order : y.inorder = x.inorder) : t'.Shaped y :=
  ⟨rep, order ▸ tree.distinct, order ▸ tree.aligned⟩

def set (t : Tree) (a : Nat) (f : RbNode → RbNode) : Tree :=
  { t with rb := Function.update t.rb a (f (t.rb a)) }

@[simp] theorem set_same (t : Tree) (a : Nat) (f : RbNode → RbNode) :
    (t.set a f).rb a = f (t.rb a) := by
  simp [set]

theorem set_ne (t : Tree) (f : RbNode → RbNode) (ne : n ≠ a) : (t.set a f).rb n = t.rb n := by
  simp [set, ne]

/-- `__rb_rotate`; no result is a dereference of `NULL`. -/
def rotate (t : Tree) (node : Nat) (side : Side) : Option Tree :=
  let other := (t.rb node).child side.other
  let parent := rbParent (t.rb node)
  if other = 0 then none
  else
    let inner := (t.rb other).child side
    let t := t.set node (·.setChild side.other inner)
    let t := if inner = 0 then t else t.set inner (rbSetParent · node)
    let t := t.set other (·.setChild side node)
    let t := t.set other (rbSetParent · parent)
    let t :=
      if parent = 0 then { t with root := other }
      else if node = (t.rb parent).child side then t.set parent (·.setChild side other)
      else t.set parent (·.setChild side.other other)
    some (t.set node (rbSetParent · other))

end Tree

namespace Shape

def join (s : Side) (a : Nat) (x y : Shape) : Shape :=
  match s with
  | .left => .node a x y
  | .right => .node a y x

theorem join_other (s : Side) (a : Nat) (x y : Shape) : join s.other a x y = join s a y x := by
  cases s <;> rfl

theorem exists_join (s : Side) (a : Nat) (l r : Shape) : ∃ x y, Shape.node a l r = join s a x y := by
  cases s with
  | left => exact ⟨l, r, rfl⟩
  | right => exact ⟨r, l, rfl⟩

@[simp] theorem mem_inorder_join :
    n ∈ (join s a x y).inorder ↔ n = a ∨ n ∈ x.inorder ∨ n ∈ y.inorder := by
  cases s
  · simp only [join, inorder, List.mem_append, List.mem_cons]
    tauto
  · simp only [join, inorder, List.mem_append, List.mem_cons]
    tauto

theorem inorder_join_perm (s : Side) (a : Nat) (x y : Shape) :
    (join s a x y).inorder.Perm (x.inorder ++ a :: y.inorder) := by
  cases s with
  | left => exact List.Perm.refl _
  | right =>
    have swapped : (y.inorder ++ a :: x.inorder).Perm (a :: x.inorder ++ y.inorder) :=
      List.perm_append_comm
    exact swapped.trans List.perm_middle.symm

theorem nodup_join :
    (join s a x y).inorder.Nodup ↔ x.inorder.Nodup ∧ y.inorder.Nodup ∧ a ∉ x.inorder ∧
      a ∉ y.inorder ∧ ∀ n ∈ x.inorder, n ∉ y.inorder := by
  rw [(inorder_join_perm s a x y).nodup_iff, List.nodup_middle, List.nodup_cons, List.nodup_append',
    List.mem_append, List.disjoint_left]
  tauto

theorem inorder_rotate (s : Side) (a b : Nat) (x y z : Shape) :
    (join s b (join s a x y) z).inorder = (join s a x (join s b y z)).inorder := by
  cases s <;> simp [join, inorder]

end Shape

open Shape (join)

theorem rep_join :
    Rep rb root parent (join s a x y) ↔ root = a ∧ a ≠ 0 ∧ rbParent (rb a) = parent ∧
      Rep rb ((rb a).child s) a x ∧ Rep rb ((rb a).child s.other) a y := by
  cases s with
  | left => exact Iff.rfl
  | right => simp only [join, Rep, RbNode.child, Side.other, and_comm (a := Rep rb (rb a).left a y)]

/-- Where a path turns: the hole is on this side of the node at `addr`. -/
structure Frame where
  side : Side
  addr : Nat
  sib : Shape

abbrev Path := List Frame

variable {p : Path}

namespace Path

def plug (t : Shape) : Path → Shape
  | [] => t
  | f :: p => plug (join f.side f.addr t f.sib) p

def before : Path → List Nat
  | [] => []
  | ⟨.left, _, _⟩ :: p => before p
  | ⟨.right, a, sib⟩ :: p => before p ++ (sib.inorder ++ [a])

def after : Path → List Nat
  | [] => []
  | ⟨.left, a, sib⟩ :: p => a :: sib.inorder ++ after p
  | ⟨.right, _, _⟩ :: p => after p

def addrs : Path → List Nat
  | [] => []
  | f :: p => f.addr :: f.sib.inorder ++ addrs p

theorem addr_mem {f : Frame} (member : f ∈ p) : f.addr ∈ addrs p := by
  induction p with
  | nil => cases member
  | cons g p ih =>
    rcases List.mem_cons.mp member with rfl | later
    · simp [addrs]
    · simp [addrs, ih later]

theorem inorder_plug (t : Shape) (p : Path) :
    (plug t p).inorder = before p ++ t.inorder ++ after p := by
  induction p generalizing t with
  | nil => simp [plug, before, after]
  | cons f p ih =>
    obtain ⟨s, a, sib⟩ := f
    cases s with
    | left | right => simp [plug, ih, before, after, join, Shape.inorder]

theorem inorder_plug_perm (t : Shape) (p : Path) :
    (plug t p).inorder.Perm (t.inorder ++ addrs p) := by
  induction p generalizing t with
  | nil => simp [plug, addrs]
  | cons f p ih =>
    have here := (Shape.inorder_join_perm f.side f.addr t f.sib).append_right (addrs p)
    simpa [plug, addrs] using (ih (join f.side f.addr t f.sib)).trans here

theorem plug_ne_leaf (nonempty : t ≠ .leaf) (p : Path) : plug t p ≠ .leaf := by
  induction p generalizing t with
  | nil => exact nonempty
  | cons f p ih =>
    apply ih
    cases f.side with
    | left | right => exact Shape.noConfusion

theorem mem_plug : n ∈ (plug t p).inorder ↔ n ∈ t.inorder ∨ n ∈ addrs p := by
  rw [(inorder_plug_perm t p).mem_iff, List.mem_append]

theorem nodup_plug :
    (plug t p).inorder.Nodup ↔
      t.inorder.Nodup ∧ (addrs p).Nodup ∧ ∀ n ∈ t.inorder, n ∉ addrs p := by
  rw [(inorder_plug_perm t p).nodup_iff, List.nodup_append']
  simp only [List.disjoint_left]

theorem inorder_plug_congr {u : Shape} (eq : u.inorder = t.inorder) (p : Path) :
    (plug u p).inorder = (plug t p).inorder := by
  rw [inorder_plug, inorder_plug, eq]

def Hole (rb : Nat → RbNode) (root : Nat) : Path → Nat → Nat → Prop
  | [], ptr, par => ptr = root ∧ par = 0
  | f :: p, ptr, par =>
    par = f.addr ∧ ptr = (rb f.addr).child f.side ∧ f.addr ≠ 0 ∧
      Rep rb ((rb f.addr).child f.side.other) f.addr f.sib ∧
      Hole rb root p f.addr (rbParent (rb f.addr))

theorem rep_plug :
    Rep rb root 0 (plug t p) ↔ ∃ ptr par, Hole rb root p ptr par ∧ Rep rb ptr par t := by
  induction p generalizing t with
  | nil =>
    constructor
    · intro rep
      exact ⟨root, 0, ⟨rfl, rfl⟩, rep⟩
    · rintro ⟨ptr, par, ⟨rfl, rfl⟩, rep⟩
      exact rep
  | cons f p ih =>
    rw [plug, ih]
    constructor
    · rintro ⟨ptr, par, hole, rep⟩
      obtain ⟨rfl, nonzero, rfl, repT, repS⟩ := rep_join.mp rep
      exact ⟨_, _, ⟨rfl, rfl, nonzero, repS, hole⟩, repT⟩
    · rintro ⟨ptr, par, ⟨rfl, rfl, nonzero, repS, hole⟩, repT⟩
      exact ⟨_, _, hole, rep_join.mpr ⟨rfl, nonzero, rfl, repT, repS⟩⟩

theorem hole_congr (same : ∀ n ∈ addrs p, rb' n = rb n) (hole : Hole rb root p ptr par) :
    Hole rb' root p ptr par := by
  induction p generalizing ptr par with
  | nil => exact hole
  | cons f p ih =>
    obtain ⟨up, down, nonzero, rep, rest⟩ := hole
    have mine : rb' f.addr = rb f.addr := same f.addr (by simp [addrs])
    refine ⟨up, by rw [mine]; exact down, nonzero, ?_, ?_⟩
    · rw [mine]
      exact rep_congr (fun n member => same n (by simp [addrs, member])) rep
    · rw [mine]
      exact ih (fun n member => same n (by simp [addrs, member])) rest

theorem hole_par_mem (hole : Hole rb root p ptr par) (nonzero : par ≠ 0) :
    par ∈ addrs p := by
  cases p with
  | nil => exact absurd hole.2 nonzero
  | cons f p =>
    rw [hole.1]
    simp [addrs]

theorem hole_redirect {root' : Nat} (hole : Hole rb root p ptr par)
    (distinct : (addrs p).Nodup) (atRoot : par = 0 → root' = new)
    (atNode : ∀ f q, p = f :: q → root' = root ∧ rb' f.addr = (rb f.addr).setChild f.side new)
    (same : ∀ n ∈ addrs p, n ≠ par → rb' n = rb n) : Hole rb' root' p new par := by
  cases p with
  | nil => exact ⟨(atRoot hole.2).symm, hole.2⟩
  | cons f q =>
    obtain ⟨up, -, nonzero, rep, rest⟩ := hole
    obtain ⟨sameRoot, written⟩ := atNode f q rfl
    have fresh : ∀ n ∈ f.sib.inorder ++ addrs q, rb' n = rb n := by
      intro n member
      apply same n (by simp only [addrs, List.cons_append]; exact List.mem_cons_of_mem _ member)
      rintro rfl
      rw [up] at member
      exact (List.nodup_cons.mp distinct).1 member
    refine ⟨up, by rw [written]; simp, nonzero, ?_, ?_⟩
    · rw [written, RbNode.child_setChild_other]
      exact rep_congr (fun n member => fresh n (List.mem_append_left _ member)) rep
    · rw [written, RbNode.rbParent_setChild, sameRoot]
      exact hole_congr (fun n member => fresh n (List.mem_append_right _ member)) rest

end Path

theorem rep_root_mem {s : Shape} (rep : Rep rb root parent s) :
    root = 0 ∨ root ∈ s.inorder := by
  cases s with
  | leaf => exact .inl rep
  | node a l r =>
    rw [rep.1]
    exact .inr (by simp [Shape.inorder])

theorem rep_ne {n : Nat} {s : Shape} (rep : Rep rb root parent s) (nonzero : n ≠ 0)
    (out : n ∉ s.inorder) : root ≠ n := by
  rintro rfl
  exact (rep_root_mem rep).elim nonzero out

theorem rep_reparent {s : Shape} (rep : Rep rb ptr parent s)
    (distinct : s.inorder.Nodup) (aligned : new % 4 = 0)
    (written : ptr ≠ 0 → rb' ptr = rbSetParent (rb ptr) new)
    (same : ∀ n ∈ s.inorder, n ≠ ptr → rb' n = rb n) : Rep rb' ptr new s := by
  cases s with
  | leaf => exact rep
  | node a l r =>
    obtain ⟨rfl, nonzero, -, repL, repR⟩ := rep
    have apart : ∀ n ∈ l.inorder ++ r.inorder, rb' n = rb n := by
      intro n member
      apply same n
      · simp only [Shape.inorder, List.mem_append, List.mem_cons] at member ⊢
        tauto
      · rintro rfl
        exact (List.nodup_cons.mp (List.nodup_middle.mp distinct)).1 member
    have word := written nonzero
    refine ⟨rfl, nonzero, by rw [word]; exact rbParent_rbSetParent _ aligned, ?_, ?_⟩
    · rw [word]
      exact rep_congr (fun n member => apart n (List.mem_append_left _ member)) repL
    · rw [word]
      exact rep_congr (fun n member => apart n (List.mem_append_right _ member)) repR

namespace Tree

theorem rotate_writes (t : Tree) (node : Nat) (side : Side) {other inner : Nat}
    (otherEq : (t.rb node).child side.other = other) (parentEq : rbParent (t.rb node) = parent)
    (innerEq : (t.rb other).child side = inner) (nonzero : other ≠ 0)
    (nodeOther : node ≠ other) (innerNode : inner ≠ 0 → inner ≠ node)
    (innerOther : inner ≠ 0 → inner ≠ other) (parentNode : parent ≠ node)
    (parentOther : parent ≠ 0 → parent ≠ other) (parentInner : parent ≠ 0 → parent ≠ inner) :
    ∃ t', rotate t node side = some t' ∧
      t'.rb node = rbSetParent ((t.rb node).setChild side.other inner) other ∧
      t'.rb other = rbSetParent ((t.rb other).setChild side node) parent ∧
      (inner ≠ 0 → t'.rb inner = rbSetParent (t.rb inner) node) ∧
      (parent = 0 → t'.root = other) ∧
      (parent ≠ 0 → t'.root = t.root ∧ t'.rb parent = (t.rb parent).setChild
        (if node = (t.rb parent).child side then side else side.other) other) ∧
      ∀ n, n ≠ node → n ≠ other → (inner ≠ 0 → n ≠ inner) → (parent ≠ 0 → n ≠ parent) →
        t'.rb n = t.rb n := by
  -- after the first four assignments, whether or not there is an inner child
  obtain ⟨t₄, eq₄, root₄, node₄, other₄, inner₄, rest₄⟩ : ∃ t₄ : Tree,
      (((if inner = 0 then t.set node (·.setChild side.other inner)
        else (t.set node (·.setChild side.other inner)).set inner (rbSetParent · node)).set other
          (·.setChild side node)).set other (rbSetParent · parent)) = t₄ ∧
      t₄.root = t.root ∧ t₄.rb node = (t.rb node).setChild side.other inner ∧
      t₄.rb other = rbSetParent ((t.rb other).setChild side node) parent ∧
      (inner ≠ 0 → t₄.rb inner = rbSetParent (t.rb inner) node) ∧
      ∀ n, n ≠ node → n ≠ other → (inner ≠ 0 → n ≠ inner) → t₄.rb n = t.rb n := by
    refine ⟨_, rfl, ?_⟩
    by_cases none : inner = 0
    · simp +contextual [none, set, nodeOther, nodeOther.symm]
    · have apart := innerNode none
      have apart' := innerOther none
      simp +contextual [none, set, nodeOther, nodeOther.symm, apart, apart', apart.symm, apart'.symm]
  simp only [rotate, otherEq, parentEq, innerEq, if_neg nonzero, eq₄]
  by_cases top : parent = 0
  · refine ⟨({ t₄ with root := other } : Tree).set node (rbSetParent · other), by simp [top], ?_, ?_,
      ?_, fun _ => rfl, fun up => absurd top up, ?_⟩
    · simp [node₄]
    · rw [set_ne _ _ nodeOther.symm]
      exact other₄
    · intro some
      rw [set_ne _ _ (innerNode some)]
      exact inner₄ some
    · intro n isNode isOther isInner _
      rw [set_ne _ _ isNode]
      exact rest₄ n isNode isOther isInner
  · have above : t₄.rb parent = t.rb parent :=
      rest₄ parent parentNode (parentOther top) (fun _ => parentInner top)
    have redirected : (if node = (t₄.rb parent).child side then
        t₄.set parent (·.setChild side other) else t₄.set parent (·.setChild side.other other)) =
        t₄.set parent (·.setChild
          (if node = (t.rb parent).child side then side else side.other) other) := by
      rw [above]
      split <;> rfl
    refine ⟨_, by rw [if_neg top, redirected], ?_, ?_, ?_, fun up => absurd up top, ?_, ?_⟩
    · rw [set_same, set_ne _ _ parentNode.symm, node₄]
    · rw [set_ne _ _ nodeOther.symm, set_ne _ _ (parentOther top).symm]
      exact other₄
    · intro some
      rw [set_ne _ _ (innerNode some), set_ne _ _ (parentInner top).symm]
      exact inner₄ some
    · intro _
      refine ⟨root₄, ?_⟩
      rw [set_ne _ _ parentNode, set_same, above]
    · intro n isNode isOther isInner isParent
      rw [set_ne _ _ isNode, set_ne _ _ (isParent top)]
      exact rest₄ n isNode isOther isInner

theorem rotate_shaped {t : Tree} {side : Side} {node other : Nat} {z : Shape}
    (tree : t.Shaped (Path.plug (join side node x (join side other y z)) p)) :
    ∃ t', rotate t node side = some t' ∧
      t'.Shaped (Path.plug (join side other (join side node x y) z) p) ∧
      (∀ n, isBlack (t'.rb n) = isBlack (t.rb n)) ∧
      ∀ n ∉ (Path.plug (join side node x (join side other y z)) p).inorder, t'.rb n = t.rb n := by
  obtain ⟨ptr, par, hole, repN⟩ := Path.rep_plug.mp tree.rep
  obtain ⟨rfl, nodeZero, parEq, repX, repO⟩ := rep_join.mp repN
  obtain ⟨otherEq, otherZero, otherUp, repY, repZ⟩ := rep_join.mp repO
  obtain ⟨distinctT, distinctP, apart⟩ := Path.nodup_plug.mp tree.distinct
  obtain ⟨-, distinctO, nodeX, nodeO, xO⟩ := Shape.nodup_join.mp distinctT
  obtain ⟨distinctY, -, otherY, otherZ, yZ⟩ := Shape.nodup_join.mp distinctO
  simp only [Shape.mem_inorder_join, not_or] at nodeO xO
  obtain ⟨nodeOther, nodeY, nodeZ⟩ := nodeO
  have nodeP : ptr ∉ Path.addrs p := apart ptr (by simp)
  have otherP : other ∉ Path.addrs p := apart other (by simp)
  have inY : (t.rb other).child side ≠ 0 → (t.rb other).child side ∈ y.inorder :=
    fun some => (rep_root_mem repY).resolve_left some
  have inP : par ≠ 0 → par ∈ Path.addrs p := Path.hole_par_mem hole
  have nodeAligned : ptr % 4 = 0 := tree.aligned ptr (Path.mem_plug.mpr (by simp))
  have otherAligned : other % 4 = 0 := tree.aligned other (Path.mem_plug.mpr (by simp))
  have parAligned : par % 4 = 0 := by
    by_cases top : par = 0
    · rw [top]
    · exact tree.aligned par (Path.mem_plug.mpr (.inr (inP top)))
  obtain ⟨t', ran, atNode, atOther, atInner, atRoot, atParent, frame⟩ :=
    rotate_writes t ptr side otherEq parEq rfl otherZero nodeOther
      (fun some eq => nodeY (eq ▸ inY some)) (fun some eq => otherY (eq ▸ inY some))
      (fun eq => by
        by_cases top : par = 0
        · exact nodeZero (eq.symm.trans top)
        · exact nodeP (eq ▸ inP top))
      (fun top eq => otherP (eq ▸ inP top))
      (fun top eq => apart par (by
        have some : (t.rb other).child side ≠ 0 := fun zero => top (eq.trans zero)
        simp [eq, inY some]) (inP top))
  -- what the rotation writes, seen from each part of the tree
  have below : ∀ n, n ≠ ptr → n ≠ other → n ∉ Path.addrs p →
      (n ∈ y.inorder → n ≠ (t.rb other).child side) → t'.rb n = t.rb n := by
    intro n isNode isOther out isInner
    exact frame n isNode isOther (fun some eq => isInner (eq ▸ inY some) eq)
      (fun top eq => out (eq ▸ inP top))
  have inner : Rep t'.rb ((t.rb other).child side) ptr y := by
    apply rep_reparent repY distinctY nodeAligned atInner
    intro n member isInner
    exact below n (fun eq => nodeY (eq ▸ member)) (fun eq => otherY (eq ▸ member))
      (apart n (by simp [member])) (fun _ => isInner)
  have outerX : Rep t'.rb ((t.rb ptr).child side) ptr x := by
    apply rep_congr _ repX
    intro n member
    have out := xO n member
    exact below n (fun eq => nodeX (eq ▸ member)) out.1 (apart n (by simp [member]))
      (fun inY => absurd inY out.2.1)
  have outerZ : Rep t'.rb ((t.rb other).child side.other) other z := by
    apply rep_congr _ repZ
    intro n member
    exact below n (fun eq => nodeZ (eq ▸ member)) (fun eq => otherZ (eq ▸ member))
      (apart n (by simp [member])) (fun inY => absurd member (yZ n inY))
  have hole' : Path.Hole t'.rb t'.root p other par := by
    apply Path.hole_redirect hole distinctP atRoot
    · rintro f q rfl
      obtain ⟨rfl, down, parZero, repS, -⟩ := hole
      obtain ⟨sameRoot, written⟩ := atParent parZero
      refine ⟨sameRoot, ?_⟩
      rw [written]
      congr 1
      rcases Side.eq_or_other f.side side with rfl | rfl
      · rw [if_pos down]
      · have sibling : (t.rb f.addr).child f.side.other ≠ ptr :=
          rep_ne repS nodeZero fun member => nodeP (by simp [Path.addrs, member])
        rw [if_neg sibling.symm, Side.other_other]
    · intro n member isPar
      exact frame n (fun eq => nodeP (eq ▸ member)) (fun eq => otherP (eq ▸ member))
        (fun some eq => apart n (by simp [eq, inY some]) member) (fun _ => isPar)
  refine ⟨t', ran, tree.reorder (Path.rep_plug.mpr ⟨other, par, hole', ?_⟩)
    (Path.inorder_plug_congr (Shape.inorder_rotate ..) p), ?_, ?_⟩
  · rw [rep_join, rep_join, atOther, atNode]
    simp only [child_rbSetParent, RbNode.child_setChild, RbNode.child_setChild_other,
      RbNode.child_other_setChild, rbParent_rbSetParent _ parAligned,
      rbParent_rbSetParent _ otherAligned, true_and]
    exact ⟨otherZero, ⟨nodeZero, outerX, inner⟩, outerZ⟩
  · intro n
    by_cases isNode : n = ptr
    · rw [isNode, atNode, isBlack_rbSetParent _ otherAligned, RbNode.isBlack_setChild]
    by_cases isOther : n = other
    · rw [isOther, atOther, isBlack_rbSetParent _ parAligned, RbNode.isBlack_setChild]
    by_cases isInner : n = (t.rb other).child side ∧ (t.rb other).child side ≠ 0
    · rw [isInner.1, atInner isInner.2, isBlack_rbSetParent _ nodeAligned]
    by_cases isPar : n = par ∧ par ≠ 0
    · rw [isPar.1, (atParent isPar.2).2, RbNode.isBlack_setChild]
    · rw [frame n isNode isOther (fun some eq => isInner ⟨eq, some⟩) (fun top eq => isPar ⟨eq, top⟩)]
  · intro n out
    rw [Path.mem_plug] at out
    simp only [Shape.mem_inorder_join, not_or] at out
    exact below n out.1.1 out.1.2.2.1 out.2 (fun inY => absurd inY out.1.2.2.2.1)

end Tree

end RbTree
