import ScaraOS.Lib.RbRotate

/-! Insertion into a red-black tree threaded through memory: the descent to an empty
place, the link, and the loop that repairs the colours. The loop moves up a `Path` and
leaves the tree in order and balanced around it. -/

namespace RbTree

open Shape (join)
open Path (plug addrs)

/-- Where a node can hang: the pointer a `struct rb_node **` points to. -/
inductive Slot where
  | root
  | child (parent : Nat) (side : Side)
  deriving DecidableEq, Repr

def Slot.parent : Slot → Nat
  | .root => 0
  | .child a _ => a

inductive Found where
  | node (a : Nat)
  | slot (s : Slot)
  deriving DecidableEq, Repr

namespace Tree

def read (t : Tree) : Slot → Nat
  | .root => t.root
  | .child a s => (t.rb a).child s

def write (t : Tree) : Slot → Nat → Tree
  | .root, n => { t with root := n }
  | .child a s, n => t.set a (·.setChild s n)

/-- The search loop of a user of the tree. At each node `dir` says on which side to go
on, or to stop. -/
def descend (dir : Nat → Option Side) (t : Tree) : Nat → Slot → Option Found
  | 0, _ => none
  | k + 1, s =>
    if t.read s = 0 then some (.slot s)
    else
      match dir (t.read s) with
      | none => some (.node (t.read s))
      | some side => descend dir t k (.child (t.read s) side)

/-- `rb_link_node`, with the parent the descent came from. -/
def linkNode (t : Tree) (node : Nat) (s : Slot) : Tree :=
  (t.set node fun _ => ⟨s.parent, 0, 0⟩).write s node

/-- `rb_insert_color`. The two halves of the loop body differ in the side only. No
result is a dereference of `NULL`, or more rounds than the fuel. -/
def insertColor : Nat → Tree → Nat → Option Tree
  | 0, _, _ => none
  | k + 1, t, node =>
    let parent := rbParent (t.rb node)
    if parent = 0 ∨ isBlack (t.rb parent) then
      if t.root = 0 then none else some (t.set t.root rbSetBlack)
    else
      let gparent := rbParent (t.rb parent)
      if gparent = 0 then none
      else
        let side := if parent = (t.rb gparent).left then Side.left else Side.right
        let uncle := (t.rb gparent).child side.other
        if uncle ≠ 0 ∧ isBlack (t.rb uncle) = false then
          insertColor k (((t.set uncle rbSetBlack).set parent rbSetBlack).set gparent rbSetRed) gparent
        else if (t.rb parent).child side.other = node then do
          let t ← rotate t parent side
          let t ← rotate ((t.set node rbSetBlack).set gparent rbSetRed) gparent side.other
          insertColor k t parent
        else do
          let t ← rotate ((t.set parent rbSetBlack).set gparent rbSetRed) gparent side.other
          insertColor k t node

end Tree

variable {rb rb' : Nat → RbNode} {a n h fuel ptr par node : Nat} {l r x y s sub : Shape} {p q : Path}
  {t : Tree} {f g : Frame} {R : Nat → Nat → Prop}

theorem blackHeight_node :
    blackHeight rb (.node a l r) = some n ↔ ∃ k, blackHeight rb l = some k ∧
      blackHeight rb r = some k ∧ (isBlack (rb a) = true ∨ rootBlack rb l ∧ rootBlack rb r) ∧
      n = if isBlack (rb a) then k + 1 else k := by
  rw [blackHeight]
  cases left : blackHeight rb l with
  | none => simp
  | some x =>
    cases right : blackHeight rb r with
    | none => simp
    | some y =>
      by_cases same : x = y
      · subst same
        constructor
        · intro found
          dsimp only at found
          split at found
          · rename_i colour
            exact ⟨x, rfl, rfl, colour.2, (Option.some.inj found).symm⟩
          · cases found
        · rintro ⟨k, eq, -, colour, rfl⟩
          cases eq
          exact if_pos ⟨rfl, colour⟩
      · have differ : ¬ y = x := fun eq => same eq.symm
        simp [same, differ]

theorem blackHeight_join {s : Side} :
    blackHeight rb (join s a x y) = some n ↔ ∃ k, blackHeight rb x = some k ∧
      blackHeight rb y = some k ∧ (isBlack (rb a) = true ∨ rootBlack rb x ∧ rootBlack rb y) ∧
      n = if isBlack (rb a) then k + 1 else k := by
  cases s with
  | left => exact blackHeight_node
  | right =>
    simp only [join, blackHeight_node]
    constructor
    · rintro ⟨k, one, two, colour, eq⟩
      exact ⟨k, two, one, colour.imp_right And.symm, eq⟩
    · rintro ⟨k, one, two, colour, eq⟩
      exact ⟨k, two, one, colour.imp_right And.symm, eq⟩

@[simp] theorem rootBlack_join (rb : Nat → RbNode) (s : Side) (a : Nat) (x y : Shape) :
    rootBlack rb (join s a x y) = isBlack (rb a) := by
  cases s <;> rfl

theorem rootBlack_congr (same : ∀ n ∈ s.inorder, isBlack (rb' n) = isBlack (rb n)) :
    rootBlack rb' s = rootBlack rb s := by
  cases s with
  | leaf => rfl
  | node a l r => exact same a (by simp [Shape.inorder])

theorem blackHeight_congr (same : ∀ n ∈ s.inorder, isBlack (rb' n) = isBlack (rb n)) :
    blackHeight rb' s = blackHeight rb s := by
  induction s with
  | leaf => rfl
  | node a l r left right =>
    have sameL : ∀ n ∈ l.inorder, isBlack (rb' n) = isBlack (rb n) :=
      fun n member => same n (by simp [Shape.inorder, member])
    have sameR : ∀ n ∈ r.inorder, isBlack (rb' n) = isBlack (rb n) :=
      fun n member => same n (by simp [Shape.inorder, member])
    simp only [blackHeight, left sameL, right sameR, same a (by simp [Shape.inorder]),
      rootBlack_congr sameL, rootBlack_congr sameR]

theorem blackHeight_blacken (distinct : (Shape.node a l r).inorder.Nodup)
    (red : isBlack (rb a) = false) (black : isBlack (rb' a) = true)
    (same : ∀ n ∈ (Shape.node a l r).inorder, n ≠ a → isBlack (rb' n) = isBlack (rb n))
    (height : blackHeight rb (.node a l r) = some h) :
    blackHeight rb' (.node a l r) = some (h + 1) := by
  have apart := (List.nodup_cons.mp (List.nodup_middle.mp distinct)).1
  obtain ⟨k, heightL, heightR, -, eq⟩ := blackHeight_node.mp height
  have here : h = k := by simpa [red] using eq
  refine blackHeight_node.mpr ⟨h, ?_, ?_, .inl black, by simp [black]⟩
  · rw [blackHeight_congr fun n member => same n (by simp [Shape.inorder, member])
      (fun eq => apart (by simp [← eq, member])), here]
    exact heightL
  · rw [blackHeight_congr fun n member => same n (by simp [Shape.inorder, member])
      (fun eq => apart (by simp [← eq, member])), here]
    exact heightR

namespace Path

def topBlack (rb : Nat → RbNode) : Path → Bool
  | [] => false
  | f :: _ => isBlack (rb f.addr)

/-- The path is in order for a tree of black height `h` in its hole, except that the
last node may clash with the colour of that tree. -/
def Balanced (rb : Nat → RbNode) : Path → Nat → Prop
  | [], _ => True
  | f :: p, h =>
    blackHeight rb f.sib = some h ∧
      (isBlack (rb f.addr) = true ∨ rootBlack rb f.sib = true ∧ topBlack rb p = true) ∧
      Balanced rb p (if isBlack (rb f.addr) then h + 1 else h)

theorem topBlack_congr (same : ∀ n ∈ addrs p, isBlack (rb' n) = isBlack (rb n)) :
    topBlack rb' p = topBlack rb p := by
  cases p with
  | nil => rfl
  | cons f p => exact same f.addr (by simp [addrs])

theorem balanced_congr (same : ∀ n ∈ addrs p, isBlack (rb' n) = isBlack (rb n))
    (balanced : Balanced rb p h) : Balanced rb' p h := by
  induction p generalizing h with
  | nil => trivial
  | cons f p ih =>
    obtain ⟨height, colour, rest⟩ := balanced
    have sameP : ∀ n ∈ addrs p, isBlack (rb' n) = isBlack (rb n) :=
      fun n member => same n (by simp [addrs, member])
    have sameS : ∀ n ∈ f.sib.inorder, isBlack (rb' n) = isBlack (rb n) :=
      fun n member => same n (by simp [addrs, member])
    have mine : isBlack (rb' f.addr) = isBlack (rb f.addr) := same f.addr (by simp [addrs])
    refine ⟨(blackHeight_congr sameS).trans height, ?_, ?_⟩
    · rw [mine, rootBlack_congr sameS, topBlack_congr sameP]
      exact colour
    · rw [mine]
      exact ih sameP rest

theorem redBlack_plug {t : Shape} :
    RedBlack rb (plug t p) ↔ ∃ h, blackHeight rb t = some h ∧ Balanced rb p h ∧
      (rootBlack rb t = true ∨ topBlack rb p = true) := by
  induction p generalizing t with
  | nil => simp [plug, RedBlack, Balanced, topBlack, Option.isSome_iff_exists, and_comm]
  | cons f p ih =>
    rw [plug, ih]
    constructor
    · rintro ⟨h, height, balanced, colour⟩
      obtain ⟨k, heightT, heightS, clash, rfl⟩ := blackHeight_join.mp height
      rw [rootBlack_join] at colour
      refine ⟨k, heightT, ⟨heightS, ?_, balanced⟩, ?_⟩
      · rcases colour with black | top
        · exact .inl black
        · exact clash.imp_right fun both => ⟨both.2, top⟩
      · rcases clash with black | both
        · exact .inr black
        · exact .inl both.1
    · rintro ⟨k, heightT, ⟨heightS, colour, balanced⟩, clash⟩
      refine ⟨_, blackHeight_join.mpr ⟨k, heightT, heightS, ?_, rfl⟩, balanced, ?_⟩
      · rcases colour with black | both
        · exact .inl black
        · rcases clash with black | black
          · exact .inr ⟨black, both.1⟩
          · exact .inl black
      · rw [rootBlack_join]
        exact colour.imp_right fun both => both.2

end Path

/-- The two trees differ in colours only. -/
def SameLinks (t t' : Tree) : Prop :=
  t'.root = t.root ∧ ∀ n, rbParent (t'.rb n) = rbParent (t.rb n) ∧
    (t'.rb n).left = (t.rb n).left ∧ (t'.rb n).right = (t.rb n).right

theorem SameLinks.trans {t' t'' : Tree} (one : SameLinks t t') (two : SameLinks t' t'') :
    SameLinks t t'' :=
  ⟨two.1.trans one.1, fun n => ⟨(two.2 n).1.trans (one.2 n).1, (two.2 n).2.1.trans (one.2 n).2.1,
    (two.2 n).2.2.trans (one.2 n).2.2⟩⟩

theorem sameLinks_set {f : RbNode → RbNode} (t : Tree) (a : Nat)
    (same : ∀ n, rbParent (f n) = rbParent n ∧ (f n).left = n.left ∧ (f n).right = n.right) :
    SameLinks t (t.set a f) := by
  refine ⟨rfl, fun n => ?_⟩
  by_cases here : n = a
  · subst here
    rw [Tree.set_same]
    exact same _
  · rw [Tree.set_ne _ _ here]
    exact ⟨rfl, rfl, rfl⟩

theorem sameLinks_setBlack (t : Tree) (a : Nat) : SameLinks t (t.set a rbSetBlack) :=
  sameLinks_set t a fun n => ⟨rbParent_rbSetBlack n, rfl, rfl⟩

theorem sameLinks_setRed (t : Tree) (a : Nat) : SameLinks t (t.set a rbSetRed) :=
  sameLinks_set t a fun n => ⟨rbParent_rbSetRed n, rfl, rfl⟩

theorem SameLinks.rep {t' : Tree} (links : SameLinks t t') {root parent : Nat}
    (rep : Rep t.rb root parent s) : Rep t'.rb root parent s := by
  induction s generalizing root parent with
  | leaf => exact rep
  | node a l r left right =>
    obtain ⟨rfl, nonzero, up, repL, repR⟩ := rep
    obtain ⟨sameUp, sameL, sameR⟩ := links.2 root
    refine ⟨rfl, nonzero, sameUp.trans up, ?_, ?_⟩
    · rw [sameL]
      exact left repL
    · rw [sameR]
      exact right repR

theorem Tree.Shaped.recolour {t' : Tree} (tree : t.Shaped s) (links : SameLinks t t') : t'.Shaped s :=
  tree.reorder (links.1.symm ▸ links.rep tree.rep) rfl

theorem rep_rootRed {root parent : Nat} (rep : Rep rb root parent s) :
    rootBlack rb s = false ↔ root ≠ 0 ∧ isBlack (rb root) = false := by
  cases s with
  | leaf =>
    rw [show root = 0 from rep]
    simp [rootBlack]
  | node a l r =>
    obtain ⟨rfl, nonzero, -, -, -⟩ := rep
    simp [rootBlack, nonzero]

namespace Tree

theorem insertColor_stop (k : Nat) (rep : Rep t.rb t.root 0 s)
    (redBlack : RedBlack t.rb s) (nonempty : s ≠ .leaf)
    (stop : rbParent (t.rb node) = 0 ∨ isBlack (t.rb (rbParent (t.rb node))) = true) :
    insertColor (k + 1) t node = some t := by
  cases s with
  | leaf => exact absurd rfl nonempty
  | node a l r =>
    have root : t.root = a := rep.1
    have black : isBlack (t.rb t.root) = true := by
      rw [root]
      exact redBlack.1
    have kept : t.set t.root rbSetBlack = t := by
      simp only [set, rbSetBlack_of_isBlack black, Function.update_eq_self]
    simp only [insertColor, if_pos stop, kept]
    rw [if_neg (by rw [root]; exact rep.2.1)]

/-- What a repair makes of a tree: the nodes are in this order, the colours are right, and
what is not in the tree is left. -/
structure Repaired (t t' : Tree) (s s' : Shape) (order : List Nat) : Prop where
  tree : t'.Shaped s'
  order : s'.inorder = order
  redBlack : RedBlack t'.rb s'
  frame : ∀ n ∉ s.inorder, t'.rb n = t.rb n

theorem rotate_repairs {s side : Side} {g m : Nat} {z u : Shape} (k : Nat)
    (tree : t.Shaped (plug (join s g (join s m (join side node x y) z) u) p))
    (heightA : blackHeight t.rb (join side node x y) = some h)
    (heightZ : blackHeight t.rb z = some h) (heightU : blackHeight t.rb u = some h)
    (blackZ : rootBlack t.rb z = true) (blackU : rootBlack t.rb u = true)
    (balanced : Path.Balanced t.rb p (h + 1)) :
    ∃ t', (do
        let t ← rotate ((t.set m rbSetBlack).set g rbSetRed) g s.other
        insertColor (k + 1) t node) = some t' ∧
      Repaired t t' (plug (join s g (join s m (join side node x y) z) u) p)
        (plug (join s m (join side node x y) (join s g z u)) p)
        (plug (join s g (join s m (join side node x y) z) u) p).inorder := by
  obtain ⟨distinctT, -, apart⟩ := Path.nodup_plug.mp tree.distinct
  obtain ⟨distinctM, -, gM, gU, mU⟩ := Shape.nodup_join.mp distinctT
  obtain ⟨-, -, mA, mZ, -⟩ := Shape.nodup_join.mp distinctM
  have gm : g ≠ m := fun eq => gM (by simp [eq])
  -- the same tree, seen from the other side, as the rotation takes it
  have turned : ∀ v w, join s g (join s m v w) u = join s.other g u (join s.other m w v) := by
    intro v w
    rw [Shape.join_other, Shape.join_other]
  have links := (sameLinks_setBlack t m).trans (sameLinks_setRed _ g)
  rw [turned] at tree ⊢
  obtain ⟨t', ran, tree', colours, frame⟩ := rotate_shaped (tree.recolour links)
  have back : ∀ v, join s.other m (join s.other g u z) v = join s m v (join s g z u) := by
    intro v
    rw [Shape.join_other, Shape.join_other]
  rw [back] at tree'
  have blackM : isBlack (t'.rb m) = true := by
    rw [colours, set_ne _ _ gm.symm, set_same, isBlack_rbSetBlack]
  have redG : isBlack (t'.rb g) = false := by
    rw [colours, set_same, isBlack_rbSetRed]
  have kept : ∀ n, n ≠ m → n ≠ g → isBlack (t'.rb n) = isBlack (t.rb n) := by
    intro n isM isG
    rw [colours, set_ne _ _ isG, set_ne _ _ isM]
  have keptZ : ∀ n ∈ z.inorder, isBlack (t'.rb n) = isBlack (t.rb n) := fun n member =>
    kept n (fun eq => mZ (eq ▸ member)) (fun eq => gM (by simp [← eq, member]))
  have keptU : ∀ n ∈ u.inorder, isBlack (t'.rb n) = isBlack (t.rb n) := fun n member =>
    kept n (fun eq => mU m (by simp) (eq ▸ member)) (fun eq => gU (eq ▸ member))
  have keptA : ∀ n ∈ (join side node x y).inorder, isBlack (t'.rb n) = isBlack (t.rb n) :=
    fun n member => kept n (fun eq => mA (eq ▸ member))
      (fun eq => gM (by rw [← eq, Shape.mem_inorder_join]; exact .inr (.inl member)))
  have keptP : ∀ n ∈ addrs p, isBlack (t'.rb n) = isBlack (t.rb n) := fun n member =>
    kept n (fun eq => apart m (by simp) (eq ▸ member)) (fun eq => apart g (by simp) (eq ▸ member))
  have redBlack : RedBlack t'.rb (plug (join s m (join side node x y) (join s g z u)) p) := by
    refine Path.redBlack_plug.mpr ⟨h + 1, ?_, Path.balanced_congr keptP balanced, .inl ?_⟩
    · refine blackHeight_join.mpr ⟨h, (blackHeight_congr keptA).trans heightA, ?_, .inl blackM,
        by simp [blackM]⟩
      refine blackHeight_join.mpr ⟨h, (blackHeight_congr keptZ).trans heightZ,
        (blackHeight_congr keptU).trans heightU, .inr ⟨?_, ?_⟩, by simp [redG]⟩
      · rw [rootBlack_congr keptZ]
        exact blackZ
      · rw [rootBlack_congr keptU]
        exact blackU
    · rw [rootBlack_join]
      exact blackM
  refine ⟨t', ?_, tree', ?_, redBlack, ?_⟩
  · rw [ran]
    have up : rbParent (t'.rb node) = m := by
      obtain ⟨_, _, -, repM⟩ := Path.rep_plug.mp tree'.rep
      obtain ⟨-, -, -, repA, -⟩ := rep_join.mp repM
      exact (rep_join.mp repA).2.2.1
    apply insertColor_stop k tree'.rep redBlack
    · apply Path.plug_ne_leaf
      cases s with
      | left | right => exact Shape.noConfusion
    · rw [up]
      exact .inr blackM
  · rw [← turned]
    exact Path.inorder_plug_congr (Shape.inorder_rotate ..).symm p
  · intro n out
    rw [frame n out]
    have inside : ∀ a ∈ (join s.other g u (join s.other m z (join side node x y))).inorder, n ≠ a :=
      fun a member eq => out (Path.mem_plug.mpr (.inl (eq ▸ member)))
    rw [set_ne _ _ (inside g (by simp)), set_ne _ _ (inside m (by simp))]

/-- What is known of the tree when the loop is at `node`: everything is in order but
that `node` is red and its parent may be, too. -/
structure Fixing (t : Tree) (node : Nat) (sub : Shape) (p : Path) (h : Nat) : Prop
    extends t.Shaped (plug sub p) where
  isRoot : ∃ l r, sub = .node node l r
  red : isBlack (t.rb node) = false
  height : blackHeight t.rb sub = some h
  balanced : Path.Balanced t.rb p h

theorem fixing_root (k : Nat) (fixing : Fixing t node sub [] h) :
    ∃ t', insertColor (k + 1) t node = some t' ∧ Repaired t t' sub sub sub.inorder := by
  obtain ⟨l, r, rfl⟩ := fixing.isRoot
  have rep : Rep t.rb t.root 0 (.node node l r) := fixing.rep
  obtain ⟨root, nonzero, up, -, -⟩ := rep
  have kept : ∀ n, n ≠ node → (t.set node rbSetBlack).rb n = t.rb n := fun n apart => set_ne t _ apart
  have black : isBlack ((t.set node rbSetBlack).rb node) = true := by
    rw [set_same, isBlack_rbSetBlack]
  refine ⟨t.set node rbSetBlack, ?_, ?_, rfl, ⟨black, ?_⟩, ?_⟩
  · simp [insertColor, up, root, nonzero]
  · exact fixing.toShaped.recolour (sameLinks_setBlack t node)
  · rw [blackHeight_blacken fixing.distinct fixing.red black
      (fun n _ apart => by rw [kept n apart]) fixing.height]
    rfl
  · intro n out
    exact kept n (fun eq => out (by simp [eq, Shape.inorder]))

theorem Fixing.parent (fixing : Fixing t node sub (f :: p) h) :
    rbParent (t.rb node) = f.addr ∧ f.addr ≠ 0 ∧ (t.rb f.addr).child f.side = node ∧
      (t.rb f.addr).child f.side.other ≠ node := by
  obtain ⟨l, r, rfl⟩ := fixing.isRoot
  obtain ⟨ptr, par, hole, rep⟩ := Path.rep_plug.mp fixing.rep
  obtain ⟨rfl, nonzero, up, -, -⟩ := rep
  obtain ⟨rfl, down, parZero, repS, -⟩ := hole
  refine ⟨up, parZero, down.symm, rep_ne repS nonzero fun member => ?_⟩
  obtain ⟨-, -, apart⟩ := Path.nodup_plug.mp fixing.distinct
  exact apart ptr (by simp [Shape.inorder]) (by simp [addrs, member])

theorem Fixing.grandparent (fixing : Fixing t node sub (f :: p) h)
    (red : isBlack (t.rb f.addr) = false) :
    ∃ g q, p = g :: q ∧ isBlack (t.rb g.addr) = true ∧ rootBlack t.rb f.sib = true := by
  obtain ⟨-, colour, -⟩ := fixing.balanced
  simp only [red, Bool.false_eq_true, false_or] at colour
  cases p with
  | nil => simp [Path.topBlack] at colour
  | cons g q => exact ⟨g, q, rfl, colour.2, colour.1⟩

theorem Fixing.links (fixing : Fixing t node sub (f :: g :: q) h) :
    rbParent (t.rb f.addr) = g.addr ∧ g.addr ≠ 0 ∧ (t.rb g.addr).child g.side = f.addr ∧
      (t.rb g.addr).child g.side.other ≠ f.addr ∧
      Rep t.rb ((t.rb g.addr).child g.side.other) g.addr g.sib := by
  obtain ⟨ptr, par, hole, rep⟩ := Path.rep_plug.mp fixing.rep
  obtain ⟨rfl, -, nonzero, -, up, down, topZero, repU, -⟩ := hole
  refine ⟨up, topZero, down.symm, rep_ne repU nonzero fun member => ?_, repU⟩
  obtain ⟨-, distinct, -⟩ := Path.nodup_plug.mp fixing.distinct
  exact (List.nodup_cons.mp distinct).1 (by simp [addrs, member])

section

variable (fixing : Fixing t node sub (f :: g :: q) h) (red : isBlack (t.rb f.addr) = false)
  (black : isBlack (t.rb g.addr) = true)
include fixing red black

theorem fixing_recolour {uncle : Nat} (uncleEq : (t.rb g.addr).child g.side.other = uncle)
    (uncleZero : uncle ≠ 0) (uncleRed : isBlack (t.rb uncle) = false) :
    Fixing (((t.set uncle rbSetBlack).set f.addr rbSetBlack).set g.addr rbSetRed) g.addr
      (join g.side g.addr (join f.side f.addr sub f.sib) g.sib) q (h + 1) := by
  obtain ⟨-, topZero, -, -, repU⟩ := fixing.links
  rw [uncleEq] at repU
  have inU : uncle ∈ g.sib.inorder := (rep_root_mem repU).resolve_left uncleZero
  have whole : plug sub (f :: g :: q) =
      plug (join g.side g.addr (join f.side f.addr sub f.sib) g.sib) q := rfl
  have distinct := fixing.distinct
  rw [whole] at distinct
  obtain ⟨distinctT, -, apart⟩ := Path.nodup_plug.mp distinct
  obtain ⟨distinctF, distinctU, gF, gU, fU⟩ := Shape.nodup_join.mp distinctT
  obtain ⟨-, -, fSub, fSib, -⟩ := Shape.nodup_join.mp distinctF
  have gf : g.addr ≠ f.addr := fun eq => gF (by simp [eq])
  have gu : g.addr ≠ uncle := fun eq => gU (eq ▸ inU)
  have fu : f.addr ≠ uncle := fun eq => fU f.addr (by simp) (eq ▸ inU)
  have subU : ∀ n, n ∈ sub.inorder ∨ n ∈ f.sib.inorder → n ≠ uncle := by
    rintro n member rfl
    exact fU n (by rw [Shape.mem_inorder_join]; exact .inr member) inU
  have subG : ∀ n, n ∈ sub.inorder ∨ n ∈ f.sib.inorder → n ≠ g.addr := by
    rintro n member rfl
    exact gF (by rw [Shape.mem_inorder_join]; exact .inr member)
  have tree := fixing.toShaped.recolour (((sameLinks_setBlack t uncle).trans
    (sameLinks_setBlack _ f.addr)).trans (sameLinks_setRed _ g.addr))
  have colourF : isBlack ((((t.set uncle rbSetBlack).set f.addr rbSetBlack).set g.addr
      rbSetRed).rb f.addr) = true := by
    rw [set_ne _ _ gf.symm, set_same, isBlack_rbSetBlack]
  have colourG : isBlack ((((t.set uncle rbSetBlack).set f.addr rbSetBlack).set g.addr
      rbSetRed).rb g.addr) = false := by
    rw [set_same, isBlack_rbSetRed]
  have colourU : isBlack ((((t.set uncle rbSetBlack).set f.addr rbSetBlack).set g.addr
      rbSetRed).rb uncle) = true := by
    rw [set_ne _ _ gu.symm, set_ne _ _ fu.symm, set_same, isBlack_rbSetBlack]
  have kept : ∀ n, n ≠ uncle → n ≠ f.addr → n ≠ g.addr → isBlack ((((t.set uncle rbSetBlack).set
      f.addr rbSetBlack).set g.addr rbSetRed).rb n) = isBlack (t.rb n) := by
    intro n isU isF isG
    rw [set_ne _ _ isG, set_ne _ _ isF, set_ne _ _ isU]
  generalize ((t.set uncle rbSetBlack).set f.addr rbSetBlack).set g.addr rbSetRed = t' at *
  obtain ⟨heightS, -, heightU, -, rest⟩ := fixing.balanced
  simp only [red, black, Bool.false_eq_true, if_false, if_true] at heightU rest
  obtain ⟨l, r, sibEq⟩ : ∃ l r, g.sib = .node uncle l r := by
    cases sib : g.sib with
    | leaf =>
      rw [sib] at repU
      exact absurd repU uncleZero
    | node a l r =>
      rw [sib] at repU
      exact ⟨l, r, by rw [repU.1]⟩
  have raisedU : blackHeight t'.rb g.sib = some (h + 1) := by
    rw [sibEq] at distinctU heightU ⊢
    apply blackHeight_blacken distinctU uncleRed colourU _ heightU
    intro n member apart
    rw [← sibEq] at member
    exact kept n apart (fun eq => fU f.addr (by simp) (eq ▸ member)) (fun eq => gU (eq ▸ member))
  have raisedF : blackHeight t'.rb (join f.side f.addr sub f.sib) = some (h + 1) := by
    refine blackHeight_join.mpr ⟨h, ?_, ?_, .inl colourF, by simp [colourF]⟩
    · rw [blackHeight_congr fun n member => kept n (subU n (.inl member))
        (fun eq => fSub (eq ▸ member)) (subG n (.inl member))]
      exact fixing.height
    · rw [blackHeight_congr fun n member => kept n (subU n (.inr member))
        (fun eq => fSib (eq ▸ member)) (subG n (.inr member))]
      exact heightS
  refine ⟨tree, ?_, colourG, ?_, ?_⟩
  · cases g.side with
    | left | right => exact ⟨_, _, rfl⟩
  · refine blackHeight_join.mpr ⟨h + 1, raisedF, raisedU, .inr ⟨?_, ?_⟩, by simp [colourG]⟩
    · rw [rootBlack_join]
      exact colourF
    · rw [sibEq]
      exact colourU
  · apply Path.balanced_congr _ rest
    intro n member
    exact kept n (fun eq => apart uncle (by simp [inU]) (eq ▸ member))
      (fun eq => apart f.addr (by simp) (eq ▸ member))
      (fun eq => apart g.addr (by simp) (eq ▸ member))

theorem Fixing.heights :
    blackHeight t.rb f.sib = some h ∧ blackHeight t.rb g.sib = some h ∧
      Path.Balanced t.rb q (h + 1) := by
  obtain ⟨heightS, -, heightU, -, rest⟩ := fixing.balanced
  simp only [red, black, Bool.false_eq_true, if_false, if_true] at heightU rest
  exact ⟨heightS, heightU, rest⟩

end

section

variable (k : Nat) (fixing : Fixing t node sub (f :: g :: q) h)
  (red : isBlack (t.rb f.addr) = false) (black : isBlack (t.rb g.addr) = true)
  (sibBlack : rootBlack t.rb f.sib = true) (uncleBlack : rootBlack t.rb g.sib = true)
include k fixing red black sibBlack uncleBlack

theorem fixing_outer (side : f.side = g.side) :
    ∃ t' s', (do
        let t ← rotate ((t.set f.addr rbSetBlack).set g.addr rbSetRed) g.addr g.side.other
        insertColor (k + 1) t node) = some t' ∧
      Repaired t t' (plug sub (f :: g :: q)) s' (plug sub (f :: g :: q)).inorder := by
  obtain ⟨l, r, rfl⟩ := fixing.isRoot
  obtain ⟨heightS, heightU, rest⟩ := fixing.heights red black
  have whole : plug (Shape.node node l r) (f :: g :: q) = plug (join g.side g.addr
      (join g.side f.addr (join .left node l r) f.sib) g.sib) q := by
    rw [plug, plug, side]
    rfl
  have tree := fixing.toShaped
  rw [whole] at tree ⊢
  obtain ⟨t', ran, repaired⟩ :=
    rotate_repairs k tree fixing.height heightS heightU sibBlack uncleBlack rest
  exact ⟨t', _, ran, repaired⟩

theorem fixing_inner (side : f.side = g.side.other) :
    ∃ t' s', (do
        let t ← rotate t f.addr g.side
        let t ← rotate ((t.set node rbSetBlack).set g.addr rbSetRed) g.addr g.side.other
        insertColor (k + 1) t f.addr) = some t' ∧
      Repaired t t' (plug sub (f :: g :: q)) s' (plug sub (f :: g :: q)).inorder := by
  obtain ⟨l, r, subEq⟩ := fixing.isRoot
  obtain ⟨x, y, joinEq⟩ := Shape.exists_join g.side node l r
  obtain ⟨heightS, heightU, rest⟩ := fixing.heights red black
  obtain ⟨k', heightX, heightY, colours, eq⟩ :=
    blackHeight_join.mp ((joinEq ▸ subEq ▸ fixing.height :
      blackHeight t.rb (join g.side node x y) = some h))
  simp only [fixing.red, Bool.false_eq_true, false_or, if_false] at colours eq
  subst eq
  have whole : plug sub (f :: g :: q) =
      plug (join g.side f.addr f.sib (join g.side node x y)) (g :: q) := by
    rw [← joinEq, ← subEq, plug, side, Shape.join_other]
  have tree := fixing.toShaped
  rw [whole] at tree ⊢
  obtain ⟨t₁, ran₁, tree₁, colours₁, frame₁⟩ := rotate_shaped tree
  have order₁ : (plug (join g.side node (join g.side f.addr f.sib x) y) (g :: q)).inorder =
      (plug (join g.side f.addr f.sib (join g.side node x y)) (g :: q)).inorder :=
    Path.inorder_plug_congr (Shape.inorder_rotate ..) _
  have same : ∀ s, blackHeight t₁.rb s = blackHeight t.rb s := fun s =>
    blackHeight_congr fun n _ => colours₁ n
  have sameRoot : ∀ s, rootBlack t₁.rb s = rootBlack t.rb s := fun s =>
    rootBlack_congr fun n _ => colours₁ n
  have heightF : blackHeight t₁.rb (join g.side f.addr f.sib x) = some h := by
    rw [same]
    exact blackHeight_join.mpr ⟨h, heightS, heightX, .inr ⟨sibBlack, colours.1⟩, by simp [red]⟩
  obtain ⟨t', ran, repaired⟩ := rotate_repairs k tree₁ heightF
    ((same y).trans heightY) ((same g.sib).trans heightU) ((sameRoot y).trans colours.2)
    ((sameRoot g.sib).trans uncleBlack) (Path.balanced_congr (fun n _ => colours₁ n) rest)
  refine ⟨t', _, ?_, repaired.tree, repaired.order.trans order₁, repaired.redBlack, ?_⟩
  · rw [ran₁]
    exact ran
  · intro n out
    exact (repaired.frame n (order₁ ▸ out)).trans (frame₁ n out)

end

/-- The whole loop, by induction on the fuel: a round goes two frames up the path, or
is the last but one. -/
theorem insertColor_repairs (enough : p.length < fuel) (fixing : Fixing t node sub p h) :
    ∃ t' s', insertColor fuel t node = some t' ∧
      Repaired t t' (plug sub p) s' (plug sub p).inorder := by
  induction fuel generalizing t node h sub p with
  | zero => exact absurd enough (Nat.not_lt_zero _)
  | succ k ih =>
    cases p with
    | nil =>
      obtain ⟨t', ran, repaired⟩ := fixing_root k fixing
      exact ⟨t', sub, ran, repaired⟩
    | cons f p =>
      obtain ⟨up, parentZero, down, downOther⟩ := fixing.parent
      cases colour : isBlack (t.rb f.addr) with
      | true =>
        have redBlack : RedBlack t.rb (plug sub (f :: p)) :=
          Path.redBlack_plug.mpr ⟨h, fixing.height, fixing.balanced, .inr colour⟩
        refine ⟨t, _, ?_, fixing.toShaped, rfl, redBlack, fun _ _ => rfl⟩
        apply insertColor_stop k fixing.rep redBlack
        · obtain ⟨l, r, rfl⟩ := fixing.isRoot
          exact Path.plug_ne_leaf Shape.noConfusion _
        · rw [up]
          exact .inr colour
      | false =>
        obtain ⟨g, q, rfl, black, sibBlack⟩ := fixing.grandparent colour
        obtain ⟨upG, topZero, downG, downGOther, repU⟩ := fixing.links
        have goes : ¬ (f.addr = 0 ∨ isBlack (t.rb f.addr) = true) := by
          simp [parentZero, colour]
        have side : (if f.addr = (t.rb g.addr).left then Side.left else Side.right) = g.side := by
          cases at_ : g.side with
          | left =>
            rw [at_] at downG
            exact if_pos downG.symm
          | right =>
            rw [at_] at downGOther
            exact if_neg fun eq => downGOther eq.symm
        simp only [insertColor, up, if_neg goes, upG, if_neg topZero, side]
        obtain ⟨k, rfl⟩ : ∃ j, k = j + 1 := Nat.exists_eq_add_one_of_ne_zero (by
          simp only [List.length_cons] at enough
          omega)
        by_cases uncleRed : (t.rb g.addr).child g.side.other ≠ 0 ∧
            isBlack (t.rb ((t.rb g.addr).child g.side.other)) = false
        · rw [if_pos uncleRed]
          have shorter : q.length < k + 1 := by
            simp only [List.length_cons] at enough
            omega
          obtain ⟨t', s', ran, repaired⟩ := ih shorter
            (fixing_recolour fixing colour black rfl uncleRed.1 uncleRed.2)
          refine ⟨t', s', ran, repaired.tree, repaired.order, repaired.redBlack, ?_⟩
          intro n out
          rw [repaired.frame n out]
          have inU := (rep_root_mem repU).resolve_left uncleRed.1
          have inside : ∀ a ∈ (join g.side g.addr (join f.side f.addr sub f.sib) g.sib).inorder,
              n ≠ a := fun a member eq => out (Path.mem_plug (p := q).mpr (.inl (eq ▸ member)))
          rw [set_ne _ _ (inside g.addr (by simp)), set_ne _ _ (inside f.addr (by simp)),
            set_ne _ _ (inside _ (by simp [inU]))]
        · rw [if_neg uncleRed]
          have uncleBlack : rootBlack t.rb g.sib = true := by
            rw [← Bool.not_eq_false]
            exact fun red => uncleRed ((rep_rootRed repU).mp red)
          rcases Side.eq_or_other g.side f.side with same | opposite
          · have outer : (t.rb f.addr).child g.side.other ≠ node := by
              rw [← same]
              exact downOther
            rw [if_neg outer]
            exact fixing_outer k fixing colour black sibBlack uncleBlack same
          · rw [opposite] at down
            rw [if_pos down]
            exact fixing_inner k fixing colour black sibBlack uncleBlack opposite

end Tree

namespace Path

def slot : Path → Slot
  | [] => .root
  | f :: _ => .child f.addr f.side

theorem read_slot (hole : Hole t.rb t.root p ptr par) :
    t.read p.slot = ptr ∧ p.slot.parent = par := by
  cases p with
  | nil => exact ⟨hole.1.symm, hole.2.symm⟩
  | cons f p => exact ⟨hole.2.1.symm, hole.1.symm⟩

theorem length_le (t : Shape) (p : Path) : p.length ≤ (plug t p).inorder.length := by
  rw [(inorder_plug_perm t p).length_eq, List.length_append]
  have path : p.length ≤ (addrs p).length := by
    induction p with
    | nil => exact Nat.le_refl 0
    | cons f p ih =>
      simp only [addrs, List.cons_append, List.length_cons, List.length_append]
      omega
  omega

/-- A tree that is sorted, and a descent that respects its order: what lies before the
hole lies to the left of what is looked for. -/
theorem before_right {dir : Nat → Option Side}
    (leftwards : ∀ a b, R a b → dir b = some .right → dir a = some .right)
    (turns : ∀ f ∈ p, dir f.addr = some f.side) (sorted : (before p).Pairwise R) :
    ∀ n ∈ before p, dir n = some .right := by
  induction p with
  | nil => simp [before]
  | cons f p ih =>
    have rest := fun g member => turns g (List.mem_cons_of_mem f member)
    have mine := turns f List.mem_cons_self
    obtain ⟨s, a, sib⟩ := f
    cases s with
    | left => exact ih rest sorted
    | right =>
      obtain ⟨sortedP, sortedS, -⟩ := List.pairwise_append.mp sorted
      intro n member
      rcases List.mem_append.mp member with above | here
      · exact ih rest sortedP n above
      · rcases List.mem_append.mp here with below | last
        · have ordered := (List.pairwise_append.mp sortedS).2.2 n below a (by simp)
          exact leftwards n a ordered mine
        · rw [List.mem_singleton.mp last]
          exact mine

theorem after_left {dir : Nat → Option Side}
    (rightwards : ∀ a b, R a b → dir a = some .left → dir b = some .left)
    (turns : ∀ f ∈ p, dir f.addr = some f.side) (sorted : (after p).Pairwise R) :
    ∀ n ∈ after p, dir n = some .left := by
  induction p with
  | nil => simp [after]
  | cons f p ih =>
    have rest := fun g member => turns g (List.mem_cons_of_mem f member)
    have mine := turns f List.mem_cons_self
    obtain ⟨s, a, sib⟩ := f
    cases s with
    | right => exact ih rest sorted
    | left =>
      obtain ⟨sortedS, sortedP, -⟩ := List.pairwise_append.mp sorted
      intro n member
      rcases List.mem_append.mp member with here | above
      · rcases List.mem_cons.mp here with first | below
        · rw [first]
          exact mine
        · exact rightwards a n ((List.pairwise_cons.mp sortedS).1 n below) mine
      · exact ih rest sortedP n above

end Path

theorem height_le (s : Shape) : s.height ≤ s.inorder.length := by
  induction s with
  | leaf => exact Nat.le_refl 0
  | node a l r left right =>
    simp only [Shape.height, Shape.inorder, List.length_append, List.length_cons]
    omega

namespace Tree

theorem descend_total (dir : Nat → Option Side) (rep : Rep t.rb t.root 0 (plug sub p))
    (enough : sub.height < fuel) (turns : ∀ f ∈ p, dir f.addr = some f.side) :
    (∃ a ∈ sub.inorder, dir a = none ∧ descend dir t fuel p.slot = some (.node a)) ∨
      ∃ q : Path, plug .leaf q = plug sub p ∧ (∀ f ∈ q, dir f.addr = some f.side) ∧
        descend dir t fuel p.slot = some (.slot q.slot) := by
  induction sub generalizing p fuel with
  | leaf =>
    obtain ⟨ptr, par, hole, empty⟩ := Path.rep_plug.mp rep
    obtain ⟨k, rfl⟩ := Nat.exists_eq_add_of_lt enough
    have zero : t.read p.slot = 0 := (Path.read_slot hole).1.trans empty
    exact .inr ⟨p, rfl, turns, by simp [descend, zero]⟩
  | node a l r left right =>
    obtain ⟨ptr, par, hole, here⟩ := Path.rep_plug.mp rep
    obtain ⟨k, rfl⟩ := Nat.exists_eq_add_of_lt enough
    obtain ⟨rfl, nonzero, -, -, -⟩ := here
    have at_ : t.read p.slot = ptr := (Path.read_slot hole).1
    simp only [Shape.height] at enough
    have go : ∀ side, dir ptr = some side →
        descend dir t (Shape.height (.node ptr l r) + k + 1) p.slot =
          descend dir t (Shape.height (.node ptr l r) + k) (.child ptr side) := by
      intro side turn
      simp [descend, at_, nonzero, turn]
    cases turn : dir ptr with
    | none =>
      exact .inl ⟨ptr, by simp [Shape.inorder], turn, by simp [descend, at_, nonzero, turn]⟩
    | some side =>
      rw [go side turn]
      have turns' : ∀ sib, ∀ g ∈ (⟨side, ptr, sib⟩ : Frame) :: p, dir g.addr = some g.side :=
        fun _ => List.forall_mem_cons.mpr ⟨turn, turns⟩
      cases side with
      | left =>
        have longer : l.height < Shape.height (.node ptr l r) + k := by
          simp only [Shape.height]
          omega
        refine (left (p := ⟨.left, ptr, r⟩ :: p) rep longer (turns' r)).imp_left ?_
        rintro ⟨b, member, found⟩
        exact ⟨b, by simp [Shape.inorder, member], found⟩
      | right =>
        have longer : r.height < Shape.height (.node ptr l r) + k := by
          simp only [Shape.height]
          omega
        refine (right (p := ⟨.right, ptr, l⟩ :: p) rep longer (turns' l)).imp_left ?_
        rintro ⟨b, member, found⟩
        exact ⟨b, by simp [Shape.inorder, member], found⟩

theorem linkNode_writes (t : Tree) (hole : Path.Hole t.rb t.root p ptr par)
    (fresh : node ∉ addrs p) :
    (linkNode t node p.slot).rb node = ⟨par, 0, 0⟩ ∧
      (par = 0 → (linkNode t node p.slot).root = node) ∧
      (∀ f q, p = f :: q → (linkNode t node p.slot).root = t.root ∧
        (linkNode t node p.slot).rb f.addr = (t.rb f.addr).setChild f.side node) ∧
      ∀ n, n ≠ node → (par ≠ 0 → n ≠ par) → (linkNode t node p.slot).rb n = t.rb n := by
  have parent := (Path.read_slot hole).2
  cases p with
  | nil =>
    refine ⟨?_, fun _ => rfl, fun f q eq => (nomatch eq), ?_⟩
    · rw [← parent]
      exact set_same t node fun _ => ⟨Slot.parent .root, 0, 0⟩
    · intro n isNode _
      exact set_ne t (fun _ => ⟨Slot.parent .root, 0, 0⟩) isNode
  | cons f q =>
    obtain ⟨rfl, -, parZero, -, -⟩ := hole
    have apart : node ≠ f.addr := fun eq => fresh (by simp [addrs, eq])
    refine ⟨?_, fun top => absurd top parZero, ?_, ?_⟩
    · simp [linkNode, write, Path.slot, Slot.parent, set_ne _ _ apart]
    · rintro g r ⟨⟩
      exact ⟨rfl, by simp [linkNode, write, Path.slot, set_ne _ _ apart.symm]⟩
    · intro n isNode isPar
      simp [linkNode, write, Path.slot, set_ne _ _ (isPar parZero), set_ne _ _ isNode]

section

variable (tree : t.Shaped (plug .leaf p)) (redBlack : RedBlack t.rb (plug .leaf p))
  (nonzero : node ≠ 0) (nodeAligned : node % 4 = 0) (fresh : node ∉ (plug .leaf p).inorder)
include tree redBlack nonzero nodeAligned fresh

theorem fixing_link :
    Fixing (linkNode t node p.slot) node (.node node .leaf .leaf) p 0 ∧
      ∀ n ∉ (plug (.node node .leaf .leaf) p).inorder,
        (linkNode t node p.slot).rb n = t.rb n := by
  obtain ⟨ptr, par, hole, -⟩ := Path.rep_plug.mp tree.rep
  obtain ⟨-, distinctP, -⟩ := Path.nodup_plug.mp tree.distinct
  have freshP : node ∉ addrs p := fun member => fresh (Path.mem_plug.mpr (.inr member))
  have parAligned : par % 4 = 0 := by
    by_cases top : par = 0
    · rw [top]
    · exact tree.aligned par (Path.mem_plug.mpr (.inr (Path.hole_par_mem hole top)))
  obtain ⟨atNode, atRoot, atPath, same⟩ := linkNode_writes t hole freshP
  have hole' : Path.Hole (linkNode t node p.slot).rb (linkNode t node p.slot).root p node par := by
    apply Path.hole_redirect hole distinctP atRoot atPath
    intro n member isPar
    exact same n (fun eq => freshP (eq ▸ member)) (fun _ => isPar)
  have parent : rbParent ((linkNode t node p.slot).rb node) = par := by
    rw [atNode]
    simp only [rbParent]
    omega
  have red : isBlack ((linkNode t node p.slot).rb node) = false := by
    have even : par % 2 = 0 := by omega
    simp [atNode, isBlack, even]
  have colours : ∀ n ∈ addrs p,
      isBlack ((linkNode t node p.slot).rb n) = isBlack (t.rb n) := by
    intro n member
    by_cases isPar : n = par
    · cases p with
      | nil => cases member
      | cons f q => rw [isPar, hole.1, (atPath f q rfl).2, RbNode.isBlack_setChild]
    · rw [same n (fun eq => freshP (eq ▸ member)) (fun _ => isPar)]
  obtain ⟨h, height, balanced, -⟩ := Path.redBlack_plug.mp redBlack
  cases height
  refine ⟨⟨⟨?_, ?_, ?_⟩, ⟨_, _, rfl⟩, red, ?_, Path.balanced_congr colours balanced⟩, ?_⟩
  · refine Path.rep_plug.mpr ⟨node, par, hole', rfl, nonzero, parent, ?_, ?_⟩
    · rw [atNode]
      exact rfl
    · rw [atNode]
      exact rfl
  · refine Path.nodup_plug.mpr ⟨by simp [Shape.inorder], distinctP, ?_⟩
    simpa [Shape.inorder] using freshP
  · intro n member
    rcases Path.mem_plug.mp member with isNode | above
    · rw [show n = node by simpa [Shape.inorder] using isNode]
      exact nodeAligned
    · exact tree.aligned n (Path.mem_plug.mpr (.inr above))
  · exact blackHeight_node.mpr ⟨0, rfl, rfl, .inr ⟨rfl, rfl⟩, by simp [red]⟩
  · intro n out
    simp only [Path.mem_plug, Shape.inorder, List.nil_append, List.mem_singleton, not_or] at out
    exact same n out.1 (fun top eq => out.2 (eq ▸ Path.hole_par_mem hole top))

theorem insert_node (enough : p.length < fuel) :
    ∃ t' s', insertColor fuel (linkNode t node p.slot) node = some t' ∧
      t'.Shaped s' ∧ s'.inorder = p.before ++ node :: p.after ∧ RedBlack t'.rb s' ∧
      ∀ n, n ≠ node → n ∉ (plug .leaf p).inorder → t'.rb n = t.rb n := by
  obtain ⟨fixing, linked⟩ := fixing_link tree redBlack nonzero nodeAligned fresh
  obtain ⟨t', s', ran, repaired⟩ := insertColor_repairs enough fixing
  refine ⟨t', s', ran, repaired.tree, ?_, repaired.redBlack, ?_⟩
  · rw [repaired.order, Path.inorder_plug]
    simp [Shape.inorder]
  · intro n isNode out
    have outside : n ∉ (plug (.node node .leaf .leaf) p).inorder := by
      simp only [Path.mem_plug, Shape.inorder, List.not_mem_nil, false_or] at out
      simp only [Path.mem_plug, Shape.inorder, List.nil_append, List.mem_singleton, not_or]
      exact ⟨isNode, out⟩
    rw [repaired.frame n outside, linked n outside]

end

end Tree

end RbTree
