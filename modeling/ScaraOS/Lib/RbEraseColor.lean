import ScaraOS.Lib.RbInsert

/-! The repair after an erasure from a red-black tree threaded through memory. A subtree
is one black node short, and the loop moves up its `Path` until the shortage can be made
good. That the sibling it looks at is there follows from the black height. -/

namespace RbTree

open Shape (join)
open Path (plug addrs)

/-- `(rb_parent_color & ~1) | color`. -/
def rbSetColor (n : RbNode) (black : Bool) : RbNode := if black then rbSetBlack n else rbSetRed n

@[simp] theorem isBlack_rbSetColor (n : RbNode) (black : Bool) :
    isBlack (rbSetColor n black) = black := by
  cases black with
  | true => exact isBlack_rbSetBlack n
  | false => exact isBlack_rbSetRed n

@[simp] theorem child_rbSetColor (n : RbNode) (black : Bool) (s : Side) :
    (rbSetColor n black).child s = n.child s := by
  cases black with
  | true => exact child_rbSetBlack n s
  | false => exact child_rbSetRed n s

theorem sameLinks_setColor (t : Tree) (a : Nat) (black : Bool) :
    SameLinks t (t.set a (rbSetColor · black)) := by
  cases black with
  | true => exact sameLinks_setBlack t a
  | false => exact sameLinks_setRed t a

namespace Tree

def noRed (t : Tree) (n : Nat) : Bool := n = 0 ∨ isBlack (t.rb n)

/-- A red sibling is turned up; no result, here and below, is a dereference of `NULL`. -/
def redSibling (t : Tree) (parent : Nat) (side : Side) : Option Tree :=
  let other := (t.rb parent).child side.other
  if other = 0 then none
  else if isBlack (t.rb other) then some t
  else rotate ((t.set other rbSetBlack).set parent rbSetRed) parent side

def innerRed (t : Tree) (other : Nat) (side : Side) : Option Tree :=
  if t.noRed ((t.rb other).child side.other) then
    let near := (t.rb other).child side
    if near = 0 then none
    else rotate ((t.set near rbSetBlack).set other rbSetRed) other side.other
  else some t

def lastRotation (t : Tree) (parent : Nat) (side : Side) : Option Tree :=
  let other := (t.rb parent).child side.other
  if other = 0 then none
  else
    let t := t.set other (rbSetColor · (isBlack (t.rb parent)))
    let t := t.set parent rbSetBlack
    let far := (t.rb other).child side.other
    if far = 0 then none else rotate (t.set far rbSetBlack) parent side

def blacken (t : Tree) (node : Nat) : Tree := if node = 0 then t else t.set node rbSetBlack

/-- `__rb_erase_color`. The two halves of the loop body differ in the side only. -/
def eraseColor : Nat → Tree → Nat → Nat → Option Tree
  | 0, _, _, _ => none
  | k + 1, t, node, parent =>
    if t.noRed node ∧ node ≠ t.root then
      if parent = 0 then none
      else do
        let side := if (t.rb parent).left = node then Side.left else Side.right
        let t ← redSibling t parent side
        let other := (t.rb parent).child side.other
        if other = 0 then none
        else if t.noRed ((t.rb other).child side) ∧ t.noRed ((t.rb other).child side.other) then
          let t := t.set other rbSetRed
          eraseColor k t parent (rbParent (t.rb parent))
        else do
          let t ← innerRed t other side
          let t ← lastRotation t parent side
          some (t.blacken t.root)
    else some (t.blacken node)

end Tree

def Shape.root : Shape → Nat
  | .leaf => 0
  | .node a _ _ => a

def Path.top : Path → Nat
  | [] => 0
  | f :: _ => f.addr

@[simp] theorem Shape.root_join (s : Side) (a : Nat) (x y : Shape) : (join s a x y).root = a := by
  cases s <;> rfl

variable {rb : Nat → RbNode} {ptr par o h : Nat} {s sub x y : Shape} {p q : Path} {f : Frame}
  {t t' : Tree}

theorem rep_root (rep : Rep rb ptr par s) : ptr = s.root := by
  cases s with
  | leaf => exact rep
  | node a l r => exact rep.1

theorem Shape.root_mem (nonempty : s ≠ .leaf) : s.root ∈ s.inorder := by
  cases s with
  | leaf => exact absurd rfl nonempty
  | node a l r => simp [Shape.root, Shape.inorder]

theorem Shape.root_mem_of_ne (nonzero : s.root ≠ 0) : s.root ∈ s.inorder := by
  refine Shape.root_mem ?_
  rintro rfl
  exact nonzero rfl

theorem rep_ne_zero (rep : Rep rb ptr par s) (nonempty : s ≠ .leaf) : ptr ≠ 0 := by
  rintro rfl
  exact nonempty (rep_zero rep)

theorem Path.hole_of_rep {root : Nat} (rep : Rep rb root 0 (plug sub p)) :
    Hole rb root p sub.root p.top ∧ Rep rb sub.root p.top sub := by
  obtain ⟨ptr, par, hole, here⟩ := rep_plug.mp rep
  obtain rfl := rep_root here
  have up : par = p.top := by
    cases p with
    | nil => exact hole.2
    | cons f q => exact hole.1
  rw [up] at hole here
  exact ⟨hole, here⟩

theorem Path.root_ne (tree : t.Shaped (plug sub (f :: q))) : sub.root ≠ t.root := by
  have above : ∀ (t : Shape) (g : Frame) (p : Path), (plug t (g :: p)).root ∈ addrs (g :: p) := by
    intro t g p
    induction p generalizing t g with
    | nil => simp [plug, addrs]
    | cons g' p ih =>
      have higher := ih (join g.side g.addr t g.sib) g'
      simp only [addrs, List.cons_append, List.mem_cons, List.mem_append] at higher ⊢
      rw [plug]
      exact .inr (.inr higher)
  have top := above sub f q
  have rep := tree.rep
  have same : t.root = (plug sub (f :: q)).root := rep_root rep
  obtain ⟨-, -, apart⟩ := nodup_plug.mp tree.distinct
  intro eq
  rw [← same, ← eq] at top
  by_cases empty : sub = .leaf
  · have zero : t.root = 0 := by rw [← eq, empty]; rfl
    have nonempty : plug sub (f :: q) ≠ .leaf := by
      rw [plug]
      apply plug_ne_leaf
      cases f.side with
      | left | right => exact Shape.noConfusion
    rw [zero] at rep
    exact nonempty (rep_zero rep)
  · exact apart sub.root (Shape.root_mem empty) top

theorem Tree.noRed_iff (rep : Rep t.rb ptr par s) : t.noRed ptr = rootBlack t.rb s := by
  have red := rep_rootRed rep
  unfold noRed
  cases colour : rootBlack t.rb s with
  | false =>
    obtain ⟨nonzero, isRed⟩ := red.mp colour
    simp [nonzero, isRed]
  | true =>
    have not_red : ¬ (ptr ≠ 0 ∧ isBlack (t.rb ptr) = false) := by
      rw [← red, colour]
      decide
    rw [decide_eq_true_eq]
    by_contra neither
    rw [not_or] at neither
    exact not_red ⟨neither.1, Bool.not_eq_true _ ▸ neither.2⟩

/-- Everything is in order but that the tree in the hole is one black node short. -/
structure Deficit (t : Tree) (sub : Shape) (p : Path) (h : Nat) : Prop
    extends t.Shaped (plug sub p) where
  height : blackHeight t.rb sub = some h
  balanced : Path.Balanced t.rb p (h + 1)

structure Around (sub : Shape) (pa o : Nat) (x y : Shape) (q : Path) : Prop where
  pair : pa ≠ o
  hole : ∀ n ∈ sub.inorder, n ≠ pa ∧ n ≠ o ∧ n ∉ x.inorder ∧ n ∉ y.inorder
  near : ∀ n ∈ x.inorder, n ≠ pa ∧ n ≠ o ∧ n ∉ y.inorder
  far : ∀ n ∈ y.inorder, n ≠ pa ∧ n ≠ o
  above : ∀ n ∈ addrs q, n ≠ pa ∧ n ≠ o ∧ n ∉ sub.inorder ∧ n ∉ x.inorder ∧ n ∉ y.inorder

theorem around_of_nodup {s : Side} {pa : Nat}
    (distinct : (plug sub (⟨s, pa, join s o x y⟩ :: q)).inorder.Nodup) :
    Around sub pa o x y q := by
  obtain ⟨whole, -, apart⟩ := Path.nodup_plug.mp (by rw [plug] at distinct; exact distinct)
  obtain ⟨-, sib, paSub, paSib, subSib⟩ := Shape.nodup_join.mp whole
  obtain ⟨-, -, oX, oY, xY⟩ := Shape.nodup_join.mp sib
  simp only [Shape.mem_inorder_join, not_or] at paSib subSib apart
  refine ⟨paSib.1, ?_, ?_, ?_, ?_⟩
  · intro n member
    obtain ⟨isO, inX, inY⟩ := subSib n member
    exact ⟨fun eq => paSub (eq ▸ member), isO, inX, inY⟩
  · intro n member
    exact ⟨fun eq => paSib.2.1 (eq ▸ member), fun eq => oX (eq ▸ member), xY n member⟩
  · intro n member
    exact ⟨fun eq => paSib.2.2 (eq ▸ member), fun eq => oY (eq ▸ member)⟩
  · intro n member
    refine ⟨?_, ?_, ?_, ?_, ?_⟩
    · rintro rfl
      exact apart n (.inl rfl) member
    · rintro rfl
      exact apart n (.inr (.inr (.inl rfl))) member
    · exact fun inside => apart n (.inr (.inl inside)) member
    · exact fun inside => apart n (.inr (.inr (.inr (.inl inside)))) member
    · exact fun inside => apart n (.inr (.inr (.inr (.inr inside)))) member

section
variable {t : Tree} {sub x y : Shape} {s : Side} {pa o h : Nat} {q : Path}

theorem ne_of_out {n : Nat} {u : Shape} (out : n ∉ (plug sub (⟨s, pa, u⟩ :: q)).inorder) :
    ∀ a ∈ (join s pa sub u).inorder, n ≠ a := by
  rintro a member rfl
  rw [plug] at out
  exact out (Path.mem_plug.mpr (.inl member))

theorem Deficit.sibling (deficit : Deficit t sub (⟨s, pa, join s o x y⟩ :: q) h) :
    ∃ k, blackHeight t.rb x = some k ∧ blackHeight t.rb y = some k ∧
      (isBlack (t.rb o) = true ∨ rootBlack t.rb x ∧ rootBlack t.rb y) ∧
      h + 1 = (if isBlack (t.rb o) then k + 1 else k) ∧
      (isBlack (t.rb pa) = true ∨ isBlack (t.rb o) = true ∧ Path.topBlack t.rb q = true) ∧
      Path.Balanced t.rb q (if isBlack (t.rb pa) then h + 2 else h + 1) := by
  obtain ⟨height, colour, rest⟩ := deficit.balanced
  obtain ⟨k, heightX, heightY, clash, eq⟩ := blackHeight_join.mp height
  rw [rootBlack_join] at colour
  exact ⟨k, heightX, heightY, clash, eq, colour, rest⟩

theorem Deficit.nodes (deficit : Deficit t sub (⟨s, pa, join s o x y⟩ :: q) h) :
    (pa ≠ 0 ∧ rbParent (t.rb pa) = Path.top q ∧ Rep t.rb ((t.rb pa).child s) pa sub) ∧
      (t.rb pa).child s.other = o ∧ o ≠ 0 ∧ Rep t.rb ((t.rb o).child s) o x ∧
      Rep t.rb ((t.rb o).child s.other) o y := by
  have whole : Rep t.rb t.root 0 (plug (join s pa sub (join s o x y)) q) := deficit.rep
  obtain ⟨-, repPa⟩ := Path.hole_of_rep whole
  obtain ⟨-, paZero, up, repSub, repO⟩ := rep_join.mp repPa
  obtain ⟨otherEq, otherZero, -, repX, repY⟩ := rep_join.mp repO
  exact ⟨⟨paZero, up, repSub⟩, otherEq, otherZero, repX, repY⟩

theorem Around.kept (around : Around sub pa o x y q)
    (same : ∀ n, n ≠ pa → n ≠ o → n ∉ y.inorder → isBlack (t'.rb n) = isBlack (t.rb n)) :
    blackHeight t'.rb sub = blackHeight t.rb sub ∧ blackHeight t'.rb x = blackHeight t.rb x ∧
      rootBlack t'.rb x = rootBlack t.rb x ∧
      (∀ k, Path.Balanced t.rb q k → Path.Balanced t'.rb q k) ∧
      Path.topBlack t'.rb q = Path.topBlack t.rb q := by
  have inSub : ∀ n ∈ sub.inorder, isBlack (t'.rb n) = isBlack (t.rb n) := by
    intro n member
    obtain ⟨isPa, isO, -, inY⟩ := around.hole n member
    exact same n isPa isO inY
  have inX : ∀ n ∈ x.inorder, isBlack (t'.rb n) = isBlack (t.rb n) := by
    intro n member
    obtain ⟨isPa, isO, inY⟩ := around.near n member
    exact same n isPa isO inY
  have inQ : ∀ n ∈ addrs q, isBlack (t'.rb n) = isBlack (t.rb n) := by
    intro n member
    obtain ⟨isPa, isO, -, -, inY⟩ := around.above n member
    exact same n isPa isO inY
  exact ⟨blackHeight_congr inSub, blackHeight_congr inX, rootBlack_congr inX,
    fun k balanced => Path.balanced_congr inQ balanced, Path.topBlack_congr inQ⟩

theorem Around.far_kept (around : Around sub pa o x y q)
    (same : ∀ n, n ≠ pa → n ≠ o → isBlack (t'.rb n) = isBlack (t.rb n)) :
    blackHeight t'.rb y = blackHeight t.rb y ∧ rootBlack t'.rb y = rootBlack t.rb y := by
  have inY : ∀ n ∈ y.inorder, isBlack (t'.rb n) = isBlack (t.rb n) := by
    intro n member
    obtain ⟨isPa, isO⟩ := around.far n member
    exact same n isPa isO
  exact ⟨blackHeight_congr inY, rootBlack_congr inY⟩

theorem deficit_redSibling (deficit : Deficit t sub (⟨s, pa, join s o x y⟩ :: q) h)
    (red : isBlack (t.rb o) = false) :
    ∃ t', Tree.rotate ((t.set o rbSetBlack).set pa rbSetRed) pa s = some t' ∧
      Deficit t' sub (⟨s, pa, x⟩ :: ⟨s, o, y⟩ :: q) h ∧ isBlack (t'.rb pa) = false ∧
      rootBlack t'.rb x = true ∧
      ∀ n ∉ (plug sub (⟨s, pa, join s o x y⟩ :: q)).inorder, t'.rb n = t.rb n := by
  have around := around_of_nodup deficit.distinct
  obtain ⟨k, heightX, heightY, clash, eq, colour, rest⟩ := deficit.sibling
  have black : isBlack (t.rb pa) = true := by
    rcases colour with black | ⟨impossible, -⟩
    · exact black
    · rw [red] at impossible
      cases impossible
  simp only [red, Bool.false_eq_true, false_or, if_false] at clash eq
  rw [black, if_pos rfl] at rest
  subst eq
  have links := (sameLinks_setBlack t o).trans (sameLinks_setRed _ pa)
  obtain ⟨t', ran, tree, colours, frame⟩ := Tree.rotate_shaped (deficit.toShaped.recolour links)
  have redPa : isBlack (t'.rb pa) = false := by
    rw [colours, Tree.set_same, isBlack_rbSetRed]
  have blackO : isBlack (t'.rb o) = true := by
    rw [colours, Tree.set_ne _ _ around.pair.symm, Tree.set_same, isBlack_rbSetBlack]
  have same : ∀ n, n ≠ pa → n ≠ o → isBlack (t'.rb n) = isBlack (t.rb n) := fun n isPa isO => by
    rw [colours, Tree.set_ne _ _ isPa, Tree.set_ne _ _ isO]
  obtain ⟨atSub, atX, rootX, atQ, -⟩ := around.kept fun n isPa isO _ => same n isPa isO
  obtain ⟨atY, -⟩ := around.far_kept same
  have blackX : rootBlack t'.rb x = true := rootX.trans clash.1
  refine ⟨t', ran, ⟨tree, atSub.trans deficit.height, ?_⟩, redPa, blackX, ?_⟩
  · refine ⟨atX.trans heightX, .inr ⟨blackX, blackO⟩, ?_⟩
    rw [redPa, if_neg Bool.false_ne_true]
    refine ⟨atY.trans heightY, .inl blackO, ?_⟩
    rw [blackO, if_pos rfl]
    exact atQ _ rest
  · intro n out
    have inside := ne_of_out out
    rw [frame n out, Tree.set_ne _ _ (inside pa (by simp)), Tree.set_ne _ _ (inside o (by simp))]

section

variable (deficit : Deficit t sub (⟨s, pa, join s o x y⟩ :: q) h) (blackO : isBlack (t.rb o) = true)
include deficit blackO

theorem Deficit.black_sibling : blackHeight t.rb x = some h ∧ blackHeight t.rb y = some h ∧
    (isBlack (t.rb pa) = true ∨ Path.topBlack t.rb q = true) ∧
    Path.Balanced t.rb q (if isBlack (t.rb pa) then h + 2 else h + 1) := by
  obtain ⟨k, heightX, heightY, -, eq, colour, rest⟩ := deficit.sibling
  rw [blackO, if_pos rfl] at eq
  obtain rfl : h = k := Nat.succ.inj eq
  exact ⟨heightX, heightY, colour.imp_right And.right, rest⟩

/-- A sibling with no red child turns red, under a parent that is black or turns black. -/
theorem Deficit.reddened (blackX : rootBlack t.rb x = true) (blackY : rootBlack t.rb y = true)
    (redO : isBlack (t'.rb o) = false) (blackPa : isBlack (t'.rb pa) = true)
    (same : ∀ n, n ≠ pa → n ≠ o → isBlack (t'.rb n) = isBlack (t.rb n)) :
    blackHeight t'.rb (join s pa sub (join s o x y)) = some (h + 1) ∧
      Path.Balanced t'.rb q (if isBlack (t.rb pa) then h + 2 else h + 1) := by
  have around := around_of_nodup deficit.distinct
  obtain ⟨heightX, heightY, -, rest⟩ := deficit.black_sibling blackO
  obtain ⟨atSub, atX, rootX, atQ, -⟩ := around.kept fun n isPa isO _ => same n isPa isO
  obtain ⟨atY, rootY⟩ := around.far_kept same
  have sibling : blackHeight t'.rb (join s o x y) = some h :=
    blackHeight_join.mpr ⟨h, atX.trans heightX, atY.trans heightY,
      .inr ⟨rootX.trans blackX, rootY.trans blackY⟩, by rw [redO]; rfl⟩
  refine ⟨?_, atQ _ rest⟩
  exact blackHeight_join.mpr ⟨h, atSub.trans deficit.height, sibling, .inl blackPa,
    by rw [blackPa]; rfl⟩

/-- Under a black parent the shortage is then that of the whole tree under the parent. -/
theorem deficit_up (blackX : rootBlack t.rb x = true) (blackY : rootBlack t.rb y = true)
    (black : isBlack (t.rb pa) = true) :
    Deficit (t.set o rbSetRed) (join s pa sub (join s o x y)) q (h + 1) := by
  have pair := (around_of_nodup deficit.distinct).pair
  have redO : isBlack ((t.set o rbSetRed).rb o) = false := by
    rw [Tree.set_same, isBlack_rbSetRed]
  obtain ⟨height, rest⟩ := deficit.reddened blackO blackX blackY redO
    (by rw [Tree.set_ne _ _ pair]; exact black)
    fun n _ isO => by rw [Tree.set_ne _ _ isO]
  rw [black, if_pos rfl] at rest
  exact ⟨deficit.toShaped.recolour (sameLinks_setRed t o), height, rest⟩

theorem deficit_settled (blackX : rootBlack t.rb x = true) (blackY : rootBlack t.rb y = true)
    (red : isBlack (t.rb pa) = false) :
    Tree.Repaired t ((t.set o rbSetRed).set pa rbSetBlack)
      (plug sub (⟨s, pa, join s o x y⟩ :: q)) (plug sub (⟨s, pa, join s o x y⟩ :: q))
      (plug sub (⟨s, pa, join s o x y⟩ :: q)).inorder := by
  have pair := (around_of_nodup deficit.distinct).pair
  have blackPa : isBlack (((t.set o rbSetRed).set pa rbSetBlack).rb pa) = true := by
    rw [Tree.set_same, isBlack_rbSetBlack]
  obtain ⟨height, rest⟩ := deficit.reddened blackO blackX blackY
    (by rw [Tree.set_ne _ _ pair.symm, Tree.set_same, isBlack_rbSetRed]) blackPa
    fun n isPa isO => by rw [Tree.set_ne _ _ isPa, Tree.set_ne _ _ isO]
  rw [red, if_neg Bool.false_ne_true] at rest
  have links := (sameLinks_setRed t o).trans (sameLinks_setBlack _ pa)
  refine ⟨deficit.toShaped.recolour links, rfl, ?_, ?_⟩
  · rw [plug]
    refine Path.redBlack_plug.mpr ⟨h + 1, height, rest, .inl ?_⟩
    rw [rootBlack_join]
    exact blackPa
  · intro n out
    have inside := ne_of_out out
    rw [Tree.set_ne _ _ (inside pa (by simp)), Tree.set_ne _ _ (inside o (by simp))]

theorem deficit_outer (redY : rootBlack t.rb y = false) :
    ∃ t' u, t.lastRotation pa s = some t' ∧
      Tree.Repaired t t' (plug sub (⟨s, pa, join s o x y⟩ :: q)) u
        (plug sub (⟨s, pa, join s o x y⟩ :: q)).inorder := by
  have around := around_of_nodup deficit.distinct
  obtain ⟨heightX, heightY, colour, rest⟩ := deficit.black_sibling blackO
  obtain ⟨-, otherEq, otherZero, -, repY⟩ := deficit.nodes
  obtain ⟨farZero, farRed⟩ := (rep_rootRed repY).mp redY
  generalize farEq : (t.rb o).child s.other = far at *
  have farIn : far ∈ y.inorder := (rep_root_mem repY).resolve_left farZero
  obtain ⟨farPa, farO⟩ := around.far far farIn
  -- the three colours that change before the rotation
  let t₁ : Tree := ((t.set o (rbSetColor · (isBlack (t.rb pa)))).set pa rbSetBlack).set far rbSetBlack
  have links : SameLinks t t₁ := ((sameLinks_setColor t o _).trans
    (sameLinks_setBlack _ pa)).trans (sameLinks_setBlack _ far)
  have called : t.lastRotation pa s = Tree.rotate t₁ pa s := by
    have unmoved : ((t.set o (rbSetColor · (isBlack (t.rb pa)))).set pa rbSetBlack).rb o =
        rbSetColor (t.rb o) (isBlack (t.rb pa)) := by
      rw [Tree.set_ne _ _ around.pair.symm, Tree.set_same]
    simp only [Tree.lastRotation, otherEq, if_neg otherZero, unmoved, child_rbSetColor, farEq,
      if_neg farZero]
    rfl
  obtain ⟨t', ran, tree, colours, frame⟩ := Tree.rotate_shaped (deficit.toShaped.recolour links)
  have colourO : isBlack (t'.rb o) = isBlack (t.rb pa) := by
    rw [colours, Tree.set_ne _ _ farO.symm, Tree.set_ne _ _ around.pair.symm, Tree.set_same,
      isBlack_rbSetColor]
  have blackPa : isBlack (t'.rb pa) = true := by
    rw [colours, Tree.set_ne _ _ farPa.symm, Tree.set_same, isBlack_rbSetBlack]
  have blackFar : isBlack (t'.rb far) = true := by
    rw [colours, Tree.set_same, isBlack_rbSetBlack]
  have same : ∀ n, n ≠ pa → n ≠ o → n ≠ far → isBlack (t'.rb n) = isBlack (t.rb n) := by
    intro n isPa isO isFar
    rw [colours, Tree.set_ne _ _ isFar, Tree.set_ne _ _ isPa, Tree.set_ne _ _ isO]
  obtain ⟨atSub, atX, -, atQ, topQ⟩ := around.kept fun n isPa isO inY =>
    same n isPa isO fun eq => inY (eq ▸ farIn)
  -- the far tree is one black node higher
  obtain ⟨l, r, rfl⟩ : ∃ l r, y = .node far l r := by
    cases y with
    | leaf => cases farIn
    | node a l r => exact ⟨l, r, by rw [repY.1]⟩
  have distinctY : (Shape.node far l r).inorder.Nodup := by
    have distinct : (plug (join s pa sub (join s o x (.node far l r))) q).inorder.Nodup :=
      deficit.distinct
    obtain ⟨nodes, -⟩ := Path.nodup_plug.mp distinct
    exact (Shape.nodup_join.mp (Shape.nodup_join.mp nodes).2.1).2.1
  have raised : blackHeight t'.rb (.node far l r) = some (h + 1) := by
    refine blackHeight_blacken distinctY farRed blackFar (fun n member isFar => ?_) heightY
    obtain ⟨isPa, isO⟩ := around.far n member
    exact same n isPa isO isFar
  have inner : blackHeight t'.rb (join s pa sub x) = some (h + 1) :=
    blackHeight_join.mpr ⟨h, atSub.trans deficit.height, atX.trans heightX, .inl blackPa,
      by rw [blackPa]; rfl⟩
  refine ⟨t', plug (join s o (join s pa sub x) (.node far l r)) q, called.trans ran, tree, ?_,
    ?_, ?_⟩
  · exact Path.inorder_plug_congr (Shape.inorder_rotate s pa o sub x _) q
  · refine Path.redBlack_plug.mpr ⟨_, blackHeight_join.mpr ⟨h + 1, inner, raised,
      .inr ⟨?_, blackFar⟩, rfl⟩, ?_, ?_⟩
    · rw [rootBlack_join]
      exact blackPa
    · rw [colourO]
      exact atQ _ rest
    · rw [rootBlack_join, colourO, topQ]
      exact colour
  · intro n out
    have inside := ne_of_out out
    rw [frame n out, Tree.set_ne _ _ (inside far (by simp [Shape.inorder])),
      Tree.set_ne _ _ (inside pa (by simp)), Tree.set_ne _ _ (inside o (by simp))]

theorem deficit_inner (redX : rootBlack t.rb x = false) (blackY : rootBlack t.rb y = true) :
    ∃ t' n v w, t.innerRed o s = some t' ∧ Deficit t' sub (⟨s, pa, join s n v (join s o w y)⟩ :: q) h ∧
      isBlack (t'.rb n) = true ∧ isBlack (t'.rb o) = false ∧
      (plug sub (⟨s, pa, join s n v (join s o w y)⟩ :: q)).inorder =
        (plug sub (⟨s, pa, join s o x y⟩ :: q)).inorder ∧
      ∀ m ∉ (plug sub (⟨s, pa, join s o x y⟩ :: q)).inorder, t'.rb m = t.rb m := by
  have around := around_of_nodup deficit.distinct
  obtain ⟨heightX, heightY, colour, rest⟩ := deficit.black_sibling blackO
  obtain ⟨-, -, otherZero, repX, repY⟩ := deficit.nodes
  obtain ⟨nearZero, nearRed⟩ := (rep_rootRed repX).mp redX
  generalize nearEq : (t.rb o).child s = n at *
  obtain ⟨v, w, rfl⟩ : ∃ v w, x = join s n v w := by
    cases x with
    | leaf => cases redX
    | node a l r =>
      obtain ⟨v, w, same⟩ := Shape.exists_join s a l r
      exact ⟨v, w, by rw [same, repX.1]⟩
  obtain ⟨k, heightV, heightW, clash, eq⟩ := blackHeight_join.mp heightX
  simp only [nearRed, Bool.false_eq_true, false_or, if_false] at clash eq
  subst eq
  -- the tree as the rotation at the sibling sees it
  have turned : ∀ u, plug sub (⟨s, pa, u⟩ :: q) = plug u (⟨s.other, pa, sub⟩ :: q) := by
    intro u
    rw [plug, plug, Shape.join_other]
  have before : join s o (join s n v w) y = join s.other o y (join s.other n w v) := by
    rw [Shape.join_other, Shape.join_other]
  have after : join s.other n (join s.other o y w) v = join s n v (join s o w y) := by
    rw [Shape.join_other, Shape.join_other]
  have tree := deficit.toShaped.recolour ((sameLinks_setBlack t n).trans (sameLinks_setRed _ o))
  rw [turned, before] at tree
  obtain ⟨t', ran, tree', colours, frame⟩ := Tree.rotate_shaped tree
  rw [after, ← turned] at tree'
  rw [← before, ← turned] at frame
  have order : (plug sub (⟨s, pa, join s n v (join s o w y)⟩ :: q)).inorder =
      (plug sub (⟨s, pa, join s o (join s n v w) y⟩ :: q)).inorder := by
    rw [turned, turned]
    refine Path.inorder_plug_congr ?_ _
    exact (Shape.inorder_rotate s n o v w y).symm
  have called : t.innerRed o s = some t' := by
    have dark : t.noRed ((t.rb o).child s.other) = true := (Tree.noRed_iff repY).trans blackY
    simp only [Tree.innerRed, dark, if_true, nearEq, if_neg nearZero]
    exact ran
  have nearO : n ≠ o := (around.near n (by simp)).2.1
  have nearPa : n ≠ pa := (around.near n (by simp)).1
  have blackN : isBlack (t'.rb n) = true := by
    rw [colours, Tree.set_ne _ _ nearO, Tree.set_same, isBlack_rbSetBlack]
  have redO : isBlack (t'.rb o) = false := by
    rw [colours, Tree.set_same, isBlack_rbSetRed]
  have same : ∀ m, m ≠ n → m ≠ o → isBlack (t'.rb m) = isBlack (t.rb m) := fun m isN isO => by
    rw [colours, Tree.set_ne _ _ isO, Tree.set_ne _ _ isN]
  have around' := around_of_nodup tree'.distinct
  have outside : ∀ m, m ≠ pa → m ≠ n → m ∉ (join s o w y).inorder →
      isBlack (t'.rb m) = isBlack (t.rb m) := fun m _ isN out => same m isN fun eq => out (by simp [eq])
  obtain ⟨atSub, atV, -, atQ, topQ⟩ := around'.kept outside
  have inW : ∀ m ∈ w.inorder, isBlack (t'.rb m) = isBlack (t.rb m) := fun m member =>
    same m (around'.far m (by simp [member])).2 (around.near m (by simp [member])).2.1
  have inY : ∀ m ∈ y.inorder, isBlack (t'.rb m) = isBlack (t.rb m) := fun m member =>
    same m (around'.far m (by simp [member])).2 (around.far m member).2
  have outer : blackHeight t'.rb (join s o w y) = some h :=
    blackHeight_join.mpr ⟨h, (blackHeight_congr inW).trans heightW, (blackHeight_congr inY).trans heightY,
      .inr ⟨(rootBlack_congr inW).trans clash.2, (rootBlack_congr inY).trans blackY⟩,
      by rw [redO]; rfl⟩
  have sibling : blackHeight t'.rb (join s n v (join s o w y)) = some (h + 1) :=
    blackHeight_join.mpr ⟨h, atV.trans heightV, outer, .inl blackN, by rw [blackN]; rfl⟩
  have parent : isBlack (t'.rb pa) = isBlack (t.rb pa) := same pa nearPa.symm around.pair
  refine ⟨t', n, v, w, called, ⟨tree', atSub.trans deficit.height, sibling, ?_, ?_⟩, blackN, redO,
    order, ?_⟩
  · rw [rootBlack_join, parent, topQ]
    exact colour.imp_right fun top => ⟨blackN, top⟩
  · rw [parent]
    exact atQ _ rest
  · intro m out
    have inside := ne_of_out out
    rw [frame m out, Tree.set_ne _ _ (inside o (by simp)), Tree.set_ne _ _ (inside n (by simp))]

end

end

namespace Tree

theorem deficit_stop (deficit : Deficit t sub p h) (stop : p = [] ∨ rootBlack t.rb sub = false) :
    Repaired t (t.blacken sub.root) (plug sub p) (plug sub p)
      (plug sub p).inorder := by
  cases sub with
  | leaf =>
    obtain rfl : p = [] := by
      rcases stop with top | red
      · exact top
      · cases red
    exact ⟨deficit.toShaped, rfl, ⟨rfl, rfl⟩, fun _ _ => rfl⟩
  | node a l r =>
    obtain ⟨-, here⟩ := Path.hole_of_rep deficit.rep
    have nonzero : a ≠ 0 := here.2.1
    have turned : t.blacken (Shape.node a l r).root = t.set a rbSetBlack := if_neg nonzero
    rw [turned]
    have inside : ∀ n ∉ (plug (.node a l r) p).inorder, n ≠ a := by
      rintro n out rfl
      exact out (Path.mem_plug.mpr (.inl (by simp [Shape.inorder])))
    cases colour : isBlack (t.rb a) with
    | true =>
      obtain rfl : p = [] := by
        rcases stop with top | red
        · exact top
        · rw [show rootBlack t.rb (.node a l r) = isBlack (t.rb a) from rfl, colour] at red
          cases red
      have kept : t.set a rbSetBlack = t := by
        simp only [set, rbSetBlack_of_isBlack colour, Function.update_eq_self]
      rw [kept]
      exact ⟨deficit.toShaped, rfl, ⟨colour, by rw [plug, deficit.height]; rfl⟩, fun _ _ => rfl⟩
    | false =>
      have black : isBlack ((t.set a rbSetBlack).rb a) = true := by
        rw [set_same, isBlack_rbSetBlack]
      obtain ⟨distinct, -, apart⟩ := Path.nodup_plug.mp deficit.distinct
      refine ⟨deficit.toShaped.recolour (sameLinks_setBlack t a), rfl, ?_, ?_⟩
      · refine Path.redBlack_plug.mpr ⟨h + 1, ?_, ?_, .inl black⟩
        · exact blackHeight_blacken distinct colour black (fun n _ isA => by rw [set_ne _ _ isA])
            deficit.height
        · refine Path.balanced_congr (fun n member => ?_) deficit.balanced
          have isA : n ≠ a := fun eq => apart a (by simp [Shape.inorder]) (eq ▸ member)
          rw [set_ne _ _ isA]
      · intro n out
        rw [set_ne _ _ (inside n out)]

theorem deficit_sibling (deficit : Deficit t sub (f :: q) h) :
    ∃ o x y, f.sib = join f.side o x y := by
  obtain ⟨height, -⟩ := deficit.balanced
  cases sib : f.sib with
  | leaf =>
    rw [sib] at height
    cases height
  | node a l r =>
    obtain ⟨x, y, same⟩ := Shape.exists_join f.side a l r
    exact ⟨a, x, y, same⟩

theorem deficit_reads {s : Side} {pa : Nat} (deficit : Deficit t sub (⟨s, pa, join s o x y⟩ :: q) h) :
    pa ≠ 0 ∧ o ≠ 0 ∧ (if (t.rb pa).left = sub.root then Side.left else .right) = s ∧
      (t.rb pa).child s.other = o ∧ rbParent (t.rb pa) = Path.top q ∧
      t.noRed ((t.rb o).child s) = rootBlack t.rb x ∧
      t.noRed ((t.rb o).child s.other) = rootBlack t.rb y := by
  obtain ⟨⟨paZero, up, repSub⟩, otherEq, otherZero, repX, repY⟩ := deficit.nodes
  have around := around_of_nodup deficit.distinct
  have apart : o ≠ sub.root := by
    by_cases empty : sub = .leaf
    · rw [empty]
      exact otherZero
    · exact fun eq => (around.hole sub.root (Shape.root_mem empty)).2.1 eq.symm
  refine ⟨paZero, otherZero, ?_, otherEq, up, noRed_iff repX, noRed_iff repY⟩
  cases s with
  | left => exact if_pos (rep_root repSub)
  | right =>
    have left : (t.rb pa).left = o := otherEq
    rw [left, if_neg apart]

theorem redSibling_black (deficit : Deficit t sub (f :: q) h) :
    ∃ t' o x y q', t.redSibling f.addr f.side = some t' ∧
      Deficit t' sub (⟨f.side, f.addr, join f.side o x y⟩ :: q') h ∧ isBlack (t'.rb o) = true ∧
      (q' = q ∨ isBlack (t'.rb f.addr) = false) ∧
      (plug sub (⟨f.side, f.addr, join f.side o x y⟩ :: q')).inorder =
        (plug sub (f :: q)).inorder ∧
      ∀ n ∉ (plug sub (f :: q)).inorder, t'.rb n = t.rb n := by
  obtain ⟨o, x, y, sib⟩ := deficit_sibling deficit
  obtain ⟨s, pa, sibling⟩ := f
  dsimp only at sib ⊢
  subst sib
  obtain ⟨-, otherZero, -, otherEq, -, -, -⟩ := deficit_reads deficit
  cases colour : isBlack (t.rb o) with
  | true =>
    refine ⟨t, o, x, y, q, ?_, deficit, colour, .inl rfl, rfl, fun _ _ => rfl⟩
    simp only [redSibling, otherEq, if_neg otherZero, colour, if_true]
  | false =>
    obtain ⟨t', ran, deficit', redPa, blackX, frame⟩ := deficit_redSibling deficit colour
    -- the new sibling is the near child of the old one, and the shortage shows it is there
    obtain ⟨n, v, w, near⟩ := deficit_sibling deficit'
    dsimp only at near
    subst near
    rw [rootBlack_join] at blackX
    refine ⟨t', n, v, w, _, ?_, deficit', blackX, .inr redPa, ?_, frame⟩
    · simp only [redSibling, otherEq, if_neg otherZero, colour, Bool.false_eq_true, if_false]
      exact ran
    · exact Path.inorder_plug_congr (Shape.inorder_rotate s pa o sub _ y) q

theorem blacken_root (rep : Rep t.rb t.root 0 s) (redBlack : RedBlack t.rb s) :
    t.blacken t.root = t := by
  unfold blacken
  by_cases empty : t.root = 0
  · rw [if_pos empty]
  · cases s with
    | leaf => exact absurd rep empty
    | node a l r =>
      have black : isBlack (t.rb t.root) = true := by
        rw [rep.1]
        exact redBlack.1
      rw [if_neg empty]
      simp only [set, rbSetBlack_of_isBlack black, Function.update_eq_self]

theorem repaired_trans {t'' : Tree} {a b c : Shape} (order : b.inorder = a.inorder)
    (frame : ∀ n ∉ a.inorder, t'.rb n = t.rb n) (later : Repaired t' t'' b c b.inorder) :
    Repaired t t'' a c a.inorder :=
  ⟨later.tree, later.order.trans order, later.redBlack, fun n out =>
    (later.frame n (order ▸ out)).trans (frame n out)⟩

theorem deficit_ends {s : Side} {pa : Nat} (deficit : Deficit t sub (⟨s, pa, join s o x y⟩ :: q) h)
    (blackO : isBlack (t.rb o) = true)
    (redChild : ¬ (rootBlack t.rb x = true ∧ rootBlack t.rb y = true)) :
    ∃ t' u, (do
        let t ← t.innerRed o s
        let t ← t.lastRotation pa s
        some (t.blacken t.root)) = some t' ∧
      Repaired t t' (plug sub (⟨s, pa, join s o x y⟩ :: q)) u
        (plug sub (⟨s, pa, join s o x y⟩ :: q)).inorder := by
  obtain ⟨-, -, -, -, -, -, farEq⟩ := deficit_reads deficit
  cases far : rootBlack t.rb y with
  | false =>
    obtain ⟨t', u, ran, repaired⟩ := deficit_outer deficit blackO far
    have unturned : t.innerRed o s = some t := by
      simp only [innerRed, farEq, far, Bool.false_eq_true, if_false]
    refine ⟨t', u, ?_, repaired⟩
    simp only [unturned, ran, Option.bind_eq_bind, Option.bind_some,
      blacken_root repaired.tree.rep repaired.redBlack]
  | true =>
    have near : rootBlack t.rb x = false := by
      cases colour : rootBlack t.rb x with
      | false => rfl
      | true => exact absurd ⟨colour, far⟩ redChild
    obtain ⟨t₁, n, v, w, turned, deficit₁, blackN, redO, order, frame⟩ :=
      deficit_inner deficit blackO near far
    obtain ⟨t', u, ran, repaired⟩ := deficit_outer deficit₁ blackN (by rw [rootBlack_join]; exact redO)
    refine ⟨t', u, ?_, repaired_trans order frame repaired⟩
    simp only [turned, ran, Option.bind_eq_bind, Option.bind_some,
      blacken_root repaired.tree.rep repaired.redBlack]

/-- The whole loop, by induction on the fuel: a round goes one frame up the path, or the
next one is the last. -/
theorem eraseColor_repairs {fuel : Nat} (enough : p.length < fuel) (deficit : Deficit t sub p h) :
    ∃ t' u, eraseColor fuel t sub.root p.top = some t' ∧
      Repaired t t' (plug sub p) u (plug sub p).inorder := by
  induction fuel generalizing t sub p h with
  | zero => exact absurd enough (Nat.not_lt_zero _)
  | succ k ih =>
    obtain ⟨-, repSub⟩ := Path.hole_of_rep deficit.rep
    have dark := noRed_iff repSub
    by_cases stop : p = [] ∨ rootBlack t.rb sub = false
    · refine ⟨_, _, ?_, deficit_stop deficit stop⟩
      have stops : ¬ (t.noRed sub.root = true ∧ sub.root ≠ t.root) := by
        rintro ⟨black, notRoot⟩
        rcases stop with rfl | red
        · exact notRoot (rep_root deficit.rep).symm
        · rw [dark, red] at black
          cases black
      rw [eraseColor, if_neg stops]
    · rw [not_or, Bool.not_eq_false] at stop
      obtain ⟨f, q, rfl⟩ : ∃ f q, p = f :: q := List.exists_cons_of_ne_nil stop.1
      have goes : t.noRed sub.root = true ∧ sub.root ≠ t.root :=
        ⟨dark.trans stop.2, Path.root_ne deficit.toShaped⟩
      obtain ⟨o₀, x₀, y₀, sib⟩ := deficit_sibling deficit
      obtain ⟨s, pa, sibling⟩ := f
      dsimp only at sib
      subst sib
      obtain ⟨paZero, -, side, -, -, -, -⟩ := deficit_reads deficit
      obtain ⟨t₁, o, x, y, q', turned, deficit₁, blackO, shorter, order, frame⟩ :=
        redSibling_black deficit
      dsimp only at turned deficit₁ shorter order
      obtain ⟨-, otherZero, -, otherEq, up, nearEq, farEq⟩ := deficit_reads deficit₁
      have round : eraseColor (k + 1) t sub.root (Path.top (⟨s, pa, join s o₀ x₀ y₀⟩ :: q)) =
          if rootBlack t₁.rb x = true ∧ rootBlack t₁.rb y = true then
            eraseColor k (t₁.set o rbSetRed) pa (rbParent ((t₁.set o rbSetRed).rb pa))
          else (do
            let t ← t₁.innerRed o s
            let t ← t.lastRotation pa s
            some (t.blacken t.root)) := by
        change eraseColor (k + 1) t sub.root pa = _
        rw [eraseColor, if_pos goes]
        simp only [if_neg paZero, side, turned, Option.bind_eq_bind, Option.bind_some,
          otherEq, if_neg otherZero, nearEq, farEq]
      rw [round]
      by_cases bothBlack : rootBlack t₁.rb x = true ∧ rootBlack t₁.rb y = true
      · rw [if_pos bothBlack]
        have around := around_of_nodup deficit₁.distinct
        have parent : rbParent ((t₁.set o rbSetRed).rb pa) = Path.top q' := by
          rw [set_ne _ _ around.pair]
          exact up
        have sameSet : ∀ n ∉ (plug sub (⟨s, pa, join s o x y⟩ :: q')).inorder,
            (t₁.set o rbSetRed).rb n = t₁.rb n := fun n out =>
          set_ne _ _ (ne_of_out out o (by simp))
        rw [parent]
        simp only [List.length_cons] at enough
        cases colour : isBlack (t₁.rb pa) with
        | true =>
          obtain rfl : q' = q := by
            rcases shorter with same | red
            · exact same
            · rw [colour] at red
              cases red
          have rising := deficit_up deficit₁ blackO bothBlack.1 bothBlack.2 colour
          obtain ⟨t', u, ran, repaired⟩ := ih (by omega) rising
          rw [Shape.root_join] at ran
          refine ⟨t', u, ran, repaired_trans order frame ?_⟩
          exact repaired_trans rfl sameSet repaired
        | false =>
          have settled := deficit_settled deficit₁ blackO bothBlack.1 bothBlack.2 colour
          obtain ⟨j, rfl⟩ : ∃ j, k = j + 1 := Nat.exists_eq_add_one_of_ne_zero (by omega)
          refine ⟨_, _, ?_, repaired_trans order frame settled⟩
          have red : (t₁.set o rbSetRed).noRed pa = false := by
            unfold noRed
            rw [set_ne _ _ around.pair, colour]
            simp [paZero]
          have stops : ¬ ((t₁.set o rbSetRed).noRed pa = true ∧ pa ≠ (t₁.set o rbSetRed).root) := by
            rw [red]
            exact fun both => Bool.false_ne_true both.1
          rw [eraseColor, if_neg stops, blacken, if_neg paZero]
      · rw [if_neg bothBlack]
        obtain ⟨t', u, ran, repaired⟩ := deficit_ends deficit₁ blackO bothBlack
        exact ⟨t', u, ran, repaired_trans order frame repaired⟩

end Tree

end RbTree
