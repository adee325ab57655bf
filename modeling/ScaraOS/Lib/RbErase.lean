import ScaraOS.Lib.RbEraseColor

/-! Erasure from a red-black tree threaded through memory. A node with at most one child
is replaced by that child; one with two gives its place and colour to the next node in
order, which is taken out where it stands. -/

namespace RbTree

open Shape (join)
open Path (plug addrs)

variable {t u : Tree} {n old par fuel m a : Nat} {p q : Path} {rb : Nat → RbNode} {z l r y : Shape}
  {s : Side}

namespace Tree

/-- The pointer to `old`, in its parent or at the root, leads to `new` from now on. -/
def redirect (t : Tree) (parent old new : Nat) : Tree :=
  if parent = 0 then { t with root := new }
  else if (t.rb parent).left = old then t.set parent (·.setChild .left new)
  else t.set parent (·.setChild .right new)

def reparent (t : Tree) (child parent : Nat) : Tree :=
  if child = 0 then t else t.set child (rbSetParent · parent)

def firstNode (t : Tree) : Nat → Nat → Option Nat
  | 0, _ => none
  | k + 1, n => if (t.rb n).left = 0 then some n else firstNode t k (t.rb n).left

def unlink (fuel : Nat) (t : Tree) (node child : Nat) : Option Tree :=
  let parent := rbParent (t.rb node)
  let color := isBlack (t.rb node)
  let t := (t.reparent child parent).redirect parent node child
  if color then eraseColor fuel t child parent else some t

/-- `node` takes over the parent, the colour and the left child of `old`. -/
def takePlace (t : Tree) (old node : Nat) : Tree :=
  let t := t.set node fun n => { n with parentColor := (t.rb old).parentColor }
  let t := t.set node (·.setChild .left (t.rb old).left)
  t.set (t.rb old).left (rbSetParent · node)

/-- The assignments for a node with two children, `node` being the next in order, after
the first of them has led the pointer to `old` to it. -/
def splice (t : Tree) (old node : Nat) : Tree :=
  let child := (t.rb node).right
  let parent := rbParent (t.rb node)
  let t :=
    if parent = old then t
    else
      let t := t.reparent child parent
      let t := t.set parent (·.setChild .left child)
      let t := t.set node (·.setChild .right (t.rb old).right)
      t.set (t.rb old).right (rbSetParent · node)
  t.takePlace old node

/-- `rb_erase`. -/
def erase (fuel : Nat) (t : Tree) (node : Nat) : Option Tree :=
  if (t.rb node).left = 0 then unlink fuel t node (t.rb node).right
  else if (t.rb node).right = 0 then unlink fuel t node (t.rb node).left
  else do
    let old := node
    let node ← firstNode t fuel (t.rb node).right
    let t := t.redirect (rbParent (t.rb old)) old node
    let child := (t.rb node).right
    let parent := if rbParent (t.rb node) = old then node else rbParent (t.rb node)
    let color := isBlack (t.rb node)
    let t := t.splice old node
    if color then eraseColor fuel t child parent else some t

theorem set_congr (a : Nat) (f : RbNode → RbNode) (same : t.rb n = u.rb n) :
    (t.set a f).rb n = (u.set a f).rb n := by
  by_cases here : n = a
  · subst here
    rw [set_same, set_same, same]
  · rw [set_ne _ _ here, set_ne _ _ here, same]

theorem reparent_ne {child parent : Nat} (apart : child ≠ 0 → n ≠ child) :
    (t.reparent child parent).rb n = t.rb n := by
  unfold reparent
  by_cases none : child = 0
  · rw [if_pos none]
  · rw [if_neg none, set_ne _ _ (apart none)]

theorem reparent_same {child parent : Nat} (nonzero : child ≠ 0) :
    (t.reparent child parent).rb child = rbSetParent (t.rb child) parent := by
  rw [reparent, if_neg nonzero, set_same]

theorem reparent_congr (child parent : Nat) (same : t.rb n = u.rb n) :
    (t.reparent child parent).rb n = (u.reparent child parent).rb n := by
  unfold reparent
  by_cases none : child = 0
  · rw [if_pos none, if_pos none, same]
  · rw [if_neg none, if_neg none]
    exact set_congr _ _ same

theorem reparent_root (t : Tree) (child parent : Nat) : (t.reparent child parent).root = t.root := by
  unfold reparent
  split <;> rfl

theorem reparent_colour {child parent : Nat} (aligned : parent % 4 = 0) (n : Nat) :
    isBlack ((t.reparent child parent).rb n) = isBlack (t.rb n) := by
  by_cases here : child ≠ 0 ∧ n = child
  · obtain ⟨nonzero, rfl⟩ := here
    rw [reparent_same nonzero, isBlack_rbSetParent _ aligned]
  · rw [reparent_ne fun nonzero eq => here ⟨nonzero, eq⟩]

theorem redirect_colour (t : Tree) (parent old new n : Nat) :
    isBlack ((t.redirect parent old new).rb n) = isBlack (t.rb n) := by
  have child : ∀ s, isBlack ((t.set parent (·.setChild s new)).rb n) = isBlack (t.rb n) := by
    intro s
    by_cases here : n = parent
    · rw [here, set_same, RbNode.isBlack_setChild]
    · rw [set_ne _ _ here]
  unfold redirect
  split
  · rfl
  · split
    · exact child .left
    · exact child .right

theorem redirect_ne {parent new : Nat} (apart : parent ≠ 0 → n ≠ parent) :
    (t.redirect parent old new).rb n = t.rb n := by
  unfold redirect
  by_cases top : parent = 0
  · rw [if_pos top]
  · rw [if_neg top]
    split
    · rw [set_ne _ _ (apart top)]
    · rw [set_ne _ _ (apart top)]

theorem redirect_hole (new : Nat) (hole : Path.Hole t.rb t.root p old par)
    (distinct : (addrs p).Nodup) (nonzero : old ≠ 0) (out : old ∉ addrs p) :
    Path.Hole (t.redirect par old new).rb (t.redirect par old new).root p new par := by
  refine Path.hole_redirect hole distinct ?_ ?_ ?_
  · intro top
    rw [redirect, if_pos top]
  · rintro f q rfl
    obtain ⟨rfl, down, parZero, repS, -⟩ := hole
    rw [redirect, if_neg parZero]
    cases side : f.side with
    | left =>
      rw [side] at down
      have left : (t.rb f.addr).left = old := down.symm
      rw [if_pos left]
      exact ⟨rfl, set_same ..⟩
    | right =>
      have sibling : (t.rb f.addr).left ≠ old := by
        rw [side] at repS
        exact rep_ne repS nonzero fun member => out (by simp [addrs, member])
      rw [if_neg sibling]
      exact ⟨rfl, set_same ..⟩
  · exact fun n _ isPar => redirect_ne fun _ => isPar

section
variable {t : Tree} {s : Side} {m : Nat} {z : Shape} {p : Path}

theorem unlink_rep (tree : t.Shaped (plug (join s m z .leaf) p))
    (made : (t.reparent z.root p.top).redirect p.top m z.root = u) :
    Rep u.rb u.root 0 (plug z p) ∧ (∀ n, isBlack (u.rb n) = isBlack (t.rb n)) ∧
      ∀ n ∉ (plug (join s m z .leaf) p).inorder, u.rb n = t.rb n := by
  subst made
  obtain ⟨hole, repM⟩ := Path.hole_of_rep tree.rep
  rw [Shape.root_join] at hole repM
  obtain ⟨-, nonzero, up, repZ, -⟩ := rep_join.mp repM
  obtain ⟨distinctM, distinctP, apart⟩ := Path.nodup_plug.mp tree.distinct
  obtain ⟨distinctZ, -, mZ, -, -⟩ := Shape.nodup_join.mp distinctM
  have outP : ∀ n, n = m ∨ n ∈ z.inorder → n ∉ addrs p := fun n inside =>
    apart n (by rw [Shape.mem_inorder_join]; exact inside.imp_right .inl)
  have inP : p.top ≠ 0 → p.top ∈ addrs p := Path.hole_par_mem hole
  have parAligned : p.top % 4 = 0 := by
    by_cases top : p.top = 0
    · rw [top]
    · exact tree.aligned _ (Path.mem_plug.mpr (.inr (inP top)))
  have sameP : ∀ n ∈ addrs p, (t.reparent z.root p.top).rb n = t.rb n := fun n member =>
    reparent_ne fun some eq => outP n (.inr (eq ▸ Shape.root_mem_of_ne some)) member
  have hole₁ : Path.Hole (t.reparent z.root p.top).rb (t.reparent z.root p.top).root p m p.top := by
    rw [reparent_root]
    exact Path.hole_congr sameP hole
  have hole₂ := redirect_hole z.root hole₁ distinctP nonzero (outP m (.inl rfl))
  have below : ∀ n ∈ z.inorder, ((t.reparent z.root p.top).redirect p.top m z.root).rb n =
      (t.reparent z.root p.top).rb n := fun n member =>
    redirect_ne fun top eq => outP n (.inr member) (eq ▸ inP top)
  refine ⟨Path.rep_plug.mpr ⟨_, _, hole₂, ?_⟩, ?_, ?_⟩
  · rw [rep_root repZ] at repZ
    refine rep_reparent repZ distinctZ parAligned ?_ ?_
    · intro some
      rw [below _ (Shape.root_mem_of_ne some), reparent_same some]
    · intro n member notRoot
      rw [below n member, reparent_ne fun _ => notRoot]
  · intro n
    rw [redirect_colour, reparent_colour parAligned]
  · intro n out
    have outside : n ≠ m ∧ n ∉ z.inorder ∧ n ∉ addrs p := by
      rw [Path.mem_plug, Shape.mem_inorder_join] at out
      tauto
    have notTop : p.top ≠ 0 → n ≠ p.top := fun top eq => outside.2.2 (eq ▸ inP top)
    have notRoot : z.root ≠ 0 → n ≠ z.root := fun some eq => outside.2.1 (eq ▸ Shape.root_mem_of_ne some)
    rw [redirect_ne notTop, reparent_ne notRoot]

theorem unlinked (redBlack : RedBlack rb (plug (join s m z .leaf) p)) :
    (isBlack (rb m) = true → ∃ h, blackHeight rb z = some h ∧ Path.Balanced rb p (h + 1)) ∧
      (isBlack (rb m) = false → RedBlack rb (plug z p)) := by
  obtain ⟨h, height, balanced, clash⟩ := Path.redBlack_plug.mp redBlack
  obtain ⟨k, heightZ, -, colour, rfl⟩ := blackHeight_join.mp height
  constructor
  · intro black
    rw [black, if_pos rfl] at balanced
    exact ⟨k, heightZ, balanced⟩
  · intro red
    rw [red, if_neg Bool.false_ne_true] at balanced
    rw [red] at colour
    have blackZ : rootBlack rb z = true := by
      rcases colour with black | ⟨black, -⟩
      · cases black
      · exact black
    exact Path.redBlack_plug.mpr ⟨k, heightZ, balanced, .inl blackZ⟩

end

theorem repair_erased {t' : Tree} {old : Shape} (black : Bool) (tree : t'.Shaped (plug z p))
    (short : black = true → ∃ h, blackHeight t'.rb z = some h ∧ Path.Balanced t'.rb p (h + 1))
    (whole : black = false → RedBlack t'.rb (plug z p))
    (inside : ∀ n ∈ (plug z p).inorder, n ∈ old.inorder)
    (frame : ∀ n ∉ old.inorder, t'.rb n = t.rb n) (enough : p.length < fuel) :
    ∃ t'' u, (if black then eraseColor fuel t' z.root p.top else some t') = some t'' ∧
      Repaired t t'' old u (plug z p).inorder := by
  cases black with
  | false => exact ⟨t', _, rfl, tree, rfl, whole rfl, frame⟩
  | true =>
    obtain ⟨h, height, balanced⟩ := short rfl
    obtain ⟨t'', u, ran, repaired⟩ := eraseColor_repairs enough ⟨tree, height, balanced⟩
    refine ⟨t'', u, ran, repaired.tree, repaired.order, repaired.redBlack, ?_⟩
    intro n out
    exact (repaired.frame n fun member => out (inside n member)).trans (frame n out)

theorem unlink_erased (tree : t.Shaped (plug (join s m z .leaf) p))
    (redBlack : RedBlack t.rb (plug (join s m z .leaf) p)) (enough : p.length < fuel) :
    ∃ t' u, unlink fuel t m z.root = some t' ∧
      Repaired t t' (plug (join s m z .leaf) p) u (plug z p).inorder := by
  obtain ⟨-, repM⟩ := Path.hole_of_rep tree.rep
  obtain ⟨-, -, up, -, -⟩ := rep_join.mp repM
  obtain ⟨rep', colours, frame⟩ := unlink_rep tree rfl
  obtain ⟨short, whole⟩ := unlinked redBlack
  have inside : ∀ n ∈ (plug z p).inorder, n ∈ (plug (join s m z .leaf) p).inorder := by
    intro n member
    rw [Path.mem_plug] at member ⊢
    rw [Shape.mem_inorder_join]
    tauto
  have distinct' : (plug z p).inorder.Nodup := by
    obtain ⟨nodes, path, apart⟩ := Path.nodup_plug.mp tree.distinct
    refine Path.nodup_plug.mpr ⟨(Shape.nodup_join.mp nodes).1, path, fun n member => ?_⟩
    exact apart n (by simp [member])
  rw [unlink, up]
  refine repair_erased _ ⟨rep', distinct', fun n member => tree.aligned n (inside n member)⟩ ?_ ?_
    inside frame enough
  · intro black
    obtain ⟨h, height, balanced⟩ := short black
    exact ⟨h, (blackHeight_congr fun n _ => colours n).trans height,
      Path.balanced_congr (fun n _ => colours n) balanced⟩
  · intro red
    obtain ⟨top, balanced⟩ := whole red
    exact ⟨(rootBlack_congr fun n _ => colours n).trans top,
      (congrArg _ (blackHeight_congr fun n _ => colours n)).trans balanced⟩

end Tree

namespace Path

theorem plug_append (t : Shape) (q p : Path) : plug t (q ++ p) = plug (plug t q) p := by
  induction q generalizing t with
  | nil => rfl
  | cons f q ih => exact ih _

theorem exists_plug {s : Shape} (member : a ∈ s.inorder) : ∃ l r p, plug (.node a l r) p = s := by
  induction s with
  | leaf => cases member
  | node b l r left right =>
    simp only [Shape.inorder, List.mem_append, List.mem_cons] at member
    rcases member with inL | rfl | inR
    · obtain ⟨x, y, p, rfl⟩ := left inL
      exact ⟨x, y, p ++ [⟨.left, b, r⟩], plug_append _ p _⟩
    · exact ⟨l, r, [], rfl⟩
    · obtain ⟨x, y, p, rfl⟩ := right inR
      exact ⟨x, y, p ++ [⟨.right, b, l⟩], plug_append _ p _⟩

theorem addrs_append (q p : Path) : addrs (q ++ p) = addrs q ++ addrs p := by
  induction q with
  | nil => rfl
  | cons f q ih => simp [addrs, ih]

theorem before_lefts (lefts : ∀ f ∈ q, f.side = .left) : before q = [] := by
  induction q with
  | nil => rfl
  | cons f q ih =>
    obtain ⟨s, a, sib⟩ := f
    have side : s = .left := lefts _ List.mem_cons_self
    subst side
    exact ih fun g member => lefts g (List.mem_cons_of_mem _ member)

theorem balanced_rename {rb' : Nat → RbNode} {h : Nat} (colour : isBlack (rb' m) = isBlack (rb a))
    (same : ∀ n, n ∈ addrs q ∨ n ∈ l.inorder ∨ n ∈ addrs p → isBlack (rb' n) = isBlack (rb n)) :
    (Balanced rb (q ++ ⟨s, a, l⟩ :: p) h → Balanced rb' (q ++ ⟨s, m, l⟩ :: p) h) ∧
      topBlack rb' (q ++ ⟨s, m, l⟩ :: p) = topBlack rb (q ++ ⟨s, a, l⟩ :: p) := by
  induction q generalizing h with
  | nil =>
    refine ⟨?_, colour⟩
    rintro ⟨height, clash, rest⟩
    have sameL : ∀ n ∈ l.inorder, isBlack (rb' n) = isBlack (rb n) :=
      fun n member => same n (.inr (.inl member))
    have sameP : ∀ n ∈ addrs p, isBlack (rb' n) = isBlack (rb n) :=
      fun n member => same n (.inr (.inr member))
    refine ⟨(blackHeight_congr sameL).trans height, ?_, ?_⟩
    · rw [colour, rootBlack_congr sameL, topBlack_congr sameP]
      exact clash
    · rw [colour]
      exact balanced_congr sameP rest
  | cons f q ih =>
    have mine : isBlack (rb' f.addr) = isBlack (rb f.addr) := same f.addr (.inl (by simp [addrs]))
    have sameS : ∀ n ∈ f.sib.inorder, isBlack (rb' n) = isBlack (rb n) :=
      fun n member => same n (.inl (by simp [addrs, member]))
    have later : ∀ k, _ := fun k => ih (h := k) fun n member =>
      same n (member.imp_left fun inside => by simp [addrs, inside])
    refine ⟨fun balanced => ?_, mine⟩
    rw [List.cons_append] at balanced ⊢
    obtain ⟨height, clash, rest⟩ := balanced
    refine ⟨(blackHeight_congr sameS).trans height, ?_, ?_⟩
    · rw [mine, rootBlack_congr sameS, (later h).2]
      exact clash
    · rw [mine]
      exact (later _).1 rest

end Path

namespace Tree

theorem firstNode_leads {ptr : Nat} (rep : Rep t.rb ptr par r) (nonempty : r ≠ .leaf)
    (enough : r.height ≤ fuel) :
    ∃ m y q, r = plug (.node m .leaf y) q ∧ (∀ f ∈ q, f.side = .left) ∧
      firstNode t fuel ptr = some m := by
  induction r generalizing ptr par fuel with
  | leaf => exact absurd rfl nonempty
  | node b l r left _ =>
    obtain ⟨rfl, -, -, repL, -⟩ := rep
    unfold Shape.height at enough
    obtain ⟨k, rfl⟩ : ∃ k, fuel = k + 1 := Nat.exists_eq_add_one_of_ne_zero (by omega)
    by_cases empty : l = .leaf
    · subst empty
      have zero : (t.rb ptr).left = 0 := repL
      exact ⟨ptr, r, [], rfl, by simp, by simp [firstNode, zero]⟩
    · have lower : l.height ≤ k := by omega
      obtain ⟨m, y, q, rfl, lefts, found⟩ := left repL empty lower
      refine ⟨m, y, q ++ [⟨.left, ptr, r⟩], ?_, ?_, ?_⟩
      · rw [Path.plug_append]
        rfl
      · intro f member
        rcases List.mem_append.mp member with inside | last
        · exact lefts f inside
        · rw [List.mem_singleton.mp last]
      · rw [firstNode, if_neg (rep_ne_zero repL empty)]
        exact found

structure Spliced (t t' : Tree) (a m : Nat) (l y : Shape) (q p : Path) : Prop where
  rep : Rep t'.rb t'.root 0 (plug y (q ++ ⟨.right, m, l⟩ :: p))
  colour : isBlack (t'.rb m) = isBlack (t.rb a)
  colours : ∀ n, n ≠ m → isBlack (t'.rb n) = isBlack (t.rb n)
  frame : ∀ n ∉ (plug (.node m .leaf y) (q ++ ⟨.right, a, l⟩ :: p)).inorder, t'.rb n = t.rb n

theorem takePlace_writes {lr : Nat} (am : a ≠ m) (left : (t.rb a).left = lr) (ml : m ≠ lr) :
    (t.takePlace a m).rb m = ⟨(t.rb a).parentColor, lr, (t.rb m).right⟩ ∧
      (t.takePlace a m).rb lr = rbSetParent (t.rb lr) m ∧
      (∀ n, n ≠ m → n ≠ lr → (t.takePlace a m).rb n = t.rb n) ∧
      (t.takePlace a m).root = t.root := by
  have run : t.takePlace a m = ((t.set m fun n => { n with parentColor := (t.rb a).parentColor }).set m
      (·.setChild .left lr)).set lr (rbSetParent · m) := by
    unfold takePlace
    simp only [set_ne _ _ am, left]
  rw [run]
  refine ⟨?_, ?_, ?_, rfl⟩
  · rw [set_ne _ _ ml, set_same, set_same]
    rfl
  · rw [set_same, set_ne _ _ ml.symm, set_ne _ _ ml.symm]
  · intro n isM isL
    rw [set_ne _ _ isL, set_ne _ _ isM, set_ne _ _ isM]

section
variable {t u : Tree} {a m : Nat} {l y : Shape} {q p : Path}

structure Places (a m : Nat) (l y : Shape) (q p : Path) : Prop where
  am : a ≠ m
  left : ∀ n ∈ l.inorder, n ≠ a ∧ n ≠ m ∧ n ∉ y.inorder ∧ n ∉ addrs q
  next : m ∉ y.inorder ∧ m ∉ addrs q
  here : a ∉ y.inorder ∧ a ∉ addrs q
  inner : ∀ n ∈ y.inorder, n ∉ addrs q
  above : ∀ n ∈ addrs p, n ≠ a ∧ n ≠ m ∧ n ∉ l.inorder ∧ n ∉ y.inorder ∧ n ∉ addrs q
  distinctL : l.inorder.Nodup
  distinctR : (plug y q).inorder.Nodup
  distinctP : (addrs p).Nodup

theorem places_of_nodup
    (distinct : (plug (.node m .leaf y) (q ++ ⟨.right, a, l⟩ :: p)).inorder.Nodup) :
    Places a m l y q p := by
  obtain ⟨nodes, path, apart⟩ := Path.nodup_plug.mp distinct
  rw [Path.addrs_append] at path
  simp only [Path.addrs_append, addrs, Shape.inorder, List.nil_append, List.cons_append,
    List.mem_append, List.mem_cons, not_or] at apart nodes path
  obtain ⟨pathQ, rest, between⟩ := List.nodup_append.mp path
  obtain ⟨outA, others⟩ := List.nodup_cons.mp rest
  obtain ⟨distinctL, distinctP, leftUp⟩ := List.nodup_append.mp others
  obtain ⟨outM, distinctY⟩ := List.nodup_cons.mp nodes
  rw [List.mem_append, not_or] at outA
  have atM := apart m (.inl rfl)
  have atY : ∀ n ∈ y.inorder, _ := fun n member => apart n (.inr member)
  refine ⟨fun eq => atM.2.1 eq.symm, ?_, ⟨outM, atM.1⟩, ⟨fun member => (atY a member).2.1 rfl, ?_⟩,
    fun n member => (atY n member).1, ?_, distinctL, ?_, distinctP⟩
  · intro n member
    refine ⟨fun eq => outA.1 (eq ▸ member), fun eq => atM.2.2.1 (eq ▸ member),
      fun inY => (atY n inY).2.2.1 member, fun inQ => ?_⟩
    exact between n inQ n (List.mem_cons_of_mem a (List.mem_append_left _ member)) rfl
  · exact fun inQ => between a inQ a List.mem_cons_self rfl
  · intro n member
    refine ⟨fun eq => outA.2 (eq ▸ member), fun eq => atM.2.2.2 (eq ▸ member),
      fun inL => leftUp n inL n member rfl, fun inY => (atY n inY).2.2.2 member, fun inQ => ?_⟩
    exact between n inQ n (List.mem_cons_of_mem a (List.mem_append_right _ member)) rfl
  · exact Path.nodup_plug.mpr ⟨distinctY, pathQ, fun n member => (atY n member).1⟩

section

variable (places : Places a m l y q p)
  (rep : Rep t.rb t.root 0 (plug (.node m .leaf y) (q ++ ⟨.right, a, l⟩ :: p)))
include places rep

theorem takePlace_spliced (some_left : l ≠ .leaf) (aligned : m % 4 = 0) (old : u.rb a = t.rb a)
    (hole : Path.Hole u.rb u.root p m p.top) (sameL : ∀ n ∈ l.inorder, u.rb n = t.rb n)
    (repR : Rep u.rb (u.rb m).right m (plug y q))
    (colours : ∀ n, isBlack (u.rb n) = isBlack (t.rb n))
    (frame : ∀ n ∉ (plug (.node m .leaf y) (q ++ ⟨.right, a, l⟩ :: p)).inorder, u.rb n = t.rb n) :
    Spliced t (u.takePlace a m) a m l y q p := by
  obtain ⟨-, repM⟩ := Path.hole_of_rep rep
  have mZero : m ≠ 0 := repM.2.1
  have whole : Rep t.rb t.root 0 (plug (.node a l (plug (.node m .leaf y) q)) p) := by
    rw [Path.plug_append] at rep
    exact rep
  obtain ⟨-, -, -, up, repL, -⟩ := Path.hole_of_rep whole
  have rootL : (t.rb a).left = l.root := rep_root repL
  have lIn : l.root ∈ l.inorder := Shape.root_mem some_left
  obtain ⟨atM, atL, rest, top⟩ := takePlace_writes places.am (by rw [old]; exact rootL)
    (places.left _ lIn).2.1.symm
  rw [old] at atM
  rw [sameL _ lIn] at atL
  have inP : p.top ≠ 0 → p.top ∈ addrs p := Path.hole_par_mem hole
  have notL : ∀ n, n ∉ l.inorder → n ≠ l.root := fun n out eq => out (eq ▸ lIn)
  refine ⟨?_, ?_, ?_, ?_⟩
  · rw [Path.plug_append]
    change Rep _ _ 0 (plug (.node m l (plug y q)) p)
    rw [top]
    refine Path.rep_plug.mpr ⟨m, p.top, ?_, rfl, mZero, ?_, ?_, ?_⟩
    · refine Path.hole_congr (fun n member => ?_) hole
      obtain ⟨-, isM, inL, -⟩ := places.above n member
      exact rest n isM (notL n inL)
    · rw [atM]
      exact up
    · rw [atM]
      rw [rootL] at repL
      refine rep_reparent repL places.distinctL aligned (fun _ => atL) (fun n member notRoot => ?_)
      rw [rest n (places.left n member).2.1 notRoot, sameL n member]
    · rw [atM]
      refine rep_congr (fun n member => ?_) repR
      rcases Path.mem_plug.mp member with inY | inQ
      · exact rest n (fun eq => places.next.1 (eq ▸ inY))
          (notL n fun inL => (places.left n inL).2.2.1 inY)
      · exact rest n (fun eq => places.next.2 (eq ▸ inQ))
          (notL n fun inL => (places.left n inL).2.2.2 inQ)
  · rw [atM]
    rfl
  · intro n notM
    by_cases isL : n = l.root
    · rw [isL, atL, isBlack_rbSetParent _ aligned]
    · rw [rest n notM isL]
      exact colours n
  · intro n out
    have outside : n ≠ m ∧ n ∉ l.inorder := by
      simp only [Path.mem_plug, Path.addrs_append, addrs, Shape.inorder, List.mem_append,
        List.mem_cons, List.cons_append] at out
      tauto
    rw [rest n outside.1 (notL n outside.2)]
    exact frame n out

theorem redirect_places :
    rbParent (t.rb a) = p.top ∧
      Path.Hole (t.redirect p.top a m).rb (t.redirect p.top a m).root p m p.top ∧
      (∀ n ∉ addrs p, (t.redirect p.top a m).rb n = t.rb n) ∧
      (t.redirect p.top a m).rb a = t.rb a ∧ (t.redirect p.top a m).rb m = t.rb m := by
  have whole : Rep t.rb t.root 0 (plug (.node a l (plug (.node m .leaf y) q)) p) := by
    rw [Path.plug_append] at rep
    exact rep
  obtain ⟨hole, -, aZero, up, -⟩ := Path.hole_of_rep whole
  have out : a ∉ addrs p := fun member => (places.above a member).1 rfl
  have kept : ∀ n ∉ addrs p, (t.redirect p.top a m).rb n = t.rb n := fun n outside =>
    redirect_ne fun top eq => outside (eq ▸ Path.hole_par_mem hole top)
  exact ⟨up, redirect_hole m hole places.distinctP aZero out, kept, kept a out,
    kept m fun member => (places.above m member).2.1 rfl⟩

end

theorem splice_child (tree : t.Shaped (plug (.node m .leaf y) (⟨.right, a, l⟩ :: p)))
    (some_left : l ≠ .leaf) : Spliced t ((t.redirect p.top a m).splice a m) a m l y [] p := by
  have places : Places a m l y [] p := places_of_nodup (q := []) tree.distinct
  obtain ⟨-, hole, kept, keptA, keptM⟩ := redirect_places (q := []) places tree.rep
  obtain ⟨-, -, -, upM, -, repY⟩ := Path.hole_of_rep tree.rep
  have outP : ∀ n, n ∈ addrs p → _ := places.above
  have run : (t.redirect p.top a m).splice a m = (t.redirect p.top a m).takePlace a m := by
    have parent : rbParent (t.rb m) = a := upM
    unfold splice
    simp only [keptM, parent, if_true]
  have aligned := tree.aligned m (Path.mem_plug.mpr (.inl (by simp [Shape.inorder])))
  rw [run]
  refine takePlace_spliced (q := []) places tree.rep some_left aligned keptA hole ?_ ?_ ?_ ?_
  · exact fun n member => kept n fun inP => (outP n inP).2.2.1 member
  · rw [keptM]
    refine rep_congr (fun n member => kept n fun inP => ?_) repY
    exact (outP n inP).2.2.2.1 member
  · exact redirect_colour t p.top a m
  · intro n out
    refine kept n fun member => out (Path.mem_plug.mpr (.inr ?_))
    simp [addrs, member]

theorem splice_far {f : Frame} (lefts : f.side = .left)
    (tree : t.Shaped (plug (.node m .leaf y) (f :: q ++ ⟨.right, a, l⟩ :: p)))
    (some_left : l ≠ .leaf) :
    Spliced t ((t.redirect p.top a m).splice a m) a m l y (f :: q) p := by
  have rep := tree.rep
  have places := places_of_nodup tree.distinct
  obtain ⟨-, hole, kept, keptA, keptM⟩ := redirect_places places rep
  have outP : ∀ n, n ∈ addrs p → _ := places.above
  obtain ⟨holeM, -, mZero, upM, -, repY⟩ := Path.hole_of_rep rep
  obtain ⟨-, down, pmZero, -, -⟩ := holeM
  rw [lefts] at down
  have parent : rbParent (t.rb m) = f.addr := upM
  have child : (t.rb m).right = y.root := rep_root repY
  have inQ : f.addr ∈ addrs (f :: q) := by simp [addrs]
  have notY : ∀ n, n ∉ y.inorder → y.root ≠ 0 → n ≠ y.root := fun n out some eq =>
    out (eq ▸ Shape.root_mem_of_ne some)
  have notF : ∀ n, n ∉ addrs (f :: q) → n ≠ f.addr := fun n out eq => out (eq ▸ inQ)
  -- the tree without `m`, before `m` is put in again
  have leftM : ((t.reparent y.root f.addr).rb f.addr).left = m := by
    rw [reparent_ne fun some eq => places.inner _ (Shape.root_mem_of_ne some) (eq ▸ inQ)]
    exact down.symm
  have unlinkEq : (t.reparent y.root f.addr).redirect f.addr m y.root =
      (t.reparent y.root f.addr).set f.addr (·.setChild .left y.root) := by
    rw [redirect, if_neg pmZero, if_pos leftM]
  generalize uEq : (t.reparent y.root f.addr).set f.addr (·.setChild .left y.root) = u at *
  obtain ⟨repU, -, -⟩ := unlink_rep (s := .right) tree unlinkEq
  rw [Path.plug_append] at repU
  have wholeU : Rep u.rb u.root 0 (plug (.node a l (plug y (f :: q))) p) := repU
  obtain ⟨-, -, -, -, -, repR⟩ := Path.hole_of_rep wholeU
  have oldU : u.rb a = t.rb a := by
    rw [← uEq, set_ne _ _ (notF a places.here.2), reparent_ne (notY a places.here.1)]
  rw [oldU] at repR
  have some_right : plug y (f :: q) ≠ .leaf := by
    rw [plug]
    refine Path.plug_ne_leaf ?_ q
    rw [lefts]
    exact Shape.noConfusion
  have rrEq : (t.rb a).right = (plug y (f :: q)).root := rep_root repR
  have rrIn : (t.rb a).right ∈ (plug y (f :: q)).inorder := by
    rw [rrEq]
    exact Shape.root_mem some_right
  generalize rrDef : (t.rb a).right = rr at *
  have outR : ∀ n, n ∉ y.inorder → n ∉ addrs (f :: q) → n ≠ rr := by
    rintro n outY outQ rfl
    exact (Path.mem_plug.mp rrIn).elim outY outQ
  have mr : m ≠ rr := outR m places.next.1 places.next.2
  -- the assignments, in their order
  let t₁ := t.redirect p.top a m
  let t₃ := (t₁.reparent y.root f.addr).set f.addr (·.setChild .left y.root)
  let t₅ := (t₃.set m (·.setChild .right rr)).set rr (rbSetParent · m)
  have at₃ : ∀ n, n ∉ y.inorder → n ∉ addrs (f :: q) → t₃.rb n = t₁.rb n := by
    intro n outY outQ
    rw [set_ne _ _ (notF n outQ), reparent_ne (notY n outY)]
  have unlinked₃ : ∀ n ∉ addrs p, t₃.rb n = u.rb n := by
    intro n out
    rw [← uEq]
    exact set_congr _ _ (reparent_congr _ _ (kept n out))
  have at₅ : ∀ n, n ≠ m → n ≠ rr → t₅.rb n = t₃.rb n := by
    intro n isM isR
    rw [set_ne _ _ isR, set_ne _ _ isM]
  have old₃ : t₃.rb a = t.rb a := (at₃ a places.here.1 places.here.2).trans keptA
  have run : (t.redirect p.top a m).splice a m = t₅.takePlace a m := by
    have apart : ¬ f.addr = a := fun eq => places.here.2 (eq ▸ inQ)
    have old₄ : (t₃.set m (·.setChild .right rr)).rb a = t.rb a := by
      rw [set_ne _ _ places.am, old₃]
    have old₃' : (((t.redirect p.top a m).reparent y.root f.addr).set f.addr
        (·.setChild .left y.root)).rb a = t.rb a := old₃
    have old₄' : ((((t.redirect p.top a m).reparent y.root f.addr).set f.addr
        (·.setChild .left y.root)).set m (·.setChild .right rr)).rb a = t.rb a := old₄
    unfold splice
    simp only [keptM, parent, if_neg apart, child, old₃', rrDef, old₄']
    rfl
  have fAligned : f.addr % 4 = 0  :=
    tree.aligned _ (Path.mem_plug.mpr (.inr (by simp [addrs])))
  have mAligned : m % 4 = 0 := tree.aligned _ (Path.mem_plug.mpr (.inl (by simp [Shape.inorder])))
  rw [run]
  refine takePlace_spliced places rep some_left mAligned ?_ ?_ ?_ ?_ ?_ ?_
  · rw [at₅ a places.am (outR a places.here.1 places.here.2), old₃]
  · have root₅ : t₅.root = t₁.root := reparent_root t₁ y.root f.addr
    rw [root₅]
    refine Path.hole_congr (fun n member => ?_) hole
    obtain ⟨-, isM, -, outY, outQ⟩ := outP n member
    rw [at₅ n isM (outR n outY outQ), at₃ n outY outQ]
  · intro n member
    obtain ⟨-, isM, outY, outQ⟩ := places.left n member
    rw [at₅ n isM (outR n outY outQ), at₃ n outY outQ]
    exact kept n fun inP => (outP n inP).2.2.1 member
  · have right : (t₅.rb m).right = rr := by
      rw [set_ne _ _ mr, set_same]
      rfl
    have inside : ∀ n ∈ (plug y (f :: q)).inorder, n ∉ addrs p := by
      intro n member inP
      obtain ⟨-, -, -, outY, outQ⟩ := outP n inP
      exact (Path.mem_plug.mp member).elim outY outQ
    have notM : ∀ n ∈ (plug y (f :: q)).inorder, n ≠ m := by
      rintro n member rfl
      exact (Path.mem_plug.mp member).elim places.next.1 places.next.2
    rw [right]
    refine rep_reparent repR places.distinctR mAligned (fun _ => ?_) (fun n member notRoot => ?_)
    · rw [set_same, set_ne _ _ mr.symm, unlinked₃ rr (inside rr rrIn)]
    · rw [at₅ n (notM n member) notRoot, unlinked₃ n (inside n member)]
  · intro n
    have colour₃ : isBlack (t₃.rb n) = isBlack (t.rb n) := by
      by_cases isF : n = f.addr
      · rw [isF, set_same, RbNode.isBlack_setChild, reparent_colour fAligned, redirect_colour]
      · rw [set_ne _ _ isF, reparent_colour fAligned, redirect_colour]
    by_cases isR : n = rr
    · rw [isR, set_same, isBlack_rbSetParent _ mAligned, set_ne _ _ mr.symm, ← isR]
      exact colour₃
    · by_cases isM : n = m
      · rw [isM, set_ne _ _ mr, set_same, RbNode.isBlack_setChild, ← isM]
        exact colour₃
      · rw [at₅ n isM isR]
        exact colour₃
  · intro n out
    have outside : n ≠ m ∧ n ∉ y.inorder ∧ n ∉ addrs (f :: q) ∧ n ∉ addrs p := by
      rw [Path.mem_plug, Path.addrs_append] at out
      simp only [addrs, Shape.inorder, List.mem_append, List.mem_cons, List.cons_append] at out ⊢
      tauto
    rw [at₅ n outside.1 (outR n outside.2.1 outside.2.2.1), at₃ n outside.2.1 outside.2.2.1]
    exact kept n outside.2.2.2

end

theorem order_splice (lefts : ∀ f ∈ q, f.side = .left) :
    (plug y (q ++ ⟨.right, m, l⟩ :: p)).inorder =
        p.before ++ (l.inorder ++ (plug (.node m .leaf y) q).inorder) ++ p.after ∧
      (plug (.node m .leaf y) (q ++ ⟨.right, a, l⟩ :: p)).inorder =
        p.before ++ (l.inorder ++ a :: (plug (.node m .leaf y) q).inorder) ++ p.after := by
  have none := Path.before_lefts lefts
  constructor
  · rw [Path.plug_append, plug, Path.inorder_plug, Path.inorder_plug (.node m .leaf y), none]
    simp [join, Shape.inorder, Path.inorder_plug y, none]
  · rw [Path.plug_append, plug, Path.inorder_plug]
    simp [join, Shape.inorder]

theorem splice_erased (lefts : ∀ f ∈ q, f.side = .left)
    (tree : t.Shaped (plug (.node m .leaf y) (q ++ ⟨.right, a, l⟩ :: p)))
    (redBlack : RedBlack t.rb (plug (.node m .leaf y) (q ++ ⟨.right, a, l⟩ :: p)))
    (some_left : l ≠ .leaf) (enough : (q ++ ⟨.right, m, l⟩ :: p).length < fuel) :
    ∃ t' u, (let t := t.redirect (rbParent (t.rb a)) a m
        if isBlack (t.rb m) then eraseColor fuel (t.splice a m) (t.rb m).right
          (if rbParent (t.rb m) = a then m else rbParent (t.rb m))
        else some (t.splice a m)) = some t' ∧
      Repaired t t' (plug (.node m .leaf y) (q ++ ⟨.right, a, l⟩ :: p)) u
        (plug y (q ++ ⟨.right, m, l⟩ :: p)).inorder := by
  have places := places_of_nodup tree.distinct
  obtain ⟨upA, -, -, -, keptM⟩ := redirect_places places tree.rep
  obtain ⟨-, -, -, up, -, repY⟩ := Path.hole_of_rep tree.rep
  have child : (t.rb m).right = y.root := rep_root repY
  have parent : (if rbParent (t.rb m) = a then m else rbParent (t.rb m)) =
      Path.top (q ++ ⟨.right, m, l⟩ :: p) := by
    rw [up]
    cases q with
    | nil => exact if_pos rfl
    | cons f q =>
      have apart : ¬ f.addr = a := fun eq => places.here.2 (by simp [addrs, eq])
      exact if_neg apart
  have spliced : Spliced t ((t.redirect p.top a m).splice a m) a m l y q p := by
    cases q with
    | nil => exact splice_child tree some_left
    | cons f q => exact splice_far (lefts f List.mem_cons_self) tree some_left
  have fewer : (plug y (q ++ ⟨.right, m, l⟩ :: p)).inorder.Sublist
      (plug (.node m .leaf y) (q ++ ⟨.right, a, l⟩ :: p)).inorder := by
    obtain ⟨new, old⟩ := order_splice lefts
    rw [new, old]
    have without := List.sublist_cons_self a (plug (.node m .leaf y) q).inorder
    exact ((without.append_left l.inorder).append_left p.before).append_right p.after
  have sameY : ∀ n ∈ y.inorder,
      isBlack (((t.redirect p.top a m).splice a m).rb n) = isBlack (t.rb n) := fun n member =>
    spliced.colours n fun eq => places.next.1 (eq ▸ member)
  have sameP : ∀ n, n ∈ addrs q ∨ n ∈ l.inorder ∨ n ∈ addrs p →
      isBlack (((t.redirect p.top a m).splice a m).rb n) = isBlack (t.rb n) := by
    intro n member
    refine spliced.colours n ?_
    rintro rfl
    rcases member with inQ | inL | inP
    · exact places.next.2 inQ
    · exact (places.left n inL).2.1 rfl
    · exact (places.above n inP).2.1 rfl
  have renamed : ∀ h, _ := fun h => Path.balanced_rename (s := .right) (h := h) spliced.colour sameP
  have asJoin : RedBlack t.rb (plug (join .right m y .leaf) (q ++ ⟨.right, a, l⟩ :: p)) := redBlack
  obtain ⟨short, whole⟩ := unlinked asJoin
  dsimp only
  rw [upA, keptM, child, parent]
  refine repair_erased _ ⟨spliced.rep, tree.distinct.sublist fewer, fun n member =>
    tree.aligned n (fewer.subset member)⟩ ?_ ?_ (fun n member => fewer.subset member) spliced.frame
    enough
  · intro black
    obtain ⟨h, height, balanced⟩ := short black
    exact ⟨h, (blackHeight_congr sameY).trans height, (renamed _).1 balanced⟩
  · intro red
    obtain ⟨h, height, balanced, clash⟩ := Path.redBlack_plug.mp (whole red)
    refine Path.redBlack_plug.mpr ⟨h, (blackHeight_congr sameY).trans height, (renamed h).1 balanced, ?_⟩
    rw [rootBlack_congr sameY, (renamed h).2]
    exact clash

theorem erase_node (tree : t.Shaped (plug (.node a l r) p))
    (redBlack : RedBlack t.rb (plug (.node a l r) p))
    (enough : (plug (.node a l r) p).inorder.length < fuel) :
    ∃ t' u, erase fuel t a = some t' ∧
      Repaired t t' (plug (.node a l r) p) u (p.before ++ (l.inorder ++ r.inorder) ++ p.after) := by
  obtain ⟨-, -, -, -, repL, repR⟩ := Path.hole_of_rep tree.rep
  have shorter : p.length < fuel := Nat.lt_of_le_of_lt (Path.length_le _ p) enough
  by_cases noLeft : l = .leaf
  · subst noLeft
    have zero : (t.rb a).left = 0 := repL
    obtain ⟨t', u, ran, erased⟩ := unlink_erased (s := .right) tree redBlack shorter
    refine ⟨t', u, ?_, ?_⟩
    · rw [erase, if_pos zero, rep_root repR]
      exact ran
    · rw [Path.inorder_plug] at erased
      exact erased
  have someL := rep_ne_zero repL noLeft
  by_cases noRight : r = .leaf
  · subst noRight
    have zero : (t.rb a).right = 0 := repR
    obtain ⟨t', u, ran, erased⟩ := unlink_erased (s := .left) tree redBlack shorter
    refine ⟨t', u, ?_, ?_⟩
    · rw [erase, if_neg someL, if_pos zero, rep_root repL]
      exact ran
    · rw [Path.inorder_plug] at erased
      simp only [Shape.inorder, List.append_nil]
      exact erased
  have someR := rep_ne_zero repR noRight
  have low : r.height ≤ fuel := by
    have bound := height_le r
    rw [Path.inorder_plug] at enough
    simp only [List.length_append, Shape.inorder, List.length_cons] at enough
    omega
  obtain ⟨m, y, q, rfl, lefts, found⟩ := firstNode_leads repR noRight low
  have view : plug (.node a l (plug (.node m .leaf y) q)) p =
      plug (.node m .leaf y) (q ++ ⟨.right, a, l⟩ :: p) := by
    rw [Path.plug_append]
    rfl
  rw [view] at tree redBlack enough ⊢
  have pathShort : (q ++ ⟨.right, m, l⟩ :: p).length < fuel := by
    have bound := Path.length_le (.node m .leaf y) (q ++ ⟨.right, a, l⟩ :: p)
    simp only [List.length_append, List.length_cons] at bound ⊢
    omega
  obtain ⟨t', u, ran, erased⟩ := splice_erased lefts tree redBlack noLeft pathShort
  refine ⟨t', u, ?_, ?_⟩
  · rw [erase, if_neg someL, if_neg someR, found]
    exact ran
  · rw [(order_splice (a := a) lefts).1] at erased
    exact erased

end Tree

end RbTree
