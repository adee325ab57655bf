import ScaraOS.Lib.Loops
import ScaraOS.Mm.Lookup
import ScaraOS.Mm.Setup

/-! The areas of a context after any sequence of calls of `setup_vma`. They stay in order
and apart, so that one way down the tree meets every overlap there is. -/
namespace ScaraOS.Mm

open RbTree

structure Setup where
  request : Request
  alloc : Option Nat
  deriving DecidableEq, Repr

def setupStep (ctx : Nat) (w : World) (c : Setup) : Except Stop World :=
  (setupVma w ctx c.request c.alloc).map Prod.fst

structure Proper (c : Setup) : Prop where
  nonempty : 0 < c.request.len
  fits : c.request.va + c.request.len + 0xfff < 2 ^ 32
  off : c.request.off < 2 ^ 32
  aligned : ∀ n, c.alloc = some n → n % 4 = 0

def Intersects (a b : Vma) : Prop := ∃ x, Holds a x ∧ Holds b x

theorem intersects_iff {a b : Vma} (left : a.vmaBegin < a.vmaEnd) (right : b.vmaBegin < b.vmaEnd) :
    Intersects a b ↔ side b a = none := by
  constructor
  · rintro ⟨x, inA, inB⟩
    by_contra clear
    have apart := side_clear.mp clear
    unfold Holds at inA inB
    omega
  · intro overlap
    have clash : ¬ (b.vmaEnd ≤ a.vmaBegin ∨ a.vmaEnd ≤ b.vmaBegin) :=
      fun apart => side_clear.mpr apart overlap
    refine ⟨max a.vmaBegin b.vmaBegin, ?_, ?_⟩
    · unfold Holds
      omega
    · unfold Holds
      omega

section
variable {c : Setup} (proper : Proper c)
include proper

theorem Proper.area_begin : c.request.area.vmaBegin = c.request.va / 4096 * 4096 := by
  have fits := proper.fits
  exact vaRoundDown_eq (by omega)

theorem Proper.area_end :
    c.request.area.vmaEnd = (c.request.va + c.request.len + 4095) / 4096 * 4096 := by
  have fits := proper.fits
  simp only [Request.area, vaRoundUp, pgVal_eq]
  omega

theorem Proper.area_pages : c.request.area.vmaBegin % 4096 = 0 ∧ c.request.area.vmaEnd % 4096 = 0 ∧
    c.request.area.vmaBegin < c.request.area.vmaEnd := by
  have some_len := proper.nonempty
  rw [proper.area_begin, proper.area_end]
  omega

theorem Proper.area_holds (x : Nat) : Holds c.request.area x ↔
    ∃ y, c.request.va ≤ y ∧ y < c.request.va + c.request.len ∧ y / 4096 = x / 4096 := by
  have some_len := proper.nonempty
  unfold Holds
  rw [proper.area_begin, proper.area_end]
  constructor
  · rintro ⟨low, high⟩
    exact ⟨max c.request.va (x / 4096 * 4096), by omega, by omega, by omega⟩
  · rintro ⟨y, low, high, page⟩
    omega

theorem Proper.area_off (file : c.request.ino ≠ 0) (page : c.request.area.vmaOff % 4096 = 0) :
    (c.request.area.vmaOff : Int) - c.request.area.vmaBegin = (c.request.off : Int) - c.request.va := by
  have fits := proper.fits
  have word := proper.off
  have begins := proper.area_begin
  have value : c.request.area.vmaOff =
      (c.request.off + 2 ^ 32 - (c.request.va - c.request.area.vmaBegin)) % 2 ^ 32 := if_pos file
  omega

end

theorem placed_order {w : World} {n : Nat} {shape shape' : Shape} (areas : DisjointAreas w.vma shape)
    (nonempty : (w.vma n).vmaBegin < (w.vma n).vmaEnd) (placed : Placed w n shape shape') :
    (∀ m ∈ shape.inorder, side (w.vma n) (w.vma m) ≠ none) ∧
      shape'.inorder.Pairwise fun a b => (w.vma a).vmaEnd ≤ (w.vma b).vmaBegin := by
  obtain ⟨q, plugged, order, turns⟩ := placed
  have split := Path.inorder_hole plugged
  have forward := areas.forward
  have sorted := areas.order
  rw [split] at forward sorted
  let R : Nat → Nat → Prop := fun a b => (w.vma a).vmaEnd ≤ (w.vma b).vmaBegin ∧
    (w.vma a).vmaBegin ≤ (w.vma a).vmaEnd ∧ (w.vma b).vmaBegin ≤ (w.vma b).vmaEnd
  have related : (q.before ++ q.after).Pairwise R :=
    sorted.imp_of_mem fun inA inB le => ⟨le, forward _ inA, forward _ inB⟩
  have sides : ∀ m, (side (w.vma n) (w.vma m) = some .left ↔ (w.vma n).vmaEnd ≤ (w.vma m).vmaBegin) ∧
      (side (w.vma n) (w.vma m) = some .right ↔
        ¬ (w.vma n).vmaEnd ≤ (w.vma m).vmaBegin ∧ (w.vma m).vmaEnd ≤ (w.vma n).vmaBegin) := by
    intro m
    unfold side
    by_cases left : (w.vma n).vmaEnd ≤ (w.vma m).vmaBegin
    · simp [left]
    · by_cases right : (w.vma n).vmaBegin ≥ (w.vma m).vmaEnd
      · simp [left, right]
      · simp [left, right]
  let dir : Nat → Option Side := fun m => side (w.vma n) (w.vma m)
  have turned : ∀ f ∈ q, dir f.addr = some f.side := turns
  have leftwards : ∀ a b, R a b → dir b = some .right → dir a = some .right := by
    intro a b rel right
    rw [(sides _).2] at right ⊢
    obtain ⟨le, forA, forB⟩ := rel
    omega
  have rightwards : ∀ a b, R a b → dir a = some .left → dir b = some .left := by
    intro a b rel left
    rw [(sides _).1] at left ⊢
    obtain ⟨le, forA, forB⟩ := rel
    omega
  obtain ⟨relatedB, relatedA, -⟩ := List.pairwise_append.mp related
  have before : ∀ m ∈ q.before, (w.vma m).vmaEnd ≤ (w.vma n).vmaBegin := fun m member =>
    ((sides m).2.mp (Path.before_right leftwards turned relatedB m member)).2
  have after : ∀ m ∈ q.after, (w.vma n).vmaEnd ≤ (w.vma m).vmaBegin := fun m member =>
    (sides m).1.mp (Path.after_left rightwards turned relatedA m member)
  obtain ⟨sortedB, sortedA, across⟩ := List.pairwise_append.mp sorted
  constructor
  · intro m member
    rw [split, List.mem_append] at member
    exact side_clear.mpr (member.symm.imp (after m) (before m))
  · rw [order]
    refine List.pairwise_append.mpr ⟨sortedB, List.pairwise_cons.mpr ⟨after, sortedA⟩, ?_⟩
    intro a inB b later
    rcases List.mem_cons.mp later with rfl | inA
    · exact before a inB
    · exact across a inB b inA

structure AreasOf (w : World) (ctx : Nat) (calls : List Setup) (shape : Shape) : Prop where
  tree : AreaTree w ctx shape
  pages : ∀ n ∈ shape.inorder, (w.vma n).vmaBegin % 4096 = 0 ∧ (w.vma n).vmaEnd % 4096 = 0 ∧
    (w.vma n).vmaBegin < (w.vma n).vmaEnd
  order : shape.inorder.Pairwise fun a b => (w.vma a).vmaEnd ≤ (w.vma b).vmaBegin
  members : shape.inorder.Perm (calls.filterMap Setup.alloc)
  areas : ∀ c ∈ calls, ∀ n, c.alloc = some n →
    (w.vma n).area = c.request.area ∧ c.request.area.vmaOff % 4096 = 0

theorem AreasOf.disjoint {w : World} {ctx : Nat} {calls : List Setup} {shape : Shape}
    (inv : AreasOf w ctx calls shape) : DisjointAreas w.vma shape :=
  ⟨inv.tree.nodup, fun n member => Nat.le_of_lt (inv.pages n member).2.2, inv.order⟩

theorem areasOf_start {w : World} {ctx : Nat} (here : ctx ∈ w.memctx)
    (empty : (w.ctx ctx).rbNode = 0) : AreasOf w ctx [] .leaf where
  tree := ⟨⟨here, empty, by simp [Shape.inorder], by simp [Shape.inorder]⟩,
    by simp [Shape.inorder], ⟨rfl, rfl⟩⟩
  pages := by simp [Shape.inorder]
  order := List.Pairwise.nil
  members := List.Perm.refl _
  areas := by simp

theorem vma_of_area {u v : Vma} (same : u.area = v.area) :
    u.vmaBegin = v.vmaBegin ∧ u.vmaEnd = v.vmaEnd ∧ u.vmaOff = v.vmaOff := by
  simp only [Vma.area, Vma.mk.injEq] at same
  exact ⟨same.2.1, same.2.2.1, same.2.2.2.2.1⟩

section
variable {w w' : World} {ctx n : Nat} {calls : List Setup} {c : Setup} {shape shape' : Shape}

theorem made_older (inv : AreasOf w ctx calls shape) (r : Request) (unused : n ∉ w.vmas) :
    ∀ m ∈ shape.inorder, (made w r n).vma m = w.vma m := by
  intro m member
  have apart : m ≠ n := fun same => unused (same ▸ inv.tree.live m member)
  exact Function.update_of_ne apart _ _

theorem made_new (w : World) (r : Request) (n : Nat) :
    ((made w r n).vma n).area = r.area.area := by
  simp [made, Vma.area, Request.area]

theorem AreasOf.placed (inv : AreasOf w ctx calls shape) (proper : Proper c) (unused : n ∉ w.vmas)
    (placed : Placed (made w c.request n) n shape shape') :
    (∀ m ∈ shape.inorder, side c.request.area (w.vma m) ≠ none) ∧
      shape'.inorder.Pairwise fun a b =>
        ((made w c.request n).vma a).vmaEnd ≤ ((made w c.request n).vma b).vmaBegin := by
  have older := made_older inv c.request unused
  obtain ⟨newBegin, newEnd, -⟩ := vma_of_area (made_new w c.request n)
  have before : DisjointAreas (made w c.request n).vma shape := by
    refine ⟨inv.tree.nodup, ?_, ?_⟩
    · intro m member
      rw [older m member]
      exact inv.disjoint.forward m member
    · refine inv.order.imp_of_mem fun inA inB le => ?_
      rw [older _ inA, older _ inB]
      exact le
  obtain ⟨clear, order⟩ :=
    placed_order before (by rw [newBegin, newEnd]; exact proper.area_pages.2.2) placed
  refine ⟨fun m member => ?_, order⟩
  have apart := side_clear.mp (clear m member)
  rw [newBegin, newEnd, older m member] at apart
  exact side_clear.mpr apart

theorem AreasOf.grow (inv : AreasOf w ctx calls shape) (proper : Proper c) (given : c.alloc = some n)
    (unused : n ∉ w.vmas) (off : c.request.area.vmaOff % 4096 = 0)
    (grew : Grew (made w c.request n) w' ctx shape shape' n)
    (placed : Placed (made w c.request n) n shape shape') : AreasOf w' ctx (calls ++ [c]) shape' := by
  have older := made_older inv c.request unused
  have new := made_new w c.request n
  obtain ⟨newBegin, newEnd, -⟩ := vma_of_area new
  obtain ⟨-, order⟩ := inv.placed proper unused placed
  obtain ⟨q, plugged, sequence, -⟩ := placed
  have split := Path.inorder_hole plugged
  refine ⟨grew.tree, ?_, ?_, ?_, ?_⟩
  · intro m member
    obtain ⟨sameBegin, sameEnd, -⟩ := vma_of_area (grew.areas m)
    rw [sameBegin, sameEnd]
    rcases (grew.members m).mp member with rfl | old
    · rw [newBegin, newEnd]
      exact proper.area_pages
    · rw [older m old]
      exact inv.pages m old
  · refine order.imp fun {a b} le => ?_
    rw [(vma_of_area (grew.areas a)).2.1, (vma_of_area (grew.areas b)).1]
    exact le
  · rw [sequence, List.filterMap_append]
    have last : [c].filterMap Setup.alloc = [n] := by simp [given]
    have behind : (n :: calls.filterMap Setup.alloc).Perm (calls.filterMap Setup.alloc ++ [n]) :=
      (List.perm_append_singleton n _).symm
    rw [last]
    exact (List.perm_middle.trans ((split ▸ inv.members).cons n)).trans behind
  · intro d member m alloc
    rcases List.mem_append.mp member with done | last
    · obtain ⟨area, page⟩ := inv.areas d done m alloc
      have inTree : m ∈ shape.inorder :=
        inv.members.mem_iff.mpr (List.mem_filterMap.mpr ⟨d, done, alloc⟩)
      refine ⟨?_, page⟩
      rw [grew.areas m, older m inTree]
      exact area
    · rw [List.mem_singleton.mp last] at alloc ⊢
      have same : m = n := Option.some.inj (alloc.symm.trans given)
      rw [same, grew.areas n]
      exact ⟨new, off⟩

theorem given_of_ok (proper : Proper c) (ran : setupStep ctx w c = .ok w') : Given w.vmas c.alloc := by
  intro n alloc
  refine ⟨?_, ?_, proper.aligned n alloc⟩
  · rintro rfl
    simp [setupStep, setupVma, objcacheAlloc, alloc, Except.map] at ran
  · intro used
    simp [setupStep, setupVma, objcacheAlloc, alloc, used, Except.map] at ran

theorem setupStep_keeps (inv : AreasOf w ctx calls shape) (proper : Proper c)
    (ran : setupStep ctx w c = .ok w') : ∃ shape', AreasOf w' ctx (calls ++ [c]) shape' := by
  have given := given_of_ok proper ran
  unfold setupStep at ran
  rcases setupVma_cases c.request inv.tree given with
    ⟨none, called⟩ | ⟨n, alloc, ⟨-, called⟩ | ⟨-, called⟩ | ⟨off, u, shape', called, grew, placed⟩⟩
  · rw [called] at ran
    cases ran
    refine ⟨shape, inv.tree, inv.pages, inv.order, ?_, ?_⟩
    · rw [List.filterMap_append]
      have nothing : [c].filterMap Setup.alloc = [] := by simp [none]
      rw [nothing, List.append_nil]
      exact inv.members
    · intro d member m alloc
      rcases List.mem_append.mp member with done | last
      · exact inv.areas d done m alloc
      · rw [List.mem_singleton.mp last, none] at alloc
        cases alloc
  · rw [called] at ran
    cases ran
  · rw [called] at ran
    cases ran
  · rw [called] at ran
    cases ran
    exact ⟨shape', inv.grow proper alloc (given n alloc).2.1 off grew placed⟩

theorem setupRun_keeps (inv : AreasOf w ctx calls shape) {later : List Setup}
    (proper : ∀ c ∈ later, Proper c) (ran : later.foldlM (setupStep ctx) w = .ok w') :
    ∃ shape', AreasOf w' ctx (calls ++ later) shape' := by
  induction later generalizing w calls shape with
  | nil =>
    cases ran
    rw [List.append_nil]
    exact ⟨shape, inv⟩
  | cons c rest ih =>
    rw [List.foldlM_cons] at ran
    obtain ⟨u, first, remaining⟩ := Loops.bind_ok.mp ran
    obtain ⟨shape₁, inv₁⟩ := setupStep_keeps inv (proper c List.mem_cons_self) first
    obtain ⟨shape₂, inv₂⟩ :=
      ih inv₁ (fun d member => proper d (List.mem_cons_of_mem c member)) remaining
    rw [List.append_assoc] at inv₂
    exact ⟨shape₂, inv₂⟩

theorem AreasOf.next (inv : AreasOf w ctx calls shape) (proper : Proper c)
    (given : Given w.vmas c.alloc) (alloc : c.alloc = some n)
    (off : c.request.area.vmaOff % 4096 = 0) :
    (setupVma w ctx c.request c.alloc = .error (.bug .vmaInsert) ↔
      ∃ a ∈ shape.inorder, Intersects (w.vma a) c.request.area) ∧
    ((¬ ∃ a ∈ shape.inorder, Intersects (w.vma a) c.request.area) →
      ∃ w', setupVma w ctx c.request c.alloc = .ok (w', 0)) := by
  obtain ⟨-, -, nonempty⟩ := proper.area_pages
  have meets : ∀ a ∈ shape.inorder,
      (Intersects (w.vma a) c.request.area ↔ side c.request.area (w.vma a) = none) :=
    fun a member => intersects_iff (inv.pages a member).2.2 nonempty
  rcases setupVma_cases c.request inv.tree given with
    ⟨none, -⟩ | ⟨m, got, ⟨bad, -⟩ | ⟨⟨a, member, overlap⟩, called⟩ | ⟨-, u, shape', called, grew, placed⟩⟩
  · rw [none] at alloc
    cases alloc
  · exact absurd off bad
  · have found : ∃ a ∈ shape.inorder, Intersects (w.vma a) c.request.area :=
      ⟨a, member, (meets a member).mpr overlap⟩
    exact ⟨⟨fun _ => found, fun _ => called⟩, fun clear => absurd found clear⟩
  · obtain rfl : m = n := Option.some.inj (got.symm.trans alloc)
    obtain ⟨clear, -⟩ := inv.placed proper (given m alloc).2.1 placed
    have none : ¬ ∃ a ∈ shape.inorder, Intersects (w.vma a) c.request.area := by
      rintro ⟨a, member, overlap⟩
      exact clear a member ((meets a member).mp overlap)
    refine ⟨⟨fun stopped => ?_, fun found => absurd found none⟩, fun _ => ⟨u, called⟩⟩
    rw [called] at stopped
    cases stopped

end

/-- Any sequence of calls on a fresh context that does not stop: the areas form a
red-black tree in the order of their addresses, one for each call that got an object,
made of the pages its range overlaps and showing the file as asked for. And a further
call stops in `vma_insert` exactly when its area meets one of them. -/
theorem setup_sequence (w₀ w : World) (ctx : Nat) (calls : List Setup) (here : ctx ∈ w₀.memctx)
    (empty : (w₀.ctx ctx).rbNode = 0) (proper : ∀ c ∈ calls, Proper c)
    (ran : calls.foldlM (setupStep ctx) w₀ = .ok w) :
    ∃ shape, Rep (fun n => (w.vma n).rbt) (w.ctx ctx).rbNode 0 shape ∧
      RedBlack (fun n => (w.vma n).rbt) shape ∧
      (∀ n ∈ shape.inorder, (w.vma n).vmaBegin % 4096 = 0 ∧ (w.vma n).vmaEnd % 4096 = 0 ∧
        (w.vma n).vmaBegin < (w.vma n).vmaEnd) ∧
      shape.inorder.Pairwise (fun a b => (w.vma a).vmaEnd ≤ (w.vma b).vmaBegin) ∧
      shape.inorder.Nodup ∧ shape.inorder.Perm (calls.filterMap Setup.alloc) ∧
      (∀ c ∈ calls, ∀ n, c.alloc = some n →
        (∀ x, Holds (w.vma n) x ↔ ∃ y, c.request.va ≤ y ∧ y < c.request.va + c.request.len ∧
          y / 4096 = x / 4096) ∧
        (c.request.ino ≠ 0 → ∀ x, Holds (w.vma n) x →
          ((w.vma n).vmaOff : Int) + (x - (w.vma n).vmaBegin) = c.request.off + (x - c.request.va))) ∧
      ∀ c, Proper c → Given w.vmas c.alloc → ∀ n, c.alloc = some n →
        c.request.area.vmaOff % 4096 = 0 →
        (setupVma w ctx c.request c.alloc = .error (.bug .vmaInsert) ↔
          ∃ a ∈ shape.inorder, Intersects (w.vma a) c.request.area) ∧
        ((¬ ∃ a ∈ shape.inorder, Intersects (w.vma a) c.request.area) →
          ∃ w', setupVma w ctx c.request c.alloc = .ok (w', 0)) := by
  obtain ⟨shape, inv⟩ := setupRun_keeps (areasOf_start here empty) proper ran
  rw [List.nil_append] at inv
  refine ⟨shape, inv.tree.rep, inv.tree.redBlack, inv.pages, inv.order, inv.tree.nodup, inv.members,
    ?_, fun c good given n alloc off => inv.next good given alloc off⟩
  intro c called n alloc
  have good := proper c called
  obtain ⟨area, page⟩ := inv.areas c called n alloc
  have same : (w.vma n).area = c.request.area.area := area
  obtain ⟨begins, ends, offset⟩ := vma_of_area same
  refine ⟨fun x => ?_, fun file x _ => ?_⟩
  · rw [← good.area_holds x]
    unfold Holds
    rw [begins, ends]
  · have moved := good.area_off file page
    rw [begins, offset]
    omega

def emptyContext : World where
  vma := fun _ => ⟨⟨0, 0, 0⟩, 0, 0, 0, 0, 0⟩
  ctx := fun _ => ⟨0, 7, 1⟩
  vmas := ∅
  memctx := {64}
  frames := {7}
  word := fun _ _ => 0
  iCount := fun _ => 1

def threeAreas : List Setup :=
  [⟨⟨0x5010, 0x20, 1, 3, 0x2010⟩, some 16⟩, ⟨⟨0x6000, 0x1000, 1, 0, 0⟩, some 32⟩,
    ⟨⟨0x9000, 0x10, 1, 0, 0⟩, none⟩, ⟨⟨0x1000, 0x1001, 1, 0, 0⟩, some 48⟩]

theorem setup_sequence_three : ∃ w, threeAreas.foldlM (setupStep 64) emptyContext = .ok w ∧
    ((w.vma 16).vmaOff : Int) + (0x5500 - (w.vma 16).vmaBegin) = 0x2010 + (0x5500 - 0x5010) ∧
    setupVma w 64 ⟨0x2fff, 0x3002, 1, 0, 0⟩ (some 80) = .error (.bug .vmaInsert) := by
  have ends : ((threeAreas.foldlM (setupStep 64) emptyContext).toOption.map World.vmas) =
      some {16, 32, 48} := by decide +kernel
  obtain ⟨w, ran, live⟩ := Option.map_eq_some_iff.mp ends
  have ok : threeAreas.foldlM (setupStep 64) emptyContext = .ok w := Loops.ok_of_toOption ran
  have proper : ∀ c ∈ threeAreas, Proper c := by
    intro c member
    simp only [threeAreas, List.mem_cons, List.not_mem_nil, or_false] at member
    rcases member with rfl | rfl | rfl | rfl
    all_goals exact ⟨by decide, by decide, by decide, by simp⟩
  obtain ⟨shape, -, -, -, -, -, members, areas, next⟩ :=
    setup_sequence emptyContext w 64 threeAreas (by decide) rfl proper ok
  refine ⟨w, ok, ?_, ?_⟩
  · obtain ⟨holds, offset⟩ := areas ⟨⟨0x5010, 0x20, 1, 3, 0x2010⟩, some 16⟩ (by decide) 16 rfl
    exact offset (by decide) 0x5500 ((holds 0x5500).mpr ⟨0x5010, by decide, by decide, by decide⟩)
  · have last : (⟨⟨0x2fff, 0x3002, 1, 0, 0⟩, some 80⟩ : Setup).alloc = some 80 := rfl
    have good : Proper ⟨⟨0x2fff, 0x3002, 1, 0, 0⟩, some 80⟩ :=
      ⟨by decide, by decide, by decide, by simp⟩
    have given : Given w.vmas (some 80) := by
      rintro n ⟨⟩
      rw [live]
      decide
    obtain ⟨stops, -⟩ := next ⟨⟨0x2fff, 0x3002, 1, 0, 0⟩, some 80⟩ good given 80 last (by decide)
    obtain ⟨holds, -⟩ := areas ⟨⟨0x1000, 0x1001, 1, 0, 0⟩, some 48⟩ (by decide) 48 rfl
    refine stops.mpr ⟨48, members.mem_iff.mpr (by decide), 0x2fff, ?_, by decide⟩
    exact (holds 0x2fff).mpr ⟨0x2000, by decide, by decide, by decide⟩

end ScaraOS.Mm
