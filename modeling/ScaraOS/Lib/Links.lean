import Mathlib.Data.List.Nodup
import Mathlib.Data.List.Perm.Subperm
import Mathlib.Logic.Function.Basic

/-! Circular doubly linked lists threaded through their own nodes. Heads and
members are cells of one type; the whole memory of links is a pair of functions.
The operations are pointer assignments in the order the macros make them. A
family of rings is what a set of such lists is when every cell is on at most one. -/

structure Links (α : Type*) where
  next : α → α
  prev : α → α

namespace Links

open Function

variable {α ι : Type*}

/-- From `a` along `next` through the cells of `l` to `b`, with `prev` the way back. -/
def Seg (σ : Links α) : α → List α → α → Prop
  | a, [], b => σ.next a = b ∧ σ.prev b = a
  | a, x :: l, b => (σ.next a = x ∧ σ.prev x = a) ∧ Seg σ x l b

/-- The list with this head and these members, in order. -/
def Ring (σ : Links α) (h : α) (l : List α) : Prop := Seg σ h l h ∧ (h :: l).Nodup

theorem seg_append (σ : Links α) (a x b : α) (l r : List α) :
    Seg σ a (l ++ x :: r) b ↔ Seg σ a l x ∧ Seg σ x r b := by
  induction l generalizing a with
  | nil => simp [Seg]
  | cons y l ih => simp [Seg, ih, and_assoc]

variable {σ τ : Links α} {a b h x y : α} {l r : List α} {hd : ι → α} {L : ι → List α} {i : ι}

theorem seg_congr (nexts : ∀ y ∈ a :: l, τ.next y = σ.next y)
    (prevs : ∀ y ∈ l ++ [b], τ.prev y = σ.prev y) (seg : Seg σ a l b) : Seg τ a l b := by
  induction l generalizing a with
  | nil =>
    have hn := nexts a (by simp)
    have hp := prevs b (by simp)
    exact ⟨hn.trans seg.1, hp.trans seg.2⟩
  | cons x l ih =>
    have hn := nexts a (by simp)
    have hp := prevs x (by simp)
    refine ⟨⟨hn.trans seg.1.1, hp.trans seg.1.2⟩, ih ?_ ?_ seg.2⟩
    · exact fun y hy => nexts y (List.mem_cons_of_mem a hy)
    · exact fun y hy => prevs y (by simp at hy ⊢; exact .inr hy)

theorem ring_congr (nexts : ∀ y ∈ h :: l, τ.next y = σ.next y)
    (prevs : ∀ y ∈ h :: l, τ.prev y = σ.prev y) (ring : Ring σ h l) : Ring τ h l :=
  ⟨seg_congr nexts (fun y hy => prevs y (by simp at hy ⊢; exact hy.symm)) ring.1, ring.2⟩

theorem seg_next (σ : Links α) (seg : Seg σ a l b) : σ.next a = (l ++ [b]).head (by simp) := by
  cases l with
  | nil => exact seg.1
  | cons x l => exact seg.1.1

theorem seg_prev (σ : Links α) (seg : Seg σ a l b) : σ.prev b = (a :: l).getLast (by simp) := by
  induction l generalizing a with
  | nil => exact seg.2
  | cons x l ih =>
    rw [ih seg.2, List.getLast_cons (List.cons_ne_nil x l)]

theorem ring_next_mem (ring : Ring σ h l) : σ.next h ∈ h :: l := by
  have eq := seg_next σ ring.1
  have mem := List.head_mem (l := l ++ [h]) (by simp)
  rw [← eq] at mem
  simpa [or_comm] using mem

theorem ring_prev_mem (ring : Ring σ h l) : σ.prev h ∈ h :: l := by
  rw [seg_prev σ ring.1]
  exact List.getLast_mem _

theorem ring_neighbours (ring : Ring σ h l) (member : x ∈ l) :
    σ.prev x ∈ h :: l ∧ σ.next x ∈ h :: l := by
  obtain ⟨l, r, rfl⟩ := List.mem_iff_append.mp member
  have parts := (seg_append σ h x h l r).mp ring.1
  have pred := List.getLast_mem (l := h :: l) (by simp)
  have succ := List.head_mem (l := r ++ [h]) (by simp)
  rw [← seg_prev σ parts.1] at pred
  rw [← seg_next σ parts.2] at succ
  constructor
  · simp only [List.mem_cons, List.mem_append] at pred ⊢
    tauto
  · simp only [List.mem_cons, List.mem_append, List.not_mem_nil] at succ ⊢
    tauto

theorem ring_unique (one : Ring σ h l) (two : Ring σ h r) : l = r := by
  have core : ∀ (l r : List α) (a : α), Seg σ a l h → Seg σ a r h → h ∉ l → h ∉ r → l = r := by
    intro l
    induction l with
    | nil =>
      intro r a hl hr _ nr
      cases r with
      | nil => rfl
      | cons y r => exact absurd (hl.1.symm.trans hr.1.1) (fun eq => nr (by simp [eq]))
    | cons x l ih =>
      intro r a hl hr nl nr
      cases r with
      | nil => exact absurd (hr.1.symm.trans hl.1.1) (fun eq => nl (by simp [eq]))
      | cons y r =>
        have same : x = y := hl.1.1.symm.trans hr.1.1
        subst same
        rw [ih r x hl.2 hr.2 (fun hm => nl (by simp [hm])) (fun hm => nr (by simp [hm]))]
  exact core l r h one.1 two.1 (List.nodup_cons.mp one.2).1 (List.nodup_cons.mp two.2).1

section Operations

variable [DecidableEq α] [DecidableEq ι]

def setNext (σ : Links α) (a b : α) : Links α := { σ with next := update σ.next a b }
def setPrev (σ : Links α) (a b : α) : Links α := { σ with prev := update σ.prev a b }

def initListHead (σ : Links α) (x : α) : Links α := (σ.setNext x x).setPrev x x

def listAddBetween (σ : Links α) (x before after : α) : Links α :=
  (((σ.setPrev after x).setNext x after).setPrev x before).setNext before x

def listAdd (σ : Links α) (x head : α) : Links α := σ.listAddBetween x head (σ.next head)
def listAddTail (σ : Links α) (x head : α) : Links α := σ.listAddBetween x (σ.prev head) head

def listDelInternal (σ : Links α) (before after : α) : Links α :=
  (σ.setPrev after before).setNext before after

def unlink (σ : Links α) (x : α) : Links α := σ.listDelInternal (σ.prev x) (σ.next x)
def listDel (σ : Links α) (x : α) : Links α := (σ.unlink x).initListHead x
def listMoveTail (σ : Links α) (x head : α) : Links α := (σ.unlink x).listAddTail x head
def listEmpty (σ : Links α) (head : α) : Bool := σ.next head == head

theorem ring_empty_iff (ring : Ring σ h l) : σ.listEmpty h = true ↔ l = [] := by
  cases l with
  | nil => simp [listEmpty, ring.1.1]
  | cons x l =>
    have ne : x ≠ h := fun eq => by simpa [eq] using ring.2
    simp [listEmpty, ring.1.1.1, ne]

/- Each operation assigns only these cells; everything else is framed. -/

theorem listAddBetween_next (σ : Links α) (x p n y : α) (hx : y ≠ x) (hp : y ≠ p) :
    (σ.listAddBetween x p n).next y = σ.next y := by
  simp [listAddBetween, setNext, setPrev, hx, hp]

theorem listAddBetween_prev (σ : Links α) (x p n y : α) (hx : y ≠ x) (hn : y ≠ n) :
    (σ.listAddBetween x p n).prev y = σ.prev y := by
  simp [listAddBetween, setNext, setPrev, hx, hn]

theorem listAddBetween_linked (σ : Links α) (x p n : α) (hp : p ≠ x) (hn : n ≠ x) :
    ((σ.listAddBetween x p n).next p = x ∧ (σ.listAddBetween x p n).prev x = p) ∧
    ((σ.listAddBetween x p n).next x = n ∧ (σ.listAddBetween x p n).prev n = x) := by
  simp [listAddBetween, setNext, setPrev, hn, hp.symm]

theorem unlink_next (σ : Links α) (x y : α) (hy : y ≠ σ.prev x) :
    (σ.unlink x).next y = σ.next y := by
  simp [unlink, listDelInternal, setNext, setPrev, hy]

theorem unlink_prev (σ : Links α) (x y : α) (hy : y ≠ σ.next x) :
    (σ.unlink x).prev y = σ.prev y := by
  simp [unlink, listDelInternal, setNext, setPrev, hy]

theorem unlink_linked (σ : Links α) (x : α) :
    (σ.unlink x).next (σ.prev x) = σ.next x ∧ (σ.unlink x).prev (σ.next x) = σ.prev x := by
  simp [unlink, listDelInternal, setNext, setPrev]

theorem initListHead_next (σ : Links α) (x y : α) (hy : y ≠ x) :
    (σ.initListHead x).next y = σ.next y := by
  simp [initListHead, setNext, setPrev, hy]

theorem initListHead_prev (σ : Links α) (x y : α) (hy : y ≠ x) :
    (σ.initListHead x).prev y = σ.prev y := by
  simp [initListHead, setNext, setPrev, hy]

theorem initListHead_ring (σ : Links α) (x : α) : Ring (σ.initListHead x) x [] := by
  simp [Ring, Seg, initListHead, setNext, setPrev]

theorem seg_unlink (left : Seg σ a l x) (right : Seg σ x r b) (distinct : (a :: (l ++ r)).Nodup)
    (fresh : b ∉ l ++ r) : Seg (σ.unlink x) a (l ++ r) b := by
  induction l generalizing a with
  | nil =>
    have before : σ.prev x = a := left.2
    have ends := unlink_linked σ x
    cases r with
    | nil =>
      have after : σ.next x = b := right.1
      rw [before, after] at ends
      exact ends
    | cons z r =>
      have after : σ.next x = z := right.1.1
      rw [before, after] at ends
      refine ⟨ends, seg_congr ?_ ?_ right.2⟩
      · intro y hy
        apply unlink_next
        rintro rfl
        simp [before] at hy
        simp_all
      · intro y hy
        apply unlink_prev
        rintro rfl
        simp [after] at hy
        simp_all
  | cons y l ih =>
    have pred := seg_prev σ left.2
    have succ := seg_next σ right
    have predMem : σ.prev x ∈ y :: l := pred ▸ List.getLast_mem _
    have succMem : σ.next x ∈ r ++ [b] := succ ▸ List.head_mem _
    have apart := List.nodup_cons.mp distinct
    refine ⟨⟨?_, ?_⟩, ih left.2 apart.2 (fun hm => fresh (by simp at hm ⊢; exact .inr hm))⟩
    · rw [unlink_next σ x a (fun eq => apart.1 (by
        rw [← eq] at predMem
        exact List.mem_append_left r predMem))]
      exact left.1.1
    · rw [unlink_prev σ x y (fun eq => by rw [← eq] at succMem; simp at succMem; simp_all)]
      exact left.1.2

theorem ring_unlink (ring : Ring σ h (l ++ x :: r)) : Ring (σ.unlink x) h (l ++ r) := by
  have parts := (seg_append σ h x h l r).mp ring.1
  have distinct : (h :: (l ++ r)).Nodup := by
    have sub : (h :: (l ++ r)).Sublist (h :: (l ++ x :: r)) :=
      (List.Sublist.append_left (List.sublist_cons_self x r) l).cons_cons h
    exact ring.2.sublist sub
  exact ⟨seg_unlink parts.1 parts.2 distinct (List.nodup_cons.mp distinct).1, distinct⟩

theorem ring_listDel (ring : Ring σ h (l ++ x :: r)) : Ring (σ.listDel x) h (l ++ r) := by
  have absent : x ∉ h :: (l ++ r) := by
    have distinct := ring.2
    have moved : (h :: (l ++ x :: r)).Perm (x :: h :: (l ++ r)) :=
      (List.perm_middle.cons h).trans (List.Perm.swap x h _)
    exact (List.nodup_cons.mp (moved.nodup distinct)).1
  refine ring_congr ?_ ?_ (ring_unlink ring)
  · exact fun y hy => initListHead_next _ x y fun same => absent (same ▸ hy)
  · exact fun y hy => initListHead_prev _ x y fun same => absent (same ▸ hy)

theorem ring_listAdd (ring : Ring σ h l) (fresh : x ∉ h :: l) :
    Ring (σ.listAdd x h) h (x :: l) := by
  have hx : h ≠ x := fun eq => fresh (by simp [eq])
  have distinct : (h :: x :: l).Nodup := by
    have := ring.2
    simp only [List.nodup_cons, List.mem_cons] at this fresh ⊢
    tauto
  cases l with
  | nil =>
    have after : σ.next h = h := ring.1.1
    have ends := listAddBetween_linked σ x h h hx hx
    refine ⟨?_, distinct⟩
    rw [listAdd, after]
    exact ends
  | cons y l =>
    have after : σ.next h = y := ring.1.1.1
    have ends := listAddBetween_linked σ x h y hx (fun eq => fresh (by simp [eq]))
    refine ⟨?_, distinct⟩
    rw [listAdd, after]
    refine ⟨ends.1, ends.2, seg_congr ?_ ?_ ring.1.2⟩
    · intro z hz
      apply listAddBetween_next
      · rintro rfl; exact fresh (List.mem_cons_of_mem h hz)
      · rintro rfl; exact (List.nodup_cons.mp ring.2).1 hz
    · intro z hz
      apply listAddBetween_prev
      · rintro rfl; exact fresh (by simp at hz ⊢; tauto)
      · rintro rfl; simp at hz distinct; tauto

theorem ring_listAddTail (ring : Ring σ h l) (fresh : x ∉ h :: l) :
    Ring (σ.listAddTail x h) h (l ++ [x]) := by
  have hx : h ≠ x := fun eq => fresh (by simp [eq])
  have distinct : (h :: (l ++ [x])).Nodup := by
    have := ring.2
    simp only [List.nodup_cons, List.nodup_append, List.mem_cons, List.mem_append] at this fresh ⊢
    aesop
  rcases List.eq_nil_or_concat l with rfl | ⟨l, y, rfl⟩
  · have before : σ.prev h = h := ring.1.2
    have ends := listAddBetween_linked σ x h h hx hx
    refine ⟨?_, distinct⟩
    rw [listAddTail, before]
    exact ends
  · rw [List.concat_eq_append] at *
    have parts := (seg_append σ h y h l []).mp ring.1
    have before : σ.prev h = y := parts.2.2
    have ends := listAddBetween_linked σ x y h (fun eq => fresh (by simp [eq])) hx
    refine ⟨?_, distinct⟩
    rw [listAddTail, before, List.append_assoc]
    refine (seg_append _ h y h l [x]).mpr ⟨seg_congr ?_ ?_ parts.1, ends⟩
    · intro z hz
      apply listAddBetween_next
      · rintro rfl; exact fresh (by simp at hz ⊢; tauto)
      · rintro rfl
        have := ring.2
        simp [List.nodup_append] at this hz
        aesop
    · intro z hz
      apply listAddBetween_prev
      · rintro rfl; exact fresh (List.mem_cons_of_mem h hz)
      · rintro rfl; exact (List.nodup_cons.mp ring.2).1 hz

theorem listDel_self (next : σ.next x = x) (prev : σ.prev x = x) : σ.listDel x = σ := by
  have sameNext : update σ.next x x = σ.next := by
    rw [update_eq_self_iff, next]
  have samePrev : update σ.prev x x = σ.prev := by
    rw [update_eq_self_iff, prev]
  simp [listDel, unlink, listDelInternal, initListHead, setNext, setPrev, next, prev, sameNext,
    samePrev]

theorem listDel_unlinked (σ : Links α) (x : α) :
    (σ.listDel x).next x = x ∧ (σ.listDel x).prev x = x := by
  simp [listDel, initListHead, setNext, setPrev]

theorem listDel_frame (ring : Ring σ h l) (member : x ∈ l) (out : y ∉ h :: l) :
    (σ.listDel x).next y = σ.next y ∧ (σ.listDel x).prev y = σ.prev y := by
  have near := ring_neighbours ring member
  have apart : y ≠ x := fun eq => out (eq ▸ List.mem_cons_of_mem h member)
  constructor
  · rw [listDel, initListHead_next _ x y apart]
    exact unlink_next σ x y (fun eq => out (eq ▸ near.1))
  · rw [listDel, initListHead_prev _ x y apart]
    exact unlink_prev σ x y (fun eq => out (eq ▸ near.2))

theorem listAddTail_frame (ring : Ring σ h l) (apart : y ≠ x) (out : y ∉ h :: l) :
    (σ.listAddTail x h).next y = σ.next y ∧ (σ.listAddTail x h).prev y = σ.prev y := by
  have near := ring_prev_mem ring
  constructor
  · exact listAddBetween_next σ x _ _ y apart (fun eq => out (eq ▸ near))
  · exact listAddBetween_prev σ x _ _ y apart (fun eq => out (by simp [eq]))

/-- A set of lists over one memory of links: every cell is on at most one of them. -/
structure Rings (σ : Links α) (hd : ι → α) (L : ι → List α) : Prop where
  ring : ∀ i, Ring σ (hd i) (L i)
  apart : ∀ i j, i ≠ j → ∀ y ∈ hd i :: L i, y ∉ hd j :: L j

def Off (hd : ι → α) (L : ι → List α) (x : α) : Prop := ∀ i, x ∉ hd i :: L i

theorem erase_off (rings : Rings σ hd L) (member : x ∈ L i) :
    Off hd (update L i ((L i).erase x)) x := by
  intro j
  by_cases same : j = i
  · subst same
    have distinct := (rings.ring j).2
    have head : x ≠ hd j := fun eq => (List.nodup_cons.mp distinct).1 (eq ▸ member)
    have gone : x ∉ (L j).erase x := (List.nodup_cons.mp distinct).2.not_mem_erase
    simp [head, gone]
  · simpa [update_of_ne same] using
      rings.apart i j (Ne.symm same) x (List.mem_cons_of_mem _ member)

theorem rings_unlink (rings : Rings σ hd L) (member : x ∈ L i) :
    Rings (σ.unlink x) hd (update L i ((L i).erase x)) := by
  have near := ring_neighbours (rings.ring i) member
  constructor
  · intro j
    by_cases same : j = i
    · subst same
      obtain ⟨l, r, eq⟩ := List.mem_iff_append.mp member
      have ring := rings.ring j
      rw [eq] at ring
      have absent : x ∉ l := by
        have := (List.nodup_cons.mp ring.2).2
        simp [List.nodup_append] at this
        exact fun hm => (this.2.2 x hm).1 rfl
      rw [update_self, eq, List.erase_append_right _ absent, List.erase_cons_head]
      exact ring_unlink ring
    · rw [update_of_ne same]
      have far := rings.apart j i same
      refine ring_congr ?_ ?_ (rings.ring j)
      · exact fun y hy => unlink_next σ x y (fun eq => far y hy (eq ▸ near.1))
      · exact fun y hy => unlink_prev σ x y (fun eq => far y hy (eq ▸ near.2))
  · intro j k ne y hj hk
    have shrink : ∀ m, y ∈ hd m :: update L i ((L i).erase x) m → y ∈ hd m :: L m := by
      intro m hm
      by_cases same : m = i
      · subst same
        rw [update_self, List.mem_cons] at hm
        exact List.mem_cons.mpr (hm.imp_right List.mem_of_mem_erase)
      · rwa [update_of_ne same] at hm
    exact rings.apart j k ne y (shrink j hj) (shrink k hk)

omit [DecidableEq ι] in
theorem rings_initListHead (rings : Rings σ hd L) (off : Off hd L x) :
    Rings (σ.initListHead x) hd L := by
  refine ⟨fun i => ring_congr ?_ ?_ (rings.ring i), rings.apart⟩
  · exact fun y hy => initListHead_next σ x y (fun eq => off i (eq ▸ hy))
  · exact fun y hy => initListHead_prev σ x y (fun eq => off i (eq ▸ hy))

theorem rings_listDel (rings : Rings σ hd L) (member : x ∈ L i) :
    Rings (σ.listDel x) hd (update L i ((L i).erase x)) :=
  rings_initListHead (rings_unlink rings member) (erase_off rings member)

omit [DecidableEq α] in
theorem rings_insert (rings : Rings σ hd L) (off : Off hd L x) (same : ∀ y, y ∈ l ↔ y = x ∨ y ∈ L i)
    (here : Ring τ (hd i) l) (nexts : ∀ y, y ≠ x → y ∉ hd i :: L i → τ.next y = σ.next y)
    (prevs : ∀ y, y ≠ x → y ∉ hd i :: L i → τ.prev y = σ.prev y) :
    Rings τ hd (update L i l) := by
  constructor
  · intro j
    by_cases eq : j = i
    · subst eq
      rwa [update_self]
    · rw [update_of_ne eq]
      have other : ∀ y ∈ hd j :: L j, y ≠ x ∧ y ∉ hd i :: L i := fun y hy =>
        ⟨fun e => off j (e ▸ hy), rings.apart j i eq y hy⟩
      exact ring_congr (fun y hy => nexts y (other y hy).1 (other y hy).2)
        (fun y hy => prevs y (other y hy).1 (other y hy).2) (rings.ring j)
  · intro j k ne y hj hk
    have grow : ∀ m, y ∈ hd m :: update L i l m → y ∈ hd m :: L m ∨ (m = i ∧ y = x) := by
      intro m hm
      by_cases eq : m = i
      · subst eq
        rw [update_self, List.mem_cons, same] at hm
        rw [List.mem_cons]
        tauto
      · rw [update_of_ne eq] at hm
        exact .inl hm
    rcases grow j hj with old | ⟨rfl, rfl⟩
    · rcases grow k hk with old' | ⟨rfl, rfl⟩
      · exact rings.apart j k ne y old old'
      · exact off j old
    · rcases grow k hk with old' | ⟨rfl, _⟩
      · exact off k old'
      · exact ne rfl

theorem rings_listAddTail (rings : Rings σ hd L) (i : ι) (off : Off hd L x) :
    Rings (σ.listAddTail x (hd i)) hd (update L i (L i ++ [x])) := by
  have near := ring_prev_mem (rings.ring i)
  refine rings_insert rings off (fun y => by simp [or_comm])
    (ring_listAddTail (rings.ring i) (off i)) ?_ ?_
  · exact fun y hx hy => listAddBetween_next σ x _ _ y hx (fun eq => hy (eq ▸ near))
  · exact fun y hx hy => listAddBetween_prev σ x _ _ y hx (fun eq => hy (by simp [eq]))

theorem rings_listMoveTail (rings : Rings σ hd L) (j : ι) (member : x ∈ L i) :
    Rings (σ.listMoveTail x (hd j)) hd
      (update (update L i ((L i).erase x)) j
        (update L i ((L i).erase x) j ++ [x])) :=
  rings_listAddTail (rings_unlink rings member) j (erase_off rings member)

end Operations

end Links
