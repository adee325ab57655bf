import Mathlib.Data.Finset.Card
import Mathlib.Tactic.Ring
import ScaraOS.Slab.Model

/-! What holds of the caches between calls. A slab page held by a cache is cut
into slots; a slot is live, on the slab's free list or, in the current slab, not
yet handed out. `fl` is a ghost: the addresses on the free list of each slab. If `low` holds,
no slab ends at the end of the address space; otherwise the one object of such a slab may be in
use when the slab is on no list. -/
namespace ScaraOS.Slab

open Function Bytes

def slot (o : ObjCache) (p i : Nat) : Nat := pageAddress p + i * o.oSz

def Slot (o : ObjCache) (p a : Nat) : Prop := ∃ i < o.oNum, a = slot o p i

def Held (o : ObjCache) (p : Nat) : Prop := o.oCur = some p ∨ p ∈ o.oPartials ∨ p ∈ o.oFull

def Fresh (o : ObjCache) (p a : Nat) : Prop := o.oCur = some p ∧ o.oPtr ≤ a ∧ a < o.oPtrEnd

/-- A slot `a` that was not handed out yet: `o_ptr_end` may have wrapped. -/
def Unused (o : ObjCache) (p a : Nat) : Prop := o.oCur = some p ∧ o.oPtr ≤ a

structure Sized (o : ObjCache) : Prop where
  low : sizeofPointer ≤ o.oSz
  high : o.oSz ≤ pageSize
  num : o.oNum = pageSize / o.oSz

variable {p i j a k q n : Nat} {o o' x : ObjCache} {s t : State} {l : List Nat}
  {fl : Nat → List Nat}

theorem virtToPage_inside {d : Nat} (frame : p < nrFrames) (inside : d < pageSize) :
    virtToPage (pageAddress p + d) = p := by
  unfold nrFrames at frame
  unfold pageSize at inside
  unfold virtToPage pageAddress pageSize pageOffset wordSize
  omega

theorem virtToPage_base (frame : p < nrFrames) : virtToPage (pageAddress p) = p := by
  unfold nrFrames at frame
  unfold virtToPage pageAddress pageSize pageOffset wordSize
  omega

theorem page_end (p : Nat) : pageAddress p + pageSize ≤ wordSize := by
  unfold pageAddress pageSize pageOffset wordSize
  omega

theorem slots_fit (sized : Sized o) : o.oNum * o.oSz ≤ pageSize := by
  rw [sized.num]
  exact Nat.div_mul_le_self pageSize o.oSz

theorem slot_end_le (inside : i < o.oNum) :
    slot o p i + o.oSz ≤ pageAddress p + o.oNum * o.oSz := by
  have next : (i + 1) * o.oSz ≤ o.oNum * o.oSz := Nat.mul_le_mul_right o.oSz inside
  have unfolded : (i + 1) * o.oSz = i * o.oSz + o.oSz := by ring
  unfold slot
  omega

theorem slot_next (o : ObjCache) (p i : Nat) : slot o p (i + 1) = slot o p i + o.oSz := by
  unfold slot
  ring

theorem slot_mono (before : i < j) : slot o p i + o.oSz ≤ slot o p j := by
  have next : (i + 1) * o.oSz ≤ j * o.oSz := Nat.mul_le_mul_right o.oSz before
  have unfolded : (i + 1) * o.oSz = i * o.oSz + o.oSz := by ring
  unfold slot
  omega

theorem slot_apart (other : i ≠ j) :
    slot o p i + o.oSz ≤ slot o p j ∨ slot o p j + o.oSz ≤ slot o p i := by
  rcases Nat.lt_or_gt_of_ne other with before | behind
  · exact .inl (slot_mono before)
  · exact .inr (slot_mono behind)

theorem oSz_pos (sized : Sized o) : 4 ≤ o.oSz := sized.low

theorem slot_inj (sized : Sized o) (same : slot o p i = slot o p j) : i = j := by
  have positive := oSz_pos sized
  by_contra other
  rcases slot_apart (o := o) (p := p) other with before | behind <;> omega

theorem slot_le (sized : Sized o) : slot o p i ≤ slot o p j ↔ i ≤ j := by
  have positive := oSz_pos sized
  constructor
  · intro le
    by_contra behind
    have := slot_mono (o := o) (p := p) (Nat.lt_of_not_le behind)
    omega
  · intro le
    exact Nat.add_le_add_left (Nat.mul_le_mul_right o.oSz le) _

theorem slots_apart {b : Nat} (left : Slot o p a) (right : Slot o p b) (other : a ≠ b) :
    a + o.oSz ≤ b ∨ b + o.oSz ≤ a := by
  obtain ⟨i, _, rfl⟩ := left
  obtain ⟨j, _, rfl⟩ := right
  exact slot_apart fun same => other (congrArg (slot o p) same)

theorem slot_range (sized : Sized o) (member : Slot o p a) :
    pageAddress p ≤ a ∧ a + o.oSz ≤ pageAddress p + pageSize := by
  obtain ⟨i, inside, rfl⟩ := member
  have fit := slots_fit sized
  have within := slot_end_le (p := p) inside
  have start : pageAddress p ≤ slot o p i := Nat.le_add_right _ _
  omega

theorem virtToPage_slot (sized : Sized o) (frame : p < nrFrames) (member : Slot o p a) {x : Nat}
    (low : a ≤ x) (high : x < a + o.oSz) : virtToPage x = p := by
  obtain ⟨start, finish⟩ := slot_range sized member
  have inside : x - pageAddress p < pageSize := by omega
  have split : x = pageAddress p + (x - pageAddress p) := by omega
  rw [split]
  exact virtToPage_inside frame inside

theorem virtToPage_of_slot (sized : Sized o) (frame : p < nrFrames) (member : Slot o p a) :
    virtToPage a = p := by
  have positive := oSz_pos sized
  exact virtToPage_slot sized frame member (Nat.le_refl a) (by omega)

def liveSlots (s : State) (o : ObjCache) (p : Nat) : Finset Nat :=
  (Finset.range o.oNum).filter fun i => slot o p i ∈ s.live

structure CacheOk (o : ObjCache) : Prop where
  sized : Sized o
  partialsNodup : o.oPartials.Nodup
  fullNodup : o.oFull.Nodup
  apart : ∀ c ∈ o.oPartials, c ∉ o.oFull
  curOff : ∀ c, o.oCur = some c → c ∉ o.oFull
  cur : ∀ c, o.oCur = some c → ∃ j < o.oNum,
    o.oPtr = slot o c j ∧ o.oPtrEnd = (pageAddress c + o.oNum * o.oSz) % wordSize
  spent : o.oCur = none → o.oPtr = o.oPtrEnd
  word : o.oPtrEnd < wordSize

/-- A slab `p` of cache `k` with free list `l`. Only the current slab may sit
among the partial ones without a free list. -/
structure SlabOk (low : Prop) (s : State) (k : Nat) (o : ObjCache) (p : Nat) (l : List Nat) :
    Prop where
  frame : p < nrFrames
  below : low → pageAddress p + o.oNum * o.oSz < wordSize
  mapped : pageAddress p ≠ 0
  type : (s.page p).type = .slab
  count : (s.page p).count = 1
  cache : (s.page p).cache = k
  chain : Chain s.mem (s.page p).freeList l
  nodup : l.Nodup
  slots : ∀ a ∈ l, Slot o p a
  freeDead : ∀ a ∈ l, a ∉ s.live
  unusedApart : ∀ a, Slot o p a → Unused o p a → a ∉ s.live ∧ a ∉ l
  covered : ∀ a, Slot o p a → ¬ Unused o p a → a ∈ s.live ∨ a ∈ l
  inuse : (s.page p).inuse = (liveSlots s o p).card
  fullEmpty : p ∈ o.oFull → l = []
  partialUsable : p ∈ o.oPartials → o.oCur ≠ some p → l ≠ []
  listed : l ≠ [] → p ∈ o.oPartials

def Wraps (o : ObjCache) (p : Nat) : Prop := pageAddress p + o.oNum * o.oSz = wordSize

/-- An object of a slab that its cache holds. -/
def OnSlab (s : State) (a : Nat) : Prop :=
  ∃ o, s.caches[(s.page (virtToPage a)).cache]? = some o ∧ Held o (virtToPage a) ∧
    Slot o (virtToPage a) a

/-- The one object of a slab that is on no list. -/
structure Lost (s : State) (a : Nat) : Prop where
  frame : virtToPage a < nrFrames
  start : a = pageAddress (virtToPage a)
  type : (s.page (virtToPage a)).type = .slab
  count : (s.page (virtToPage a)).count = 1
  cache : ∃ o, s.caches[(s.page (virtToPage a)).cache]? = some o ∧ ¬ Held o (virtToPage a) ∧
    Wraps o (virtToPage a) ∧ 2 < o.oNum

structure Inv (low : Prop) (s : State) (fl : Nat → List Nat) : Prop where
  caches : ∀ (k : Nat) (o : ObjCache), s.caches[k]? = some o → CacheOk o
  slabs : ∀ (k : Nat) (o : ObjCache), s.caches[k]? = some o → ∀ p, Held o p →
    SlabOk low s k o p (fl p)
  live : ∀ a ∈ s.live, OnSlab s a ∨ ¬ low ∧ Lost s a

structure SameSlab (s t : State) (o o' : ObjCache) (p : Nat) (l : List Nat) : Prop where
  size : o'.oSz = o.oSz
  num : o'.oNum = o.oNum
  page : t.page p = s.page p
  words : ∀ x ∈ l, load32 t.mem x = load32 s.mem x
  live : ∀ a, Slot o p a → (a ∈ t.live ↔ a ∈ s.live)
  cur : o'.oCur = some p ↔ o.oCur = some p
  ptr : o.oCur = some p → o'.oPtr = o.oPtr
  partials : p ∈ o'.oPartials ↔ p ∈ o.oPartials
  full : p ∈ o'.oFull ↔ p ∈ o.oFull

theorem slot_congr (size : o'.oSz = o.oSz) (p i : Nat) : slot o' p i = slot o p i := by
  unfold slot
  rw [size]

theorem slot_iff (size : o'.oSz = o.oSz) (num : o'.oNum = o.oNum) (p a : Nat) :
    Slot o' p a ↔ Slot o p a := by
  unfold Slot
  simp only [slot_congr size, num]

theorem liveSlots_congr (size : o'.oSz = o.oSz) (num : o'.oNum = o.oNum)
    (live : ∀ a, Slot o p a → (a ∈ t.live ↔ a ∈ s.live)) : liveSlots t o' p = liveSlots s o p := by
  unfold liveSlots
  rw [num]
  apply Finset.filter_congr
  intro i inside
  rw [slot_congr size]
  exact live _ ⟨i, Finset.mem_range.mp inside, rfl⟩

theorem unused_congr (same : SameSlab s t o o' p l) (a : Nat) : Unused o' p a ↔ Unused o p a := by
  unfold Unused
  rw [same.cur]
  exact and_congr_right fun cur => by rw [same.ptr cur]

variable {low : Prop}

theorem slab_congr (same : SameSlab s t o o' p l) (slab : SlabOk low s k o p l) :
    SlabOk low t k o' p l where
  __ := slab
  below := same.size.symm ▸ same.num.symm ▸ slab.below
  type := same.page.symm ▸ slab.type
  count := same.page.symm ▸ slab.count
  cache := same.page.symm ▸ slab.cache
  chain := same.page.symm ▸ chain_congr same.words slab.chain
  slots := fun a member => (slot_iff same.size same.num p a).mpr (slab.slots a member)
  freeDead := fun a member alive =>
    slab.freeDead a member ((same.live a (slab.slots a member)).mp alive)
  unusedApart := fun a member unused => by
    have here := (slot_iff same.size same.num p a).mp member
    rw [same.live a here]
    exact slab.unusedApart a here ((unused_congr same a).mp unused)
  covered := fun a member old => by
    have here := (slot_iff same.size same.num p a).mp member
    rw [same.live a here]
    exact slab.covered a here fun unused => old ((unused_congr same a).mpr unused)
  inuse := by
    rw [same.page, liveSlots_congr same.size same.num same.live]
    exact slab.inuse
  fullEmpty := fun member => slab.fullEmpty (same.full.mp member)
  partialUsable := fun member off =>
    slab.partialUsable (same.partials.mp member) fun cur => off (same.cur.mpr cur)
  listed := fun some => same.partials.mpr (slab.listed some)

structure Relisted (o o' : ObjCache) (p : Nat) : Prop where
  size : o'.oSz = o.oSz
  num : o'.oNum = o.oNum
  cur : ∀ q, q ≠ p → (o'.oCur = some q ↔ o.oCur = some q)
  ptr : ∀ q, q ≠ p → o.oCur = some q → o'.oPtr = o.oPtr
  partials : ∀ q, q ≠ p → (q ∈ o'.oPartials ↔ q ∈ o.oPartials)
  full : ∀ q, q ≠ p → (q ∈ o'.oFull ↔ q ∈ o.oFull)

theorem relisted_refl (o : ObjCache) (p : Nat) : Relisted o o p :=
  ⟨rfl, rfl, fun _ _ => Iff.rfl, fun _ _ _ => rfl, fun _ _ => Iff.rfl, fun _ _ => Iff.rfl⟩

theorem relisted_trans {m : ObjCache} (first : Relisted o m p) (second : Relisted m o' p) :
    Relisted o o' p where
  size := second.size.trans first.size
  num := second.num.trans first.num
  cur := fun q other => (second.cur q other).trans (first.cur q other)
  ptr := fun q other cur =>
    (second.ptr q other ((first.cur q other).mpr cur)).trans (first.ptr q other cur)
  partials := fun q other => (second.partials q other).trans (first.partials q other)
  full := fun q other => (second.full q other).trans (first.full q other)

theorem relisted_moveToFull (o : ObjCache) (p : Nat) : Relisted o (moveToFull o p) p where
  size := rfl
  num := rfl
  cur := fun _ _ => Iff.rfl
  ptr := fun _ _ _ => rfl
  partials := fun _ other => List.mem_erase_of_ne other
  full := fun q other => by simp [moveToFull, other, List.mem_erase_of_ne other]

theorem relisted_moveToPartials (o : ObjCache) (p : Nat) : Relisted o (moveToPartials o p) p where
  size := rfl
  num := rfl
  cur := fun _ _ => Iff.rfl
  ptr := fun _ _ _ => rfl
  partials := fun q other => by simp [moveToPartials, other, List.mem_erase_of_ne other]
  full := fun _ other => List.mem_erase_of_ne other

theorem relisted_listDel (o : ObjCache) (p : Nat) : Relisted o (listDel o p) p where
  size := rfl
  num := rfl
  cur := fun _ _ => Iff.rfl
  ptr := fun _ _ _ => rfl
  partials := fun _ other => List.mem_erase_of_ne other
  full := fun _ other => List.mem_erase_of_ne other

theorem relisted_cur (o : ObjCache) (ptr stop : Nat) {cur : Option Nat}
    (before : o.oCur = none ∨ o.oCur = some p) (behind : cur = none ∨ cur = some p) :
    Relisted o { o with oPtr := ptr, oPtrEnd := stop, oCur := cur } p where
  size := rfl
  num := rfl
  cur := by
    intro q other
    have here : o.oCur ≠ some q := by
      rcases before with is | is <;> rw [is] <;> simp [Ne.symm other]
    have there : cur ≠ some q := by
      rcases behind with is | is <;> rw [is] <;> simp [Ne.symm other]
    exact ⟨fun h => absurd h there, fun h => absurd h here⟩
  ptr := by
    intro q other is
    rcases before with none | same
    · rw [none] at is
      cases is
    · rw [same] at is
      exact absurd (Option.some.inj is).symm other
  partials := fun _ _ => Iff.rfl
  full := fun _ _ => Iff.rfl

theorem relisted_held (lists : Relisted o o' p) (other : q ≠ p) : Held o' q ↔ Held o q := by
  unfold Held
  rw [lists.cur q other, lists.partials q other, lists.full q other]

def HeldBy (s : State) (p : Nat) : Prop :=
  ∃ (k : Nat) (o : ObjCache), s.caches[k]? = some o ∧ Held o p

/-- Nothing changes but the slab `p`, where it is listed, and what memory and objects it has. -/
structure Elsewhere (s t : State) (p : Nat) : Prop where
  before : ∀ (n : Nat) (x' : ObjCache), t.caches[n]? = some x' →
    ∃ x, s.caches[n]? = some x ∧ Relisted x x' p
  after : ∀ (n : Nat) (x : ObjCache), s.caches[n]? = some x →
    ∃ x', t.caches[n]? = some x' ∧ Relisted x x' p
  page : ∀ q, q ≠ p → t.page q = s.page q

theorem elsewhere_trans {m : State} (first : Elsewhere s m p) (second : Elsewhere m t p) :
    Elsewhere s t p where
  before := by
    intro n x' found
    obtain ⟨y, middle, lists⟩ := second.before n x' found
    obtain ⟨x, start, lists'⟩ := first.before n y middle
    exact ⟨x, start, relisted_trans lists' lists⟩
  after := by
    intro n x found
    obtain ⟨y, middle, lists⟩ := first.after n x found
    obtain ⟨x', last, lists'⟩ := second.after n y middle
    exact ⟨x', last, relisted_trans lists lists'⟩
  page := fun q other => (second.page q other).trans (first.page q other)

theorem elsewhere_set (member : s.caches[k]? = some o) (caches : t.caches = s.caches.set k o')
    (lists : Relisted o o' p) (page : ∀ q, q ≠ p → t.page q = s.page q) : Elsewhere s t p := by
  have bound : k < s.caches.length := (List.getElem?_eq_some_iff.mp member).1
  have here : t.caches[k]? = some o' := by rw [caches, List.getElem?_set_self bound]
  have there : ∀ n, n ≠ k → t.caches[n]? = s.caches[n]? := by
    intro n other
    rw [caches, List.getElem?_set_ne (Ne.symm other)]
  refine ⟨?_, ?_, page⟩
  · intro n x' found
    by_cases same : n = k
    · subst same
      cases here.symm.trans found
      exact ⟨o, member, lists⟩
    · rw [there n same] at found
      exact ⟨x', found, relisted_refl x' p⟩
  · intro n x found
    by_cases same : n = k
    · subst same
      cases member.symm.trans found
      exact ⟨o', here, lists⟩
    · exact ⟨x, (there n same).trans found, relisted_refl x p⟩

theorem wraps_congr (lists : Relisted o o' p) (q : Nat) : Wraps o' q ↔ Wraps o q := by
  unfold Wraps
  rw [lists.size, lists.num]

theorem onSlab_elsewhere (same : Elsewhere s t p) (away : virtToPage a ≠ p) (onSlab : OnSlab s a) :
    OnSlab t a := by
  obtain ⟨o, found, held, slotHere⟩ := onSlab
  obtain ⟨o', now, lists⟩ := same.after _ o found
  refine ⟨o', ?_, (relisted_held lists away).mpr held, (slot_iff lists.size lists.num _ a).mpr slotHere⟩
  rw [same.page _ away]
  exact now

theorem lost_elsewhere (same : Elsewhere s t p) (away : virtToPage a ≠ p) (lost : Lost s a) :
    Lost t a := by
  have page := same.page _ away
  obtain ⟨o, found, unheld, wraps, many⟩ := lost.cache
  obtain ⟨o', now, lists⟩ := same.after _ o found
  refine ⟨lost.frame, lost.start, page ▸ lost.type, page ▸ lost.count, o', page ▸ now, ?_, ?_, ?_⟩
  · exact fun held => unheld ((relisted_held lists away).mp held)
  · exact (wraps_congr lists _).mpr wraps
  · exact lists.num ▸ many

structure Touched (s t : State) (k : Nat) (o o' : ObjCache) (p : Nat) : Prop where
  caches : t.caches = s.caches.set k o'
  lists : Relisted o o' p
  page : ∀ q, q ≠ p → t.page q = s.page q
  mem : ∀ x, virtToPage x ≠ p → t.mem x = s.mem x
  live : ∀ a, virtToPage a ≠ p → (a ∈ t.live ↔ a ∈ s.live)

theorem words_outside (sized : Sized o) (mem : ∀ x, virtToPage x ≠ p → t.mem x = s.mem x)
    (frame : q < nrFrames) (slots : ∀ a ∈ l, Slot o q a) (other : q ≠ p) :
    ∀ x ∈ l, load32 t.mem x = load32 s.mem x := by
  intro x member
  have positive := oSz_pos sized
  apply load32_congr
  intro y low high
  apply mem
  rw [virtToPage_slot sized frame (slots x member) low (by omega)]
  exact other

theorem touched_cache (touched : Touched s t k o o' p) (member : s.caches[k]? = some o)
    (found : t.caches[n]? = some x) : (n = k ∧ x = o') ∨ (n ≠ k ∧ s.caches[n]? = some x) := by
  have bound : k < s.caches.length := (List.getElem?_eq_some_iff.mp member).1
  simp only [touched.caches, List.getElem?_set, bound, if_true] at found
  split at found
  · rename_i same
    exact .inl ⟨same.symm, (Option.some.inj found).symm⟩
  · rename_i other
    exact .inr ⟨fun same => other same.symm, found⟩

theorem inv_touched (inv : Inv low s fl) (member : s.caches[k]? = some o)
    (touched : Touched s t k o o' p)
    (alone : ∀ (n : Nat) (x : ObjCache), s.caches[n]? = some x → Held x p → n = k)
    (cache : CacheOk o') (slab : Held o' p → SlabOk low t k o' p l)
    (liveHere : ∀ a ∈ t.live, virtToPage a = p → Held o' p ∧ Slot o' p a ∨ ¬ low ∧ Lost t a) :
    Inv low t (update fl p l) where
  caches := by
    intro n x found
    rcases touched_cache touched member found with ⟨_, rfl⟩ | ⟨_, before⟩
    · exact cache
    · exact inv.caches n x before
  slabs := by
    intro n x found q held
    rcases touched_cache touched member found with ⟨rfl, rfl⟩ | ⟨otherCache, before⟩
    · by_cases here : q = p
      · subst here
        rw [update_self]
        exact slab held
      · have old := inv.slabs n o member q ((relisted_held touched.lists here).mp held)
        have sized := (inv.caches n o member).sized
        rw [update_of_ne here]
        refine slab_congr ?_ old
        exact {
          size := touched.lists.size
          num := touched.lists.num
          page := touched.page q here
          words := words_outside sized touched.mem old.frame old.slots here
          live := fun a slotHere => touched.live a
            ((virtToPage_of_slot sized old.frame slotHere).symm ▸ here)
          cur := touched.lists.cur q here
          ptr := touched.lists.ptr q here
          partials := touched.lists.partials q here
          full := touched.lists.full q here }
    · have here : q ≠ p := fun same => otherCache (alone n x before (same ▸ held))
      have old := inv.slabs n x before q held
      have sized := (inv.caches n x before).sized
      rw [update_of_ne here]
      refine slab_congr ?_ old
      exact {
        size := rfl
        num := rfl
        page := touched.page q here
        words := words_outside sized touched.mem old.frame old.slots here
        live := fun a slotHere => touched.live a
          ((virtToPage_of_slot sized old.frame slotHere).symm ▸ here)
        cur := Iff.rfl
        ptr := fun _ => rfl
        partials := Iff.rfl
        full := Iff.rfl }
  live := by
    intro a alive
    by_cases here : virtToPage a = p
    · refine (liveHere a alive here).imp_left fun ⟨held, slotHere⟩ =>
        ⟨o', ?_, here ▸ held, here ▸ slotHere⟩
      rw [here, (slab held).cache, touched.caches]
      exact List.getElem?_set_self (List.getElem?_eq_some_iff.mp member).1
    · have same := elsewhere_set member touched.caches touched.lists touched.page
      exact (inv.live a ((touched.live a here).mp alive)).imp (onSlab_elsewhere same here)
        (And.imp_right (lost_elsewhere same here))

theorem elsewhere_live (same : Elsewhere s t p) {live : Finset Nat} :
    Elsewhere s { t with live := live } p :=
  ⟨same.before, same.after, same.page⟩

theorem elsewhere_heldBy (same : Elsewhere s t p) (other : q ≠ p) : HeldBy t q ↔ HeldBy s q := by
  constructor
  · rintro ⟨n, x', found, held⟩
    obtain ⟨x, start, lists⟩ := same.before n x' found
    exact ⟨n, x, start, (relisted_held lists other).mp held⟩
  · rintro ⟨n, x, found, held⟩
    obtain ⟨x', last, lists⟩ := same.after n x found
    exact ⟨n, x', last, (relisted_held lists other).mpr held⟩

theorem held_cache (inv : Inv low s fl) (left : s.caches[n]? = some x)
    (right : s.caches[k]? = some o) (heldLeft : Held x p) (heldRight : Held o p) : n = k := by
  have first := (inv.slabs n x left p heldLeft).cache
  have second := (inv.slabs k o right p heldRight).cache
  exact first.symm.trans second

theorem live_slab (inv : Inv True s fl) (alive : a ∈ s.live) : OnSlab s a :=
  (inv.live a alive).resolve_right fun gone => gone.1 trivial

theorem lost_not_held (inv : Inv low s fl) (lost : Lost s a) : ¬ HeldBy s (virtToPage a) := by
  rintro ⟨n, x, found, held⟩
  obtain ⟨o, member, unheld, -⟩ := lost.cache
  rw [(inv.slabs n x found _ held).cache, found] at member
  exact unheld (Option.some.inj member ▸ held)

theorem slab_live (inv : Inv low s fl) (member : s.caches[k]? = some o) (held : Held o p)
    (alive : a ∈ s.live) (here : virtToPage a = p) : Slot o p a := by
  rcases inv.live a alive with ⟨x, found, heldToo, slotHere⟩ | ⟨-, lost⟩
  · rw [here] at found heldToo slotHere
    rw [(inv.slabs k o member p held).cache] at found
    cases found.symm.trans member
    exact slotHere
  · exact absurd ⟨k, o, member, here ▸ held⟩ (lost_not_held inv lost)

theorem liveSlots_le (s : State) (o : ObjCache) (p : Nat) :
    (liveSlots s o p).card ≤ o.oNum := by
  have bound := Finset.card_filter_le (Finset.range o.oNum) fun i => slot o p i ∈ s.live
  rw [Finset.card_range] at bound
  exact bound

theorem oNum_small (sized : Sized o) : o.oNum ≤ 1024 := by
  have positive := oSz_pos sized
  rw [sized.num]
  exact Nat.div_le_div_left positive (by decide)

theorem oNum_pos (sized : Sized o) : 0 < o.oNum := by
  have positive := oSz_pos sized
  rw [sized.num]
  exact Nat.div_pos sized.high (by omega)

theorem liveSlots_all (all : ∀ a, Slot o p a → a ∈ s.live) : (liveSlots s o p).card = o.oNum := by
  have whole : liveSlots s o p = Finset.range o.oNum := by
    apply Finset.filter_true_of_mem
    intro i inside
    exact all _ ⟨i, Finset.mem_range.mp inside, rfl⟩
  rw [whole, Finset.card_range]

theorem liveSlots_insert (sized : Sized o) (member : Slot o p a) (dead : a ∉ s.live) :
    (liveSlots { s with live := insert a s.live } o p).card = (liveSlots s o p).card + 1 := by
  obtain ⟨i, inside, rfl⟩ := member
  have grown : liveSlots { s with live := insert (slot o p i) s.live } o p
      = insert i (liveSlots s o p) := by
    ext j
    simp only [liveSlots, Finset.mem_filter, Finset.mem_range, Finset.mem_insert]
    constructor
    · rintro ⟨bound, same | alive⟩
      · exact .inl (slot_inj sized same)
      · exact .inr ⟨bound, alive⟩
    · rintro (rfl | ⟨bound, alive⟩)
      · exact ⟨inside, .inl rfl⟩
      · exact ⟨bound, .inr alive⟩
  rw [grown, Finset.card_insert_of_notMem]
  simp only [liveSlots, Finset.mem_filter, not_and]
  exact fun _ => dead

theorem liveSlots_erase (sized : Sized o) (member : Slot o p a) (alive : a ∈ s.live) :
    (liveSlots { s with live := s.live.erase a } o p).card + 1 = (liveSlots s o p).card := by
  have dead : a ∉ s.live.erase a := Finset.notMem_erase a s.live
  have back := liveSlots_insert (s := { s with live := s.live.erase a }) sized member dead
  simp only [Finset.insert_erase alive] at back
  exact back.symm

theorem inuse_full (slab : SlabOk low s k o p []) (off : o.oCur ≠ some p) :
    (s.page p).inuse = o.oNum := by
  rw [slab.inuse]
  apply liveSlots_all
  intro a member
  rcases slab.covered a member (fun unused => off unused.1) with alive | free
  · exact alive
  · cases free

theorem freeList_length (slab : SlabOk low s k o p l) : l.length ≤ o.oNum := by
  have within : l ⊆ (List.range o.oNum).map (slot o p) := by
    intro a member
    obtain ⟨i, inside, rfl⟩ := slab.slots a member
    exact List.mem_map.mpr ⟨i, List.mem_range.mpr inside, rfl⟩
  have bound := (slab.nodup.subperm within).length_le
  rw [List.length_map, List.length_range] at bound
  exact bound

theorem freeList_word (sized : Sized o) (slab : SlabOk low s k o p l) :
    (s.page p).freeList < 2 ^ 32 := by
  have chain := slab.chain
  cases l with
  | nil =>
    have empty : (s.page p).freeList = 0 := chain
    omega
  | cons x l =>
    have range := slot_range sized (slab.slots x List.mem_cons_self)
    have bound := page_end p
    have positive := oSz_pos sized
    have first : (s.page p).freeList = x := chain.1
    unfold wordSize at bound
    omega

end ScaraOS.Slab
