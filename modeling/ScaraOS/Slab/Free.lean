import ScaraOS.Slab.Alloc

/-! `objcache_free` of a live object. The checks pass, save one: the range check of
`do_cache_free` takes `o_ptr_end` itself for an address that was never handed out.
When they pass, the invariant is kept, whether or not the slab goes back. -/
namespace ScaraOS.Slab

open Function Bytes

theorem debugWalk_passes {m : Mem} {obj a n : Nat} {l : List Nat} (chain : Chain m a l)
    (absent : obj ∉ l) (enough : l.length < n) : debugWalk m obj n a = .ok () := by
  induction l generalizing a n with
  | nil =>
    have zero : a = 0 := chain
    cases n with
    | zero => simp at enough
    | succ n => simp only [debugWalk, if_pos zero]
  | cons x l ih =>
    obtain ⟨rfl, mapped, rest⟩ := chain
    obtain ⟨other, tail⟩ := List.ne_and_not_mem_of_not_mem_cons absent
    cases n with
    | zero => simp at enough
    | succ n =>
      simp only [debugWalk, if_neg mapped, if_neg (Ne.symm other)]
      exact ih rest tail (by simpa using enough)

theorem cacheOk_moveToPartials {o : ObjCache} (ok : CacheOk o) (c : Nat) :
    CacheOk (moveToPartials o c) where
  __ := ok
  sized := ⟨ok.sized.low, ok.sized.high, ok.sized.num⟩
  partialsNodup := List.nodup_cons.mpr ⟨ok.partialsNodup.not_mem_erase, ok.partialsNodup.erase c⟩
  fullNodup := ok.fullNodup.erase c
  apart := by
    intro q member full
    rcases List.mem_cons.mp member with rfl | before
    · exact ok.fullNodup.not_mem_erase full
    · exact ok.apart q (List.mem_of_mem_erase before) (List.mem_of_mem_erase full)
  curOff := fun q cur full => ok.curOff q cur (List.mem_of_mem_erase full)

theorem cacheOk_listDel {o : ObjCache} (ok : CacheOk o) (c : Nat) : CacheOk (listDel o c) where
  __ := ok
  sized := ⟨ok.sized.low, ok.sized.high, ok.sized.num⟩
  partialsNodup := ok.partialsNodup.erase c
  fullNodup := ok.fullNodup.erase c
  apart := fun q member full =>
    ok.apart q (List.mem_of_mem_erase member) (List.mem_of_mem_erase full)
  curOff := fun q cur full => ok.curOff q cur (List.mem_of_mem_erase full)

section LiveObject

variable {low : Prop} {s : State} {fl : Nat → List Nat} {k : Nat} {o : ObjCache} {c obj : Nat}

theorem free_range (inv : Inv low s fl) (member : s.caches[k]? = some o) (held : Held o c)
    (slotHere : Slot o c obj) (alive : obj ∈ s.live) :
    (obj ≥ o.oPtr ∧ obj ≤ o.oPtrEnd) ↔ obj = o.oPtrEnd := by
  have ok := inv.caches k o member
  have slab := inv.slabs k o member c held
  cases cur : o.oCur with
  | none =>
    have spent := ok.spent cur
    omega
  | some q =>
    obtain ⟨j, inside, ptr, stop⟩ := ok.cur q cur
    have ends := slot_end_le (o := o) (p := q) inside
    have start : pageAddress q ≤ slot o q j := Nat.le_add_right _ _
    have fit := slots_fit ok.sized
    have top := page_end q
    have nonzero := slot_ne_zero slab slotHere
    have mapped := (inv.slabs k o member q (.inl cur)).mapped
    by_cases low : pageAddress q + o.oNum * o.oSz < wordSize
    case neg =>
      have whole : pageAddress q + o.oNum * o.oSz = wordSize := by omega
      rw [whole, Nat.mod_self] at stop
      omega
    rw [Nat.mod_eq_of_lt low] at stop
    constructor
    · intro ⟨above, high⟩
      by_contra other
      have frame := (inv.slabs k o member q (.inl cur)).frame
      have split : obj = pageAddress q + (obj - pageAddress q) := by omega
      have page : virtToPage obj = q := by
        rw [split]
        exact virtToPage_inside frame (by omega)
      have same : q = c := page.symm.trans (virtToPage_of_slot ok.sized slab.frame slotHere)
      subst same
      exact (slab.unusedApart obj slotHere ⟨cur, above⟩).1 alive
    · intro same
      omega

def pushed (s : State) (k : Nat) (o' : ObjCache) (c obj : Nat) : State :=
  { s with
    mem := store32 (fill s.mem obj o'.oSz objcachePoison) obj (s.page c).freeList
    page := update s.page c { s.page c with
      freeList := obj, inuse := (s.page c).inuse - 1 }
    caches := s.caches.set k o' }

def relisted (s : State) (o : ObjCache) (c : Nat) : ObjCache :=
  if (s.page c).freeList = 0 then moveToPartials o c else o

def released (o : ObjCache) (c : Nat) : ObjCache :=
  if o.oCur = some c then { listDel o c with oPtr := 0, oPtrEnd := 0, oCur := none }
  else listDel o c

section

variable (inv : Inv low s fl) (member : s.caches[k]? = some o) (held : Held o c)
  (slotHere : Slot o c obj) (alive : obj ∈ s.live)
include inv member held slotHere alive

theorem doCacheFree_eq (other : obj ≠ o.oPtrEnd) :
    doCacheFree s k o c obj =
      if (s.page c).inuse - 1 = 0 then
        memchunkPut { pushed s k (relisted s o c) c obj with
          caches := s.caches.set k (released (relisted s o c) c) } c
      else .ok (pushed s k (relisted s o c) c obj) := by
  have ok := inv.caches k o member
  have slab := inv.slabs k o member c held
  have counted := liveSlots_erase ok.sized slotHere alive
  have bound := liveSlots_le s o c
  have some : ¬ (s.page c).inuse = 0 := by
    rw [slab.inuse]
    omega
  have few : ¬ (s.page c).inuse > o.oNum := by
    rw [slab.inuse]
    omega
  have range : ¬ (obj ≥ o.oPtr ∧ obj ≤ o.oPtrEnd) := fun rejected =>
    other ((free_range inv member held slotHere alive).mp rejected)
  have small := oNum_small ok.sized
  have length := freeList_length slab
  have walk : debugWalk s.mem obj (pageSize + 1) (s.page c).freeList = .ok () := by
    apply debugWalk_passes slab.chain
    · exact fun free => slab.freeDead obj free alive
    · unfold pageSize
      omega
  have full : ¬ ((s.page c).freeList = 0 ∧ Option.some c ≠ o.oCur ∧
      (s.page c).inuse ≠ o.oNum) := by
    intro ⟨zero, off, short⟩
    have empty := (chain_zero slab.chain).mp zero
    rw [empty] at slab
    exact short (inuse_full slab (Ne.symm off))
  unfold doCacheFree
  rw [bugOn_pass some, bugOn_pass few, bugOn_pass range, walk, ok_bind, bugOn_pass full]
  simp only [setPage, update_self]
  rfl

theorem doCacheFree_bug (same : obj = o.oPtrEnd) : doCacheFree s k o c obj = .error .bug := by
  have range : obj ≥ o.oPtr ∧ obj ≤ o.oPtrEnd :=
    (free_range inv member held slotHere alive).mpr same
  have trips : (bugOn (obj ≥ o.oPtr ∧ obj ≤ o.oPtrEnd)) = .error .bug := if_pos range
  unfold doCacheFree
  rw [trips]
  unfold bugOn
  split
  · rfl
  · split <;> rfl

end

theorem relisted_lists (s : State) (o : ObjCache) (c : Nat) : Relisted o (relisted s o c) c := by
  unfold relisted
  split
  · exact relisted_moveToPartials o c
  · exact relisted_refl o c

theorem relisted_ok (ok : CacheOk o) (s : State) (c : Nat) : CacheOk (relisted s o c) := by
  unfold relisted
  split
  · exact cacheOk_moveToPartials ok c
  · exact ok

theorem relisted_unused (s : State) (o : ObjCache) (c a : Nat) :
    Unused (relisted s o c) c a ↔ Unused o c a := by
  unfold relisted
  split <;> exact Iff.rfl

theorem relisted_listed (ok : CacheOk o) {l : List Nat} (slab : SlabOk low s k o c l) :
    c ∈ (relisted s o c).oPartials ∧ c ∉ (relisted s o c).oFull := by
  unfold relisted
  split
  · exact ⟨List.mem_cons_self, ok.fullNodup.not_mem_erase⟩
  · rename_i some
    have nonempty : l ≠ [] := fun empty => some ((chain_zero slab.chain).mpr empty)
    exact ⟨slab.listed nonempty, fun full => nonempty (slab.fullEmpty full)⟩

theorem pushed_outside (sized : Sized o) {o' : ObjCache} (size : o'.oSz = o.oSz) {x : Nat}
    (out : x < obj ∨ obj + o.oSz ≤ x) : (pushed s k o' c obj).mem x = s.mem x := by
  have positive := oSz_pos sized
  simp only [pushed, size]
  rw [store32_outside _ _ (by omega), fill_outside _ _ out]

theorem slab_pushed (ok : CacheOk o) {l : List Nat} (slab : SlabOk low s k o c l)
    (slotHere : Slot o c obj) (alive : obj ∈ s.live) :
    SlabOk low { pushed s k (relisted s o c) c obj with live := s.live.erase obj } k
      (relisted s o c) c (obj :: l) where
  __ := slab
  below := (relisted_lists s o c).size.symm ▸ (relisted_lists s o c).num.symm ▸ slab.below
  type := by simpa [pushed] using slab.type
  count := by simpa [pushed] using slab.count
  cache := by simpa [pushed] using slab.cache
  chain := by
    have lists := relisted_lists s o c
    have absent : obj ∉ l := fun free => slab.freeDead obj free alive
    have link : load32 (pushed s k (relisted s o c) c obj).mem obj = (s.page c).freeList :=
      load32_store32 _ _ (freeList_word ok.sized slab)
    have words := words_apart ok.sized slotHere slab.slots absent
      fun x out => pushed_outside (s := s) (k := k) (c := c) ok.sized lists.size out
    have chain := chain_push (slot_ne_zero slab slotHere) link words slab.chain
    simpa [pushed] using chain
  nodup := List.nodup_cons.mpr ⟨fun free => slab.freeDead obj free alive, slab.nodup⟩
  slots := by
    intro a member
    rw [slot_iff (relisted_lists s o c).size (relisted_lists s o c).num]
    rcases List.mem_cons.mp member with rfl | before
    · exact slotHere
    · exact slab.slots a before
  freeDead := by
    intro a member still
    obtain ⟨other, before⟩ := Finset.mem_erase.mp still
    rcases List.mem_cons.mp member with same | free
    · exact other same
    · exact slab.freeDead a free before
  unusedApart := by
    intro a member unused
    rw [slot_iff (relisted_lists s o c).size (relisted_lists s o c).num] at member
    obtain ⟨dead, notFree⟩ := slab.unusedApart a member ((relisted_unused s o c a).mp unused)
    have other : a ≠ obj := fun same => dead (same ▸ alive)
    exact ⟨fun still => dead (Finset.mem_of_mem_erase still),
      List.not_mem_cons_of_ne_of_not_mem other notFree⟩
  covered := by
    intro a member old
    rw [slot_iff (relisted_lists s o c).size (relisted_lists s o c).num] at member
    by_cases same : a = obj
    · exact .inr (List.mem_cons.mpr (.inl same))
    · rcases slab.covered a member fun unused => old ((relisted_unused s o c a).mpr unused) with
        before | free
      · exact .inl (Finset.mem_erase.mpr ⟨same, before⟩)
      · exact .inr (List.mem_cons_of_mem obj free)
  inuse := by
    have counted := liveSlots_erase ok.sized slotHere alive
    have same : liveSlots { pushed s k (relisted s o c) c obj with live := s.live.erase obj }
        (relisted s o c) c = liveSlots { s with live := s.live.erase obj } o c :=
      liveSlots_congr (relisted_lists s o c).size (relisted_lists s o c).num fun _ _ => Iff.rfl
    rw [same]
    simp only [pushed, update_self]
    rw [slab.inuse]
    omega
  fullEmpty := fun full => absurd full (relisted_listed ok slab).2
  partialUsable := fun _ _ => List.cons_ne_nil obj l
  listed := fun _ => (relisted_listed ok slab).1

theorem inv_pushed (inv : Inv low s fl) (member : s.caches[k]? = some o) (held : Held o c)
    (slotHere : Slot o c obj) (alive : obj ∈ s.live) :
    Inv low { pushed s k (relisted s o c) c obj with live := s.live.erase obj }
      (update fl c (obj :: fl c)) := by
  have ok := inv.caches k o member
  have slab := inv.slabs k o member c held
  have lists := relisted_lists s o c
  have here := virtToPage_of_slot ok.sized slab.frame slotHere
  have touched : Touched s { pushed s k (relisted s o c) c obj with live := s.live.erase obj }
      k o (relisted s o c) c := {
    caches := rfl
    lists := lists
    page := fun q other => by simp [pushed, other]
    mem := by
      intro x away
      have outside : x < obj ∨ obj + o.oSz ≤ x := by
        by_contra inside
        exact away (virtToPage_slot ok.sized slab.frame slotHere (by omega) (by omega))
      exact pushed_outside (k := k) ok.sized lists.size outside
    live := by
      intro a away
      have other : a ≠ obj := fun same => away (same ▸ here)
      simp [other] }
  apply inv_touched inv member touched
  · exact fun n x found heldToo => held_cache inv found member heldToo held
  · exact relisted_ok ok s c
  · exact fun _ => slab_pushed ok slab slotHere alive
  · intro a still page
    rw [slot_iff lists.size lists.num]
    have before := Finset.mem_of_mem_erase still
    exact .inl ⟨.inr (.inl (relisted_listed ok slab).1), slab_live inv member held before page⟩

theorem released_lists (o : ObjCache) (c : Nat) : Relisted o (released o c) c := by
  unfold released
  split
  · rename_i cur
    exact relisted_trans (relisted_listDel o c) (relisted_cur _ 0 0 (.inr cur) (.inl rfl))
  · exact relisted_listDel o c

theorem released_ok (ok : CacheOk o) (c : Nat) : CacheOk (released o c) := by
  unfold released
  split
  · exact cacheOk_noCur (cacheOk_listDel ok c) (by decide)
  · exact cacheOk_listDel ok c

theorem released_not_held (ok : CacheOk o) (c : Nat) : ¬ Held (released o c) c := by
  have noPartial : c ∉ o.oPartials.erase c := ok.partialsNodup.not_mem_erase
  have noFull : c ∉ o.oFull.erase c := ok.fullNodup.not_mem_erase
  unfold released Held
  split
  · rintro (cur | listed | full)
    · cases cur
    · exact noPartial listed
    · exact noFull full
  · rename_i off
    rintro (cur | listed | full)
    · exact off cur
    · exact noPartial listed
    · exact noFull full

def putBack (s : State) (c : Nat) : State :=
  { s with
    mem := fill s.mem (pageAddress c) pageSize pagePoison
    page := update s.page c { s.page c with type := .free, count := 0 } }

theorem memchunkPut_eq (frame : c < nrFrames) (mapped : pageAddress c ≠ 0)
    (count : (s.page c).count = 1) : memchunkPut s c = .ok (putBack s c) := by
  have back := virtToPage_base frame
  have some : ¬ (s.page c).count = 0 := by omega
  have none : ¬ (0 : Nat) ≠ 0 := by omega
  simp only [memchunkPut, freePages, if_neg mapped, back]
  rw [bugOn_pass some]
  simp only [setPage, update_self, count]
  rw [bugOn_pass none]
  rfl

theorem inv_putBack (inv : Inv low s fl) (member : s.caches[k]? = some o) (held : Held o c)
    (unused : (s.page c).inuse = 0) :
    Inv low (putBack (setCache s k (released o c)) c) (update fl c []) := by
  have ok := inv.caches k o member
  have slab := inv.slabs k o member c held
  have gone := released_not_held ok c
  have touched : Touched s (putBack (setCache s k (released o c)) c) k o (released o c) c := {
    caches := rfl
    lists := released_lists o c
    page := fun q other => by simp [putBack, setCache, other]
    mem := by
      intro x away
      apply fill_outside
      by_contra inside
      have split : x = pageAddress c + (x - pageAddress c) := by omega
      apply away
      rw [split]
      exact virtToPage_inside slab.frame (by omega)
    live := fun _ _ => Iff.rfl }
  apply inv_touched inv member touched
  · exact fun n x found heldToo => held_cache inv found member heldToo held
  · exact released_ok ok c
  · exact fun still => absurd still gone
  · intro a alive page
    obtain ⟨i, bound, rfl⟩ := slab_live inv member held alive page
    have empty := Finset.card_eq_zero.mp (slab.inuse.symm.trans unused)
    have counted : i ∈ liveSlots s o c :=
      Finset.mem_filter.mpr ⟨Finset.mem_range.mpr bound, alive⟩
    rw [empty] at counted
    cases counted

theorem doCacheFree_spec (inv : Inv low s fl) (member : s.caches[k]? = some o) (held : Held o c)
    (slotHere : Slot o c obj) (alive : obj ∈ s.live) (other : obj ≠ o.oPtrEnd) :
    ∃ t fl', doCacheFree s k o c obj = .ok t ∧
      Inv low { t with live := t.live.erase obj } fl' := by
  have ok := inv.caches k o member
  have slab := inv.slabs k o member c held
  have pushedInv := inv_pushed inv member held slotHere alive
  rw [doCacheFree_eq inv member held slotHere alive other]
  split
  · rename_i last
    have bound : k < s.caches.length := (List.getElem?_eq_some_iff.mp member).1
    have found : (s.caches.set k (relisted s o c))[k]? = some (relisted s o c) :=
      List.getElem?_set_self bound
    have stays : Held (relisted s o c) c := .inr (.inl (relisted_listed ok slab).1)
    have unused : (update s.page c { s.page c with
        freeList := obj, inuse := (s.page c).inuse - 1 } c).inuse = 0 := by
      rw [update_self]
      exact last
    have newInv := inv_putBack pushedInv found stays unused
    have count : ((update s.page c { s.page c with
        freeList := obj, inuse := (s.page c).inuse - 1 }) c).count = 1 := by
      rw [update_self]
      exact slab.count
    refine ⟨_, update (update fl c (obj :: fl c)) c [],
      memchunkPut_eq slab.frame slab.mapped count, ?_⟩
    simp only [putBack, pushed, setCache, List.set_set] at newInv ⊢
    exact newInv
  · exact ⟨_, _, rfl, pushedInv⟩

/-- A live object starts at `o_ptr_end` of its cache: what the check of `do_cache_free` rejects. -/
def AtPtrEnd (s : State) (obj : Nat) : Prop :=
  ∃ o, s.caches[(s.page (virtToPage obj)).cache]? = some o ∧ obj = o.oPtrEnd

theorem checkedFree_eq (onSlab : OnSlab s obj) :
    ∃ o, s.caches[(s.page (virtToPage obj)).cache]? = some o ∧ Held o (virtToPage obj) ∧
      Slot o (virtToPage obj) obj ∧ checkedFree s (virtToPage obj) obj =
        doCacheFree s (s.page (virtToPage obj)).cache o (virtToPage obj) obj := by
  obtain ⟨o, found, held, slotHere⟩ := onSlab
  have listed : ¬ (some (virtToPage obj) ≠ o.oCur ∧ slabIsOn (virtToPage obj) o.oPartials = false ∧
      slabIsOn (virtToPage obj) o.oFull = false) := by
    intro ⟨notCur, notPartial, notFull⟩
    simp only [slabIsOn, List.contains_eq_mem, decide_eq_false_iff_not] at notPartial notFull
    rcases held with cur | partials | full
    · exact notCur cur.symm
    · exact notPartial partials
    · exact notFull full
  refine ⟨o, found, held, slotHere, ?_⟩
  simp only [checkedFree, found]
  rw [bugOn_pass listed]

theorem checkedFree_spec (inv : Inv low s fl) (alive : obj ∈ s.live) (onSlab : OnSlab s obj) :
    (AtPtrEnd s obj → checkedFree s (virtToPage obj) obj = .error .bug) ∧
      (¬ AtPtrEnd s obj → ∃ t fl', checkedFree s (virtToPage obj) obj = .ok t ∧
        Inv low { t with live := t.live.erase obj } fl') := by
  obtain ⟨o, found, held, slotHere, body⟩ := checkedFree_eq onSlab
  rw [body]
  constructor
  · rintro ⟨x, same, stop⟩
    cases found.symm.trans same
    exact doCacheFree_bug inv found held slotHere alive stop
  · intro other
    exact doCacheFree_spec inv found held slotHere alive fun stop => other ⟨o, found, stop⟩

/-- What the callers of `do_cache_free` check first. -/
def Slabbed (s : State) : Prop := ∀ obj ∈ s.live, obj ≠ 0 ∧
  (s.page (virtToPage obj)).type = .slab ∧ (s.page (virtToPage obj)).count = 1

theorem slabbed_of_inv (inv : Inv low s fl) : Slabbed s := by
  intro obj alive
  rcases inv.live obj alive with ⟨o, found, held, slotHere⟩ | ⟨-, lost⟩
  · have slab := inv.slabs _ o found _ held
    exact ⟨slot_ne_zero slab slotHere, slab.type, slab.count⟩
  · obtain ⟨o, found, -, wraps, -⟩ := lost.cache
    have fit := slots_fit (inv.caches _ o found).sized
    refine ⟨?_, lost.type, lost.count⟩
    rw [lost.start]
    unfold Wraps wordSize at wraps
    unfold pageSize at fit
    omega

theorem objcacheFree_eq (slabbed : Slabbed s) (alive : obj ∈ s.live) :
    objcacheFree s obj = checkedFree s (virtToPage obj) obj := by
  obtain ⟨nonzero, type, count⟩ := slabbed obj alive
  simp only [objcacheFree, if_neg nonzero]
  rw [bugOn_pass (not_not.mpr type), bugOn_pass (not_not.mpr count)]

theorem objcacheFree2_eq (slabbed : Slabbed s) (alive : obj ∈ s.live)
    (owner : (s.page (virtToPage obj)).cache = k) :
    objcacheFree2 s k obj = checkedFree s (virtToPage obj) obj := by
  obtain ⟨nonzero, type, count⟩ := slabbed obj alive
  simp only [objcacheFree2, if_neg nonzero]
  rw [bugOn_pass (not_not.mpr type), bugOn_pass (not_not.mpr count),
    bugOn_pass (not_not.mpr owner)]

theorem checkedFree_elsewhere {t : State} (inv : Inv low s fl) (alive : obj ∈ s.live)
    (onSlab : OnSlab s obj) (ran : checkedFree s (virtToPage obj) obj = .ok t) :
    Elsewhere s t (virtToPage obj) ∧
    ((s.page (virtToPage obj)).inuse - 1 = 0 ∧ ¬ HeldBy t (virtToPage obj) ∧
      (t.page (virtToPage obj)).type = .free ∧ (t.page (virtToPage obj)).count = 0 ∨
    (s.page (virtToPage obj)).inuse - 1 ≠ 0 ∧ HeldBy t (virtToPage obj) ∧
      (t.page (virtToPage obj)).inuse = (s.page (virtToPage obj)).inuse - 1 ∧
      (t.page (virtToPage obj)).count = 1 ∧
      ∃ o, s.caches[(s.page (virtToPage obj)).cache]? = some o ∧
        t.caches = s.caches.set (s.page (virtToPage obj)).cache
          (relisted s o (virtToPage obj))) := by
  obtain ⟨o, found, held, slotHere, body⟩ := checkedFree_eq onSlab
  have ok := inv.caches _ o found
  have slab := inv.slabs _ o found _ held
  have bound : (s.page (virtToPage obj)).cache < s.caches.length :=
    (List.getElem?_eq_some_iff.mp found).1
  have other : obj ≠ o.oPtrEnd := by
    intro stop
    rw [body, doCacheFree_bug inv found held slotHere alive stop] at ran
    cases ran
  rw [body, doCacheFree_eq inv found held slotHere alive other] at ran
  split at ran
  · rename_i last
    rw [memchunkPut_eq slab.frame slab.mapped
      (by simpa only [pushed, update_self] using slab.count)] at ran
    cases ran
    have lists : Relisted o (released (relisted s o (virtToPage obj)) (virtToPage obj))
        (virtToPage obj) :=
      relisted_trans (relisted_lists s o _) (released_lists _ _)
    refine ⟨elsewhere_set found rfl lists ?_, .inl ⟨last, ?_, ?_, ?_⟩⟩
    · intro q away
      simp [putBack, pushed, away]
    · rintro ⟨n, x, member, still⟩
      by_cases same : n = (s.page (virtToPage obj)).cache
      · subst same
        have now : (s.caches.set _ _)[(s.page (virtToPage obj)).cache]? =
            some (released (relisted s o (virtToPage obj)) (virtToPage obj)) :=
          List.getElem?_set_self bound
        cases now.symm.trans member
        exact released_not_held (relisted_ok ok s _) _ still
      · have before : s.caches[n]? = some x :=
          (List.getElem?_set_ne (Ne.symm same)).symm.trans member
        exact same (held_cache inv before found still held)
    · simp [putBack]
    · simp [putBack]
  · rename_i more
    cases ran
    refine ⟨elsewhere_set found rfl (relisted_lists s o _) ?_,
      .inr ⟨more, ?_, ?_, ?_, o, found, rfl⟩⟩
    · intro q away
      simp [pushed, away]
    · exact ⟨_, relisted s o (virtToPage obj), List.getElem?_set_self bound,
        .inr (.inl (relisted_listed ok slab).1)⟩
    · simp [pushed]
    · simpa [pushed] using slab.count

end LiveObject

end ScaraOS.Slab
