import ScaraOS.Slab.Invariant

/-! The three ways `do_alloc` finds an object keep the invariant: the free list of
the first partial slab, the unused end of the current slab, and a new slab. -/
namespace ScaraOS.Slab

open Function Bytes

structure Handed (low : Prop) (s t : State) (k obj : Nat) : Prop where
  nonzero : obj ≠ 0
  dead : obj ∉ s.live
  live : t.live = s.live
  owner : (t.page (virtToPage obj)).cache = k
  onSlab : OnSlab t obj
  inv : ∃ fl, Inv low (handOut t obj) fl

structure Taken (low : Prop) (s t : State) (k obj : Nat) : Prop extends Handed low s t k obj where
  source : HeldBy s (virtToPage obj) ∨ (s.page (virtToPage obj)).count = 0
  elsewhere : Elsewhere s t (virtToPage obj)

def handedOut (s : State) (k : Nat) (o : ObjCache) (c : Nat) (page : Page) (obj : Nat) : State :=
  { s with
    mem := fill s.mem obj o.oSz objcachePoison
    page := update s.page c page
    caches := s.caches.set k o
    live := insert obj s.live }

variable {low : Prop} {s t : State} {fl : Nat → List Nat} {k : Nat} {o o' : ObjCache} {c obj : Nat}
  {page : Page}

theorem touched_handedOut
    (sized : Sized o) (frame : c < nrFrames) (member : Slot o c obj) (lists : Relisted o o' c) :
    Touched s (handedOut s k o' c page obj) k o o' c where
  caches := rfl
  lists := lists
  page := fun q other => by simp [handedOut, other]
  mem := by
    intro x away
    apply fill_outside
    rw [lists.size]
    by_contra inside
    exact away (virtToPage_slot sized frame member (by omega) (by omega))
  live := by
    intro a away
    have other : a ≠ obj := fun same =>
      away (same ▸ virtToPage_of_slot sized frame member)
    simp [handedOut, other]

variable {l rest : List Nat} {a j : Nat} {gave : Option Nat}

theorem words_apart (sized : Sized o) {m m' : Mem} {p : Nat} (member : Slot o p obj)
    (slots : ∀ a ∈ l, Slot o p a) (absent : obj ∉ l)
    (outside : ∀ x, x < obj ∨ obj + o.oSz ≤ x → m' x = m x) :
    ∀ x ∈ l, load32 m' x = load32 m x := by
  intro x here
  have positive := oSz_pos sized
  have other : x ≠ obj := fun same => absent (same ▸ here)
  have apart := slots_apart (slots x here) member other
  apply load32_congr
  intro y low high
  exact outside y (by omega)

theorem slab_handedOut {head : Nat} (sized : Sized o) (slab : SlabOk low s k o c l)
    (member : Slot o c obj) (dead : obj ∉ s.live) (lists : Relisted o o' c)
    (chain : Chain s.mem head rest) (nodup : rest.Nodup) (left : ∀ a, a ∈ rest ↔ a ∈ l ∧ a ≠ obj)
    (unused : ∀ a, Slot o c a → (Unused o' c a ↔ Unused o c a ∧ a ≠ obj))
    (fullEmpty : c ∈ o'.oFull → rest = [])
    (partialUsable : c ∈ o'.oPartials → o'.oCur ≠ some c → rest ≠ [])
    (listed : rest ≠ [] → c ∈ o'.oPartials) :
    SlabOk low (handedOut s k o' c { s.page c with
      freeList := head, inuse := ((s.page c).inuse + 1) % wordSize } obj) k o' c rest where
  __ := slab
  below := lists.size.symm ▸ lists.num.symm ▸ slab.below
  type := by simpa [handedOut] using slab.type
  count := by simpa [handedOut] using slab.count
  cache := by simpa [handedOut] using slab.cache
  chain := by
    have slots : ∀ a ∈ rest, Slot o c a := fun a here => slab.slots a ((left a).mp here).1
    have absent : obj ∉ rest := fun here => ((left obj).mp here).2 rfl
    have words := words_apart sized (m := s.mem) member slots absent
      fun x out => fill_outside s.mem objcachePoison out
    simp only [handedOut, update_self, lists.size]
    exact chain_congr words chain
  nodup := nodup
  slots := fun a here =>
    (slot_iff lists.size lists.num c a).mpr (slab.slots a ((left a).mp here).1)
  freeDead := by
    intro a here alive
    obtain ⟨old, other⟩ := (left a).mp here
    rcases Finset.mem_insert.mp alive with same | before
    · exact other same
    · exact slab.freeDead a old before
  unusedApart := by
    intro a slotHere new
    have here := (slot_iff lists.size lists.num c a).mp slotHere
    obtain ⟨old, other⟩ := (unused a here).mp new
    obtain ⟨notLive, notFree⟩ := slab.unusedApart a here old
    constructor
    · intro alive
      rcases Finset.mem_insert.mp alive with same | before
      · exact other same
      · exact notLive before
    · exact fun member => notFree ((left a).mp member).1
  covered := by
    intro a slotHere notNew
    have here := (slot_iff lists.size lists.num c a).mp slotHere
    by_cases same : a = obj
    · exact .inl (Finset.mem_insert.mpr (.inl same))
    · have notOld : ¬ Unused o c a := fun old => notNew ((unused a here).mpr ⟨old, same⟩)
      rcases slab.covered a here notOld with alive | free
      · exact .inl (Finset.mem_insert.mpr (.inr alive))
      · exact .inr ((left a).mpr ⟨free, same⟩)
  inuse := by
    have counted := liveSlots_insert sized member dead
    have same : liveSlots (handedOut s k o' c { s.page c with
        freeList := head, inuse := ((s.page c).inuse + 1) % wordSize } obj) o' c
        = liveSlots { s with live := insert obj s.live } o c :=
      liveSlots_congr lists.size lists.num fun _ _ => Iff.rfl
    have bound := liveSlots_le { s with live := insert obj s.live } o c
    have small := oNum_small sized
    rw [same, counted]
    simp only [handedOut, update_self]
    rw [slab.inuse]
    unfold wordSize
    omega
  fullEmpty := fullEmpty
  partialUsable := partialUsable
  listed := listed

theorem inv_handedOut (inv : Inv low s fl) (member : s.caches[k]? = some o) (held : Held o c)
    (slotHere : Slot o c obj) (lists : Relisted o o' c) (cache : CacheOk o') (stays : Held o' c)
    (slab : SlabOk low (handedOut s k o' c page obj) k o' c rest) :
    Inv low (handedOut s k o' c page obj) (update fl c rest) := by
  have sized := (inv.caches k o member).sized
  have frame := (inv.slabs k o member c held).frame
  apply inv_touched inv member (touched_handedOut sized frame slotHere lists)
  · exact fun n x found heldToo => held_cache inv found member heldToo held
  · exact cache
  · exact fun _ => slab
  · intro a alive here
    rw [slot_iff lists.size lists.num]
    rcases Finset.mem_insert.mp alive with same | before
    · exact .inl ⟨stays, same ▸ slotHere⟩
    · exact .inl ⟨stays, slab_live inv member held before here⟩

theorem slot_ne_zero (slab : SlabOk low s k o c l) (member : Slot o c a) : a ≠ 0 := by
  obtain ⟨i, _, rfl⟩ := member
  have mapped := slab.mapped
  unfold slot
  omega

theorem taken_handedOut (inv : Inv low s fl) (member : s.caches[k]? = some o) (held : Held o c)
    (slotHere : Slot o c obj) (lists : Relisted o o' c) (cache : CacheOk o') (stays : Held o' c)
    (slab : SlabOk low (handedOut s k o' c page obj) k o' c rest) (dead : obj ∉ s.live)
    (owner : page.cache = k) :
    Taken low s { handedOut s k o' c page obj with live := s.live } k obj := by
  have old := inv.slabs k o member c held
  have here := virtToPage_of_slot (inv.caches k o member).sized old.frame slotHere
  have nonzero := slot_ne_zero old slotHere
  have newInv := inv_handedOut inv member held slotHere lists cache stays slab
  refine ⟨⟨nonzero, dead, rfl, ?_, ⟨o', ?_, here ▸ stays, ?_⟩, ?_⟩,
    .inl ⟨k, o, member, here ▸ held⟩, ?_⟩
  · simpa [handedOut, here] using owner
  · simp [handedOut, here, owner, (List.getElem?_eq_some_iff.mp member).1]
  · rw [here, slot_iff lists.size lists.num]
    exact slotHere
  · unfold handOut
    rw [if_neg nonzero]
    exact ⟨_, newInv⟩
  · rw [here]
    refine elsewhere_set member rfl lists fun q other => ?_
    simp [handedOut, other]

theorem cacheOk_moveToFull (ok : CacheOk o) (off : o.oCur ≠ some c) :
    CacheOk (moveToFull o c) where
  __ := ok
  sized := ⟨ok.sized.low, ok.sized.high, ok.sized.num⟩
  partialsNodup := ok.partialsNodup.erase c
  fullNodup := List.nodup_cons.mpr ⟨ok.fullNodup.not_mem_erase, ok.fullNodup.erase c⟩
  apart := by
    intro q member
    obtain ⟨other, before⟩ := (ok.partialsNodup.mem_erase_iff).mp member
    simp only [moveToFull, List.mem_cons, not_or]
    exact ⟨other, fun full => ok.apart q before (List.mem_of_mem_erase full)⟩
  curOff := by
    intro q cur
    have other : q ≠ c := fun same => off (same ▸ cur)
    simp only [moveToFull, List.mem_cons, not_or]
    exact ⟨other, fun full => ok.curOff q cur (List.mem_of_mem_erase full)⟩

theorem cacheOk_advance (ok : CacheOk o) (cur : o.oCur = some c) (more : j < o.oNum) :
    CacheOk { o with oPtr := slot o c j } where
  __ := ok
  sized := ⟨ok.sized.low, ok.sized.high, ok.sized.num⟩
  cur := by
    intro q same
    cases cur.symm.trans same
    obtain ⟨_, _, _, stop⟩ := ok.cur c cur
    exact ⟨j, more, rfl, stop⟩
  spent := fun none => absurd (cur.symm.trans none) (by simp)

theorem cacheOk_noCur (ok : CacheOk o) {ptr : Nat} (word : ptr < wordSize) :
    CacheOk { o with oPtr := ptr, oPtrEnd := ptr, oCur := none } where
  __ := ok
  sized := ⟨ok.sized.low, ok.sized.high, ok.sized.num⟩
  curOff := fun _ is => by cases is
  cur := fun _ is => by cases is
  spent := fun _ => rfl
  word := word

def shortened (s : State) (o : ObjCache) (c obj : Nat) : ObjCache :=
  if load32 s.mem obj = 0 ∧ some c ≠ o.oCur then moveToFull o c else o

theorem shortened_cases (s : State) (o : ObjCache) (c obj : Nat) :
    (load32 s.mem obj = 0 ∧ o.oCur ≠ some c ∧ shortened s o c obj = moveToFull o c) ∨
      ((load32 s.mem obj ≠ 0 ∨ o.oCur = some c) ∧ shortened s o c obj = o) := by
  unfold shortened
  split
  · rename_i spent
    exact .inl ⟨spent.1, Ne.symm spent.2, rfl⟩
  · rename_i more
    refine .inr ⟨?_, rfl⟩
    by_cases zero : load32 s.mem obj = 0
    · exact .inr (by_contra fun off => more ⟨zero, Ne.symm off⟩)
    · exact .inl zero

theorem unused_shortened (s : State) (o : ObjCache) (c obj p a : Nat) :
    Unused (shortened s o c obj) p a ↔ Unused o p a := by
  rcases shortened_cases s o c obj with ⟨_, _, is⟩ | ⟨_, is⟩
  · rw [is]
    rfl
  · rw [is]

theorem allocFromPartial_spec (inv : Inv low s fl) (member : s.caches[k]? = some o)
    (listed : c ∈ o.oPartials) (usable : (s.page c).freeList ≠ 0)
    (ran : allocFromPartial s k o c = (t, obj)) :
    t.caches[k]? = some (shortened s o c obj) ∧ virtToPage obj = c ∧ Taken low s t k obj := by
  have ok := inv.caches k o member
  have held : Held o c := .inr (.inl listed)
  have slab := inv.slabs k o member c held
  have chain := slab.chain
  have nodup := slab.nodup
  cases shape : fl c with
  | nil => exact absurd ((chain_zero chain).mpr shape) usable
  | cons head rest =>
    rw [shape] at chain nodup
    obtain ⟨first, mapped, tail⟩ := chain
    obtain rfl : head = obj := first.symm.trans (congrArg Prod.snd ran)
    obtain ⟨absent, restNodup⟩ := List.nodup_cons.mp nodup
    have onList : head ∈ fl c := shape ▸ List.mem_cons_self
    have slotHere := slab.slots head onList
    have dead := slab.freeDead head onList
    have tailZero := chain_zero tail
    have left : ∀ a, a ∈ rest ↔ a ∈ fl c ∧ a ≠ head := by
      intro a
      rw [shape, List.mem_cons]
      constructor
      · exact fun here => ⟨.inr here, fun same => absent (same ▸ here)⟩
      · exact fun here => here.1.resolve_left here.2
    have unused : ∀ a, Slot o c a →
        (Unused (shortened s o c head) c a ↔ Unused o c a ∧ a ≠ head) := by
      intro a here
      rw [unused_shortened]
      constructor
      · exact fun is => ⟨is, fun same => (slab.unusedApart a here is).2 (same ▸ onList)⟩
      · exact fun is => is.1
    have taken : Taken low s { handedOut s k (shortened s o c head) c { s.page c with
        freeList := load32 s.mem head, inuse := ((s.page c).inuse + 1) % wordSize } head with
        live := s.live } k head := by
      rcases shortened_cases s o c head with ⟨zero, off, is⟩ | ⟨more, is⟩
      · -- The slab is full now and leaves the partial list.
        rw [is] at unused ⊢
        have empty := tailZero.mp zero
        have newSlab := slab_handedOut ok.sized slab slotHere dead (relisted_moveToFull o c) tail
          restNodup left unused (fun _ => empty)
          (fun here => absurd here ok.partialsNodup.not_mem_erase) (fun some => absurd empty some)
        exact taken_handedOut inv member held slotHere (relisted_moveToFull o c)
          (cacheOk_moveToFull ok off) (.inr (.inr List.mem_cons_self)) newSlab dead slab.cache
      · rw [is] at unused ⊢
        have usable' : o.oCur ≠ some c → rest ≠ [] := fun off empty =>
          more.elim (fun some => some (tailZero.mpr empty)) off
        have newSlab := slab_handedOut ok.sized slab slotHere dead (relisted_refl o c) tail
          restNodup left unused (fun full => absurd full (ok.apart c listed))
          (fun _ => usable') (fun _ => listed)
        exact taken_handedOut inv member held slotHere (relisted_refl o c) ok held newSlab dead
          slab.cache
    have result : allocFromPartial s k o c = ({ handedOut s k (shortened s o c head) c { s.page c with
        freeList := load32 s.mem head, inuse := ((s.page c).inuse + 1) % wordSize } head with
        live := s.live }, head) := by
      unfold allocFromPartial
      rw [first]
      rfl
    obtain ⟨rfl, -⟩ := Prod.mk.inj (result.symm.trans ran)
    exact ⟨List.getElem?_set_self (List.getElem?_eq_some_iff.mp member).1,
      virtToPage_of_slot ok.sized slab.frame slotHere, taken⟩

theorem cur_inuse (sized : Sized o) (slab : SlabOk low s k o c []) (cur : o.oCur = some c)
    (ptr : o.oPtr = slot o c j) (inside : j < o.oNum) :
    (s.page c).inuse = j ∧ ∀ i < o.oNum, slot o c i ∈ s.live ↔ i < j := by
  have positive := oSz_pos sized
  have alive : ∀ i < o.oNum, slot o c i ∈ s.live ↔ i < j := by
    intro i bound
    have unused : Unused o c (slot o c i) ↔ j ≤ i := by
      unfold Unused
      rw [ptr, slot_le sized]
      simp only [cur, true_and]
    constructor
    · intro alive
      by_contra behind
      exact (slab.unusedApart _ ⟨i, bound, rfl⟩ (unused.mpr (Nat.le_of_not_lt behind))).1 alive
    · intro before
      have old : ¬ Unused o c (slot o c i) := fun is => Nat.not_le.mpr before (unused.mp is)
      rcases slab.covered _ ⟨i, bound, rfl⟩ old with alive | free
      · exact alive
      · cases free
  have used : liveSlots s o c = Finset.range j := by
    ext i
    simp only [liveSlots, Finset.mem_filter, Finset.mem_range]
    constructor
    · rintro ⟨bound, live⟩
      exact (alive i bound).mp live
    · intro before
      have bound : i < o.oNum := by omega
      exact ⟨bound, (alive i bound).mpr before⟩
  refine ⟨?_, alive⟩
  rw [slab.inuse, used, Finset.card_range]

def bumped (s : State) (o : ObjCache) (c : Nat) : ObjCache :=
  if ((s.page c).inuse + 1) % wordSize = o.oNum ∧ (s.page c).freeList = 0 then
    { moveToFull { o with oPtr := (o.oPtr + o.oSz) % wordSize } c with oCur := none }
  else { o with oPtr := (o.oPtr + o.oSz) % wordSize }

theorem allocFast_eq (cur : o.oCur = some c) (s : State) (k : Nat) :
    allocFast s k o = .ok ({ handedOut s k (bumped s o c) c { s.page c with
      inuse := ((s.page c).inuse + 1) % wordSize } o.oPtr with live := s.live }, o.oPtr) := by
  obtain ⟨oSz, oNum, oPtr, oPtrEnd, oCur, oPartials, oFull⟩ := o
  cases cur
  simp only [allocFast, setPage, update_self]
  rfl

def advanced (o : ObjCache) (c j : Nat) : ObjCache :=
  if j + 1 = o.oNum then { moveToFull { o with oPtr := o.oPtrEnd } c with oCur := none }
  else { o with oPtr := slot o c (j + 1) }

theorem relisted_advanced (cur : o.oCur = some c) (j : Nat) : Relisted o (advanced o c j) c := by
  unfold advanced
  split
  · exact relisted_trans (relisted_cur o o.oPtrEnd o.oPtrEnd (.inr cur) (.inl rfl))
      (relisted_moveToFull _ c)
  · exact relisted_cur o (slot o c (j + 1)) o.oPtrEnd (.inr cur) (.inr cur)

theorem cacheOk_advanced (ok : CacheOk o) (cur : o.oCur = some c) (inside : j < o.oNum) :
    CacheOk (advanced o c j) := by
  unfold advanced
  split
  · exact cacheOk_moveToFull (cacheOk_noCur ok ok.word) (by simp)
  · exact cacheOk_advance ok cur (by omega)

theorem unused_advanced (sized : Sized o) (cur : o.oCur = some c) (ptr : o.oPtr = slot o c j)
    (member : Slot o c a) : Unused (advanced o c j) c a ↔ Unused o c a ∧ a ≠ slot o c j := by
  obtain ⟨i, bound, rfl⟩ := member
  have order : slot o c j ≤ slot o c i ↔ j ≤ i := slot_le sized
  have same : slot o c i = slot o c j ↔ i = j :=
    ⟨slot_inj sized, fun is => congrArg (slot o c) is⟩
  unfold Unused advanced
  simp only [ptr, order, Ne, same]
  split
  · constructor
    · exact fun is => absurd is.1 (by simp)
    · intro ⟨⟨_, low⟩, other⟩
      exact absurd (by omega) other
  · have next : slot o c (j + 1) ≤ slot o c i ↔ j + 1 ≤ i := slot_le sized
    simp only [next, cur, true_and]
    omega

/-- The slot after the last one is `o_ptr_end`, wrapped as it is. -/
theorem slot_after (ok : CacheOk o) (cur : o.oCur = some c) (inside : j < o.oNum) :
    (slot o c j + o.oSz) % wordSize = if j + 1 = o.oNum then o.oPtrEnd else slot o c (j + 1) := by
  obtain ⟨_, _, _, stop⟩ := ok.cur c cur
  rw [← slot_next]
  split
  · rename_i last
    rw [stop, last]
    rfl
  · have more : j + 1 < o.oNum := by omega
    have ends := slot_end_le (o := o) (p := c) more
    have fit := slots_fit ok.sized
    have top := page_end c
    have positive := oSz_pos ok.sized
    exact Nat.mod_eq_of_lt (by omega)

theorem allocFast_advanced (ok : CacheOk o) (slab : SlabOk low s k o c []) (cur : o.oCur = some c)
    (inside : j < o.oNum) (ptr : o.oPtr = slot o c j) :
    allocFast s k o = .ok ({ handedOut s k (advanced o c j) c { s.page c with
      inuse := ((s.page c).inuse + 1) % wordSize } (slot o c j) with live := s.live },
      slot o c j) := by
  have small := oNum_small ok.sized
  have zero : (s.page c).freeList = 0 := (chain_zero slab.chain).mpr rfl
  have counted : ((s.page c).inuse + 1) % wordSize = j + 1 := by
    rw [(cur_inuse ok.sized slab cur ptr inside).1]
    unfold wordSize
    omega
  have shape : bumped s o c = advanced o c j := by
    simp only [bumped, advanced, counted, zero, and_true, ptr, slot_after ok cur inside]
    split <;> rfl
  rw [allocFast_eq cur, shape, ptr]

theorem allocFast_spec (inv : Inv low s fl) (member : s.caches[k]? = some o)
    (cur : o.oCur = some c) (empty : fl c = []) (ran : allocFast s k o = .ok (t, obj)) :
    ∃ j < o.oNum, o.oPtr = slot o c j ∧ t.caches[k]? = some (advanced o c j) ∧
      virtToPage obj = c ∧ Taken low s t k obj := by
  have ok := inv.caches k o member
  have held : Held o c := .inl cur
  have slab := inv.slabs k o member c held
  rw [empty] at slab
  obtain ⟨j, inside, ptr, -⟩ := ok.cur c cur
  have slotHere : Slot o c (slot o c j) := ⟨j, inside, rfl⟩
  have dead : slot o c j ∉ s.live :=
    (slab.unusedApart _ slotHere ⟨cur, Nat.le_of_eq ptr⟩).1
  have lists := relisted_advanced cur j
  have stays : Held (advanced o c j) c := by
    unfold advanced
    split
    · exact .inr (.inr List.mem_cons_self)
    · exact .inl cur
  have partialUsable : c ∈ (advanced o c j).oPartials → (advanced o c j).oCur ≠ some c →
      ([] : List Nat) ≠ [] := by
    unfold advanced
    split
    · exact fun here => absurd here ok.partialsNodup.not_mem_erase
    · exact fun _ off => absurd cur off
  have newSlab := slab_handedOut ok.sized slab slotHere dead lists slab.chain slab.nodup
    (by simp) (fun a here => unused_advanced ok.sized cur ptr here) (fun _ => rfl) partialUsable
    (by simp)
  have taken := taken_handedOut inv member held slotHere lists (cacheOk_advanced ok cur inside)
    stays newSlab dead slab.cache
  cases Except.ok.inj ((allocFast_advanced ok slab cur inside ptr).symm.trans ran)
  exact ⟨j, inside, ptr, List.getElem?_set_self (List.getElem?_eq_some_iff.mp member).1,
    virtToPage_of_slot ok.sized slab.frame slotHere, taken⟩

/-- The page the allocator may give is a frame of the address space. -/
def Framed (page : Option Nat) : Prop := ∀ p, page = some p → p < nrFrames

/-- A frame, and not the last page of the address space. -/
def Usable (page : Option Nat) : Prop :=
  ∀ p, page = some p → p < nrFrames ∧ pageAddress p + pageSize < wordSize

/-- What is asked of the pages that are given, where slabs have to be `low` and where not. -/
def Given (low : Prop) (page : Option Nat) : Prop := Framed page ∧ (low → Usable page)

theorem given_usable (usable : Usable gave) : Given True gave :=
  ⟨fun p is => (usable p is).1, fun _ => usable⟩

theorem given_framed (framed : Framed gave) : Given False gave := ⟨framed, False.elim⟩

def newCur (o : ObjCache) (c : Nat) : ObjCache :=
  { o with
    oCur := some c
    oPtr := pageAddress c
    oPtrEnd := (pageAddress c + o.oSz * o.oNum) % wordSize }

def grown (s : State) (k : Nat) (o : ObjCache) (c : Nat) : State :=
  setCache (setPage s c { cache := k, freeList := 0, inuse := 0, count := 1, type := .slab })
    k (newCur o c)

theorem memchunkGet_spec {page : Option Nat} (framed : Framed page)
    (ran : memchunkGet s page = .ok (t, c)) :
    page = some c ∧ (s.page c).count = 0 ∧ pageAddress c ≠ 0 ∧
      t = setPage s c { s.page c with count := 1, type := .slab, freeList := pageAddress c } := by
  cases page with
  | none =>
    have trips : memchunkGet s none = .error .bug := rfl
    cases trips.symm.trans ran
  | some p =>
    have frame := framed p rfl
    have back : virtToPage (pageAddress p) = p := virtToPage_base frame
    simp only [memchunkGet, allocPages] at ran
    by_cases free : (s.page p).count = 0
    · have passes : ¬ (s.page p).count ≠ 0 := not_not.mpr free
      rw [bugOn_pass passes] at ran
      simp only [ok_bind, bugOn_ok, back, setPage, update_self, update_idem,
        free, Except.ok.injEq, Prod.mk.injEq] at ran
      obtain ⟨mapped, _, state, rfl⟩ := ran
      exact ⟨rfl, free, mapped, state.symm⟩
    · have trips : (s.page p).count ≠ 0 := free
      rw [bugOn_trip trips] at ran
      simp only [error_bind] at ran
      cases ran

theorem allocFast_setCache (s : State) (k : Nat) (o x : ObjCache) :
    allocFast (setCache s k x) k o = allocFast s k o := by
  cases cur : o.oCur with
  | none => simp only [allocFast, cur]
  | some c =>
    have same : bumped (setCache s k x) o c = bumped s o c := rfl
    rw [allocFast_eq cur, allocFast_eq cur, same]
    simp only [handedOut, setCache, List.set_set]

theorem allocSlow_eq {page : Option Nat} (framed : Framed page)
    (ran : allocSlow s k o page = .ok (t, obj)) :
    ∃ c, page = some c ∧ (s.page c).count = 0 ∧ pageAddress c ≠ 0 ∧
      allocFast (grown s k o c) k (newCur o c) = .ok (t, obj) := by
  cases got : memchunkGet s page with
  | error e =>
    simp only [allocSlow, got] at ran
    cases ran
  | ok r =>
    obtain ⟨u, c⟩ := r
    obtain ⟨given, free, mapped, rfl⟩ := memchunkGet_spec framed got
    refine ⟨c, given, free, mapped, ?_⟩
    unfold grown
    rw [allocFast_setCache]
    simp only [allocSlow, got, ok_bind, setPage, update_self, update_idem] at ran
    exact ran

theorem free_not_held (inv : Inv low s fl)
    (free : (s.page c).count = 0) {n : Nat} {x : ObjCache} (found : s.caches[n]? = some x) :
    ¬ Held x c := by
  intro held
  have count := (inv.slabs n x found c held).count
  omega

theorem free_no_live (inv : Inv low s fl) {a : Nat}
    (free : (s.page c).count = 0) (here : virtToPage a = c) : a ∉ s.live := by
  intro alive
  subst here
  rcases inv.live a alive with ⟨o, found, held, -⟩ | ⟨-, lost⟩
  · exact free_not_held inv free found held
  · exact absurd (lost.count.symm.trans free) (by decide)

theorem cacheOk_newCur (ok : CacheOk o) (off : c ∉ o.oFull) : CacheOk (newCur o c) where
  __ := ok
  sized := ⟨ok.sized.low, ok.sized.high, ok.sized.num⟩
  curOff := fun q cur => Option.some.inj cur ▸ off
  cur := by
    intro q cur
    cases cur
    have some : 0 < o.oNum := oNum_pos ok.sized
    refine ⟨0, some, ?_, ?_⟩
    · simp [slot, newCur]
    · simp only [newCur, Nat.mul_comm]
  spent := fun none => by cases none
  word := Nat.mod_lt _ (by decide)

section

variable (inv : Inv low s fl) (member : s.caches[k]? = some o) (none : o.oCur = none)
  (frame : c < nrFrames) (below : low → pageAddress c + pageSize < wordSize)
  (mapped : pageAddress c ≠ 0) (free : (s.page c).count = 0)
include inv member none frame below mapped free

theorem inv_grown : Inv low (grown s k o c) (update fl c []) := by
  have ok := inv.caches k o member
  have unheld : ¬ Held o c := free_not_held inv free member
  have off : c ∉ o.oFull := fun full => unheld (.inr (.inr full))
  have unlisted : c ∉ o.oPartials := fun listed => unheld (.inr (.inl listed))
  have cacheOk := cacheOk_newCur ok off
  have noLive : ∀ a, Slot (newCur o c) c a → a ∉ s.live := fun a slotHere =>
    free_no_live inv free (virtToPage_of_slot cacheOk.sized frame slotHere)
  have allUnused : ∀ a, Slot (newCur o c) c a → Unused (newCur o c) c a := by
    rintro a ⟨i, bound, rfl⟩
    exact ⟨rfl, Nat.le_add_right _ _⟩
  have touched : Touched s (grown s k o c) k o (newCur o c) c := {
    caches := rfl
    lists := relisted_cur o _ _ (.inl none) (.inr rfl)
    page := fun q other => by simp [grown, setCache, setPage, other]
    mem := fun _ _ => rfl
    live := fun _ _ => Iff.rfl }
  apply inv_touched inv member touched
  · exact fun n x found held => absurd held (free_not_held inv free found)
  · exact cacheOk
  · intro _
    exact {
      frame := frame
      below := fun is => by
        have fit := slots_fit cacheOk.sized
        have room := below is
        omega
      mapped := mapped
      type := by simp [grown, setCache, setPage]
      count := by simp [grown, setCache, setPage]
      cache := by simp [grown, setCache, setPage]
      chain := by simp [grown, setCache, setPage, Chain]
      nodup := List.nodup_nil
      slots := by simp
      freeDead := by simp
      unusedApart := fun a slotHere _ => ⟨noLive a slotHere, by simp⟩
      covered := fun a slotHere old => absurd (allUnused a slotHere) old
      inuse := by
        have nothing : liveSlots (grown s k o c) (newCur o c) c = ∅ :=
          Finset.filter_false_of_mem fun i bound =>
            noLive _ ⟨i, Finset.mem_range.mp bound, rfl⟩
        rw [nothing]
        simp [grown, setCache, setPage]
      fullEmpty := fun _ => rfl
      partialUsable := fun listed => absurd listed unlisted
      listed := fun some => absurd rfl some }
  · exact fun a alive here => absurd alive (free_no_live inv free here)

theorem grown_spec (ran : allocFast (grown s k o c) k (newCur o c) = .ok (t, obj)) :
    t.caches[k]? = some (advanced (newCur o c) c 0) ∧ virtToPage obj = c ∧
      Taken low s t k obj := by
  have newInv := inv_grown inv member none frame below mapped free
  have found : (grown s k o c).caches[k]? = some (newCur o c) :=
    List.getElem?_set_self (List.getElem?_eq_some_iff.mp member).1
  obtain ⟨j, -, ptr, now, here, taken⟩ :=
    allocFast_spec newInv found rfl (update_self c [] fl) ran
  have zero : j = 0 := by
    refine slot_inj (newInv.caches k _ found).sized (ptr.symm.trans ?_)
    simp [slot, newCur]
  have first : Elsewhere s (grown s k o c) c := by
    refine elsewhere_set member rfl (relisted_cur o _ _ (.inl none) (.inr rfl)) ?_
    intro q other
    simp [grown, setCache, setPage, other]
  refine ⟨zero ▸ now, here, { taken.toHanded with }, .inr (here ▸ free), ?_⟩
  exact elsewhere_trans (here ▸ first) taken.elsewhere

end

theorem cur_empty (inv : Inv low s fl) (member : s.caches[k]? = some o)
    (none : usablePartial s o = none) (cur : o.oCur = some c) : fl c = [] := by
  by_contra some
  have slab := inv.slabs k o member c (.inl cur)
  have listed := slab.listed some
  cases shape : o.oPartials with
  | nil =>
    rw [shape] at listed
    cases listed
  | cons x rest =>
    have first : x ∈ o.oPartials := shape ▸ List.mem_cons_self
    have firstSlab := inv.slabs k o member x (.inr (.inl first))
    have zero : (s.page x).freeList = 0 := by
      simpa [usablePartial, firstPartial, shape] using none
    have empty := (chain_zero firstSlab.chain).mp zero
    by_cases same : x = c
    · exact some (same ▸ empty)
    · have notCur : o.oCur ≠ Option.some x := by
        rw [cur]
        exact fun is => same (Option.some.inj is).symm
      exact firstSlab.partialUsable first notCur empty

/-- `do_alloc` sees room in the current slab, unless the end of the slab has wrapped and what
is left is more than one slot. -/
theorem cur_room (ok : CacheOk o) (cur : o.oCur = some c) (inside : j < o.oNum)
    (ptr : o.oPtr = slot o c j) : (o.oPtr + o.oSz) % wordSize ≤ o.oPtrEnd ↔
      pageAddress c + o.oNum * o.oSz < wordSize ∨ j + 1 = o.oNum := by
  obtain ⟨_, _, _, stop⟩ := ok.cur c cur
  have fit := slots_fit ok.sized
  have top := page_end c
  have positive := oSz_pos ok.sized
  rw [ptr, slot_after ok cur inside]
  split
  · rename_i last
    simp [last]
  · rename_i more
    have ends := slot_end_le (o := o) (p := c) inside
    have start : pageAddress c ≤ slot o c j := Nat.le_add_right _ _
    rw [slot_next, stop]
    by_cases low : pageAddress c + o.oNum * o.oSz < wordSize
    · rw [Nat.mod_eq_of_lt low]
      simp only [low, true_or, iff_true]
      exact ends
    · have whole : pageAddress c + o.oNum * o.oSz = wordSize := by omega
      rw [whole, Nat.mod_self]
      omega

/-- The ways in which `do_alloc` returns. -/
inductive Found (s : State) (k : Nat) (o : ObjCache) (page : Option Nat) (t : State) (obj : Nat) :
    Prop where
  | onPartial (c : Nat) (listed : c ∈ o.oPartials) (list : (s.page c).freeList ≠ 0)
      (ran : allocFromPartial s k o c = (t, obj))
  | inCur (c : Nat) (none : usablePartial s o = none) (cur : o.oCur = some c)
      (room : (o.oPtr + o.oSz) % wordSize ≤ o.oPtrEnd) (ran : allocFast s k o = .ok (t, obj))
  | inNew (c : Nat) (none : usablePartial s o = none)
      (room : ¬ (o.oPtr + o.oSz) % wordSize ≤ o.oPtrEnd) (given : page = some c)
      (free : (s.page c).count = 0) (mapped : pageAddress c ≠ 0)
      (ran : allocFast (grown s k o c) k (newCur o c) = .ok (t, obj))

theorem doAlloc_found (member : s.caches[k]? = some o) {page : Option Nat} (framed : Framed page)
    (ran : doAlloc s k page = .ok (t, obj)) : Found s k o page t obj := by
  simp only [doAlloc, member] at ran
  split at ran
  · rename_i c found
    obtain ⟨first, list⟩ := Option.filter_eq_some_iff.mp found
    exact .onPartial c (List.mem_of_head? first) (of_decide_eq_true list) (Except.ok.inj ran)
  · rename_i none
    split at ran
    · rename_i room
      cases cur : o.oCur with
      | none =>
        simp only [allocFast, cur] at ran
        cases ran
      | some c => exact .inCur c none cur room ran
    · rename_i room
      obtain ⟨c, given, free, mapped, ran⟩ := allocSlow_eq framed ran
      exact .inNew c none room given free mapped ran

theorem doAlloc_spec (inv : Inv True s fl) (member : s.caches[k]? = some o) {page : Option Nat}
    (usable : Usable page) (ran : doAlloc s k page = .ok (t, obj)) : Taken True s t k obj := by
  cases doAlloc_found member (given_usable usable).1 ran with
  | onPartial c listed list ran => exact (allocFromPartial_spec inv member listed list ran).2.2
  | inCur c none cur room ran =>
    obtain ⟨-, -, -, -, -, taken⟩ := allocFast_spec inv member cur (cur_empty inv member none cur) ran
    exact taken
  | inNew c none room given free mapped ran =>
    cases cur : o.oCur with
    | none =>
      obtain ⟨frame, below⟩ := usable c given
      exact (grown_spec inv member cur frame (fun _ => below) mapped free ran).2.2
    | some q =>
      obtain ⟨j, inside, ptr, -⟩ := (inv.caches k o member).cur q cur
      have below := (inv.slabs k o member q (.inl cur)).below trivial
      exact absurd ((cur_room (inv.caches k o member) cur inside ptr).mpr (.inl below)) room

end ScaraOS.Slab
