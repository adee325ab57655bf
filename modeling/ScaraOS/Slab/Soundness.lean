import ScaraOS.Slab.Wrap

/-! Whole runs of any number of caches, and what they say of every state: the
classes of the slots, the pointers an allocation returns, and when a free panics. -/
namespace ScaraOS.Slab

open Bytes

variable {low : Prop} {s t : State} {fl : Nat → List Nat} {objSz k p q a obj i : Nat} {o : ObjCache}
  {l : List Nat} {mem : Mem} {op : Op} {ops : List Op} {page : Option Nat}

theorem cacheOk_doCacheInit (low : sizeofPointer ≤ objSz) (high : objSz ≤ pageSize) :
    CacheOk (doCacheInit objSz) where
  sized := ⟨low, high, rfl⟩
  partialsNodup := List.nodup_nil
  fullNodup := List.nodup_nil
  apart := fun c member => by cases member
  curOff := fun c cur => by cases cur
  cur := fun c cur => by cases cur
  spent := fun _ => rfl
  word := show 0 < wordSize by decide

theorem doCacheInit_holds_nothing (objSz p : Nat) : ¬ Held (doCacheInit objSz) p := by
  simp [Held, doCacheInit]

theorem slab_frame (slab : SlabOk low s k o p l) (page : t.page p = s.page p)
    (live : t.live = s.live) (words : ∀ x ∈ l, load32 t.mem x = load32 s.mem x) :
    SlabOk low t k o p l :=
  slab_congr ⟨rfl, rfl, page, words, fun _ _ => by rw [live], Iff.rfl, fun _ => rfl, Iff.rfl,
    Iff.rfl⟩ slab

theorem addCache_cases {l : List ObjCache} (found : (l ++ [doCacheInit objSz])[k]? = some o) :
    l[k]? = some o ∨ o = doCacheInit objSz := by
  rw [List.getElem?_append] at found
  split at found
  · exact .inl found
  · exact .inr (List.mem_singleton.mp (List.mem_of_getElem? found))

theorem addCache_get {l : List ObjCache} (found : l[k]? = some o) (objSz : Nat) :
    (l ++ [doCacheInit objSz])[k]? = some o :=
  (List.getElem?_append_left (List.getElem?_eq_some_iff.mp found).1).trans found

theorem sane_addCache (sane : Sane low s fl) (least : sizeofPointer ≤ objSz)
    (most : objSz ≤ pageSize) : Sane low { s with caches := s.caches ++ [doCacheInit objSz] } fl := by
  have inv := sane.inv
  refine ⟨⟨?_, ?_, ?_⟩, ?_⟩
  · intro k o found
    rcases addCache_cases found with before | rfl
    · exact inv.caches k o before
    · exact cacheOk_doCacheInit least most
  · intro k o found p held
    rcases addCache_cases found with before | rfl
    · exact slab_frame (inv.slabs k o before p held) rfl rfl fun _ _ => rfl
    · exact absurd held (doCacheInit_holds_nothing objSz p)
  · intro a alive
    rcases inv.live a alive with ⟨o, found, rest⟩ | ⟨deep, frame, start, type, count, o, found, rest⟩
    · exact .inl ⟨o, addCache_get found objSz, rest⟩
    · exact .inr ⟨deep, frame, start, type, count, o, addCache_get found objSz, rest⟩
  · intro k o found p held
    rcases addCache_cases found with before | rfl
    · exact sane.top k o before p held
    · exact absurd held (doCacheInit_holds_nothing objSz p)

theorem sane_memchunkInit (low : Prop) (mem : Mem) (page : Nat → Page) :
    Sane low (memchunkInit mem page) fun _ => [] := by
  have none : Sane low { memchunkInit mem page with caches := [] } fun _ => [] :=
    ⟨⟨fun k o found => by simp at found, fun k o found => by simp at found,
      fun a alive => by simp [memchunkInit] at alive⟩, fun k o found => by simp at found⟩
  have sized : sizeofPointer ≤ sizeofObjcache ∧ sizeofObjcache ≤ pageSize := by decide
  have first := sane_addCache none sized.1 sized.2
  exact sane_addCache first (show sizeofPointer ≤ sizeofMempool by decide) (by decide)

theorem sane_frame (sane : Sane low s fl) (caches : t.caches = s.caches) (live : t.live = s.live)
    (page : ∀ p, (s.page p).type = .slab → t.page p = s.page p)
    (words : ∀ (k : Nat) (o : ObjCache), s.caches[k]? = some o → ∀ p, Held o p →
      ∀ x ∈ fl p, load32 t.mem x = load32 s.mem x) : Sane low t fl := by
  have inv := sane.inv
  refine ⟨⟨caches ▸ inv.caches, ?_, ?_⟩, ?_⟩
  · rw [caches]
    intro k o found p held
    have slab := inv.slabs k o found p held
    exact slab_frame slab (page p slab.type) live (words k o found p held)
  · rw [live]
    intro a alive
    rcases inv.live a alive with ⟨o, found, held, slotHere⟩ | ⟨deep, lost⟩
    · refine .inl ⟨o, ?_, held, slotHere⟩
      rw [page _ (inv.slabs _ o found _ held).type, caches]
      exact found
    · have same := page _ lost.type
      refine .inr ⟨deep, lost.frame, lost.start, same ▸ lost.type, same ▸ lost.count, ?_⟩
      rw [same, caches]
      exact lost.cache
  · unfold Top
    rw [caches]
    exact sane.top

theorem pages_apart (left : p < nrFrames) (right : q < nrFrames) (other : p ≠ q) :
    pageAddress p + pageSize ≤ pageAddress q ∨ pageAddress q + pageSize ≤ pageAddress p := by
  unfold nrFrames at left right
  unfold pageAddress pageSize pageOffset wordSize
  omega

theorem held_slots_apart (inv : Inv low s fl) {n : Nat} {x : ObjCache} {b : Nat}
    (left : s.caches[n]? = some x) (right : s.caches[k]? = some o) (heldLeft : Held x p)
    (heldRight : Held o q) (slotLeft : Slot x p a) (slotRight : Slot o q b) (other : a ≠ b) :
    a + x.oSz ≤ b ∨ b + o.oSz ≤ a := by
  by_cases same : p = q
  · subst same
    cases held_cache inv left right heldLeft heldRight
    cases left.symm.trans right
    exact slots_apart slotLeft slotRight other
  · have rangeLeft := slot_range (inv.caches n x left).sized slotLeft
    have rangeRight := slot_range (inv.caches k o right).sized slotRight
    have apart := pages_apart (inv.slabs n x left p heldLeft).frame
      (inv.slabs k o right q heldRight).frame same
    have sizeLeft := oSz_pos (inv.caches n x left).sized
    have sizeRight := oSz_pos (inv.caches k o right).sized
    omega

theorem objSize_eq (found : s.caches[(s.page (virtToPage a)).cache]? = some o) :
    objSize s a = o.oSz := by
  simp only [objSize, found, Option.map_some, Option.getD_some]

theorem live_apart (inv : Inv True s fl) {a b : Nat} (left : a ∈ s.live) (right : b ∈ s.live)
    (other : a ≠ b) : a + objSize s a ≤ b ∨ b + objSize s b ≤ a := by
  obtain ⟨x, foundLeft, heldLeft, slotLeft⟩ := live_slab inv left
  obtain ⟨o, foundRight, heldRight, slotRight⟩ := live_slab inv right
  rw [objSize_eq foundLeft, objSize_eq foundRight]
  exact held_slots_apart inv foundLeft foundRight heldLeft heldRight slotLeft slotRight other

theorem sane_mem (sane : Sane low s fl)
    (outside : ∀ y, mem y ≠ s.mem y → ∀ (k : Nat) (o : ObjCache), s.caches[k]? = some o →
      ∀ p, Held o p → ∀ x ∈ fl p, ¬ (x ≤ y ∧ y < x + o.oSz)) :
    Sane low { s with mem := mem } fl := by
  refine sane_frame sane rfl rfl (fun _ _ => rfl) ?_
  intro k o found p held x free
  have positive := oSz_pos (sane.inv.caches k o found).sized
  apply load32_congr
  intro z low high
  by_contra changed
  exact outside z changed k o found p held x free (by omega)

theorem changed_store8 {m : Mem} {y : Nat} {v : UInt8} (changed : store8 m a v y ≠ m y) :
    y = a := by
  by_contra other
  exact changed (store8_ne m v other)

/-- The holder of an object writes to it. -/
theorem sane_write (sane : Sane low s fl) (alive : obj ∈ s.live)
    (inside : ∀ y, mem y ≠ s.mem y → obj ≤ y ∧ y < obj + objSize s obj) :
    Sane low { s with mem := mem } fl := by
  have inv := sane.inv
  apply sane_mem sane
  intro z changed k o member p held y free within
  obtain ⟨start, inside⟩ := inside z changed
  have slab := inv.slabs k o member p held
  rcases inv.live obj alive with ⟨x, found, heldToo, slotHere⟩ | ⟨-, lost⟩
  · rw [objSize_eq found] at inside
    have other : y ≠ obj := fun same => slab.freeDead y free (same ▸ alive)
    have apart := held_slots_apart inv member found held heldToo (slab.slots y free) slotHere other
    omega
  · obtain ⟨x, found, -⟩ := lost.cache
    have small := (inv.caches _ x found).sized.high
    have begins := lost.start
    rw [objSize_eq found] at inside
    have here := virtToPage_slot (inv.caches k o member).sized slab.frame (slab.slots y free)
      within.1 within.2
    rw [show z = pageAddress (virtToPage obj) + (z - obj) by omega,
      virtToPage_inside lost.frame (by omega)] at here
    exact lost_not_held inv lost (here ▸ ⟨k, o, member, held⟩)

theorem sane_otherWrite (sane : Sane low s fl) (v : UInt8)
    (foreign : (s.page (virtToPage a)).type ≠ .slab) :
    Sane low { s with mem := store8 s.mem a v } fl := by
  apply sane_mem sane
  intro y changed k o member p held x free within
  cases changed_store8 changed
  have slab := sane.inv.slabs k o member p held
  have here := virtToPage_slot (sane.inv.caches k o member).sized slab.frame (slab.slots x free)
    within.1 within.2
  exact foreign (here ▸ slab.type)

theorem sane_alloc (sane : Sane low s fl) (given : Given low page)
    (ran : objcacheAlloc s k page = .ok (t, obj)) :
    ∃ fl', Sane low (handOut t obj) fl' := by
  cases member : s.caches[k]? with
  | none =>
    simp only [objcacheAlloc, doAlloc, member] at ran
    cases ran
    exact ⟨fl, sane⟩
  | some o =>
    have served := served_alloc sane member given ran
    obtain ⟨fl', newInv⟩ := served.inv
    exact ⟨fl', newInv, served.top⟩

theorem sane_init (sane : Sane low s fl) (given : Given low page)
    (ran : objcacheInit s objSz page = .ok (t, obj)) :
    ∃ fl', Sane low (handOut t obj) fl' := by
  obtain ⟨small, ran⟩ := bugOn_ok.mp ran
  split at ran
  · cases ran
    exact ⟨fl, sane⟩
  · rename_i positive
    cases got : objcacheAlloc s 0 page with
    | error e =>
      simp only [got, error_bind] at ran
      cases ran
    | ok r =>
      obtain ⟨u, desc⟩ := r
      obtain ⟨fl', newSane⟩ := sane_alloc sane given got
      simp only [got, ok_bind] at ran
      split at ran
      · rename_i null
        cases ran
        rw [null] at newSane
        exact ⟨fl', newSane⟩
      · rename_i some
        cases ran
        have clamped : sizeofPointer ≤ (if objSz < sizeofPointer then sizeofPointer else objSz) ∧
            (if objSz < sizeofPointer then sizeofPointer else objSz) ≤ pageSize := by
          unfold sizeofPointer pageSize at *
          split <;> omega
        have added := sane_addCache newSane clamped.1 clamped.2
        simp only [handOut, if_neg some] at added ⊢
        exact ⟨fl', added⟩

theorem objcacheFree2_owner (slabbed : Slabbed s) (alive : obj ∈ s.live)
    (ran : objcacheFree2 s k obj = .ok t) : (s.page (virtToPage obj)).cache = k := by
  simp only [objcacheFree2, if_neg (slabbed obj alive).1, bugOn_ok] at ran
  exact not_not.mp ran.2.2.1

def Op.frees : Op → Option Nat
  | .free obj | .free2 _ obj => some obj
  | _ => none

theorem step_frees (slabbed : Slabbed s) (frees : op.frees = some obj) (ran : step s op = some t) :
    obj ∈ s.live ∧
      ∃ u, checkedFree s (virtToPage obj) obj = .ok u ∧ t = { u with live := u.live.erase obj } := by
  cases op with
  | free x =>
    cases frees
    simp only [step, mayFree, decide_eq_true_eq] at ran
    split at ran
    · rename_i alive
      split at ran
      · rename_i u called
        rw [objcacheFree_eq slabbed alive.1] at called
        exact ⟨alive.1, u, called, (Option.some.inj ran).symm⟩
      · cases ran
    · cases ran
  | free2 k x =>
    cases frees
    simp only [step, mayFree, decide_eq_true_eq] at ran
    split at ran
    · rename_i alive
      split at ran
      · rename_i u called
        rw [objcacheFree2_eq slabbed alive.1 (objcacheFree2_owner slabbed alive.1 called)] at called
        exact ⟨alive.1, u, called, (Option.some.inj ran).symm⟩
      · cases ran
    · cases ran
  | _ => cases frees

theorem step_sane (given : Given low op.page) (sane : ∃ fl, Sane low s fl)
    (ran : step s op = some t) : ∃ fl, Sane low t fl := by
  obtain ⟨fl, sane⟩ := sane
  cases op with
  | init objSz page =>
    simp only [step] at ran
    split at ran
    · rename_i u obj called
      obtain ⟨fl', newSane⟩ := sane_init sane given called
      cases ran
      split
      · exact ⟨fl', newSane⟩
      · exact ⟨fl', sane_frame newSane rfl rfl (fun _ _ => rfl) fun _ _ _ _ _ _ _ => rfl⟩
    · cases ran
  | alloc k page =>
    simp only [step] at ran
    split at ran
    · rename_i u obj called
      cases ran
      exact sane_alloc sane given called
    · cases ran
  | free obj | free2 k obj =>
    obtain ⟨alive, u, called, rfl⟩ := step_frees (slabbed_of_inv sane.inv) rfl ran
    exact sane_free sane alive called
  | write obj d v =>
    simp only [step, mayFree, decide_eq_true_eq] at ran
    split at ran
    · rename_i allowed
      cases ran
      refine ⟨fl, sane_write sane allowed.1.1 fun y changed => ?_⟩
      rw [changed_store8 changed]
      exact ⟨Nat.le_add_right obj d, Nat.add_lt_add_left allowed.2 obj⟩
    · cases ran
  | other p count type =>
    simp only [step] at ran
    split at ran
    · rename_i foreign
      cases ran
      refine ⟨fl, sane_frame sane rfl rfl ?_ fun _ _ _ _ _ _ _ => rfl⟩
      intro q slab
      have away : q ≠ p := fun same => foreign.1 (same ▸ slab)
      simp [setPage, away]
    · cases ran
  | otherWrite a v =>
    simp only [step] at ran
    split at ran
    · rename_i foreign
      cases ran
      exact ⟨fl, sane_otherWrite sane v foreign.2⟩
    · cases ran

theorem run_sane {page : Nat → Page} (given : ∀ op ∈ ops, Given low op.page)
    (ran : Run.exec step (memchunkInit mem page) ops = some s) : ∃ fl, Sane low s fl :=
  Run.exec_invariant (fun s => ∃ fl, Sane low s fl) (fun op => Given low op.page)
    (fun _ _ _ allowed sane stepped => step_sane allowed sane stepped) given
    ⟨_, sane_memchunkInit low mem page⟩ ran

def ExactlyOne (a b c : Prop) : Prop := (a ∧ ¬ b ∧ ¬ c) ∨ (¬ a ∧ b ∧ ¬ c) ∨ (¬ a ∧ ¬ b ∧ c)

structure ObjcacheSound (s : State) : Prop where
  /-- Every slot is live, on the free list or fresh, and `inuse` counts the live ones. -/
  classes : ∀ (k : Nat) (o : ObjCache), s.caches[k]? = some o → ∀ p, Held o p →
    ∃ l, Chain s.mem (s.page p).freeList l ∧
      (∀ i < o.oNum,
        ExactlyOne (slot o p i ∈ s.live) (slot o p i ∈ l) (Fresh o p (slot o p i))) ∧
      (s.page p).inuse = ((Finset.range o.oNum).filter fun i => slot o p i ∈ s.live).card
  apart : ∀ a ∈ s.live, ∀ b ∈ s.live, a ≠ b → a + objSize s a ≤ b ∨ b + objSize s b ≤ a
  /-- A pointer that is returned is a slot of a slab the cache holds, inside that
  slab's page, and meets no object that was live. -/
  returned : ∀ (k : Nat) (page : Option Nat) (t : State) (obj : Nat), k < s.caches.length →
    Usable page → objcacheAlloc s k page = .ok (t, obj) →
    ∃ o p, t.caches[k]? = some o ∧ Held o p ∧ Slot o p obj ∧
      pageAddress p ≤ obj ∧ obj + o.oSz ≤ pageAddress p + pageSize ∧
      ∀ b ∈ s.live, obj + o.oSz ≤ b ∨ b + objSize t b ≤ obj
  /-- An allocation dereferences `NULL` only where there is no slab to take from and `o_ptr` was
  left less than an object below the end of the address space: `alloc_fast` is called then. -/
  faults : ∀ (k : Nat) (o : ObjCache) (page : Option Nat), s.caches[k]? = some o →
    (objcacheAlloc s k page = .error .fault ↔
      usablePartial s o = none ∧ o.oCur = none ∧ wordSize ≤ o.oPtr + o.oSz)

theorem fresh_iff (ok : CacheOk o) (slab : SlabOk True s k o p l) (inside : i < o.oNum) :
    Fresh o p (slot o p i) ↔ Unused o p (slot o p i) := by
  refine ⟨fun fresh => ⟨fresh.1, fresh.2.1⟩, fun unused => ⟨unused.1, unused.2, ?_⟩⟩
  obtain ⟨_, _, _, stop⟩ := ok.cur p unused.1
  have ends := slot_end_le (p := p) inside
  have positive := oSz_pos ok.sized
  rw [stop, Nat.mod_eq_of_lt (slab.below trivial)]
  omega

theorem classes_of_inv (ok : CacheOk o) (slab : SlabOk True s k o p l) (inside : i < o.oNum) :
    ExactlyOne (slot o p i ∈ s.live) (slot o p i ∈ l) (Fresh o p (slot o p i)) := by
  have slotHere : Slot o p (slot o p i) := ⟨i, inside, rfl⟩
  rw [fresh_iff ok slab inside]
  by_cases unused : Unused o p (slot o p i)
  · obtain ⟨dead, notFree⟩ := slab.unusedApart _ slotHere unused
    exact .inr (.inr ⟨dead, notFree, unused⟩)
  · rcases slab.covered _ slotHere unused with alive | free
    · exact .inl ⟨alive, fun free => slab.freeDead _ free alive, unused⟩
    · exact .inr (.inl ⟨slab.freeDead _ free, free, unused⟩)

theorem bugOn_error {α : Type} {c : Prop} [Decidable c] {f : Unit → Result α}
    (never : f () ≠ .error .fault) : (bugOn c >>= f) ≠ .error .fault := by
  by_cases trips : c
  · rw [bugOn_trip trips]
    simp
  · rw [bugOn_pass trips]
    exact never

theorem allocSlow_no_fault (s : State) (k : Nat) (o : ObjCache) (page : Option Nat) :
    allocSlow s k o page ≠ .error .fault := by
  have got : memchunkGet s page ≠ .error .fault := by
    cases page with
    | none => simp [memchunkGet, allocPages, bugOn, error_bind, ok_bind]
    | some p =>
      simp only [memchunkGet, allocPages]
      by_cases free : (s.page p).count = 0
      · rw [bugOn_pass (not_not.mpr free)]
        exact bugOn_error (bugOn_error (by simp))
      · rw [bugOn_trip free]
        simp [error_bind]
  unfold allocSlow
  cases taken : memchunkGet s page with
  | error e =>
    rw [taken] at got
    exact got
  | ok r => simp [ok_bind, allocFast]

theorem alloc_faults_iff (ok : CacheOk o) (found : s.caches[k]? = some o) (page : Option Nat) :
    objcacheAlloc s k page = .error .fault ↔
      usablePartial s o = none ∧ o.oCur = none ∧ wordSize ≤ o.oPtr + o.oSz := by
  have high := ok.sized.high
  have positive := oSz_pos ok.sized
  have word := ok.word
  simp only [objcacheAlloc, doAlloc, found]
  cases usable : usablePartial s o with
  | some c => simp
  | none =>
    cases cur : o.oCur with
    | some c =>
      simp only [true_and, reduceCtorEq, false_and, iff_false]
      split
      · simp [allocFast, cur]
      · exact allocSlow_no_fault s k o page
    | none =>
      have spent := ok.spent cur
      unfold pageSize at high
      unfold wordSize at word ⊢
      simp only [true_and]
      split
      · rename_i room
        simp only [allocFast, cur, true_iff]
        omega
      · rename_i room
        refine ⟨fun is => absurd is (allocSlow_no_fault s k o page), fun wraps => ?_⟩
        omega

theorem returned_of_inv (inv : Inv True s fl) (known : k < s.caches.length)
    (usable : Usable page) (ran : objcacheAlloc s k page = .ok (t, obj)) :
    ∃ o p, t.caches[k]? = some o ∧ Held o p ∧ Slot o p obj ∧
      pageAddress p ≤ obj ∧ obj + o.oSz ≤ pageAddress p + pageSize ∧
      ∀ b ∈ s.live, obj + o.oSz ≤ b ∨ b + objSize t b ≤ obj := by
  have handed := (doAlloc_spec inv (List.getElem?_eq_getElem known) usable ran).toHanded
  obtain ⟨fl', newInv⟩ := handed.inv
  have owner := handed.owner
  have shape : handOut t obj = { t with live := insert obj t.live } := if_neg handed.nonzero
  rw [shape] at newInv
  obtain ⟨o, found, held, slotHere⟩ := live_slab newInv (Finset.mem_insert_self obj t.live)
  have sized := (newInv.caches _ o found).sized
  obtain ⟨start, finish⟩ := slot_range sized slotHere
  have size : objSize t obj = o.oSz := objSize_eq (s := t) found
  refine ⟨o, virtToPage obj, owner ▸ found, held, slotHere, start, finish, ?_⟩
  intro b alive
  have other : obj ≠ b := fun same => handed.dead (same ▸ alive)
  have still : b ∈ insert obj t.live := Finset.mem_insert_of_mem (handed.live ▸ alive)
  rw [← size]
  exact live_apart newInv (Finset.mem_insert_self obj t.live) still other

/-- In every run of any number of caches in which no slab is the last page. -/
theorem objcache_sound (mem : Mem) (page : Nat → Page) (ops : List Op) (s : State)
    (usable : ∀ op ∈ ops, Usable op.page)
    (ran : Run.exec step (memchunkInit mem page) ops = some s) : ObjcacheSound s := by
  obtain ⟨fl, inv, -⟩ := run_sane (fun op member => given_usable (usable op member)) ran
  constructor
  · intro k o found p held
    have slab := inv.slabs k o found p held
    exact ⟨fl p, slab.chain,
      fun i inside => classes_of_inv (inv.caches k o found) slab inside, slab.inuse⟩
  · exact fun a left b right other => live_apart inv left right other
  · exact fun k page t obj known given called => returned_of_inv inv known given called
  · exact fun k o page found => alloc_faults_iff (inv.caches k o found) found page

def boot : State :=
  memchunkInit (fun _ => 0)
    fun _ => { cache := 0, freeList := 0, inuse := 0, count := 0, type := .free }

theorem pages_of_checked {P : Nat → Prop} [DecidablePred P]
    (checked : ops.all (fun op => op.page.all fun p => P p) = true) :
    ∀ op ∈ ops, ∀ p, op.page = some p → P p := by
  intro op member p given
  have here := List.all_eq_true.mp checked op member
  rw [given] at here
  exact of_decide_eq_true here

def reuse : List Op :=
  [.init 24 (some 7), .alloc 2 (some 8), .alloc 2 none, .free (pageAddress 8), .alloc 2 none]

theorem objcache_sound_reuse : ∃ s, Run.exec step boot reuse = some s ∧ s.live.card = 3 ∧
    ObjcacheSound s := by
  have evaluated : (Run.exec step boot reuse).map (fun s => s.live.card) = some 3 := by decide
  obtain ⟨s, ran, count⟩ := Option.map_eq_some_iff.mp evaluated
  exact ⟨s, ran, count, objcache_sound _ _ reuse s (pages_of_checked (by decide)) ran⟩

/- Objects of a whole page, in the last page but one: the next allocation finds no current slab. -/
example : (Run.exec step boot [.init 4096 (some 7), .alloc 2 (some 262142)]).bind (fun s =>
    match objcacheAlloc s 2 (some 8) with
    | .error e => some e
    | .ok _ => none) = some .fault := by decide

/-- A free of a live object returns unless the object starts at `o_ptr_end` of its cache, where
the range check takes it for one that was never handed out, or its slab was lost. -/
theorem free_live_object (mem : Mem) (page : Nat → Page) (ops : List Op) (s : State)
    (framed : ∀ op ∈ ops, Framed op.page)
    (ran : Run.exec step (memchunkInit mem page) ops = some s) (obj : Nat) (alive : obj ∈ s.live) :
    ((∃ t, objcacheFree s obj = .ok t) ↔ Freeable s obj) ∧
      ((∃ t, objcacheFree2 s (s.page (virtToPage obj)).cache obj = .ok t) ↔ Freeable s obj) ∧
      (¬ Freeable s obj → objcacheFree s obj = .error .bug ∧
        objcacheFree2 s (s.page (virtToPage obj)).cache obj = .error .bug) := by
  obtain ⟨fl, sane⟩ := run_sane (fun op member => given_framed (framed op member)) ran
  obtain ⟨returns, trips⟩ := sane_checkedFree sane alive
  have slabbed := slabbed_of_inv sane.inv
  rw [objcacheFree_eq slabbed alive, objcacheFree2_eq slabbed alive rfl]
  exact ⟨returns, returns, fun stop => ⟨trips stop, trips stop⟩⟩

/- Four objects to a page, in the last page: the first one is all the slab will have. -/
def lastPage : List Op := [.init 1024 (some 7), .alloc 2 (some 262143), .alloc 2 (some 8)]

theorem free_live_object_last : ∃ s, Run.exec step boot lastPage = some s ∧
    pageAddress 262143 ∈ s.live ∧ pageAddress 8 ∈ s.live ∧
    objcacheFree s (pageAddress 262143) = .error .bug ∧
    ∃ t, objcacheFree s (pageAddress 8) = .ok t := by
  obtain ⟨s, ran, high, below, highCache, lowCache, cache⟩ :=
    Run.decided (Run.exec step boot lastPage)
      (fun s => pageAddress 262143 ∈ s.live ∧ pageAddress 8 ∈ s.live ∧
        (s.page (virtToPage (pageAddress 262143))).cache = 2 ∧
        (s.page (virtToPage (pageAddress 8))).cache = 2 ∧
        s.caches[2]? = some ⟨1024, 4, pageAddress 8 + 1024, pageAddress 9, some 8, [], []⟩)
      (by decide)
  have framed : ∀ op ∈ lastPage, Framed op.page := pages_of_checked (by decide)
  obtain ⟨-, -, trips⟩ := free_live_object _ _ lastPage s framed ran _ high
  obtain ⟨returns, -⟩ := free_live_object _ _ lastPage s framed ran _ below
  refine ⟨s, ran, high, below, (trips fun freeable => ?_).1, returns.mpr fun o found => ?_⟩
  · obtain ⟨-, outside⟩ := freeable _ (highCache ▸ cache)
    revert outside
    decide
  · rw [lowCache, cache] at found
    cases found
    decide

/- Objects of a whole page. The second slab lies right below the first, so the end
of the second is the start of the first. -/
theorem free_adjacent_slab_panics : ∃ s, Run.exec step boot
    [.init 4096 (some 7), .alloc 2 (some 9), .alloc 2 (some 8)] = some s ∧
    pageAddress 9 ∈ s.live ∧ objcacheFree s (pageAddress 9) = .error .bug ∧
    objcacheFree2 s 2 (pageAddress 9) = .error .bug :=
  ⟨_, rfl, by decide, rfl, rfl⟩

end ScaraOS.Slab
