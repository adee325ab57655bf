import ScaraOS.Slab.Soundness

/-! How many pages the caches keep: a new one is taken only when there is no slot left, and
one goes back with the last object in it. -/
namespace ScaraOS.Slab

open Function Bytes

variable {low : Prop} {s t : State} {fl : Nat → List Nat} {k : Nat} {o : ObjCache}

def LastIn (s : State) (obj : Nat) : Prop :=
  ∀ b ∈ s.live, virtToPage b = virtToPage obj → b = obj

/-- The step frees the last object of page `p`. -/
def FreesLast (s : State) (op : Op) (p : Nat) : Prop :=
  ∃ obj, op.frees = some obj ∧ virtToPage obj = p ∧ LastIn s obj

structure Economy (s : State) : Prop where
  /-- An allocation takes a page, or panics because there is none, only if every slot the cache
  has is live. -/
  full : ∀ (k : Nat) (o : ObjCache), s.caches[k]? = some o → (objcacheAlloc s k none = .error .bug ∨
      ∃ page t obj p, objcacheAlloc s k page = .ok (t, obj) ∧ (t.page p).count ≠ (s.page p).count) →
    ∀ p, Held o p → ∀ i < o.oNum, slot o p i ∈ s.live
  /-- A cache holds the pages that have live objects of it. -/
  held : ∀ (k : Nat) (o : ObjCache), s.caches[k]? = some o → ∀ p, Held o p ↔
    ∃ a ∈ s.live, virtToPage a = p ∧ (s.page p).cache = k
  /-- A call of the caches takes from the count of a page exactly when it frees the last object. -/
  once : ∀ op t, Usable op.page → (∀ p count type, op ≠ .other p count type) →
    step s op = some t → ∀ p, (t.page p).count < (s.page p).count ↔ FreesLast s op p
  /-- What is held has the count 1 and is held still, unless the last object is freed; then it
  was held and is free. -/
  back : ∀ op t, Usable op.page → step s op = some t → ∀ p,
    (HeldBy s p → (s.page p).count = 1 ∧ (¬ FreesLast s op p → HeldBy t p)) ∧
    (FreesLast s op p → HeldBy s p ∧ ¬ HeldBy t p ∧ (t.page p).type = .free ∧ (t.page p).count = 0)

variable {p obj objSz : Nat} {op : Op}

theorem no_room_all_live (inv : Inv True s fl) (found : s.caches[k]? = some o)
    (first : usablePartial s o = none) (noRoom : ¬ (o.oPtr + o.oSz) % wordSize ≤ o.oPtrEnd)
    (held : Held o p) {i : Nat} (inside : i < o.oNum) : slot o p i ∈ s.live := by
  have ok := inv.caches k o found
  -- the current slab would have room
  have cur : o.oCur = none := by
    cases cur : o.oCur with
    | none => rfl
    | some c =>
      obtain ⟨j, below, ptr, -⟩ := ok.cur c cur
      have low := (inv.slabs k o found c (.inl cur)).below trivial
      exact absurd ((cur_room ok cur below ptr).mpr (.inl low)) noRoom
  have off : ∀ q, o.oCur ≠ some q := by simp [cur]
  -- and a partial slab a free list
  have empty : o.oPartials = [] := by
    cases shape : o.oPartials with
    | nil => rfl
    | cons x rest =>
      have listed : x ∈ o.oPartials := shape ▸ List.mem_cons_self
      have slab := inv.slabs k o found x (.inr (.inl listed))
      have zero : (s.page x).freeList = 0 := by
        simpa [usablePartial, firstPartial, shape] using first
      exact absurd ((chain_zero slab.chain).mp zero) (slab.partialUsable listed (off x))
  have full : p ∈ o.oFull := by
    rcases held with is | listed | full
    · exact absurd is (off p)
    · rw [empty] at listed
      cases listed
    · exact full
  have slab := inv.slabs k o found p held
  rcases slab.covered _ ⟨i, inside, rfl⟩ (fun unused => off p unused.1) with alive | free
  · exact alive
  · rw [slab.fullEmpty full] at free
    cases free

theorem update_count {f : Nat → Page} {c : Nat} {page : Page} (same : page.count = (f c).count)
    (p : Nat) : (update f c page p).count = (f p).count := by
  by_cases here : p = c
  · subst here
    rw [update_self, same]
  · rw [update_of_ne here]

theorem allocFast_count (ran : allocFast s k o = .ok (t, obj)) (p : Nat) :
    (t.page p).count = (s.page p).count := by
  simp only [allocFast] at ran
  split at ran
  · cases ran
  · cases ran
    refine update_count (f := s.page) ?_ p
    rfl

/-- Only `alloc_slow` takes a page, or panics where there is none. -/
theorem takes_no_room (found : s.caches[k]? = some o)
    (takes : objcacheAlloc s k none = .error .bug ∨ ∃ page t obj p,
      objcacheAlloc s k page = .ok (t, obj) ∧ (t.page p).count ≠ (s.page p).count) :
    usablePartial s o = none ∧ ¬ (o.oPtr + o.oSz) % wordSize ≤ o.oPtrEnd := by
  simp only [objcacheAlloc, doAlloc, found] at takes
  cases usable : usablePartial s o with
  | some c =>
    simp only [usable] at takes
    rcases takes with none | ⟨page, t, obj, p, ran, other⟩
    · cases none
    · cases ran
      refine absurd (update_count (f := s.page) ?_ p) other
      rfl
  | none =>
    refine ⟨rfl, fun room => ?_⟩
    simp only [usable, if_pos room] at takes
    rcases takes with none | ⟨page, t, obj, p, ran, other⟩
    · simp only [allocFast] at none
      split at none <;> cases none
    · exact other (allocFast_count ran p)

theorem live_inuse (inv : Inv True s fl) {a : Nat} (alive : a ∈ s.live) :
    (s.page (virtToPage a)).inuse ≠ 0 := by
  obtain ⟨o, found, held, slotHere⟩ := live_slab inv alive
  have slab := inv.slabs _ o found _ held
  obtain ⟨i, inside, eq⟩ := slotHere
  have counted : i ∈ liveSlots s o (virtToPage a) :=
    Finset.mem_filter.mpr ⟨Finset.mem_range.mpr inside, eq ▸ alive⟩
  rw [slab.inuse]
  exact Finset.card_ne_zero_of_mem counted

theorem last_iff (inv : Inv True s fl) (alive : obj ∈ s.live) :
    (s.page (virtToPage obj)).inuse - 1 = 0 ↔ LastIn s obj := by
  obtain ⟨o, found, held, slotHere⟩ := live_slab inv alive
  have sized := (inv.caches _ o found).sized
  have slab := inv.slabs _ o found _ held
  have small : (s.page (virtToPage obj)).inuse - 1 = 0 ↔
      (liveSlots s o (virtToPage obj)).card ≤ 1 := by
    rw [slab.inuse]
    omega
  have counted : ∀ b ∈ s.live, virtToPage b = virtToPage obj → ∃ j ∈ liveSlots s o (virtToPage obj),
      b = slot o (virtToPage obj) j := by
    intro b live here
    obtain ⟨j, inside, eq⟩ := slab_live inv found held live here
    exact ⟨j, Finset.mem_filter.mpr ⟨Finset.mem_range.mpr inside, eq ▸ live⟩, eq⟩
  rw [small, Finset.card_le_one]
  constructor
  · intro one b live here
    obtain ⟨i, first, eqI⟩ := counted obj alive rfl
    obtain ⟨j, second, eqJ⟩ := counted b live here
    rw [eqJ, one j second i first, ← eqI]
  · intro last i first j second
    have lands : ∀ n ∈ liveSlots s o (virtToPage obj), slot o (virtToPage obj) n = obj := by
      intro n member
      obtain ⟨inside, live⟩ := Finset.mem_filter.mp member
      exact last _ live (virtToPage_of_slot sized slab.frame ⟨n, Finset.mem_range.mp inside, rfl⟩)
    exact slot_inj sized ((lands i first).trans (lands j second).symm)

def Busy (s : State) : Prop := ∀ p, HeldBy s p → (s.page p).inuse ≠ 0

theorem busy_elsewhere (busy : Busy s) (same : Elsewhere s t p)
    (here : HeldBy t p → (t.page p).inuse ≠ 0) : Busy t := by
  intro q held
  by_cases away : q = p
  · rw [away]
    exact here (away ▸ held)
  · rw [same.page q away]
    exact busy q ((elsewhere_heldBy same away).mp held)

structure Keeps (s t : State) : Prop where
  held : ∀ p, HeldBy s p → HeldBy t p
  busy : Busy t
  count : ∀ p, (s.page p).count ≤ (t.page p).count

theorem heldBy_count (inv : Inv low s fl) (held : HeldBy s p) : (s.page p).count = 1 := by
  obtain ⟨n, x, found, held⟩ := held
  exact (inv.slabs n x found p held).count

theorem alloc_keeps (inv : Inv True s fl) (busy : Busy s) {page : Option Nat} (usable : Usable page)
    (ran : objcacheAlloc s k page = .ok (t, obj)) : Keeps s (handOut t obj) := by
  cases member : s.caches[k]? with
  | none =>
    simp only [objcacheAlloc, doAlloc, member] at ran
    cases ran
    exact ⟨fun _ held => held, busy, fun _ => Nat.le_refl _⟩
  | some o =>
    have taken := doAlloc_spec inv member usable ran
    have same : Elsewhere s { t with live := insert obj t.live } (virtToPage obj) :=
      elsewhere_live taken.elsewhere
    obtain ⟨fl', newInv⟩ := taken.inv
    have shape : handOut t obj = { t with live := insert obj t.live } := if_neg taken.nonzero
    rw [shape] at newInv ⊢
    have live : obj ∈ insert obj t.live := Finset.mem_insert_self obj t.live
    obtain ⟨x, found, heldNow, -⟩ := live_slab newInv live
    refine ⟨?_, busy_elsewhere busy same fun _ => live_inuse newInv live, ?_⟩
    · intro p held
      by_cases here : p = virtToPage obj
      · exact ⟨_, x, found, here ▸ heldNow⟩
      · exact (elsewhere_heldBy same here).mpr held
    · intro p
      by_cases here : p = virtToPage obj
      · subst here
        rw [heldBy_count newInv ⟨_, x, found, heldNow⟩]
        rcases taken.source with held | free
        · exact Nat.le_of_eq (heldBy_count inv held)
        · omega
      · rw [same.page p here]

theorem heldBy_add :
    HeldBy { s with caches := s.caches ++ [doCacheInit objSz] } p ↔ HeldBy s p := by
  constructor
  · rintro ⟨n, x, found, held⟩
    rcases addCache_cases found with before | rfl
    · exact ⟨n, x, before, held⟩
    · exact absurd held (doCacheInit_holds_nothing objSz p)
  · rintro ⟨n, x, found, held⟩
    exact ⟨n, x, addCache_get found objSz, held⟩

theorem init_keeps (inv : Inv True s fl) (busy : Busy s) {page : Option Nat} (usable : Usable page)
    (ran : objcacheInit s objSz page = .ok (t, obj)) : Keeps s (handOut t obj) := by
  obtain ⟨-, ran⟩ := bugOn_ok.mp ran
  split at ran
  · cases ran
    exact ⟨fun _ held => held, busy, fun _ => Nat.le_refl _⟩
  · cases got : objcacheAlloc s 0 page with
    | error e =>
      simp only [got, error_bind] at ran
      cases ran
    | ok r =>
      obtain ⟨u, desc⟩ := r
      have keeps := alloc_keeps inv busy usable got
      simp only [got, ok_bind] at ran
      split at ran
      · rename_i null
        cases ran
        rw [null] at keeps
        exact keeps
      · rename_i some
        cases ran
        simp only [handOut, if_neg some] at keeps ⊢
        exact ⟨fun p held => heldBy_add.mpr (keeps.held p held),
          fun p held => keeps.busy p (heldBy_add.mp held), keeps.count⟩

/-- The other users of pages may count theirs down. -/
theorem step_keeps (inv : Inv True s fl) (busy : Busy s) (usable : Usable op.page)
    (none : op.frees = none) (ran : step s op = some t) : (∀ p, HeldBy s p → HeldBy t p) ∧ Busy t ∧
      ((∀ p count type, op ≠ .other p count type) → ∀ p, (s.page p).count ≤ (t.page p).count) := by
  cases op with
  | init objSz page =>
    simp only [step] at ran
    split at ran
    · rename_i u obj called
      have keeps := init_keeps inv busy usable called
      cases ran
      split
      · exact ⟨keeps.held, keeps.busy, fun _ => keeps.count⟩
      · exact ⟨keeps.held, keeps.busy, fun _ => keeps.count⟩
    · cases ran
  | alloc k page =>
    simp only [step] at ran
    split at ran
    · rename_i u obj called
      cases ran
      have keeps := alloc_keeps inv busy usable called
      exact ⟨keeps.held, keeps.busy, fun _ => keeps.count⟩
    · cases ran
  | free obj | free2 k obj => cases none
  | write obj d v | otherWrite a v =>
    simp only [step] at ran
    split at ran
    · cases ran
      exact ⟨fun _ held => held, busy, fun _ _ => Nat.le_refl _⟩
    · cases ran
  | other p count type =>
    simp only [step] at ran
    split at ran
    · rename_i foreign
      cases ran
      refine ⟨fun _ held => held, ?_, fun not => absurd rfl (not p count type)⟩
      rintro q ⟨n, x, found, held⟩
      have slab := (inv.slabs n x found q held).type
      have away : q ≠ p := fun same => foreign.1 (same ▸ slab)
      simp only [setPage, update_of_ne away]
      exact busy q ⟨n, x, found, held⟩
    · cases ran

theorem step_busy (inv : Inv True s fl) (busy : Busy s) (usable : Usable op.page)
    (ran : step s op = some t) : Busy t := by
  cases frees : op.frees with
  | none => exact (step_keeps inv busy usable frees ran).2.1
  | some obj =>
    obtain ⟨alive, u, called, rfl⟩ := step_frees (slabbed_of_inv inv) frees ran
    obtain ⟨same, ⟨-, gone, -, -⟩ | ⟨more, -, count, -⟩⟩ :=
      checkedFree_elsewhere inv alive (live_slab inv alive) called
    · exact busy_elsewhere busy (elsewhere_live same) fun held => absurd held gone
    · exact busy_elsewhere busy (elsewhere_live same) fun _ => count ▸ more

theorem run_busy {mem : Mem} {page : Nat → Page} {ops : List Op}
    (usable : ∀ op ∈ ops, Usable op.page)
    (ran : Run.exec step (memchunkInit mem page) ops = some s) : ∃ fl, Inv True s fl ∧ Busy s := by
  have start : Busy (memchunkInit mem page) := by
    rintro p ⟨n, x, found, held⟩
    have empty : x = doCacheInit sizeofObjcache ∨ x = doCacheInit sizeofMempool := by
      have member := List.mem_of_getElem? found
      simpa [memchunkInit] using member
    rcases empty with rfl | rfl
    · exact absurd held (doCacheInit_holds_nothing _ p)
    · exact absurd held (doCacheInit_holds_nothing _ p)
  have both := Run.exec_invariant (fun s => (∃ fl, Sane True s fl) ∧ Busy s)
    (fun op => Usable op.page)
    (fun _ _ _ allowed kept stepped => by
      obtain ⟨⟨fl, sane⟩, busy⟩ := kept
      exact ⟨step_sane (given_usable allowed) ⟨fl, sane⟩ stepped,
        step_busy sane.inv busy allowed stepped⟩)
    usable ⟨⟨_, sane_memchunkInit True mem page⟩, start⟩ ran
  obtain ⟨⟨fl, sane⟩, busy⟩ := both
  exact ⟨fl, sane.inv, busy⟩

/-- What a free does to the pages. -/
theorem frees_pages (inv : Inv True s fl) (frees : op.frees = some obj) (ran : step s op = some t)
    (p : Nat) :
    (FreesLast s op p → HeldBy s p ∧ ¬ HeldBy t p ∧ (t.page p).type = .free ∧
      (t.page p).count = 0) ∧
    (¬ FreesLast s op p → (HeldBy s p → HeldBy t p) ∧ (t.page p).count = (s.page p).count) := by
  obtain ⟨alive, u, called, rfl⟩ := step_frees (slabbed_of_inv inv) frees ran
  obtain ⟨o, found, held, -⟩ := live_slab inv alive
  obtain ⟨same, outcome⟩ := checkedFree_elsewhere inv alive (live_slab inv alive) called
  have mine : FreesLast s op p ↔ p = virtToPage obj ∧ LastIn s obj := by
    unfold FreesLast
    simp only [frees, Option.some.injEq, exists_eq_left', eq_comm]
  rw [mine]
  by_cases here : p = virtToPage obj
  · subst here
    rw [← last_iff inv alive]
    rcases outcome with ⟨last, gone, type, count⟩ | ⟨more, kept, -, count, -⟩
    · exact ⟨fun _ => ⟨⟨_, o, found, held⟩, gone, type, count⟩, fun not => absurd ⟨rfl, last⟩ not⟩
    · refine ⟨fun is => absurd is.2 more, fun _ => ⟨fun _ => kept, ?_⟩⟩
      exact count.trans (heldBy_count inv ⟨_, o, found, held⟩).symm
  · refine ⟨fun is => absurd is.1 here, fun _ => ⟨(elsewhere_heldBy same here).mpr, ?_⟩⟩
    exact congrArg Page.count (same.page p here)

/-- In every run of any number of caches in which no slab is the last page. -/
theorem objcache_economy (mem : Mem) (page : Nat → Page) (ops : List Op) (s : State)
    (usable : ∀ op ∈ ops, Usable op.page)
    (ran : Run.exec step (memchunkInit mem page) ops = some s) : Economy s := by
  obtain ⟨fl, inv, busy⟩ := run_busy usable ran
  constructor
  · intro k o found takes p held i inside
    obtain ⟨first, noRoom⟩ := takes_no_room found takes
    exact no_room_all_live inv found first noRoom held inside
  · intro k o found p
    constructor
    · intro held
      have slab := inv.slabs k o found p held
      have some_live : (liveSlots s o p).card ≠ 0 := by
        rw [← slab.inuse]
        exact busy p ⟨k, o, found, held⟩
      obtain ⟨i, member⟩ := Finset.card_ne_zero.mp some_live
      obtain ⟨inside, live⟩ := Finset.mem_filter.mp member
      have slotHere : Slot o p (slot o p i) := ⟨i, Finset.mem_range.mp inside, rfl⟩
      exact ⟨_, live, virtToPage_of_slot (inv.caches k o found).sized slab.frame slotHere, slab.cache⟩
    · rintro ⟨a, live, rfl, owner⟩
      obtain ⟨x, here, held, -⟩ := live_slab inv live
      rw [owner] at here
      cases here.symm.trans found
      exact held
  · intro op t allowed own stepped p
    cases frees : op.frees with
    | none =>
      have grows := (step_keeps inv busy allowed frees stepped).2.2 own p
      refine ⟨fun less => absurd less (Nat.not_lt.mpr grows), fun ⟨obj, is, _⟩ => ?_⟩
      cases frees.symm.trans is
    | some obj =>
      obtain ⟨last, more⟩ := frees_pages inv frees stepped p
      constructor
      · intro less
        by_contra not
        exact absurd (more not).2 (Nat.ne_of_lt less)
      · intro is
        obtain ⟨held, -, -, zero⟩ := last is
        have one := heldBy_count inv held
        omega
  · intro op t allowed stepped p
    cases frees : op.frees with
    | none =>
      refine ⟨fun held => ⟨heldBy_count inv held, fun _ => ?_⟩, fun ⟨obj, is, _⟩ => ?_⟩
      · exact (step_keeps inv busy allowed frees stepped).1 p held
      · cases frees.symm.trans is
    | some obj =>
      obtain ⟨last, more⟩ := frees_pages inv frees stepped p
      exact ⟨fun held => ⟨heldBy_count inv held, fun not => (more not).1 held⟩, last⟩

def pairs : List Op := [.init 2048 (some 7), .alloc 2 (some 8), .alloc 2 none, .alloc 2 (some 9)]

/-- A cache of two objects to a page: the third object takes a second page, and the free
of the third gives it back. -/
theorem objcache_economy_pairs : ∃ s t, Run.exec step boot pairs = some s ∧ Economy s ∧
    step s (.free (pageAddress 9)) = some t ∧ (s.page 9).count = 1 ∧ (t.page 9).count = 0 ∧
    (t.page 8).count = 1 := by
  have evaluated : (Run.exec step boot pairs).bind (fun s =>
      (step s (.free (pageAddress 9))).map fun t =>
        ((s.page 9).count, (t.page 9).count, (t.page 8).count)) = some (1, 0, 1) := by decide
  obtain ⟨s, ran, later⟩ := Option.bind_eq_some_iff.mp evaluated
  obtain ⟨t, stepped, counts⟩ := Option.map_eq_some_iff.mp later
  simp only [Prod.mk.injEq] at counts
  exact ⟨s, t, ran, objcache_economy _ _ pairs s (pages_of_checked (by decide)) ran, stepped, counts⟩

end ScaraOS.Slab
