import ScaraOS.Slab.Soundness

/-! The general caches of `kernel/kmalloc.c`. They are the first to be made, and a cache keeps
its object size, so what `kmalloc` returns has room for what was asked for. -/
namespace ScaraOS.Slab

def nrCache : Nat := 11

/-- `_kmalloc_init`, with the page each `objcache_init` would be given. -/
def kmallocInit (pages : Nat → Option Nat) : List Op :=
  (List.range nrCache).map fun i => .init (4 <<< i) (pages i)

def generalCache (i : Nat) : Nat := 2 + i

def kmalloc (s : State) (allocSz : Nat) (page : Option Nat) : Result (State × Nat) :=
  match (List.range nrCache).find? fun i => allocSz ≤ 4 <<< i with
  | some i => objcacheAlloc s (generalCache i) page
  | none => .ok (s, 0)

/-- Up to a page there is a cache. -/
theorem kmalloc_cache (s : State) (page : Option Nat) {allocSz : Nat} (fits : allocSz ≤ 4096) :
    ∃ i < nrCache, allocSz ≤ 4 <<< i ∧
      kmalloc s allocSz page = objcacheAlloc s (generalCache i) page := by
  unfold kmalloc
  cases found : (List.range nrCache).find? fun i => allocSz ≤ 4 <<< i with
  | none =>
    have last := List.find?_eq_none.mp found 10 (by decide)
    exact absurd (by simpa using fits) last
  | some i =>
    have room := List.find?_some found
    exact ⟨i, List.mem_range.mp (List.mem_of_find?_eq_some found), of_decide_eq_true room, rfl⟩

variable {s t : State} {k obj : Nat} {page : Option Nat}

def sizes (s : State) : List Nat := s.caches.map ObjCache.oSz

theorem sizes_setCache {o o' : ObjCache} (member : s.caches[k]? = some o)
    (size : o'.oSz = o.oSz) : sizes (setCache s k o') = sizes s := by
  unfold sizes setCache
  obtain ⟨bound, here⟩ := List.getElem?_eq_some_iff.mp member
  have inside : k < (s.caches.map ObjCache.oSz).length := by
    simpa using bound
  have same : o'.oSz = (s.caches.map ObjCache.oSz)[k] := by
    rw [List.getElem_map, here, size]
  rw [List.map_set, same, List.set_getElem_self]

theorem allocFast_sizes {o o' : ObjCache} (member : s.caches[k]? = some o) (size : o'.oSz = o.oSz)
    (ran : allocFast s k o' = .ok (t, obj)) : sizes t = sizes s := by
  simp only [allocFast] at ran
  split at ran
  · cases ran
  · cases ran
    refine Eq.trans (sizes_setCache (s := setPage s _ _) member ?_) rfl
    split
    · exact size
    · exact size

theorem memchunkGet_caches {c : Nat} (ran : memchunkGet s page = .ok (t, c)) : t.caches = s.caches := by
  cases page with
  | none => cases ran
  | some p =>
    simp only [memchunkGet, allocPages] at ran
    by_cases free : (s.page p).count = 0
    · rw [bugOn_pass (not_not.mpr free)] at ran
      simp only [ok_bind, bugOn_ok] at ran
      obtain ⟨-, -, done⟩ := ran
      cases done
      rfl
    · rw [bugOn_trip free] at ran
      cases ran

theorem doAlloc_sizes (ran : doAlloc s k page = .ok (t, obj)) : sizes t = sizes s := by
  cases member : s.caches[k]? with
  | none =>
    simp only [doAlloc, member] at ran
    cases ran
    rfl
  | some o =>
    simp only [doAlloc, member] at ran
    split at ran
    · cases ran
      refine Eq.trans (sizes_setCache (s := setPage s _ _) member ?_) rfl
      split
      · rfl
      · rfl
    · split at ran
      · exact allocFast_sizes member rfl ran
      · simp only [allocSlow] at ran
        cases got : memchunkGet s page with
        | error e =>
          rw [got] at ran
          cases ran
        | ok r =>
          obtain ⟨u, c⟩ := r
          simp only [got, ok_bind] at ran
          have caches := memchunkGet_caches got
          have same : sizes u = sizes s := congrArg (List.map ObjCache.oSz) caches
          have there : u.caches[k]? = some o := by
            rw [caches]
            exact member
          refine Eq.trans (allocFast_sizes (s := setPage u c _) there ?_ ran) same
          rfl

theorem memchunkPut_caches {c : Nat} (ran : memchunkPut s c = .ok t) :
    t.caches = s.caches := by
  simp only [memchunkPut, freePages] at ran
  split at ran
  · cases ran
    rfl
  · simp only [bugOn_ok] at ran
    obtain ⟨-, -, done⟩ := ran
    cases done
    rfl

theorem checkedFree_sizes {c : Nat} (ran : checkedFree s c obj = .ok t) :
    sizes t = sizes s := by
  cases member : s.caches[(s.page c).cache]? with
  | none =>
    simp only [checkedFree, member] at ran
    cases ran
  | some o =>
    simp only [checkedFree, member, doCacheFree, bugOn_ok] at ran
    obtain ⟨-, -, -, -, ran⟩ := ran
    cases walked : debugWalk s.mem obj (pageSize + 1) (s.page c).freeList with
    | error e =>
      rw [walked] at ran
      cases ran
    | ok r =>
      rw [walked] at ran
      simp only [ok_bind, bugOn_ok] at ran
      obtain ⟨-, ran⟩ := ran
      have moved : (if (s.page c).freeList = 0 then moveToPartials o c else o).oSz = o.oSz := by
        split
        · rfl
        · rfl
      generalize (if (s.page c).freeList = 0 then moveToPartials o c else o) = o' at ran moved
      split at ran
      · have put := congrArg (List.map ObjCache.oSz) (memchunkPut_caches ran)
        refine Eq.trans put (sizes_setCache (s := setPage { s with mem := _ } _ _) member ?_)
        split
        · exact moved
        · exact moved
      · cases ran
        exact sizes_setCache (s := setPage { s with mem := _ } _ _) member moved

theorem handOut_sizes (s : State) (obj : Nat) : sizes (handOut s obj) = sizes s := by
  unfold handOut
  split
  · rfl
  · rfl

theorem init_sizes {fl : Nat → List Nat} (sane : Sane False s fl)
    (known : 0 < s.caches.length) {objSz : Nat} (framed : Framed page)
    (least : sizeofPointer ≤ objSz) (ran : step s (.init objSz page) = some t) :
    sizes t = sizes s ++ [objSz] := by
  simp only [step] at ran
  split at ran
  · rename_i u obj called
    cases ran
    obtain ⟨small, called⟩ := bugOn_ok.mp called
    rw [if_neg (by unfold sizeofPointer at least; omega)] at called
    cases got : objcacheAlloc s 0 page with
    | error e =>
      rw [got] at called
      cases called
    | ok r =>
      obtain ⟨v, desc⟩ := r
      rw [got] at called
      have handed := served_alloc sane (List.getElem?_eq_getElem known) (given_framed framed) got
      simp only [ok_bind, if_neg handed.nonzero, if_neg (Nat.not_lt.mpr least)] at called
      cases called
      simp only [handOut, if_neg handed.nonzero, sizes, List.map_append, List.map_cons,
        List.map_nil]
      exact congrArg (· ++ [objSz]) (doAlloc_sizes got)
  · cases ran

theorem step_sizes {op : Op} (ran : step s op = some t) : sizes s <+: sizes t := by
  cases op with
  | init objSz page =>
    simp only [step] at ran
    split at ran
    · rename_i u obj called
      cases ran
      obtain ⟨-, called⟩ := bugOn_ok.mp called
      have grown : sizes s <+: sizes u := by
        split at called
        · cases called
          exact List.prefix_refl _
        · cases got : objcacheAlloc s 0 page with
          | error e =>
            rw [got] at called
            cases called
          | ok r =>
            rw [got] at called
            simp only [ok_bind] at called
            have same := doAlloc_sizes got
            split at called
            · cases called
              exact same ▸ List.prefix_refl _
            · cases called
              rw [← same]
              simp only [sizes, List.map_append]
              exact List.prefix_append _ _
      split
      · rw [handOut_sizes]
        exact grown
      · exact (handOut_sizes u obj) ▸ grown
    · cases ran
  | alloc k page =>
    simp only [step] at ran
    split at ran
    · rename_i u obj called
      cases ran
      rw [handOut_sizes, doAlloc_sizes called]
    · cases ran
  | free obj =>
    simp only [step, objcacheFree] at ran
    split at ran
    · split at ran
      · rename_i u called
        cases ran
        split at called
        · cases called
          exact List.prefix_refl _
        · simp only [bugOn_ok] at called
          exact checkedFree_sizes called.2.2 ▸ List.prefix_refl _
      · cases ran
    · cases ran
  | free2 k obj =>
    simp only [step, objcacheFree2] at ran
    split at ran
    · split at ran
      · rename_i u called
        cases ran
        split at called
        · cases called
          exact List.prefix_refl _
        · simp only [bugOn_ok] at called
          exact checkedFree_sizes called.2.2.2 ▸ List.prefix_refl _
      · cases ran
    · cases ran
  | write obj d v | other p count type | otherWrite a v =>
    simp only [step] at ran
    split at ran
    · cases ran
      exact List.prefix_refl _
    · cases ran

theorem inits_sizes {l : List Nat} {pages : Nat → Option Nat}
    (sane : ∃ fl, Sane False s fl) (known : 0 < s.caches.length)
    (framed : ∀ i ∈ l, Framed (pages i))
    (ran : Run.exec step s (l.map fun i => .init (4 <<< i) (pages i)) = some t) :
    sizes t = sizes s ++ l.map (4 <<< ·) := by
  induction l generalizing s with
  | nil =>
    cases ran
    simp
  | cons i rest ih =>
    obtain ⟨m, first, later⟩ := (Run.exec_cons step s t _ _).mp ran
    obtain ⟨fl, here⟩ := sane
    have least : sizeofPointer ≤ 4 <<< i := by
      rw [Nat.shiftLeft_eq]
      exact Nat.le_mul_of_pos_right 4 (Nat.two_pow_pos i)
    have added := init_sizes here known (framed i List.mem_cons_self) least first
    have more : 0 < m.caches.length := by
      have length := congrArg List.length added
      simp only [sizes, List.length_append, List.length_map, List.length_singleton] at length
      omega
    have allowed : Framed (Op.init (4 <<< i) (pages i)).page := framed i List.mem_cons_self
    have keeps := step_sane (given_framed allowed) ⟨fl, here⟩ first
    rw [ih keeps more
      (fun j member => framed j (List.mem_cons_of_mem i member)) later, added]
    simp

/-- The general caches have been made, and any calls were made since. -/
def Running (s : State) : Prop :=
  ∃ mem page pages ops, (∀ op ∈ kmallocInit pages ++ ops, Framed op.page) ∧
    Run.exec step (memchunkInit mem page) (kmallocInit pages ++ ops) = some s

section General

variable {i : Nat} {given : Option Nat} (running : Running s) (below : i < nrCache)
  (fit : Framed given) (called : objcacheAlloc s (generalCache i) given = .ok (t, obj))
include running below

theorem general_cache : ∃ fl o, Sane False s fl ∧ s.caches[generalCache i]? = some o ∧
    o.oSz = 4 <<< i := by
  obtain ⟨mem, page, pages, ops, framed, ran⟩ := running
  obtain ⟨fl, sane⟩ := run_sane (fun op member => given_framed (framed op member)) ran
  rw [Run.exec_append, Option.bind_eq_some_iff] at ran
  obtain ⟨m, made, later⟩ := ran
  have start : sizes m = [sizeofObjcache, sizeofMempool] ++ (List.range nrCache).map (4 <<< ·) :=
    inits_sizes ⟨_, sane_memchunkInit False mem page⟩ (Nat.succ_pos 1)
      (fun i member => framed _ (List.mem_append_left ops (List.mem_map.mpr ⟨i, member, rfl⟩))) made
  have kept : sizes m <+: sizes s :=
    Run.exec_invariant (fun s => sizes m <+: sizes s) (fun _ => True)
      (fun _ _ _ _ before stepped => before.trans (step_sizes stepped)) (fun _ _ => trivial)
      (List.prefix_refl _) later
  have first : (sizes m)[generalCache i]? = some (4 <<< i) := by
    rw [start, generalCache, List.getElem?_append_right (by simp)]
    simp [below]
  obtain ⟨more, is⟩ := kept
  have size : (sizes s)[generalCache i]? = some (4 <<< i) := by
    rw [← is, List.getElem?_append_left (List.getElem?_eq_some_iff.mp first).1]
    exact first
  rw [sizes, List.getElem?_map, Option.map_eq_some_iff] at size
  obtain ⟨o, member, sized⟩ := size
  exact ⟨fl, o, sane, member, sized⟩

include fit called

theorem general_alloc : obj ≠ 0 ∧ (t.page (virtToPage obj)).cache = generalCache i ∧
    OnSlab t obj ∧ objSize t obj = 4 <<< i ∧
    ∃ fl, Sane False { t with live := insert obj t.live } fl := by
  obtain ⟨fl, o, sane, member, sized⟩ := general_cache running below
  have served := served_alloc sane member (given_framed fit) called
  have shape : handOut t obj = { t with live := insert obj t.live } := if_neg served.nonzero
  have size : (sizes t)[generalCache i]? = some (4 <<< i) := by
    rw [doAlloc_sizes called, sizes, List.getElem?_map, member, Option.map_some, sized]
  obtain ⟨fl', newInv⟩ := served.inv
  refine ⟨served.nonzero, served.owner, served.onSlab, ?_, fl', shape ▸ newInv, shape ▸ served.top⟩
  rw [objSize, served.owner, ← List.getElem?_map]
  exact congrArg (·.getD 0) size

/-- The object goes back unless it starts where the current slab of the cache ends. -/
theorem general_free {mem : Bytes.Mem}
    (inside : ∀ y, mem y ≠ t.mem y → obj ≤ y ∧ y < obj + 4 <<< i) :
    (∃ u, objcacheFree { handOut t obj with mem := mem } obj = .ok u) ↔
      ∀ o, t.caches[generalCache i]? = some o → obj ≠ o.oPtrEnd := by
  obtain ⟨nonzero, owner, onSlab, size, fl, sane⟩ := general_alloc running below fit called
  have alive : obj ∈ insert obj t.live := Finset.mem_insert_self obj t.live
  have written : Sane False { t with mem := mem, live := insert obj t.live } fl :=
    sane_write sane alive fun y changed => size.symm ▸ inside y changed
  obtain ⟨returns, -⟩ := sane_checkedFree written alive
  rw [← objcacheFree_eq (slabbed_of_inv written.inv) alive, freeable_iff written onSlab] at returns
  rw [handOut, if_neg nonzero, returns, AtPtrEnd, owner]
  constructor
  · exact fun off o found stop => off ⟨o, found, stop⟩
  · rintro off ⟨o, found, stop⟩
    exact off o found stop

end General

theorem kmalloc_spec (running : Running s) {allocSz : Nat} {given : Option Nat} (fit : Framed given)
    (called : kmalloc s allocSz given = .ok (t, obj)) (some : obj ≠ 0) :
    virtToPage obj < nrFrames ∧ pageAddress (virtToPage obj) ≤ obj ∧
      obj + allocSz ≤ pageAddress (virtToPage obj) + pageSize := by
  unfold kmalloc at called
  split at called
  · rename_i i found
    have room : allocSz ≤ 4 <<< i := by
      simpa using List.find?_some found
    have below : i < nrCache := List.mem_range.mp (List.mem_of_find?_eq_some found)
    obtain ⟨-, -, ⟨o, member, held, slotHere⟩, size, fl, sane⟩ :=
      general_alloc running below fit called
    obtain ⟨start, finish⟩ := slot_range (sane.inv.caches _ o member).sized slotHere
    have same := objSize_eq member
    refine ⟨(sane.inv.slabs _ o member _ held).frame, start, ?_⟩
    omega
  · cases called
    exact absurd rfl some

end ScaraOS.Slab
