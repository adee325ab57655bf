import ScaraOS.Paging.Invariant

/-! Address spaces that nobody clones. Every context then has page tables of its own, so
`map_page_to_ctx` changes one page of one context. The page tables of the kernel's
slots are shared by all, and no frame of theirs is handed out again. -/
namespace ScaraOS.Paging

/-- `__init_pgd` leads, above `PAGE_OFFSET`, to the frames `kernel` and to no others. -/
def KernelTables (memory : Words) (initPgd : Nat) (kernel : Finset Nat) : Prop :=
  initPgd ∉ kernel ∧ ∀ i, userSlots ≤ i → i < 1024 → memory initPgd i &&& present ≠ 0 →
    tableOf (memory initPgd i) ∈ kernel

def bootKernel (memory : Words) (initPgd : Nat) (kernel : Finset Nat) : System :=
  { boot memory initPgd with used := insert initPgd kernel }

/-- Contexts are made by `setup_new_ctx` alone, and pages are mapped into those it made. -/
def Unshared (initPgd : Nat) : Op → Prop
  | .clone old _ => old = initPgd
  | .map pgd _ => pgd ≠ initPgd
  | .destroy _ => False
  | .other _ _ _ => True

instance (initPgd : Nat) (op : Op) : Decidable (Unshared initPgd op) := by
  cases op <;> unfold Unshared <;> infer_instance

structure Spaces (initPgd : Nat) (kernel : Finset Nat) (s : System) (slot : Nat → Nat) :
    Prop where
  wf : Wf s slot
  init : initPgd ∈ s.ctxs
  bare : ∀ i < userSlots, s.word initPgd i &&& present = 0
  apart : ∀ g ∈ s.ctxs, ∀ h ∈ s.ctxs, g ≠ h → ∀ i < userSlots,
    s.word g i &&& present ≠ 0 → s.word h i ≠ s.word g i
  held : ∀ k ∈ kernel, k ∈ s.used ∧ k ∉ s.ctxs
  below : ∀ g ∈ s.ctxs, ∀ i < userSlots, s.word g i &&& present ≠ 0 →
    tableOf (s.word g i) ∉ kernel
  above : ∀ g ∈ s.ctxs, ∀ i, userSlots ≤ i → i < 1024 → s.word g i &&& present ≠ 0 →
    tableOf (s.word g i) ∈ kernel

variable {f pgd g va : Nat} {memory m : Words} {c : MapCall}

section
variable {initPgd : Nat} {kernel : Finset Nat} {s t : System} {slot : Nat → Nat}

theorem cloneCtx_cases {old : Nat} (ran : cloneCtx s old f = some t) :
    f ∉ s.used ∧ t.word = copyFrame s.word old f ∧ t.ctxs = s.ctxs ++ [f] ∧
      t.used = insert f s.used := by
  unfold cloneCtx at ran
  split at ran
  · rename_i guard
    cases ran
    exact ⟨(of_decide_eq_true guard.2).2, rfl, rfl, rfl⟩
  · cases ran

theorem spaces_boot (tables : KernelTables memory initPgd kernel) :
    Spaces initPgd kernel (bootKernel memory initPgd kernel) id := by
  have only : ∀ g ∈ (bootKernel memory initPgd kernel).ctxs, g = initPgd :=
    fun g member => List.mem_singleton.mp member
  have empty : ∀ i < userSlots, (bootKernel memory initPgd kernel).word initPgd i = 0 :=
    fun i low => if_pos ⟨rfl, low⟩
  refine ⟨⟨?_, List.nodup_singleton initPgd, ?_⟩, List.mem_singleton.mpr rfl, ?_, ?_, ?_, ?_, ?_⟩
  · intro g member
    rw [only g member]
    exact Finset.mem_insert_self initPgd kernel
  · intro g member i low there
    rw [only g member, empty i low] at there
    exact absurd rfl there
  · intro i low
    rw [empty i low]
    rfl
  · intro g mine h other ne
    exact absurd ((only g mine).trans (only h other).symm) ne
  · intro k held
    refine ⟨Finset.mem_insert_of_mem held, fun member => ?_⟩
    exact tables.1 (only k member ▸ held)
  · intro g member i low there
    rw [only g member, empty i low] at there
    exact absurd rfl there
  · intro g member i high inside there
    have same : (bootKernel memory initPgd kernel).word g i = memory initPgd i := by
      rw [only g member]
      exact if_neg fun low => absurd low.2 (Nat.not_lt.mpr high)
    rw [same] at there ⊢
    exact tables.2 i high inside there

section

variable (inv : Spaces initPgd kernel s slot)
include inv

theorem spaces_clone (ran : cloneCtx s initPgd f = some t) : Spaces initPgd kernel t slot := by
  have wf := wf_cloneCtx inv.wf ran
  obtain ⟨free, words, ctxs, used⟩ := cloneCtx_cases ran
  have fresh : f ∉ s.ctxs := fun member => free (inv.wf.dirs f member)
  have copied : ∀ i, t.word f i = s.word initPgd i := fun i => by rw [words, copyFrame, if_pos rfl]
  have kept : ∀ g ∈ s.ctxs, ∀ i, t.word g i = s.word g i := fun g member i => by
    have away : g ≠ f := fun same => fresh (same ▸ member)
    rw [words, copyFrame, if_neg away]
  have known : ∀ g ∈ t.ctxs, g ∈ s.ctxs ∨ g = f := fun g member =>
    (List.mem_append.mp (ctxs ▸ member)).imp_right List.mem_singleton.mp
  refine ⟨wf, ctxs ▸ List.mem_append_left _ inv.init, ?_, ?_, ?_, ?_, ?_⟩
  · intro i low
    rw [kept initPgd inv.init]
    exact inv.bare i low
  · intro g mine h other ne i low there
    rcases known g mine with old | rfl
    · rw [kept g old] at there ⊢
      rcases known h other with before | rfl
      · rw [kept h before]
        exact inv.apart g old h before ne i low there
      · rw [copied]
        intro same
        rw [← same, inv.bare i low] at there
        exact there rfl
    · rw [copied, inv.bare i low] at there
      exact absurd rfl there
  · intro k held
    obtain ⟨inUse, notDir⟩ := inv.held k held
    refine ⟨used ▸ Finset.mem_insert_of_mem inUse, fun member => ?_⟩
    rcases known k member with old | rfl
    · exact notDir old
    · exact free inUse
  · intro g member i low there
    rcases known g member with old | rfl
    · rw [kept g old] at there ⊢
      exact inv.below g old i low there
    · rw [copied, inv.bare i low] at there
      exact absurd rfl there
  · intro g member i high inside there
    rcases known g member with old | rfl
    · rw [kept g old] at there ⊢
      exact inv.above g old i high inside there
    · rw [copied] at there ⊢
      exact inv.above initPgd inv.init i high inside there

theorem mapCall_kernel (ran : mapCall s pgd c = some t) {k : Nat} (held : k ∈ kernel) (i : Nat) :
    t.word k i = s.word k i := by
  obtain ⟨inUse, notDir⟩ := inv.held k held
  obtain ⟨here, low, _, _, cases⟩ := mapCall_cases ran
  rcases cases with ⟨_, _, rfl⟩ | ⟨f, _, free, _, _, words⟩ | ⟨there, _, words⟩
  · rfl
  · have away : k ≠ f := fun same => free (same ▸ inUse)
    have other : k ≠ pgd := fun same => notDir (same ▸ here)
    rw [words, setWord_ne (.inl away), setWord_ne (.inl other), clearFrame_ne away]
  · have away : k ≠ tableOf (s.word pgd (dir c.addr)) := fun same =>
      inv.below pgd here _ (dir_user low) there (same ▸ held)
    rw [words, setWord_ne (.inl away)]

theorem mapCall_entry (ran : mapCall s pgd c = some t) (member : g ∈ s.ctxs) (i : Nat) :
    t.word g i = s.word g i ∨ (g = pgd ∧ i = dir c.addr ∧
      ∃ f < nrFrames, f ∉ s.used ∧ t.word g i = pdeWord f) := by
  obtain ⟨here, _, _, _, cases⟩ := mapCall_cases ran
  by_cases mine : g = pgd ∧ i = dir c.addr
  · obtain ⟨rfl, rfl⟩ := mine
    rcases cases with ⟨_, _, rfl⟩ | ⟨f, inside, free, _, _, words⟩ | ⟨there, _, _⟩
    · exact .inl rfl
    · have away : g ≠ f := fun same => free (same ▸ inv.wf.dirs g here)
      refine .inr ⟨rfl, rfl, f, inside, free, ?_⟩
      rw [words, setWord_ne (.inl away), setWord_self]
    · exact .inl (mapCall_dirs inv.wf ran member (.inr (.inr there)))
  · have other : g ≠ pgd ∨ i ≠ dir c.addr := by tauto
    exact .inl (mapCall_dirs inv.wf ran member (other.imp_right .inl))

theorem spaces_mapCall (made : pgd ≠ initPgd) (ran : mapCall s pgd c = some t) :
    ∃ slot', Spaces initPgd kernel t slot' := by
  obtain ⟨slot', wf⟩ := wf_mapCall inv.wf ran
  obtain ⟨_, low, _, ctxs, cases⟩ := mapCall_cases ran
  have grows : ∀ k ∈ s.used, k ∈ t.used := by
    intro k inUse
    rcases cases with ⟨_, _, rfl⟩ | ⟨f, _, _, _, used, _⟩ | ⟨_, used, _⟩
    · exact inUse
    · rw [used]
      exact Finset.mem_insert_of_mem inUse
    · rw [used]
      exact inUse
  -- A new table is in no slot that was filled before.
  have new : ∀ {f h i : Nat}, f < nrFrames → f ∉ s.used → h ∈ s.ctxs → i < userSlots →
      s.word h i ≠ pdeWord f := by
    intro f h i inside free other user same
    have there : s.word h i &&& present ≠ 0 := same ▸ pdeWord_present f
    obtain ⟨x, bound, table, inUse, _⟩ := inv.wf.tables h other i user there
    have is : x = f := by
      rw [← tableOf_pdeWord bound, ← table, same, tableOf_pdeWord inside]
    exact free (is ▸ inUse)
  refine ⟨slot', wf, ctxs ▸ inv.init, ?_, ?_, ?_, ?_, ?_⟩
  · intro i user
    rw [mapCall_dirs inv.wf ran inv.init (.inl made.symm)]
    exact inv.bare i user
  · rw [ctxs]
    intro g mine h other ne i user there
    rcases mapCall_entry inv ran mine i with same | ⟨rfl, rfl, f, inside, free, entry⟩
    · rw [same] at there ⊢
      rcases mapCall_entry inv ran other i with kept | ⟨rfl, rfl, f, inside, free, entry⟩
      · rw [kept]
        exact inv.apart g mine h other ne i user there
      · rw [entry]
        exact (new inside free mine user).symm
    · rw [entry, mapCall_dirs inv.wf ran other (.inl ne.symm)]
      exact new inside free other user
  · intro k held
    obtain ⟨inUse, notDir⟩ := inv.held k held
    exact ⟨grows k inUse, ctxs ▸ notDir⟩
  · rw [ctxs]
    intro g member i user there
    rcases mapCall_entry inv ran member i with same | ⟨_, _, f, inside, free, entry⟩
    · rw [same] at there ⊢
      exact inv.below g member i user there
    · rw [entry, tableOf_pdeWord inside]
      exact fun held => free (inv.held f held).1
  · rw [ctxs]
    intro g member i high inside there
    have apart : i ≠ dir c.addr := Nat.ne_of_gt (Nat.lt_of_lt_of_le (dir_user low) high)
    rw [mapCall_dirs inv.wf ran member (.inr (.inl apart))] at there ⊢
    exact inv.above g member i high inside there

theorem spaces_outside (same : ∀ g ∈ s.used, m g = s.word g) :
    Spaces initPgd kernel { s with word := m } slot := by
  have dirs : ∀ g ∈ s.ctxs, m g = s.word g := fun g member => same g (inv.wf.dirs g member)
  refine ⟨wf_outside inv.wf same, inv.init, ?_, ?_, inv.held, ?_, ?_⟩
  · dsimp only
    rw [dirs initPgd inv.init]
    exact inv.bare
  · intro g mine h other
    dsimp only
    rw [dirs g mine, dirs h other]
    exact inv.apart g mine h other
  · intro g member
    dsimp only
    rw [dirs g member]
    exact inv.below g member
  · intro g member
    dsimp only
    rw [dirs g member]
    exact inv.above g member

end

theorem step_spaces {op : Op} (plain : Unshared initPgd op)
    (inv : ∃ slot, Spaces initPgd kernel s slot) (ran : step s op = some t) :
    ∃ slot, Spaces initPgd kernel t slot := by
  obtain ⟨slot, inv⟩ := inv
  cases op with
  | clone old f =>
    cases plain
    exact ⟨slot, spaces_clone inv ran⟩
  | map pgd c => exact spaces_mapCall inv plain ran
  | destroy pgd => exact False.elim plain
  | other f i v =>
    simp only [step] at ran
    split at ran
    · cases ran
    · rename_i free
      cases ran
      have same : ∀ g ∈ s.used, setWord s.word f i v g = s.word g := fun g inUse =>
        funext fun j => setWord_ne (.inl fun is => free (is ▸ inUse))
      exact ⟨slot, spaces_outside inv same⟩

theorem run_spaces (tables : KernelTables memory initPgd kernel) {ops : List Op}
    (plain : ∀ op ∈ ops, Unshared initPgd op)
    (ran : Run.exec step (bootKernel memory initPgd kernel) ops = some s) :
    ∃ slot, Spaces initPgd kernel s slot :=
  Run.exec_invariant (fun s => ∃ slot, Spaces initPgd kernel s slot) (Unshared initPgd)
    (fun _ _ _ allowed inv stepped => step_spaces allowed inv stepped) plain
    ⟨id, spaces_boot tables⟩ ran

theorem dir_kernel (high : pageOffset ≤ va) (word : va < 2 ^ 32) :
    userSlots ≤ dir va ∧ dir va < 1024 := by
  rw [dir_eq]
  unfold pageOffset at high
  unfold userSlots
  omega

theorem translate_mapCall_kernel (inv : Spaces initPgd kernel s slot)
    (ran : mapCall s pgd c = some t) (member : g ∈ s.ctxs) (high : pageOffset ≤ va)
    (word : va < 2 ^ 32) : translate t.word g va = translate s.word g va := by
  obtain ⟨kernelSlot, inside⟩ := dir_kernel high word
  have low : dir c.addr < userSlots := dir_user (mapCall_cases ran).2.1
  have dirs : t.word g (dir va) = s.word g (dir va) :=
    mapCall_dirs inv.wf ran member (.inr (.inl (Nat.ne_of_gt (Nat.lt_of_lt_of_le low kernelSlot))))
  by_cases absent : s.word g (dir va) &&& present = 0
  · rw [translate_absent absent, translate_absent (dirs ▸ absent)]
  · have held := inv.above g member _ kernelSlot inside absent
    unfold translate
    rw [dirs]
    dsimp only
    rw [mapCall_kernel inv ran held]

theorem mapCall_fails (ran : mapCall s pgd c = some t)
    (absent : s.word pgd (dir c.addr) &&& present = 0) (empty : c.alloc = none) : t = s := by
  have low := (mapCall_cases ran).2.1
  unfold mapCall mapPageToCtx usedAfter at ran
  rw [if_neg (Nat.not_le.mpr low), if_pos absent, if_pos absent, empty] at ran
  split at ran
  · exact (Option.some.inj ran).symm
  · cases ran

theorem translate_mapCall_other (inv : Spaces initPgd kernel s slot)
    (ran : mapCall s pgd c = some t) (member : g ∈ s.ctxs) (word : va < 2 ^ 32)
    (other : g ≠ pgd ∨ ¬ SamePage va c.addr) : translate t.word g va = translate s.word g va := by
  by_cases high : pageOffset ≤ va
  · exact translate_mapCall_kernel inv ran member high word
  have low : va < pageOffset := Nat.lt_of_not_ge high
  obtain ⟨here, callLow, _⟩ := mapCall_cases ran
  by_cases absent : s.word pgd (dir c.addr) &&& present = 0
  · by_cases own : g = pgd
    · obtain rfl := own
      have page : ¬ SamePage va c.addr := other.resolve_left fun ne => ne rfl
      by_cases empty : c.alloc = none
      · rw [mapCall_fails ran absent empty]
      · rw [translate_mapCall_own inv.wf ran (fun none => absurd none empty) low, if_neg page]
    · exact translate_mapCall_absent inv.wf ran member low absent (.inl own)
  · rw [translate_mapCall inv.wf ran member low absent, if_neg]
    rintro ⟨page, same⟩
    rcases other with ne | apart
    · exact inv.apart pgd here g member (Ne.symm ne) _ (dir_user callLow) absent same
    · exact apart page

theorem mapCall_of_map {page addr prot : Nat} {alloc : Option Nat} {r : Int} (member : pgd ∈ s.ctxs)
    (frame : page < nrFrames) (fresh : ∀ f, alloc = some f → available s f)
    (called : mapPageToCtx s.word pgd page addr prot alloc = some (m, r)) :
    ∃ t, mapCall s pgd ⟨page, addr, prot, alloc⟩ = some t ∧ t.word = m := by
  have guard : alloc.all (available s) = true := by
    cases alloc with
    | none => rfl
    | some f => exact fresh f rfl
  refine ⟨{ s with word := m, used := usedAfter s pgd ⟨page, addr, prot, alloc⟩ }, ?_, rfl⟩
  unfold mapCall
  rw [if_pos ⟨member, guard, frame⟩, called, Option.map_some]

theorem mapPageToCtx_returns {m : Words} {pgd page addr prot : Nat} {alloc : Option Nat}
    (low : addr < pageOffset) : ∃ m' r, mapPageToCtx m pgd page addr prot alloc = some (m', r) ∧
      ((r = 0 ∧ (alloc = none → m pgd (dir addr) &&& present ≠ 0)) ∨ (r = -1 ∧ m' = m)) := by
  unfold mapPageToCtx
  rw [if_neg (Nat.not_le.mpr low)]
  by_cases absent : m pgd (dir addr) &&& present = 0
  · rw [if_pos absent]
    cases alloc with
    | none => exact ⟨m, -1, rfl, .inr ⟨rfl, rfl⟩⟩
    | some f => exact ⟨_, 0, rfl, .inl ⟨rfl, fun none => absurd none (Option.some_ne_none f)⟩⟩
  · rw [if_neg absent]
    exact ⟨_, 0, rfl, .inl ⟨rfl, fun _ => absent⟩⟩

end

/-- Contexts from `setup_new_ctx`, pages mapped in any order: a call that succeeds maps
its page and leaves every other page of every context as it was, the kernel's included;
a call that fails changes nothing. -/
theorem map_page_frame (memory : Words) (initPgd : Nat) (kernel : Finset Nat)
    (tables : KernelTables memory initPgd kernel) (ops : List Op) (s : System)
    (plain : ∀ op ∈ ops, Unshared initPgd op)
    (ran : Run.exec step (bootKernel memory initPgd kernel) ops = some s)
    (pgd page addr prot : Nat) (alloc : Option Nat) (member : pgd ∈ s.ctxs)
    (low : addr < pageOffset) (frame : page < nrFrames)
    (fresh : ∀ f, alloc = some f → available s f) :
    ∃ m r, mapPageToCtx s.word pgd page addr prot alloc = some (m, r) ∧ (r = 0 ∨ r = -1) ∧
      (r = 0 → translate m pgd addr = some ⟨page, prot &&& protWrite ≠ 0, true⟩ ∧
        ∀ g ∈ s.ctxs, ∀ va < 2 ^ 32, (g ≠ pgd ∨ va / 4096 ≠ addr / 4096) →
          translate m g va = translate s.word g va) ∧
      (r = -1 → ∀ g ∈ s.ctxs, ∀ va < 2 ^ 32, translate m g va = translate s.word g va) := by
  obtain ⟨slot, inv⟩ := run_spaces tables plain ran
  obtain ⟨m, r, called, outcome⟩ := @mapPageToCtx_returns s.word pgd page addr prot alloc low
  obtain ⟨t, stepped, rfl⟩ := mapCall_of_map member frame fresh called
  refine ⟨t.word, r, called, ?_⟩
  have word : addr < 2 ^ 32 := Nat.lt_trans low (by decide)
  rcases outcome with ⟨rfl, given⟩ | ⟨rfl, same⟩
  · refine ⟨.inl rfl, fun _ => ⟨?_, ?_⟩, fun wrong => absurd wrong (by decide)⟩
    · rw [translate_mapCall_own inv.wf stepped given low, if_pos ⟨rfl, rfl⟩]
    · intro g known va inside other
      refine translate_mapCall_other inv stepped known inside (other.imp_right fun ne page => ?_)
      exact ne ((samePage_words inside word).mp page)
  · refine ⟨.inr rfl, fun wrong => absurd wrong (by decide), fun _ g _ va _ => ?_⟩
    rw [same]

def kernelMemory : Words := fun f i =>
  if f = 1 ∧ i = userSlots then pdeWord 2 else if f = 2 then pteWord i protWrite else 0

theorem kernelMemory_tables : KernelTables kernelMemory 1 {2} := by
  refine ⟨by decide, fun i _ _ there => ?_⟩
  by_cases first : i = userSlots
  · obtain rfl := first
    decide
  · have empty : kernelMemory 1 i = 0 := by
      unfold kernelMemory
      rw [if_neg fun both => first both.2, if_neg (by decide)]
    rw [empty] at there
    exact absurd rfl there

def twoContexts : Option System :=
  Run.exec step (bootKernel kernelMemory 1 {2})
    [.clone 1 5, .clone 1 6, .map 5 ⟨9, 0x8000, protRead, some 7⟩]

theorem map_page_frame_second : ∃ s m, twoContexts = some s ∧
    mapPageToCtx s.word 6 4 0x8000 protWrite (some 8) = some (m, 0) ∧
    translate m 6 0x8000 = some ⟨4, true, true⟩ ∧
    translate m 5 0x8000 = translate s.word 5 0x8000 ∧
    translate m 6 0xc0001000 = translate s.word 6 0xc0001000 := by
  have ends : (twoContexts.map fun s => (s.ctxs, s.used, s.word 6 (dir 0x8000))) =
      some ([1, 5, 6], {7, 6, 5, 1, 2}, 0) := by decide +kernel
  obtain ⟨s, ran, facts⟩ := Option.map_eq_some_iff.mp ends
  obtain ⟨ctxs, rest⟩ := Prod.mk.inj facts
  obtain ⟨used, slot⟩ := Prod.mk.inj rest
  have plain : ∀ op ∈ [Op.clone 1 5, .clone 1 6, .map 5 ⟨9, 0x8000, protRead, some 7⟩],
      Unshared 1 op := by decide
  have fresh : ∀ f, some 8 = some f → available s f := by
    rintro f ⟨⟩
    unfold available
    rw [used]
    decide
  obtain ⟨m, r, called, _, done, _⟩ := map_page_frame kernelMemory 1 {2} kernelMemory_tables _ s
    plain ran 6 4 0x8000 protWrite (some 8) (by rw [ctxs]; decide) (by decide) (by decide)
    fresh
  have zero : r = 0 := by
    unfold mapPageToCtx at called
    rw [if_neg (by decide), slot] at called
    exact (Prod.mk.inj (Option.some.inj called)).2.symm
  obtain rfl := zero
  obtain ⟨there, others⟩ := done rfl
  refine ⟨s, m, ran, called, there, ?_, ?_⟩
  · exact others 5 (by rw [ctxs]; decide) 0x8000 (by decide) (.inl (by decide))
  · exact others 6 (by rw [ctxs]; decide) 0xc0001000 (by decide) (.inr (by decide))

end ScaraOS.Paging
