import ScaraOS.Exec.Memory
import ScaraOS.Pages.Coherence

/-! What a page fault that fails leaves behind: `mm_pagefault` with the page allocator, the
page caches and the page tables it works on. -/
namespace ScaraOS.Pages

open Function RbTree Paging Mm

structure Kernel where
  pages : State
  word : Words

def frameOf (m : Machine) (f : Nat) : Nat := (m.pageAddress f - pageOffset) / 4096

/-- A page fault; `ret` is what `pread` returns, should it be called, and `fill` what it
leaves in the page. -/
structure Fault where
  va : Nat
  prot : Nat
  ret : Int
  fill : Nat → Nat

def fillFrame (w : Words) (f : Nat) (fill : Nat → Nat) : Words :=
  fun g j => if g = f then fill j else w g j

/-- `readpage` with `readDone`, and the page it returns. -/
def pagecacheFileReadpage (m : Machine) (k : Kernel) (ino off : Nat) (ret : Int) (fill : Nat → Nat) :
    Option (Kernel × Option Nat) :=
  (readpage m k.pages ino off).bind fun s =>
    match s.reading ino with
    | some r =>
      (readDone m s ino ret).map fun s =>
        (⟨s, fillFrame k.word (frameOf m r.page) fill⟩, if ret ≤ 0 then none else some r.page)
    | none =>
      match search m k.pages ino off with
      | some (.node a) => some (⟨s, k.word⟩, some a)
      | _ => some (⟨s, k.word⟩, none)

def anonPage (m : Machine) (k : Kernel) : Option (Kernel × Option Nat) :=
  (allocPage m k.pages).map fun r =>
    match r.2 with
    | none => (⟨r.1, k.word⟩, none)
    | some f => (⟨r.1, clearFrame k.word (frameOf m f)⟩, some f)

def fetch (m : Machine) (k : Kernel) (v : Vma) (a : Fault) : Option (Kernel × Option Nat) :=
  match pageSource v a.va with
  | some key => pagecacheFileReadpage m k key.1 key.2 a.ret a.fill
  | none => anonPage m k

/-- `map_page_to_ctx`, which takes a page for a table that is not there. -/
def mapPage (m : Machine) (k : Kernel) (pgd page addr prot : Nat) : Option (Kernel × Int) :=
  if addr < pageOffset ∧ k.word pgd (dir addr) &&& present = 0 then
    (allocPage m k.pages).bind fun r =>
      (mapPageToCtx k.word pgd (frameOf m page) addr prot (r.2.map (frameOf m))).map fun t =>
        (⟨r.1, t.1⟩, t.2)
  else
    (mapPageToCtx k.word pgd (frameOf m page) addr prot none).map fun t => (⟨k.pages, t.1⟩, t.2)

def mmPagefault (m : Machine) (fuel : Nat) (ctx : MemCtx) (k : Kernel) (a : Fault) :
    Option (Kernel × Int) :=
  (lookupVma ctx.vma a.va fuel ctx.root).bind fun n =>
    if n = 0 then some (k, -1)
    else if (ctx.vma n).vmaProt &&& a.prot = 0 then some (k, -1)
    else
      (fetch m k (ctx.vma n) a).bind fun r =>
        match r.2 with
        | none => some (r.1, -1)
        | some page => mapPage m r.1 ctx.pgd page (pgVal a.va) a.prot

/-- Nothing is lost: a page that was free is, or it is in a page cache. -/
structure Clean (m : Machine) (ctx : MemCtx) (k k' : Kernel) : Prop where
  translations : ∀ va, Paging.translate k'.word ctx.pgd va = Paging.translate k.word ctx.pgd va
  free : ∀ f, OnFreeList m k'.pages f ↔
    OnFreeList m k.pages f ∧ ∀ ino, ¬ InTree k'.pages ino f
  counts : ∀ ino f, InTree k.pages ino f → k'.pages.count f = k.pages.count f

def Apart (w : Words) (pgd f : Nat) : Prop :=
  f ≠ pgd ∧ ∀ i, w pgd i &&& present ≠ 0 → f ≠ tableOf (w pgd i)

structure Sane (m : Machine) (ctx : MemCtx) (shape : Shape) (k : Kernel) (free : List Nat)
    (tree : Nat → Shape) : Prop where
  areas : Rep (fun n => (ctx.vma n).rbt) ctx.root 0 shape
  inv : Inv m (managed m) k.pages free tree
  sorted : ∀ ino, Sorted (pcOff k.pages.u) (tree ino).inorder
  typed : ∀ f ino, k.pages.owner f = .cached ino → k.pages.type f = .pagecache
  apart : ∀ f ∈ free, Apart k.word ctx.pgd (frameOf m f)

/-- A page for the address is there or can be had, and then there is none for the table. -/
def Starved (ctx : MemCtx) (shape : Shape) (k : Kernel) (a : Fault) : Prop :=
  ∃ n, covering ctx.vma a.va shape = some n ∧ (ctx.vma n).vmaProt &&& a.prot ≠ 0 ∧
    pgVal a.va < pageOffset ∧ k.word ctx.pgd (dir (pgVal a.va)) &&& present = 0 ∧
    match pageSource (ctx.vma n) a.va with
    | none => k.pages.nrFreepages = 1
    | some key => key.2 % 4096 = 0 ∧ k.pages.reading key.1 = none ∧ k.pages.nrFreepages = 0 ∧
        ∃ f, InTree k.pages key.1 f ∧ pcOff k.pages.u f = key.2

variable {w w' : Words} {pgd f addr prot ino n : Nat} {k' k₁ : Kernel}

theorem translate_congr (directory : ∀ i, w' pgd i = w pgd i)
    (tables : ∀ i, w pgd i &&& present ≠ 0 → ∀ j, w' (tableOf (w pgd i)) j = w (tableOf (w pgd i)) j)
    (va : Nat) : Paging.translate w' pgd va = Paging.translate w pgd va := by
  simp only [Paging.translate, directory]
  by_cases there : w pgd (dir va) &&& present = 0
  · rw [if_pos there, if_pos there]
  · rw [if_neg there, if_neg there, tables (dir va) there]

theorem fillFrame_apart (apart : Apart w pgd f) (fill : Nat → Nat) :
    (∀ i, fillFrame w f fill pgd i = w pgd i) ∧
      ∀ va, Paging.translate (fillFrame w f fill) pgd va = Paging.translate w pgd va := by
  have directory : ∀ i, fillFrame w f fill pgd i = w pgd i := fun i => if_neg (Ne.symm apart.1)
  refine ⟨directory, translate_congr directory ?_⟩
  intro i there j
  exact if_neg (Ne.symm (apart.2 i there))

theorem clearFrame_fill (w : Words) (f : Nat) : clearFrame w f = fillFrame w f fun _ => 0 := rfl

section Parts

variable {m : Machine} {ctx : MemCtx} {shape : Shape} {k : Kernel} {free : List Nat}
  {tree : Nat → Shape}

theorem allocPage_none {s s' : State} : allocPage m s = some (s', none) ↔
    s' = s ∧ (links s.u).listEmpty m.freeList = true := by
  constructor
  · intro failed
    unfold allocPage at failed
    split at failed
    · rename_i empty
      exact ⟨(Prod.mk.inj (Option.some.inj failed)).1.symm, empty⟩
    · dsimp only at failed
      split at failed
      · cases failed
      · exact absurd (Prod.mk.inj (Option.some.inj failed)).2 (Option.some_ne_none _)
  · rintro ⟨rfl, empty⟩
    unfold allocPage
    rw [if_pos empty]

theorem mapPageToCtx_failed {page : Nat} {alloc : Option Nat} :
    mapPageToCtx w pgd page addr prot alloc = some (w', -1) ↔ addr < pageOffset ∧
      w pgd (dir addr) &&& present = 0 ∧ alloc = none ∧ w' = w := by
  unfold mapPageToCtx
  by_cases high : addr ≥ pageOffset
  · rw [if_pos high]
    exact iff_of_false (by simp) fun right => by omega
  · rw [if_neg high]
    by_cases missing : w pgd (dir addr) &&& present = 0
    · rw [if_pos missing]
      cases alloc with
      | none => simp [missing, Nat.lt_of_not_le high, eq_comm]
      | some f => simp
    · rw [if_neg missing]
      simp [missing]

theorem mapPage_failed {page : Nat} :
    mapPage m k pgd page addr prot = some (k', -1) ↔ k' = k ∧ addr < pageOffset ∧
      k.word pgd (dir addr) &&& present = 0 ∧ (links k.pages.u).listEmpty m.freeList = true := by
  unfold mapPage
  by_cases missing : addr < pageOffset ∧ k.word pgd (dir addr) &&& present = 0
  · rw [if_pos missing]
    constructor
    · intro failed
      obtain ⟨⟨s, got⟩, allocated, mapped⟩ := Option.bind_eq_some_iff.mp failed
      obtain ⟨⟨w, ret⟩, ran, eq⟩ := Option.map_eq_some_iff.mp mapped
      obtain ⟨rfl, rfl⟩ := Prod.mk.inj eq
      obtain ⟨low, -, nothing, rfl⟩ := mapPageToCtx_failed.mp ran
      have failed : got = none := Option.map_eq_none_iff.mp nothing
      rw [failed] at allocated
      obtain ⟨rfl, empty⟩ := allocPage_none.mp allocated
      exact ⟨rfl, low, missing.2, empty⟩
    · rintro ⟨rfl, low, -, empty⟩
      refine Option.bind_eq_some_iff.mpr ⟨(k'.pages, none), allocPage_none.mpr ⟨rfl, empty⟩, ?_⟩
      exact Option.map_eq_some_iff.mpr
        ⟨(k'.word, -1), mapPageToCtx_failed.mpr ⟨low, missing.2, rfl, rfl⟩, rfl⟩
  · rw [if_neg missing]
    constructor
    · intro failed
      obtain ⟨⟨w, ret⟩, ran, eq⟩ := Option.map_eq_some_iff.mp failed
      obtain ⟨rfl, rfl⟩ := Prod.mk.inj eq
      obtain ⟨low, absent, -⟩ := mapPageToCtx_failed.mp ran
      exact absurd ⟨low, absent⟩ missing
    · rintro ⟨-, low, absent, -⟩
      exact absurd ⟨low, absent⟩ missing

theorem clean_refl (inv : Inv m (managed m) k.pages free tree) : Clean m ctx k k where
  translations := fun _ => rfl
  free := by
    intro f
    refine (and_iff_left_of_imp fun listed ino inTree => ?_).symm
    rw [inv.onFreeList_iff] at listed
    rw [inv.inTree_iff, listed] at inTree
    cases inTree
  counts := fun _ _ _ => rfl

theorem clean_of_frame (inv : Inv m (managed m) k.pages free tree) {free' : List Nat}
    {tree' : Nat → Shape} (inv' : Inv m (managed m) k'.pages free' tree')
    (was : k.pages.owner f = .free)
    (now : k'.pages.owner f = .free ∨ ∃ ino, k'.pages.owner f = .cached ino)
    (owners : ∀ g, g ≠ f → k'.pages.owner g = k.pages.owner g)
    (counts : ∀ g, g ≠ f → k'.pages.count g = k.pages.count g)
    (translations : ∀ va, Paging.translate k'.word ctx.pgd va = Paging.translate k.word ctx.pgd va) :
    Clean m ctx k k' where
  translations := translations
  free := by
    intro g
    simp only [inv'.onFreeList_iff, inv.onFreeList_iff, inv'.inTree_iff]
    by_cases same : g = f
    · subst same
      rcases now with free | ⟨ino, cached⟩
      · simp [free, was]
      · simp [cached, was]
    · rw [owners g same]
      refine (and_iff_left_of_imp fun free ino cached => ?_).symm
      rw [free] at cached
      cases cached
  counts := by
    intro ino g inTree
    refine counts g ?_
    rintro rfl
    rw [inv.inTree_iff, was] at inTree
    cases inTree

section

variable (sane : Sane m ctx shape k free tree)
include sane

theorem pagecache_cases {off : Nat} {ret : Int} {fill : Nat → Nat} {page : Option Nat}
    (ran : pagecacheFileReadpage m k ino off ret fill = some (k₁, page)) :
    off % 4096 = 0 ∧ k.pages.reading ino = none ∧
      ((∃ a, k.pages.owner a = .cached ino ∧ pcOff k.pages.u a = off ∧ page = some a ∧
        k₁ = ⟨{ k.pages with
          count := update k.pages.count a ((k.pages.count a + 1) % 2 ^ 32) }, k.word⟩) ∨
      Clean m ctx k k₁ ∧ ∀ i, k₁.word ctx.pgd i = k.word ctx.pgd i) := by
  obtain ⟨s, first, rest⟩ := Option.bind_eq_some_iff.mp ran
  obtain ⟨aligned, idle, ⟨a, owner, here, found, rfl⟩ | ⟨p, place, -, found, rfl | began⟩⟩ :=
    readpage_cases sane.inv first
  · refine ⟨aligned, idle, .inl ⟨a, owner, here, ?_⟩⟩
    rw [found] at rest
    simp only [idle] at rest
    cases rest
    exact ⟨rfl, rfl⟩
  · refine ⟨aligned, idle, .inr ?_⟩
    rw [found] at rest
    simp only [idle] at rest
    cases rest
    exact ⟨clean_refl sane.inv, fun _ => rfl⟩
  · refine ⟨aligned, idle, .inr ?_⟩
    obtain ⟨f, left, head, inv₁, rfl⟩ := began
    have listed : f ∈ free := head ▸ List.mem_cons_self
    have was := (sane.inv.onList f).mp listed
    have waits : (started k.pages ino ⟨f, off, p.slot⟩).reading ino = some ⟨f, off, p.slot⟩ :=
      update_self _ _ _
    rw [waits] at rest
    obtain ⟨s, ended, eq⟩ := Option.map_eq_some_iff.mp rest
    obtain ⟨rfl, -⟩ := Prod.mk.inj eq
    obtain ⟨directory, translations⟩ := fillFrame_apart (sane.apart f listed) fill
    refine ⟨?_, directory⟩
    have others : ∀ {α : Type} (h : Nat → α) (x y z : α) (g : Nat), g ≠ f →
        update (update (update h f x) f y) f z g = h g := by
      intro α h x y z g apart
      rw [update_of_ne apart, update_of_ne apart, update_of_ne apart]
    rcases readDone_cases (started_inv inv₁ place) waits place rfl ended with
      ⟨-, rfl, inv'⟩ | ⟨-, tr, after, -, -, rfl, inv'⟩
    · refine clean_of_frame sane.inv inv' was (.inl (update_self _ _ _)) ?_ ?_ translations
      · exact others k.pages.owner _ _ _
      · intro g apart
        exact (update_of_ne apart _ _).trans (update_of_ne apart _ _)
    · refine clean_of_frame sane.inv inv' was (.inr ⟨ino, update_self _ _ _⟩) ?_ ?_
        translations
      · exact others k.pages.owner _ _ _
      · exact fun g apart => update_of_ne apart _ _

theorem anonPage_cases :
    (free = [] ∧ anonPage m k = some (k, none)) ∨
      ∃ f rest, free = f :: rest ∧ Inv m (managed m) (taken k.pages f) rest tree ∧
        anonPage m k = some (⟨taken k.pages f, clearFrame k.word (frameOf m f)⟩, some f) := by
  rcases allocPage_inv sane.inv with ⟨rfl, none⟩ | ⟨f, rest, rfl, took, inv⟩
  · exact .inl ⟨rfl, by rw [anonPage, none]; rfl⟩
  · exact .inr ⟨f, rest, rfl, inv, by rw [anonPage, took]; rfl⟩

theorem search_cached (cached : InTree k.pages ino f) :
    search m k.pages ino (pcOff k.pages.u f) = some (.node f) := by
  have member := (sane.inv.inTree ino f).mpr (sane.inv.inTree_iff.mp cached)
  rcases search_total sane.inv ino (pcOff k.pages.u f) with
    ⟨a, owner, here, found⟩ | ⟨p, place, turns, -⟩
  · have inTree := (sane.inv.inTree ino a).mpr owner
    rw [found, sorted_inj (sane.sorted ino) inTree member here]
  · have between := Path.between_of_turns place (sane.sorted ino) turns
    exact absurd rfl (Path.between_absent place between f member)

theorem pagecache_hit (ret : Int) (fill : Nat → Nat) (cached : InTree k.pages ino f)
    (aligned : pcOff k.pages.u f % 4096 = 0) (idle : k.pages.reading ino = none) :
    pagecacheFileReadpage m k ino (pcOff k.pages.u f) ret fill =
      some (⟨{ k.pages with
        count := update k.pages.count f ((k.pages.count f + 1) % 2 ^ 32) }, k.word⟩,
        some f) := by
  have type := sane.typed f ino (sane.inv.inTree_iff.mp cached)
  have found := search_cached sane cached
  have first : readpage m k.pages ino (pcOff k.pages.u f) = some { k.pages with
      count := update k.pages.count f ((k.pages.count f + 1) % 2 ^ 32) } := by
    simp only [readpage, aligned, idle, found, type, ne_eq, not_true_eq_false, if_false,
      Option.isSome_none, Bool.false_eq_true, Option.bind_eq_bind, Option.bind_some]
  unfold pagecacheFileReadpage
  rw [first, Option.bind_some]
  simp only [idle, found]

theorem mmPagefault_area {fuel : Nat} (enough : shape.height < fuel) (a : Fault)
    (area : covering ctx.vma a.va shape = some n) (allowed : (ctx.vma n).vmaProt &&& a.prot ≠ 0) :
    mmPagefault m fuel ctx k a = (fetch m k (ctx.vma n) a).bind fun r =>
      match r.2 with
      | none => some (r.1, -1)
      | some page => mapPage m r.1 ctx.pgd page (pgVal a.va) a.prot := by
  obtain ⟨found, nonzero⟩ := lookupVma_covering a.va sane.areas enough
  rw [area] at found nonzero
  unfold mmPagefault
  rw [found, Option.getD_some, Option.bind_some, if_neg fun zero => nonzero (congrArg some zero),
    if_neg allowed]

theorem anon_starved (addr prot : Nat) (one : k.pages.nrFreepages = 1) (low : addr < pageOffset)
    (missing : k.word ctx.pgd (dir addr) &&& present = 0) :
    ∃ f k', anonPage m k = some (k', some f) ∧
      mapPage m k' ctx.pgd f addr prot = some (k', -1) ∧ ¬ Clean m ctx k k' := by
  rcases anonPage_cases sane with ⟨rfl, -⟩ | ⟨f, rest, rfl, inv, ran⟩
  · have zero := sane.inv.number
    rw [one] at zero
    cases zero
  · have left : rest = [] := by
      have number := sane.inv.number
      rw [one, List.length_cons] at number
      exact List.length_eq_zero_iff.mp (by omega)
    subst left
    obtain ⟨directory, -⟩ := fillFrame_apart (sane.apart f List.mem_cons_self) fun _ => 0
    refine ⟨f, _, ran, mapPage_failed.mpr ⟨rfl, low, ?_, (Links.ring_empty_iff inv.ring).mpr rfl⟩, ?_⟩
    · rw [clearFrame_fill]
      exact (congrArg (· &&& present) (directory (dir addr))).trans missing
    · intro clean
      have was : OnFreeList m k.pages f := ⟨_, sane.inv.ring, List.mem_cons_self⟩
      have lost : ¬ OnFreeList m (taken k.pages f) f := by
        rw [inv.onFreeList_iff, taken_owner]
        simp
      refine lost ((clean.free f).mpr ⟨was, fun ino inTree => ?_⟩)
      rw [inv.inTree_iff, taken_owner] at inTree
      cases inTree

theorem counted_not_clean (cached : InTree k.pages ino f) :
    ¬ Clean m ctx k ⟨{ k.pages with
      count := update k.pages.count f ((k.pages.count f + 1) % 2 ^ 32) }, w⟩ := by
  intro clean
  have same := clean.counts ino f cached
  simp only [update_self] at same
  have word := (sane.inv.someCount f ino (sane.inv.inTree_iff.mp cached)).2
  omega

theorem listEmpty_of_none :
    (links k.pages.u).listEmpty m.freeList = true ↔ k.pages.nrFreepages = 0 := by
  rw [Links.ring_empty_iff sane.inv.ring, sane.inv.number, List.length_eq_zero_iff]

theorem failed_cases {a : Fault} {page : Option Nat}
    (got : fetch m k (ctx.vma n) a = some (k₁, page)) (failed : (match page with
      | none => some (k₁, -1)
      | some page => mapPage m k₁ ctx.pgd page (pgVal a.va) a.prot) = some (k', -1)) :
    Clean m ctx k k' ∨ pgVal a.va < pageOffset ∧
      k.word ctx.pgd (dir (pgVal a.va)) &&& present = 0 ∧
      match pageSource (ctx.vma n) a.va with
      | none => k.pages.nrFreepages = 1
      | some key => key.2 % 4096 = 0 ∧ k.pages.reading key.1 = none ∧ k.pages.nrFreepages = 0 ∧
          ∃ f, InTree k.pages key.1 f ∧ pcOff k.pages.u f = key.2 := by
  unfold fetch at got
  cases source : pageSource (ctx.vma n) a.va with
  | none =>
    rw [source] at got
    rcases anonPage_cases sane with ⟨-, ran⟩ | ⟨f, rest, rfl, inv, ran⟩
    · rw [ran] at got
      cases got
      cases failed
      exact .inl (clean_refl sane.inv)
    · rw [ran] at got
      cases got
      obtain ⟨-, low, missing, empty⟩ := mapPage_failed.mp failed
      obtain ⟨directory, -⟩ := fillFrame_apart (sane.apart f List.mem_cons_self) fun _ => 0
      rw [clearFrame_fill] at missing
      refine .inr ⟨low, (congrArg (· &&& present) (directory _)).symm.trans missing, ?_⟩
      simp only [sane.inv.number, (Links.ring_empty_iff inv.ring).mp empty, List.length_singleton]
  | some key =>
    rw [source] at got
    obtain ⟨aligned, idle, ⟨f, owner, here, rfl, rfl⟩ | ⟨clean, -⟩⟩ := pagecache_cases sane got
    · obtain ⟨-, low, missing, empty⟩ := mapPage_failed.mp failed
      exact .inr ⟨low, missing, aligned, idle, (listEmpty_of_none sane).mp empty, f,
        sane.inv.inTree_iff.mpr owner, here⟩
    · cases page with
      | none =>
        cases failed
        exact .inl clean
      | some f =>
        obtain ⟨rfl, -⟩ := mapPage_failed.mp failed
        exact .inl clean

end

end Parts

/-- A fault that fails is clean exactly if it is not for want of a page for the table after
the page itself was there. -/
theorem fault_clean_iff (m : Machine) (fuel : Nat) (ctx : MemCtx) (shape : Shape) (k : Kernel)
    (free : List Nat) (tree : Nat → Shape) (a : Fault) (sane : Sane m ctx shape k free tree)
    (enough : shape.height < fuel) :
    (∀ k', mmPagefault m fuel ctx k a = some (k', -1) → Clean m ctx k k') ↔
      ¬ Starved ctx shape k a := by
  constructor
  · rintro clean ⟨n, area, allowed, low, missing, want⟩
    have run := mmPagefault_area sane enough a area allowed
    unfold fetch at run
    cases source : pageSource (ctx.vma n) a.va with
    | none =>
      rw [source] at run want
      obtain ⟨f, k', got, unmapped, unclean⟩ := anon_starved sane (pgVal a.va) a.prot want low missing
      dsimp only at run
      rw [got, Option.bind_some] at run
      exact unclean (clean k' (run.trans unmapped))
    | some key =>
      rw [source] at run want
      obtain ⟨aligned, idle, nothing, f, cached, here⟩ := want
      dsimp only at run
      rw [← here] at aligned run
      rw [pagecache_hit sane a.ret a.fill cached aligned idle, Option.bind_some] at run
      refine counted_not_clean sane cached
        (clean _ (run.trans (mapPage_failed.mpr ⟨rfl, low, missing, ?_⟩)))
      exact (listEmpty_of_none sane).mpr nothing
  · intro fed k' failed
    obtain ⟨found, nonzero⟩ := lookupVma_covering a.va sane.areas enough
    cases area : covering ctx.vma a.va shape with
    | none =>
      rw [area, Option.getD_none] at found
      rw [mmPagefault, found, Option.bind_some, if_pos rfl] at failed
      cases failed
      exact clean_refl sane.inv
    | some n =>
      by_cases allowed : (ctx.vma n).vmaProt &&& a.prot = 0
      · rw [area] at found nonzero
        rw [mmPagefault, found, Option.getD_some, Option.bind_some,
          if_neg fun zero => nonzero (congrArg some zero), if_pos allowed] at failed
        cases failed
        exact clean_refl sane.inv
      · rw [mmPagefault_area sane enough a area allowed] at failed
        obtain ⟨⟨k₁, page⟩, got, rest⟩ := Option.bind_eq_some_iff.mp failed
        rcases failed_cases sane got rest with clean | starved
        · exact clean
        · exact absurd ⟨n, area, allowed, starved⟩ fed

def lastPage : State where
  u := fun a => if a = 4 then ⟨140, 140, 0, 0, 0⟩ else ⟨4, 4, 0, 0, 0⟩
  count := fun f => if f = 140 then 0 else 1
  type := fun _ => .free
  nrFreepages := 1
  root := fun _ => 0
  reading := fun _ => none
  owner := fun f =>
    if f = 140 then .free else if f ∈ [56, 84, 112] then .caller else .reserved

/-- An area of one page, anonymous or of the inode `ino`, and a directory without tables. -/
def oneArea (ino : Nat) : MemCtx := ⟨fun _ => ⟨⟨1, 0, 0⟩, 0x400000, 0x401000, 1, 0, ino⟩, 16, 2⟩

theorem lastPage_free : lastPage.owner f = .free ↔ f = 140 := by
  simp only [lastPage]
  grind

theorem lastPage_uncached (ino : Nat) : lastPage.owner f ≠ .cached ino := by
  simp only [lastPage]
  grind

theorem lastPage_inv : Inv sample (managed sample) lastPage [140] fun _ => .leaf := by
  constructor
  case ring => exact ⟨⟨⟨rfl, rfl⟩, rfl, rfl⟩, by decide⟩
  case onList => exact fun f => List.mem_singleton.trans lastPage_free.symm
  case owned =>
    intro f
    simp only [managed, sample, lastPage]
    grind
  case inMemory => exact fun f known => known.1
  case number => rfl
  case freeCount =>
    intro f free
    rw [lastPage_free.mp free]
    rfl
  case oneCount =>
    intro f isPrivate
    have apart : f ≠ 140 := by
      rintro rfl
      cases isPrivate
    exact if_neg apart
  case someCount => exact fun f ino cached => absurd cached (lastPage_uncached ino)
  case rep => exact fun _ => rfl
  case redBlack => exact fun _ => ⟨rfl, rfl⟩
  case distinct => exact fun _ => List.nodup_nil
  case inTree =>
    exact fun ino f => iff_of_false (by simp [Shape.inorder]) (lastPage_uncached ino)
  case pending =>
    intro ino r waiting
    cases waiting

theorem lastPage_sane (ino : Nat) :
    Sane sample (oneArea ino) (.node 16 .leaf .leaf) ⟨lastPage, fun _ _ => 0⟩ [140] fun _ => .leaf where
  areas := ⟨rfl, by decide, (by decide : rbParent ⟨1, 0, 0⟩ = 0), rfl, rfl⟩
  inv := lastPage_inv
  sorted := fun _ => List.Pairwise.nil
  typed := fun f ino cached => absurd cached (lastPage_uncached ino)
  apart := by
    intro f member
    rw [List.mem_singleton.mp member]
    refine ⟨(by decide : frameOf sample 140 ≠ 2), fun i there => ?_⟩
    exact absurd (Nat.zero_and present) there

/-- The page of an anonymous area is taken and lost, since none is left for its table. -/
theorem fault_loses_page : ∃ k', OnFreeList sample lastPage 140 ∧
    mmPagefault sample 2 (oneArea 0) ⟨lastPage, fun _ _ => 0⟩ ⟨0x400000, protRead, 0, fun _ => 0⟩ =
      some (k', -1) ∧ ¬ Clean sample (oneArea 0) ⟨lastPage, fun _ _ => 0⟩ k' := by
  obtain ⟨f, k', got, unmapped, unclean⟩ := anon_starved (lastPage_sane 0) 0x400000
    protRead rfl (by decide) (by decide)
  refine ⟨k', ⟨_, lastPage_inv.ring, List.mem_singleton_self _⟩, ?_, unclean⟩
  have fetched : fetch sample ⟨lastPage, fun _ _ => 0⟩ ((oneArea 0).vma 16)
      ⟨0x400000, protRead, 0, fun _ => 0⟩ = some (k', some f) := got
  rw [mmPagefault_area (lastPage_sane 0) (by decide) _ rfl (by decide), fetched, Option.bind_some]
  exact unmapped

/-- A page of a file comes into the cache and stays there. -/
theorem fault_clean_cached : ∃ k',
    mmPagefault sample 2 (oneArea 9) ⟨lastPage, fun _ _ => 0⟩ ⟨0x400000, protRead, 100, fun _ => 7⟩ =
      some (k', -1) ∧ Clean sample (oneArea 9) ⟨lastPage, fun _ _ => 0⟩ k' := by
  have ends : (mmPagefault sample 2 (oneArea 9) ⟨lastPage, fun _ _ => 0⟩
      ⟨0x400000, protRead, 100, fun _ => 7⟩).map (·.2) = some (-1) := by
    decide +kernel
  obtain ⟨⟨k', ret⟩, ran, rfl⟩ := Option.map_eq_some_iff.mp ends
  have fed : ¬ Starved (oneArea 9) (.node 16 .leaf .leaf) ⟨lastPage, fun _ _ => 0⟩
      ⟨0x400000, protRead, 100, fun _ => 7⟩ := by
    rintro ⟨n, -, -, -, -, -, -, nothing, -⟩
    cases nothing
  exact ⟨k', ran, (fault_clean_iff sample 2 (oneArea 9) _ _ _ _ _ (lastPage_sane 9)
    (by decide)).mpr fed k' ran⟩

end ScaraOS.Pages
