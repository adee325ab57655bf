import ScaraOS.Exec.Memory
import ScaraOS.Exec.Panic

/-! What a program reads where it was loaded. A page is filled by the first access to it,
from the area found for that one address, so a byte is as wanted if it is so for every
address of its page. -/
namespace ScaraOS.Exec

open Function RbTree Paging Mm

structure Got (d : Disk) (m : Memory) (v : Vma) (va : Nat) (page : Option Nat) (m' : Memory)
    (f : Nat) : Prop extends Sound d m' where
  sys : m'.sys = m.sys
  kept : ∀ g ∈ m.pages, m'.data g = m.data g
  older : m.pages ⊆ m'.pages
  newer : ∀ g ∈ m'.pages, g ∈ m.pages ∨ page = some g
  member : f ∈ m'.pages
  bytes : ∀ j < 4096, areaByte d v va j = some (m'.data f j)
  apart : ∀ g ∈ m.pages, (∀ key, m.cache key ≠ some g) → g ≠ f ∧ ∀ key, m'.cache key ≠ some g
  own : pageSource v va = none → f ∉ m.pages ∧ ∀ key, m'.cache key ≠ some f

variable {m m' m₁ : Memory} {f j pgd fuel n b i ino c old va : Nat} {d : Disk} {v : Vma} {e : UInt8}
  {s t : System} {table : Option Nat} {shape oldShape : Shape} {a : Touch} {ps : List Phdr}
  {k : Kernel} {w w' : World} {image : Image} {rs : List Request} {ctx : MemCtx}

theorem Memory.fresh_iff : m.fresh f = true ↔ f < nrFrames ∧ f ∉ m.sys.used ∧ f ∉ m.pages := by
  simp [Memory.fresh, available, and_assoc]

theorem Memory.give_pages (m : Memory) (f : Nat) :
    ∀ g ∈ insert f m.pages, g ∈ m.pages ∨ some f = some g := by
  intro g member
  rcases Finset.mem_insert.mp member with rfl | old
  · exact .inr rfl
  · exact .inl old

theorem Sound.give (sound : Sound d m) (fresh : m.fresh f = true) (bytes : Nat → UInt8) :
    Sound d (m.give f bytes) := by
  obtain ⟨inside, free, new⟩ := Memory.fresh_iff.mp fresh
  constructor
  case pages =>
    intro g member
    rcases Finset.mem_insert.mp member with rfl | old
    · exact ⟨inside, free⟩
    · exact sound.pages g old
  case cached =>
    intro key g hit
    obtain ⟨member, can, same⟩ := sound.cached key g hit
    have other : g ≠ f := by
      rintro rfl
      exact new member
    refine ⟨Finset.mem_insert_of_mem member, can, ?_⟩
    simpa only [Memory.give, update_of_ne other] using same

theorem pageSource_offset {key : Nat × Nat} (source : pageSource v va = some key) :
    key.2 < 2 ^ 32 ∧ (v.vmaOff % 4096 = 0 → key.2 % 4096 = 0) := by
  unfold pageSource at source
  split at source
  · cases source
    refine ⟨Nat.mod_lt _ (by decide), ?_⟩
    intro aligned
    simp only [pgVal_eq]
    omega
  · cases source

theorem getFrame_got {page : Option Nat} (sound : Sound d m)
    (ran : getFrame d m v va page = some (some (m', f))) : Got d m v va page m' f := by
  cases source : pageSource v va with
  | some key =>
    simp only [getFrame, source] at ran
    obtain ⟨aligned, ran⟩ := Option.ite_none_left_eq_some.mp ran
    have aligned : key.2 % 4096 = 0 := not_not.mp aligned
    cases hit : m.cache key with
    | some g =>
      simp only [hit] at ran
      cases ran
      obtain ⟨member, can, same⟩ := sound.cached key f hit
      exact {
        sound with
        sys := rfl
        kept := fun _ _ => rfl
        older := Finset.Subset.refl _
        newer := fun _ old => .inl old
        member := member
        bytes := fun j below => by simp only [areaByte, source, if_pos can, same j below]
        apart := fun g _ uncached => ⟨by rintro rfl; exact uncached key hit, uncached⟩
        own := by simp [source] }
    | none =>
      cases page with
      | none => simp [hit] at ran
      | some g =>
        simp only [hit] at ran
        obtain ⟨fresh, ran⟩ := Option.ite_none_right_eq_some.mp ran
        obtain ⟨r, read, eq⟩ := Option.map_eq_some_iff.mp ran
        obtain ⟨bytes, rfl, eq⟩ := Option.map_eq_some_iff.mp eq
        cases eq
        have can : readable d key.1 key.2 := by
          by_contra cannot
          exact readPage_unreadable aligned (pageSource_offset source).1 cannot _ _ read
        obtain ⟨bytes', again, same⟩ := readPage_readable can (m.data f)
        cases read.symm.trans again
        have given := sound.give fresh bytes
        obtain ⟨inside, free, new⟩ := Memory.fresh_iff.mp fresh
        have data : ∀ j, update m.data f bytes f j = bytes j := by simp
        constructor
        case toSound =>
          refine ⟨given.pages, ?_⟩
          intro key' h hit'
          by_cases here : key' = key
          · subst here
            simp only [update_self, Option.some.injEq] at hit'
            subst hit'
            refine ⟨Finset.mem_insert_self _ _, can, ?_⟩
            intro j below
            exact (data j).trans (same j below)
          · simp only [update_of_ne here] at hit'
            exact given.cached key' h hit'
        case sys => rfl
        case kept =>
          intro h member
          exact update_of_ne (by rintro rfl; exact new member) _ _
        case older => exact Finset.subset_insert _ _
        case newer => exact m.give_pages f
        case member => exact Finset.mem_insert_self _ _
        case bytes =>
          intro j below
          simp only [areaByte, source, if_pos can, ← same j below]
          exact congrArg some (data j).symm
        case apart =>
          intro h member uncached
          have other : h ≠ f := by
            rintro rfl
            exact new member
          refine ⟨other, ?_⟩
          intro key' hit'
          by_cases here : key' = key
          · subst here
            simp only [update_self, Option.some.injEq] at hit'
            exact other hit'.symm
          · simp only [update_of_ne here] at hit'
            exact uncached key' hit'
        case own => simp [source]
  | none =>
    simp only [getFrame, source] at ran
    cases page with
    | none => cases ran
    | some g =>
      obtain ⟨fresh, eq⟩ := Option.ite_none_right_eq_some.mp ran
      cases eq
      obtain ⟨inside, free, new⟩ := Memory.fresh_iff.mp fresh
      have uncached : ∀ key, m.cache key ≠ some f := fun key hit => new (sound.cached key f hit).1
      exact {
        sound.give fresh _ with
        sys := rfl
        kept := fun h member => update_of_ne (by rintro rfl; exact new member) _ _
        older := Finset.subset_insert _ _
        newer := m.give_pages f
        member := Finset.mem_insert_self _ _
        bytes := fun j _ => by simp [areaByte, source, Memory.give]
        apart := fun h member unc => ⟨by rintro rfl; exact new member, unc⟩
        own := fun _ => ⟨new, uncached⟩ }

theorem getFrame_total {va page : Nat} (aligned : v.vmaOff % 4096 = 0) (fresh : m.fresh page = true)
    (exists' : areaByte d v va j = some e) :
    ∃ m' f, getFrame d m v va (some page) = some (some (m', f)) := by
  cases source : pageSource v va with
  | none =>
    simp only [getFrame, source, if_pos fresh]
    exact ⟨_, _, rfl⟩
  | some key =>
    have zero : ¬ key.2 % 4096 ≠ 0 := not_not.mpr ((pageSource_offset source).2 aligned)
    have can : readable d key.1 key.2 := by
      simp only [areaByte, source] at exists'
      exact (Option.ite_none_right_eq_some.mp exists').1
    simp only [getFrame, source, if_neg zero]
    cases hit : m.cache key with
    | some f => exact ⟨m, f, rfl⟩
    | none =>
      obtain ⟨bytes, read, -⟩ := readPage_readable can (m.data page)
      simp only [if_pos fresh, read, Option.map_some]
      exact ⟨_, _, rfl⟩

theorem mapCall_used {c : MapCall} (ran : mapCall s pgd c = some t) :
    ∀ g ∈ t.used, g ∈ s.used ∨ c.alloc = some g := by
  obtain ⟨-, ran⟩ := Option.ite_none_right_eq_some.mp ran
  obtain ⟨-, -, rfl⟩ := Option.map_eq_some_iff.mp ran
  intro g member
  simp only [usedAfter] at member
  split at member
  · cases alloc : c.alloc with
    | none =>
      rw [alloc] at member
      exact .inl member
    | some f =>
      rw [alloc] at member
      rcases Finset.mem_insert.mp member with rfl | old
      · exact .inr rfl
      · exact .inl old
  · exact .inl member

structure Mapped (s t : System) (pgd va f : Nat) (rw : Bool) (table : Option Nat) : Prop where
  wf : ∃ slot, Wf t slot
  ctxs : t.ctxs = s.ctxs
  used : ∀ g ∈ t.used, g ∈ s.used ∨ table = some g
  kernel : ∀ i, userSlots ≤ i → t.word pgd i = s.word pgd i
  low : va < pageOffset
  seen : ∀ x < pageOffset, translate t.word pgd x =
    if SamePage x va then some ⟨f, rw, true⟩ else translate s.word pgd x

theorem mapped_mapCall {write : Bool} (word : va < 2 ^ 32) (wf : ∃ slot, Wf s slot)
    {x : Words} (mapped : mapPageToCtx s.word pgd f (pgVal va) (protOf write) table = some (x, 0))
    (ran : mapCall s pgd ⟨f, pgVal va, protOf write, table⟩ = some t) :
    Mapped s t pgd va f write table := by
  obtain ⟨slot, wf⟩ := wf
  obtain ⟨here, callLow, -, ctxs, -⟩ := mapCall_cases ran
  have low : va < pageOffset := by
    by_contra high
    have page : pageOffset ≤ pgVal va := by
      unfold pageOffset at high ⊢
      rw [pgVal_eq]
      omega
    exact absurd callLow (Nat.not_lt_of_le page)
  have given : table = none → s.word pgd (dir (pgVal va)) &&& present ≠ 0 := by
    rintro rfl absent
    simp [mapPageToCtx, Nat.not_le_of_lt callLow, absent] at mapped
  refine ⟨wf_mapCall wf ran, ctxs, mapCall_used ran, ?_, low, ?_⟩
  · intro i high
    have other : i ≠ dir (pgVal va) := by
      have := dir_user callLow
      dsimp only at this
      omega
    exact mapCall_dirs wf ran here (.inr (.inl other))
  · intro y lowY
    rw [translate_mapCall_own wf ran given lowY]
    have pages : SamePage y (pgVal va) ↔ SamePage y va := by
      rw [samePage_iff lowY callLow, samePage_iff lowY low, pgVal_page low]
    simp only [pages, protOf_write]

theorem mmPagefault_maps {write : Bool} (word : va < 2 ^ 32)
    (wf : ∃ slot, Wf s slot) (here : ctx.pgd ∈ s.ctxs) (free : f ∉ s.used)
    (ran : mmPagefault fuel ctx s ⟨va, write, some f, table⟩ (protOf write) = some (t, 0)) :
    Mapped s t ctx.pgd va f write table := by
  unfold mmPagefault at ran
  obtain ⟨n, found, ran⟩ := Option.bind_eq_some_iff.mp ran
  by_cases null : n = 0
  · simp [null] at ran
  by_cases denied : (ctx.vma n).vmaProt &&& protOf write = 0
  · simp [null, denied] at ran
  simp only [if_neg null, if_neg denied] at ran
  obtain ⟨⟨x, ret⟩, mapped, ran⟩ := Option.bind_eq_some_iff.mp ran
  obtain ⟨u, called, ran⟩ := Option.bind_eq_some_iff.mp ran
  have zero : ret = 0 := by
    by_contra failed
    simp [failed] at ran
  subst zero
  cases ran
  cases source : pageSource (ctx.vma n) va with
  | some key =>
    rw [source] at mapped called
    exact mapped_mapCall word wf mapped called
  | none =>
    -- the page is cleared first, which no table sees
    rw [source] at mapped called
    obtain ⟨slot, wf⟩ := wf
    have same := clearFrame_used free
    have done := mapped_mapCall word ⟨slot, wf_outside wf same⟩ mapped called
    refine ⟨done.wf, done.ctxs, done.used, ?_, done.low, ?_⟩
    · intro i high
      exact (done.kernel i high).trans (congrFun (same ctx.pgd (wf.dirs _ here)) i)
    · intro x low
      rw [done.seen x low, translate_outside wf same here low]

/-- What holds of memory as the program goes on: the pages it may write are its own, and
the byte at `va`, once it is there, is one that some access to its page brings. -/
structure View (d : Disk) (ctx : MemCtx) (shape : Shape) (va : Nat) (m : Memory) : Prop
    extends Sound d m where
  wf : ∃ slot, Wf m.sys slot
  here : ctx.pgd ∈ m.sys.ctxs
  kernel : ∀ i, userSlots ≤ i → m.sys.word ctx.pgd i &&& user = 0
  mapped : ∀ a < pageOffset, ∀ p, translate m.sys.word ctx.pgd a = some p →
    p.user = true ∧ p.frame ∈ m.pages
  own : ∀ a < pageOffset, ∀ p, translate m.sys.word ctx.pgd a = some p → p.rw = true →
    (∀ key, m.cache key ≠ some p.frame) ∧ ∀ b < pageOffset, ∀ q,
      translate m.sys.word ctx.pgd b = some q → q.frame = p.frame → SamePage b a
  target : va < pageOffset → ∀ p, translate m.sys.word ctx.pgd va = some p →
    ∃ b < 2 ^ 32, SamePage b va ∧ brings d ctx shape b va = some (m.data p.frame (va % 4096))

theorem view_start (start : Start d ctx m) : View d ctx shape va m := by
  have absent : ∀ a < pageOffset, translate m.sys.word ctx.pgd a = none :=
    fun a low => translate_absent (start.empty (dir a) (dir_user low))
  refine { start with mapped := ?mapped, own := ?own, target := ?target }
  case mapped =>
    intro a low p there
    cases (absent a low).symm.trans there
  case own =>
    intro a low p there
    cases (absent a low).symm.trans there
  case target =>
    intro low p there
    cases (absent va low).symm.trans there

structure Faulted (d : Disk) (ctx : MemCtx) (shape : Shape) (m : Memory) (a : Touch)
    (m₁ m' : Memory) (n f : Nat) : Prop where
  found : covering ctx.vma a.va shape = some n
  allowed : (ctx.vma n).vmaProt &&& protOf a.store.isSome ≠ 0
  got : Got d m (ctx.vma n) a.va a.page m₁ f
  table : ∀ g, a.table = some g → g ∉ m₁.pages
  tables : Mapped m.sys m'.sys ctx.pgd a.va f a.store.isSome a.table
  rest : m' = { m₁ with sys := m'.sys }

theorem fault_cases (loaded : Loaded ctx shape)
    (enough : shape.height < fuel) (view : View d ctx shape va m) (word : a.va < 2 ^ 32)
    (ran : fault d fuel ctx m a = some (some m')) :
    ∃ m₁ n f, Faulted d ctx shape m a m₁ m' n f := by
  obtain ⟨lookup, nonzero⟩ := lookupVma_covering a.va loaded.rep enough
  simp only [fault, lookup, Option.bind_some] at ran
  cases found : covering ctx.vma a.va shape with
  | none => simp [found] at ran
  | some n =>
    have some : n ≠ 0 := by
      rintro rfl
      exact nonzero found
    simp only [found, Option.getD_some, if_neg some] at ran
    by_cases denied : (ctx.vma n).vmaProt &&& protOf a.store.isSome = 0
    · simp [denied] at ran
    simp only [if_neg denied] at ran
    obtain ⟨r, frame, ran⟩ := Option.bind_eq_some_iff.mp ran
    cases r with
    | none => simp at ran
    | some r =>
      obtain ⟨m₁, f⟩ := r
      obtain ⟨fresh, ran⟩ := Option.ite_none_right_eq_some.mp ran
      obtain ⟨⟨t, ret⟩, handled, ran⟩ := Option.map_eq_some_iff.mp ran
      obtain ⟨zero, eq⟩ := Option.ite_none_right_eq_some.mp ran
      cases eq
      dsimp only at zero
      subst zero
      have got := getFrame_got view.toSound frame
      rw [got.sys] at handled
      refine ⟨m₁, n, f, found, denied, got, ?_, ?_, rfl⟩
      · intro g given
        rw [given] at fresh
        exact (Memory.fresh_iff.mp fresh).2.2
      · have free : f ∉ m.sys.used := got.sys ▸ (got.pages f got.member).2
        exact mmPagefault_maps word view.wf view.here free handled

theorem Faulted.brings (faulted : Faulted d ctx shape m a m₁ m' n f) (x : Nat) :
    brings d ctx shape a.va x = some (m'.data f (x % 4096)) := by
  have bytes := faulted.got.bytes (x % 4096) (Nat.mod_lt _ (by decide))
  rw [faulted.rest]
  simp only [Exec.brings, faulted.found, Option.bind_some, bytes]

theorem Faulted.view (faulted : Faulted d ctx shape m a m₁ m' n f)
    (loaded : Loaded ctx shape) (word : a.va < 2 ^ 32) (view : View d ctx shape va m) :
    View d ctx shape va m' := by
  obtain ⟨found, allowed, got, table, tables, rest⟩ := id faulted
  have brought := faulted.brings
  have pages : m'.pages = m₁.pages := by rw [rest]
  have cache : m'.cache = m₁.cache := by rw [rest]
  have data : m'.data = m₁.data := by rw [rest]
  have writes : a.store.isSome = true → pageSource (ctx.vma n) a.va = none := by
    intro write
    rw [write] at allowed
    have anonymous : (ctx.vma n).vmaIno = 0 := by
      by_contra file
      exact allowed (loaded.readOnly n (covering_reaches found).1 file)
    simp [pageSource, anonymous]
  constructor
  case toSound =>
    constructor
    case pages =>
      intro g member
      rw [pages] at member
      obtain ⟨inside, free⟩ := got.pages g member
      refine ⟨inside, ?_⟩
      intro inUse
      rcases tables.used g inUse with old | new
      · exact free (got.sys ▸ old)
      · exact table g new member
    case cached =>
      rw [pages, cache, data]
      exact got.cached
  case wf => exact tables.wf
  case here =>
    rw [tables.ctxs]
    exact view.here
  case kernel =>
    intro i high
    rw [tables.kernel i high]
    exact view.kernel i high
  case mapped =>
    intro x low p there
    rw [tables.seen x low] at there
    rw [pages]
    split at there
    · cases there
      exact ⟨rfl, got.member⟩
    · obtain ⟨open', member⟩ := view.mapped x low p there
      exact ⟨open', got.older member⟩
  case own =>
    intro x low p there rw'
    rw [tables.seen x low] at there
    rw [cache]
    split at there
    · rename_i same
      cases there
      obtain ⟨new, uncached⟩ := got.own (writes rw')
      refine ⟨uncached, ?_⟩
      intro b lowB q thereB frames
      rw [tables.seen b lowB] at thereB
      split at thereB
      · rename_i sameB
        exact ⟨sameB.1.trans same.1.symm, sameB.2.trans same.2.symm⟩
      · have old := (view.mapped b lowB q thereB).2
        rw [frames] at old
        exact absurd old new
    · obtain ⟨uncached, alone⟩ := view.own x low p there rw'
      obtain ⟨other, still⟩ := got.apart p.frame (view.mapped x low p there).2 uncached
      refine ⟨still, ?_⟩
      intro b lowB q thereB frames
      rw [tables.seen b lowB] at thereB
      split at thereB
      · cases thereB
        exact absurd frames.symm other
      · exact alone b lowB q thereB frames
  case target =>
    intro low p there
    rw [tables.seen va low] at there
    split at there
    · rename_i same
      cases there
      exact ⟨a.va, word, ⟨same.1.symm, same.2.symm⟩, brought va⟩
    · rw [data, got.kept p.frame (view.mapped va low p there).2]
      exact view.target low p there

theorem use_cases (ran : use ctx m a = some (m', e)) :
    ∃ p, translate m.sys.word ctx.pgd a.va = some p ∧
      p.user = true ∧ e = m.data p.frame (a.va % 4096) ∧
      ((a.store = none ∧ m' = m) ∨ ∃ v, a.store = some v ∧ p.rw = true ∧ m' = { m with
        data := update m.data p.frame
          (update (m.data p.frame) (a.va % 4096) v) }) := by
  unfold use at ran
  split at ran
  · cases ran
  · rename_i p there
    obtain ⟨⟨open', writes⟩, eq⟩ := Option.ite_none_right_eq_some.mp ran
    cases eq
    refine ⟨p, there, open', rfl, ?_⟩
    cases store : a.store with
    | none => exact .inl ⟨rfl, rfl⟩
    | some v =>
      rw [store] at writes
      exact .inr ⟨v, rfl, writes rfl, rfl⟩

theorem use_low (view : View d ctx shape va m) (word : a.va < 2 ^ 32)
    (ran : use ctx m a = some (m', e)) : a.va < pageOffset := by
  obtain ⟨p, there, open', -⟩ := use_cases ran
  by_contra high
  have slot : userSlots ≤ dir a.va := by
    rw [dir_eq]
    unfold pageOffset at high
    unfold userSlots
    omega
  have closed := view.kernel (dir a.va) slot
  unfold Paging.translate at there
  obtain ⟨-, there⟩ := Option.ite_none_left_eq_some.mp there
  obtain ⟨-, there⟩ := Option.ite_none_left_eq_some.mp there
  cases there
  simp [closed] at open'

theorem use_view (view : View d ctx shape va m) (word : a.va < 2 ^ 32)
    (quiet : a.va = va → a.store = none) (ran : use ctx m a = some (m', e)) :
    View d ctx shape va m' := by
  have low := use_low view word ran
  obtain ⟨p, there, -, -, ⟨-, rfl⟩ | ⟨v, store, writable, rfl⟩⟩ := use_cases ran
  · exact view
  · obtain ⟨uncached, alone⟩ := view.own a.va low p there writable
    refine { view with toSound := ?toSound, target := ?target }
    case toSound =>
      refine ⟨view.pages, ?_⟩
      intro key f hit
      have other : f ≠ p.frame := by
        rintro rfl
        exact uncached key hit
      simp only [update_of_ne other]
      exact view.cached key f hit
    case target =>
      intro lowVa q thereVa
      obtain ⟨b, wordB, same, brought⟩ := view.target lowVa q thereVa
      refine ⟨b, wordB, same, ?_⟩
      rw [brought]
      by_cases hit : q.frame = p.frame
      · -- a write to the page of `va`, at another address
        have page := (samePage_iff lowVa low).mp (alone va lowVa q thereVa hit)
        have apart : va % 4096 ≠ a.va % 4096 := by
          intro eq
          have is : a.va = va := by omega
          rw [quiet is] at store
          cases store
        simp only [hit, update_self, update_of_ne apart]
      · simp only [update_of_ne hit]

section

variable {d : Disk} {ctx : MemCtx} {shape : Shape} {fuel va : Nat} (loaded : Loaded ctx shape)
  (enough : shape.height < fuel)

include loaded enough

theorem touched_view (word : a.va < 2 ^ 32) (quiet : a.va = va → a.store = none)
    (view : View d ctx shape va m) (ran : touched d fuel ctx m a = some m') :
    View d ctx shape va m' := by
  unfold touched touch at ran
  obtain ⟨⟨m'', e⟩, joined, rfl⟩ := Option.map_eq_some_iff.mp ran
  have done := Option.join_eq_some_iff.mp joined
  split at done
  · exact use_view view word quiet (Option.some.inj done)
  · obtain ⟨r, faulting, done⟩ := Option.map_eq_some_iff.mp done
    obtain ⟨m₂, rfl, used⟩ := Option.bind_eq_some_iff.mp done
    obtain ⟨m₁, n, f, faulted⟩ := fault_cases loaded enough view word faulting
    exact use_view (faulted.view loaded word view) word quiet used

theorem run_view {as : List Touch} (start : Start d ctx m)
    (ran : Run.exec (touched d fuel ctx) m as = some m')
    (quiet : ∀ a ∈ as, a.va < 2 ^ 32 ∧ (a.va = va → a.store = none)) : View d ctx shape va m' :=
  Run.exec_invariant (View d ctx shape va) (fun a => a.va < 2 ^ 32 ∧ (a.va = va → a.store = none))
    (fun _ _ _ ok view stepped => touched_view loaded enough ok.1 ok.2 view stepped) quiet
    (view_start start) ran

theorem fault_total {page table : Nat} (view : View d ctx shape va m) (low : b < pageOffset)
    (brought : brings d ctx shape b va = some e) (granted' : Granted m page table) :
    ∃ m', fault d fuel ctx m ⟨b, none, some page, some table⟩ = some (some m') := by
  obtain ⟨lookup, nonzero⟩ := lookupVma_covering b loaded.rep enough
  obtain ⟨n, found, byte⟩ := Option.bind_eq_some_iff.mp brought
  have some : n ≠ 0 := by
    rintro rfl
    exact nonzero found
  have member := (covering_reaches found).1
  have denied : ¬ (ctx.vma n).vmaProt &&& protOf false = 0 := loaded.read n member
  obtain ⟨freshPage, freshTable, apart⟩ := granted'
  obtain ⟨m₁, f, frame⟩ := getFrame_total (loaded.offset n member) freshPage byte
  have got := getFrame_got view.toSound frame
  obtain ⟨insideTable, freeTable, newTable⟩ := Memory.fresh_iff.mp freshTable
  have fresh₁ : m₁.fresh table = true := by
    rw [Memory.fresh_iff, got.sys]
    refine ⟨insideTable, freeTable, ?_⟩
    intro member
    rcases got.newer table member with old | is
    · exact newTable old
    · exact apart (Option.some.inj is)
  have inside := got.pages f got.member
  rw [found, Option.getD_some] at lookup
  have allowed : granted fuel ctx b false = true := by
    simp only [granted, lookup]
    exact decide_eq_true ⟨some, denied⟩
  have frames : framesGiven ctx.pgd m₁.sys ⟨b, false, Option.some f, Option.some table⟩ = true := by
    have away : table ≠ f := by
      rintro rfl
      exact (Memory.fresh_iff.mp fresh₁).2.2 got.member
    have is : available m₁.sys table = true := by
      rw [got.sys]
      exact decide_eq_true ⟨insideTable, freeTable⟩
    simp [framesGiven, inside.1, inside.2, is, away]
  obtain ⟨t, handled, -⟩ := mmPagefault_granted
    (sees_pages (s := m₁.sys) (got.sys ▸ view.wf) (got.sys ▸ view.here)) low frames allowed
  have done : mmPagefault fuel ctx m₁.sys ⟨b, false, Option.some f, Option.some table⟩
      (protOf false) = Option.some (t, 0) := handled
  refine ⟨{ m₁ with sys := t }, ?_⟩
  simp only [fault, Option.isSome_none, lookup, Option.bind_some, if_neg some, if_neg denied, frame,
    Option.all_some, fresh₁, if_true, done, Option.map_some]

theorem touch_absent {page table : Nat} (view : View d ctx shape va m) (low : b < pageOffset)
    (absent : translate m.sys.word ctx.pgd b = none) (brought : brings d ctx shape b va = some e)
    (granted' : Granted m page table) :
    ∃ m' f, touch d fuel ctx m ⟨b, none, some page, some table⟩ =
        some (some (m', m'.data f (b % 4096))) ∧
      translate m'.sys.word ctx.pgd b = some ⟨f, false, true⟩ ∧
      (∀ x, brings d ctx shape b x = some (m'.data f (x % 4096))) ∧
      ∀ g, m.fresh g = true → g ≠ page → g ≠ table → m'.fresh g = true := by
  have word : b < 2 ^ 32 := by
    unfold pageOffset at low
    omega
  obtain ⟨m', ran⟩ := fault_total loaded enough view low brought granted'
  obtain ⟨m₁, n, f, faulted⟩ := fault_cases loaded enough view word ran
  have seen := faulted.tables.seen b low
  rw [if_pos ⟨rfl, rfl⟩] at seen
  refine ⟨m', f, ?_, seen, faulted.brings, ?_⟩
  · simp [touch, absent, ran, use, seen]
  · intro g fresh notPage notTable
    obtain ⟨inside, free, new⟩ := Memory.fresh_iff.mp fresh
    refine Memory.fresh_iff.mpr ⟨inside, ?_, ?_⟩
    · intro inUse
      rcases faulted.tables.used g inUse with old | is
      · exact free old
      · exact notTable (Option.some.inj is).symm
    · rw [faulted.rest]
      intro member
      rcases faulted.got.newer g member with old | is
      · exact new old
      · exact notPage (Option.some.inj is).symm

end

def blank (pgd : Nat) : Memory := ⟨⟨fun _ _ => 0, [pgd], {pgd}⟩, fun _ => none, ∅, fun _ _ => 0⟩

theorem blank_start (d : Disk) (ctx : MemCtx) : Start d ctx (blank ctx.pgd) where
  pages := by simp [blank]
  cached := by simp [blank]
  wf := ⟨id, by simp [blank], by simp [blank], by simp [blank]⟩
  here := by simp [blank]
  empty := by simp [blank]
  kernel := by simp [blank]

def spare (pgd i : Nat) : Nat := if i < pgd then i else i + 1

theorem spare_fresh (small : i < 4) : (blank pgd).fresh (spare pgd i) = true := by
  refine Memory.fresh_iff.mpr ⟨?_, ?_, by simp [blank]⟩
  · unfold spare nrFrames
    split <;> omega
  · simp only [blank, Finset.mem_singleton, spare]
    split <;> omega

theorem spare_apart (apart : i ≠ j) : spare pgd i ≠ spare pgd j := by
  unfold spare
  split <;> split <;> omega

def Brings (d : Disk) (ctx : MemCtx) (shape : Shape) (va : Nat) (e : UInt8) : Prop :=
  va < pageOffset ∧ brings d ctx shape va va = some e ∧
    ∀ b < 2 ^ 32, SamePage b va → brings d ctx shape b va = none ∨ brings d ctx shape b va = some e

theorem samePage_low {a : Nat} (low : a < pageOffset) (word : b < 2 ^ 32) (same : SamePage b a) :
    b < pageOffset := by
  obtain ⟨dirs, -⟩ := same
  rw [dir_eq, dir_eq] at dirs
  unfold pageOffset at low ⊢
  omega

theorem yields_iff (loaded : Loaded ctx shape)
    (enough : shape.height < fuel) (word : va < 2 ^ 32) (e : UInt8) :
    Yields d fuel ctx va e ↔ Brings d ctx shape va e := by
  constructor
  · intro yields
    have start := blank_start d ctx
    have view : View d ctx shape va (blank ctx.pgd) := view_start start
    have grant : Granted (blank ctx.pgd) (spare ctx.pgd 0) (spare ctx.pgd 1) :=
      ⟨spare_fresh (by decide), spare_fresh (by decide), spare_apart (by decide)⟩
    have absent : ∀ x, translate (blank ctx.pgd).sys.word ctx.pgd x = none := by
      simp [Paging.translate, blank]
    -- the read as the first access of all
    obtain ⟨m', read⟩ := yields _ start [] _ rfl (by simp) _ _ grant
    simp only [touch, absent] at read
    obtain ⟨r, faulting, read⟩ := Option.map_eq_some_iff.mp read
    obtain ⟨m₂, rfl, used⟩ := Option.bind_eq_some_iff.mp read
    obtain ⟨m₁, n, f, faulted⟩ := fault_cases loaded enough view word faulting
    have low : va < pageOffset := faulted.tables.low
    have own : brings d ctx shape va va = some e := by
      obtain ⟨p, there, -, byte, -⟩ := use_cases used
      have seen := faulted.tables.seen va low
      rw [if_pos ⟨rfl, rfl⟩] at seen
      cases seen.symm.trans there
      rw [byte]
      exact faulted.brings va
    refine ⟨low, own, ?_⟩
    -- and after an access to `b`, which brings the page first
    intro b wordB same
    cases brought : brings d ctx shape b va with
    | none => exact .inl rfl
    | some e' =>
      obtain ⟨m₁, f, touched', there, bytes, fresh⟩ := touch_absent loaded enough view
        (samePage_low low wordB same) (absent b) brought grant
      have ran : Run.exec (Exec.touched d fuel ctx) (blank ctx.pgd)
          [⟨b, none, some (spare ctx.pgd 0), some (spare ctx.pgd 1)⟩] = some m₁ := by
        simp only [Run.exec, Exec.touched, touched', Option.join_some, Option.map_some,
          Option.bind_some]
      have grant' : Granted m₁ (spare ctx.pgd 2) (spare ctx.pgd 3) := by
        refine ⟨fresh _ (spare_fresh (by decide)) ?_ ?_, fresh _ (spare_fresh (by decide)) ?_ ?_, ?_⟩
        all_goals exact spare_apart (by decide)
      have quiet : ∀ a ∈ [(⟨b, none, some (spare ctx.pgd 0), some (spare ctx.pgd 1)⟩ : Touch)],
          a.va < 2 ^ 32 ∧ (a.va = va → a.store = none) := by
        intro a member
        rw [List.mem_singleton.mp member]
        exact ⟨wordB, fun _ => rfl⟩
      obtain ⟨m', read⟩ := yields _ start _ m₁ ran quiet _ _ grant'
      have seen : translate m₁.sys.word ctx.pgd va = some ⟨f, false, true⟩ :=
        (translate_same_page same).symm.trans there
      have used' : use ctx m₁ ⟨va, none, some (spare ctx.pgd 2), some (spare ctx.pgd 3)⟩ =
          some (m', e) := by
        simpa only [touch, seen, Option.some.injEq] using read
      obtain ⟨p, there', -, byte, -⟩ := use_cases used'
      cases seen.symm.trans there'
      rw [byte, ← brought]
      exact .inr (bytes va)
  · rintro ⟨low, own, others⟩ m₀ start as m ran quiet page table granted'
    have view := run_view loaded enough start ran quiet
    cases there : translate m.sys.word ctx.pgd va with
    | none =>
      obtain ⟨m', f, read, -, bytes, -⟩ := touch_absent loaded enough view low there own granted'
      have byte := (bytes va).symm.trans own
      rw [Option.some.inj byte] at read
      exact ⟨m', read⟩
    | some p =>
      obtain ⟨b, wordB, same, brought⟩ := view.target low p there
      have byte : m.data p.frame (va % 4096) = e := by
        rcases others b wordB same with none | byte
        · cases brought.symm.trans none
        · exact Option.some.inj (brought.symm.trans byte)
      refine ⟨m, ?_⟩
      simp [touch, there, use, (view.mapped va low p there).1, byte]

/-- The byte the segment asks for, none if the file has no such byte. -/
def wanted (d : Disk) (ino : Nat) (p : Phdr) (j : Nat) : Option UInt8 :=
  if j < p.pFilesz then
    if p.pOffset + j < fileSize d ino then some (fileByte d ino (p.pOffset + j)) else none
  else some 0

/-- The byte an area has at an address, if it has a page there: it may be that of another
file offset than the program header meant, and it is the file's wherever the file goes
on. -/
def requestByte (d : Disk) (r : Request) (va : Nat) : Option UInt8 :=
  if r.ino = 0 then some 0
  else
    let n := (r.off + (va + (2 ^ 32 - r.va))) % 2 ^ 32
    if readable d r.ino (n / 4096 * 4096) then
      some (if n < fileSize d r.ino then fileByte d r.ino n else 0)
    else none

/-- On the way down the tree, the first area that reaches to `b` is that of `r`. -/
def Leads (ctx : MemCtx) (shape : Shape) (b : Nat) (r : Request) : Prop :=
  ∃ n, covering ctx.vma b shape = some n ∧ (ctx.vma n).area = r.area

/-- The area at `va` has the byte, and so has every area that an address of the same page
leads to, if it has a page there at all. -/
def AsWanted (d : Disk) (ctx : MemCtx) (shape : Shape) (rs : List Request) (va : Nat) (e : UInt8) :
    Prop :=
  va < pageOffset ∧ (∃ r ∈ rs, Leads ctx shape va r ∧ requestByte d r va = some e) ∧
    ∀ b < 2 ^ 32, SamePage b va → ∀ r ∈ rs, Leads ctx shape b r →
      requestByte d r va = none ∨ requestByte d r va = some e

theorem requests_prot : ∀ r ∈ requests ino ps,
    r.prot &&& protRead ≠ 0 ∧ (r.ino ≠ 0 → r.prot &&& protWrite = 0) := by
  intro r asked
  rcases List.mem_append.mp asked with segment | last
  · obtain ⟨p, -, rfl⟩ := List.mem_map.mp segment
    unfold request
    split
    · exact ⟨by simp only; decide, fun _ => by simp only; decide⟩
    · exact ⟨by simp only; decide, fun file => absurd rfl file⟩
  · rw [List.mem_singleton.mp last]
    decide

theorem requests_words (ino : Nat) (words : ∀ p ∈ ps, p.Words) :
    ∀ r ∈ requests ino ps, r.va < 2 ^ 32 ∧ r.off < 2 ^ 32 := by
  intro r asked
  rcases List.mem_append.mp asked with segment | last
  · obtain ⟨p, load, rfl⟩ := List.mem_map.mp segment
    obtain ⟨off, va, -, -⟩ := words p (List.mem_of_mem_filter load)
    unfold request
    split
    · exact ⟨va, off⟩
    · exact ⟨va, by simp⟩
  · rw [List.mem_singleton.mp last]
    decide

theorem page_of_offset {o r v a : Nat} (reg : r < 2 ^ 20) (ha : a < 4096) (hb : b < 4096)
    (hc : c < 4096) :
    (o * 4096 + (v * 4096 + b + (2 ^ 32 - r * 4096)) % 2 ^ 32 / 2 ^ 12 % 2 ^ 20 * 2 ^ 12) % 2 ^ 32 =
      (o * 4096 + a + (v * 4096 + c + (2 ^ 32 - (r * 4096 + a)))) % 2 ^ 32 / 4096 * 4096 ∧
    (o * 4096 + a + (v * 4096 + c + (2 ^ 32 - (r * 4096 + a)))) % 2 ^ 32 / 4096 * 4096 + c =
      (o * 4096 + a + (v * 4096 + c + (2 ^ 32 - (r * 4096 + a)))) % 2 ^ 32 := by
  have moved : (v * 4096 + b + (2 ^ 32 - r * 4096)) % 2 ^ 32 / 2 ^ 12 % 2 ^ 20 =
      (v + (2 ^ 20 - r)) % 2 ^ 20 := by omega
  have whole : (o * 4096 + a + (v * 4096 + c + (2 ^ 32 - (r * 4096 + a)))) % 2 ^ 32 =
      (o + (v + (2 ^ 20 - r))) % 2 ^ 20 * 4096 + c := by omega
  have page : ∀ x, (x * 4096 + c) / 4096 = x := by
    intro x
    omega
  have pages : ∀ x, (o * 4096 + x % 2 ^ 20 * 2 ^ 12) % 2 ^ 32 = (o + x) % 2 ^ 20 * 4096 := by
    intro x
    have split : o * 4096 + x % 2 ^ 20 * 2 ^ 12 = (o + x % 2 ^ 20) * 4096 := by omega
    have word : 2 ^ 32 = 2 ^ 20 * 4096 := by decide
    rw [split, word, Nat.mul_mod_mul_right, Nat.add_mod_mod]
  rw [moved, whole, page, pages]
  exact ⟨rfl, rfl⟩

theorem areaByte_request {r : Request} (words : r.va < 2 ^ 32 ∧ r.off < 2 ^ 32)
    (aligned : r.area.vmaOff % 4096 = 0) (area : v.area = r.area) (word : va < 2 ^ 32)
    (wordB : b < 2 ^ 32) (same : SamePage b va) :
    areaByte d v b (va % 4096) = requestByte d r va := by
  have inodes : v.vmaIno = r.ino := congrArg Vma.vmaIno area
  by_cases file : r.ino = 0
  · simp [areaByte, pageSource, inodes, file, requestByte]
  have begins : v.vmaBegin = r.va / 4096 * 4096 :=
    (congrArg Vma.vmaBegin area).trans (vaRoundDown_eq words.1)
  have offset : v.vmaOff = r.area.vmaOff := by
    have eq : v.area.vmaOff = r.area.vmaOff := by rw [area]
    exact eq
  have placed : r.area.vmaOff = (r.off + 2 ^ 32 - (r.va - r.va / 4096 * 4096)) % 2 ^ 32 := by
    simp only [Request.area, ne_eq, file, not_false_eq_true, if_true, vaRoundDown_eq words.1]
  -- the file offset is as far into its page as the address
  have fits : r.off = r.off / 4096 * 4096 + r.va % 4096 ∧
      r.area.vmaOff = r.off / 4096 * 4096 := by omega
  have pages : b = va / 4096 * 4096 + b % 4096 := by
    obtain ⟨dirs, tbls⟩ := same
    rw [dir_eq, dir_eq] at dirs
    rw [tbl_eq, tbl_eq] at tbls
    omega
  have here : r.va = r.va / 4096 * 4096 + r.va % 4096 := by omega
  have there : va = va / 4096 * 4096 + va % 4096 := by omega
  obtain ⟨page, whole⟩ := page_of_offset (o := r.off / 4096) (r := r.va / 4096) (v := va / 4096)
    (a := r.va % 4096) (b := b % 4096) (c := va % 4096) (by omega) (by omega) (by omega) (by omega)
  rw [← here, ← there, ← fits.1] at page whole
  rw [← pages] at page
  simp only [areaByte, pageSource, inodes, ne_eq, file, not_false_eq_true, if_true, pgVal_eq, begins,
    offset, fits.2, page, pageByte, whole, requestByte, if_false]

theorem exec_areas {supply : Supply} (ready : Ready w old oldShape)
    (accepted : programHeaders k image = some ps)
    (provided : Provided w supply (requests ino ps).length)
    (ran : execImage k w ino old image supply = .ok (w', some c))
    (rep : Rep (fun n => (w'.vma n).rbt) (w'.ctx c).rbNode 0 shape) :
    (∀ n ∈ shape.inorder, ∃ r ∈ requests ino ps, (w'.vma n).area = r.area) ∧
      (∀ r ∈ requests ino ps, r.area.vmaOff % 4096 = 0) ∧ shape.height < walk w' := by
  have provided' : ∀ qs, programHeaders k image = some qs →
      Provided w supply (requests ino qs).length := by
    intro qs again
    cases accepted.symm.trans again
    exact provided
  rcases execImage_cases ready provided' with
    ⟨w₁, refused, -⟩ | ⟨qs, again, ⟨bug, -⟩ | ⟨c', f, w₁, shape', w₂, obj, -, built, put, done⟩⟩
  · cases ran.symm.trans refused
  · rcases bug with bug | bug <;> cases ran.symm.trans bug
  · cases ran.symm.trans done
    cases accepted.symm.trans again
    obtain ⟨tree, vma, -⟩ := put_keeps_new ready (provided.ctx c obj).2 built put
    cases rep_unique rep tree.rep
    rw [vma]
    exact ⟨built.areas, built.offsets, tree.low⟩

theorem loaded_of_areas (rep : Rep (fun n => (w.vma n).rbt) (w.ctx c).rbNode 0 shape)
    (areas : ∀ n ∈ shape.inorder, ∃ r ∈ requests ino ps, (w.vma n).area = r.area)
    (offsets : ∀ r ∈ requests ino ps, r.area.vmaOff % 4096 = 0) : Loaded (memCtxOf w c) shape := by
  refine ⟨rep, ?_, ?_, ?_⟩
  · intro n member
    obtain ⟨r, asked, same⟩ := areas n member
    have prot : (w.vma n).vmaProt = r.prot := congrArg Vma.vmaProt same
    simp only [memCtxOf, prot]
    exact (requests_prot r asked).1
  · intro n member file
    obtain ⟨r, asked, same⟩ := areas n member
    have prot : (w.vma n).vmaProt = r.prot := congrArg Vma.vmaProt same
    have inode : (w.vma n).vmaIno = r.ino := congrArg Vma.vmaIno same
    simp only [memCtxOf, prot, inode] at file ⊢
    exact (requests_prot r asked).2 file
  · intro n member
    obtain ⟨r, asked, same⟩ := areas n member
    have off : (w.vma n).area.vmaOff = r.area.vmaOff := by rw [same]
    have aligned := offsets r asked
    rw [← off] at aligned
    exact aligned

theorem brings_request (words : ∀ r ∈ rs, r.va < 2 ^ 32 ∧ r.off < 2 ^ 32)
    (areas : ∀ n ∈ shape.inorder, ∃ r ∈ rs, (ctx.vma n).area = r.area)
    (offsets : ∀ r ∈ rs, r.area.vmaOff % 4096 = 0) (word : va < 2 ^ 32) (wordB : b < 2 ^ 32)
    (same : SamePage b va) :
    brings d ctx shape b va = none ∧ (¬ ∃ r, Leads ctx shape b r) ∨
    (∃ r ∈ rs, Leads ctx shape b r) ∧
      ∀ r ∈ rs, Leads ctx shape b r → brings d ctx shape b va = requestByte d r va := by
  unfold brings
  cases found : covering ctx.vma b shape with
  | none =>
    refine .inl ⟨rfl, ?_⟩
    rintro ⟨r, n, other, -⟩
    cases found.symm.trans other
  | some n =>
    obtain ⟨r, asked, area⟩ := areas n (covering_reaches found).1
    refine .inr ⟨⟨r, asked, n, found, area⟩, ?_⟩
    rintro q asked' ⟨n', again, area'⟩
    cases found.symm.trans again
    exact areaByte_request (words q asked') (offsets q asked') area' word wordB same

theorem brings_iff (words : ∀ r ∈ rs, r.va < 2 ^ 32 ∧ r.off < 2 ^ 32)
    (areas : ∀ n ∈ shape.inorder, ∃ r ∈ rs, (ctx.vma n).area = r.area)
    (offsets : ∀ r ∈ rs, r.area.vmaOff % 4096 = 0) (word : va < 2 ^ 32) (e : UInt8) :
    Brings d ctx shape va e ↔ AsWanted d ctx shape rs va e := by
  have cases := fun b (wordB : b < 2 ^ 32) same =>
    brings_request (d := d) words areas offsets word wordB (b := b) same
  constructor
  · rintro ⟨low, own, others⟩
    refine ⟨low, ?_, ?_⟩
    · rcases cases va word ⟨rfl, rfl⟩ with ⟨none, -⟩ | ⟨⟨r, asked, leads⟩, byte⟩
      · cases own.symm.trans none
      · exact ⟨r, asked, leads, (byte r asked leads).symm.trans own⟩
    · intro b wordB same r asked leads
      rcases cases b wordB same with ⟨-, nowhere⟩ | ⟨-, byte⟩
      · exact absurd ⟨r, leads⟩ nowhere
      · rw [← byte r asked leads]
        exact others b wordB same
  · rintro ⟨low, ⟨r, asked, leads, own⟩, others⟩
    refine ⟨low, ?_, ?_⟩
    · rcases cases va word ⟨rfl, rfl⟩ with ⟨-, nowhere⟩ | ⟨-, byte⟩
      · exact absurd ⟨r, leads⟩ nowhere
      · exact (byte r asked leads).trans own
    · intro b wordB same
      rcases cases b wordB same with ⟨none, -⟩ | ⟨⟨q, asked', leads'⟩, byte⟩
      · exact .inl none
      · rw [byte q asked' leads']
        exact others b wordB same q asked' leads'

def fileDisk (bytes : List UInt8) (short : bytes.length < 2 ^ 32) : Disk where
  inode := fun _ => ⟨bytes.length, id⟩
  block := fun b i => bytes.getD (b * 1024 + i) 0
  sizes := fun _ => short

def wholeFile : List Phdr := [⟨1, 0, 0x400000, 84, 84⟩]

def pairShape : Shape := .node 16 .leaf (.node 32 .leaf .leaf)

instance decidableRep (rb : Nat → RbNode) : (root parent : Nat) → (s : Shape) →
    Decidable (Rep rb root parent s)
  | root, _, .leaf => inferInstanceAs (Decidable (root = 0))
  | root, parent, .node a l r =>
    have := decidableRep rb (rb a).left a l
    have := decidableRep rb (rb a).right a r
    inferInstanceAs (Decidable (root = a ∧ a ≠ 0 ∧ rbParent (rb a) = parent ∧
      Rep rb (rb a).left a l ∧ Rep rb (rb a).right a r))

theorem sampleSupply_provided (few : n ≤ 3) : Provided sampleWorld sampleSupply n where
  ctx := by
    rintro a eq
    cases eq
    decide
  pgd := by
    rintro f eq
    cases eq
    decide
  vmas := ⟨⟨by decide, by decide⟩, by decide⟩
  long := few

theorem exec_misreads {byte : Option UInt8} {supply : Supply} (ps : List Phdr)
    (accepted : programHeaders sampleKernel (fileImage (elf ps)) = some ps)
    (provided : Provided sampleWorld supply (requests 5 ps).length)
    (ran : ∃ w c,
      execImage sampleKernel sampleWorld 5 64 (fileImage (elf ps)) supply = .ok (w, some c) ∧
      Rep (fun n => (w.vma n).rbt) (w.ctx c).rbNode 0 shape ∧
      brings d (memCtxOf w c) shape va va = byte) (word : va < 2 ^ 32) (differs : byte ≠ some e) :
    ∃ w c, execImage sampleKernel sampleWorld 5 64 (fileImage (elf ps)) supply = .ok (w, some c) ∧
      ¬ Yields d (walk w) (memCtxOf w c) va e := by
  obtain ⟨w, c, ran, rep, rfl⟩ := ran
  refine ⟨w, c, ran, fun yields => differs ?_⟩
  obtain ⟨areas, offsets, enough⟩ := exec_areas sampleWorld_ready accepted provided ran rep
  exact ((yields_iff (loaded_of_areas rep areas offsets) enough word e).mp yields).2.1

def longTail : List Phdr := [⟨1, 0, 0x400000, 52, 84⟩]

def sideBySide : List Phdr :=
  [⟨1, 0, 0x300000, 0, 0x1000⟩, ⟨1, 0, 0x400000, 148, 148⟩, ⟨1, 0, 0x401000, 0, 0x1000⟩]

def sideSupply : Supply := ⟨true, some 128, some 7, [some 16, some 32, some 48, some 80]⟩

def sideShape : Shape := .node 32 (.node 16 .leaf .leaf) (.node 48 .leaf (.node 80 .leaf .leaf))

theorem sideSupply_provided : Provided sampleWorld sideSupply 4 where
  ctx := by
    rintro a eq
    cases eq
    decide
  pgd := by
    rintro f eq
    cases eq
    decide
  vmas := ⟨⟨by decide, by decide⟩, by decide⟩
  long := by decide

theorem longTail_short : (elf longTail).length < 2 ^ 32 := by decide +kernel

theorem sideBySide_short : (elf sideBySide).length < 2 ^ 32 := by decide +kernel

end ScaraOS.Exec
