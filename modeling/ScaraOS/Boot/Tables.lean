import ScaraOS.Boot.Model
import ScaraOS.Paging.Invariant

/-! The tables `ia32_mm_init` builds: what the words of the directory and of the tables
are when the kernel begins to run on them, and where they lead. -/
namespace ScaraOS.Boot

open Function Paging

theorem pa_va {x : Nat} (word : x < 2 ^ 32) : pa (va x) = x := by
  unfold pa va pageOffset
  omega

theorem va_page {page : Nat} (low : page < 2 ^ 18) :
    va (page * 4096) = pageOffset + page * 4096 := by
  unfold va pageOffset
  omega

theorem dir_page {page : Nat} (low : page < 2 ^ 18) :
    dir (va (page * 4096)) = 768 + page / 1024 := by
  rw [dir_eq, va_page low]
  unfold pageOffset
  omega

theorem tbl_page {page : Nat} (low : page < 2 ^ 18) : tbl (va (page * 4096)) = page % 1024 := by
  rw [tbl_eq, va_page low]
  unfold pageOffset
  omega

variable {img : Image} {m m' : Mem} {k i nr a page pages : Nat} {b : Bootmem} {es : List Entry}

theorem frame_of_pde {t c : Nat} (low : page < 2 ^ 18) (table : t < 2 ^ 20) (flags : c < 4096)
    (set : c % 2 = 1) (pde : m (img.initPgd * 1024 + (768 + page / 1024)) = t * 4096 + c) :
    (translate (words m) img.initPgd (va (page * 4096))).map Mapping.frame =
      if m (t * 1024 + page % 1024) % 2 = 0 then none
      else some (m (t * 1024 + page % 1024) / 4096 % 2 ^ 20) := by
  have tableOf_pde : tableOf (t * 4096 + c) = t := by
    rw [tableOf_eq]
    omega
  have here : ¬ (t * 4096 + c) % 2 = 0 := by omega
  unfold Paging.translate words
  simp only [dir_page low, tbl_page low, pde, present_eq, if_neg here, tableOf_pde]
  split
  · rfl
  · rw [Option.map_some, tableOf_eq]
    rfl

theorem translate_no_pde (low : page < 2 ^ 18)
    (pde : m (img.initPgd * 1024 + (768 + page / 1024)) = 0) :
    translate (words m) img.initPgd (va (page * 4096)) = none := by
  apply translate_absent
  rw [dir_page low]
  unfold words
  rw [pde]
  rfl

theorem Image.room (img : Image) : 256 < img.initPgd - 2 := by
  have code := img.code
  have data := img.data
  have bss := img.bss
  omega

theorem or_seven (f : Nat) : f <<< 12 ||| present ||| readWrite ||| user = f * 4096 + 7 := by
  rw [Nat.or_assoc, Nat.or_assoc]
  exact Bits.or_low (by decide) f

theorem or_three (f : Nat) : f <<< 12 ||| present ||| readWrite = f * 4096 + 3 := by
  rw [Nat.or_assoc]
  exact Bits.or_low (by decide) f

theorem or_one (f : Nat) : f <<< 12 ||| present = f * 4096 + 1 := Bits.or_low (by decide) f

theorem setupInitmem_pde (img : Image) (m : Mem) :
    setupInitmem img m (img.initPgd * 1024 + 768) = img.initPgt * 4096 + 7 := by
  have slot : dir pageOffset = 768 := by decide
  unfold setupInitmem
  simp only [slot, update_self, or_seven]

theorem setupInitmem_slot (img : Image) (m : Mem) (low : 0 < k) (slot : k < 1024) (other : k ≠ 768) :
    setupInitmem img m (img.initPgd * 1024 + k) = 0 := by
  have room := img.room
  have kernel : dir pageOffset = 768 := by decide
  unfold setupInitmem
  simp only [kernel]
  rw [update_of_ne (by omega), update_of_ne (by omega),
    Loops.stores_outside, Loops.stores_inside]
  · exact ⟨k, List.mem_range.mpr slot, rfl⟩
  · exact fun _ _ _ => rfl
  · intro i member
    have := List.mem_range.mp member
    have apart := img.pgt
    omega

theorem setupInitmem_pte (img : Image) (m : Mem) (entry : i < 1024) :
    setupInitmem img m (img.initPgt * 1024 + i) = i * 4096 + 7 := by
  have room := img.room
  have kernel : dir pageOffset = 768 := by decide
  have apart := img.pgt
  unfold setupInitmem
  simp only [kernel]
  rw [update_of_ne (by omega), update_of_ne (by omega), Loops.stores_inside]
  · exact ⟨i, List.mem_range.mpr entry, rfl⟩
  · intro j _ eq
    have same : j = i := by omega
    rw [same, or_seven]

theorem direct_initial (low : page < 1024)
    (same : ∀ a, img.initPgd * 1024 + 768 ≤ a → a < img.bootmemBegin * 1024 →
      m' a = setupInitmem img m a) : direct img m' page = true := by
  have room := img.room
  have small := img.small
  have pgd := img.begins
  have pgt := img.pgt
  have first : page / 1024 = 0 := by omega
  have pde : m' (img.initPgd * 1024 + (768 + page / 1024)) = img.initPgt * 4096 + 7 := by
    rw [first, same _ (by omega) (by omega)]
    exact setupInitmem_pde img m
  have pte : m' (img.initPgt * 1024 + page % 1024) = page * 4096 + 7 := by
    rw [Nat.mod_eq_of_lt low, same _ (by omega) (by omega)]
    exact setupInitmem_pte img m low
  unfold direct
  rw [frame_of_pde (by omega) (by omega) (by decide) (by decide) pde, pte, if_neg (by omega)]
  simp only [Option.some.injEq, decide_eq_true_eq]
  omega

structure RamMapped (img : Image) (nr : Nat) (m m' : Mem) : Prop where
  pte : ∀ i < nr, m' (img.bootmemBegin * 1024 + i) = i * 4096 + 3
  pde : ∀ k, k * 1024 < nr →
    m' (img.initPgd * 1024 + (768 + k)) = (img.bootmemBegin + k) * 4096 + 3
  slots : ∀ k < 256, nr ≤ k * 1024 →
    m' (img.initPgd * 1024 + (768 + k)) = m (img.initPgd * 1024 + (768 + k))
  same : ∀ a, a / 1024 ≠ img.initPgd →
    a < img.bootmemBegin * 1024 ∨ img.bootmemBegin * 1024 + nr ≤ a → m' a = m a

theorem mem_tables :
    i ∈ (List.range nr).filter (fun i => i &&& 0x3ff = 0) ↔ i < nr ∧ i % 1024 = 0 := by
  have mask : i &&& 0x3ff = i % 1024 := Nat.and_two_pow_sub_one_eq_mod i 10
  simp only [List.mem_filter, List.mem_range, decide_eq_true_eq, mask]

theorem slot_of_table (low : i < 2 ^ 18) : dir (va (i <<< 12)) = 768 + i / 1024 := by
  rw [Nat.shiftLeft_eq]
  exact dir_page low

theorem table_address (low : page < 2 ^ 20) :
    pa (va (page * 4096)) + k * 1024 * 4 = (page + k) <<< 12 := by
  rw [pa_va (by omega), Nat.shiftLeft_eq]
  omega

theorem mapRam_stores (low : nr ≤ 2 ^ 18)
    (ran : mapRam img nr (va (img.bootmemBegin * 4096)) m = .ok m') : RamMapped img nr m m' := by
  have room := img.room
  have small := img.small
  have pgd := img.begins
  have array : pa (va (img.bootmemBegin * 4096)) / 4 = img.bootmemBegin * 1024 := by
    rw [pa_va (by omega)]
    omega
  unfold mapRam at ran
  split at ran
  case isFalse => cases ran
  case isTrue =>
  cases ran
  simp only [array]
  constructor
  · intro i entry
    rw [Loops.stores_outside, Loops.stores_inside]
    · exact ⟨i, List.mem_range.mpr entry, rfl⟩
    · intro j _ eq
      have same : j = i := by omega
      rw [same, or_three]
    · intro j member
      have table := mem_tables.mp member
      rw [slot_of_table (by omega)]
      omega
  · intro k table
    apply Loops.stores_inside
    · refine ⟨k * 1024, mem_tables.mpr ⟨table, by omega⟩, ?_⟩
      rw [slot_of_table (by omega)]
      omega
    · intro j member eq
      have frame := mem_tables.mp member
      rw [slot_of_table (by omega)] at eq
      have first : j = k * 1024 := by omega
      rw [first, table_address (by omega), or_three]
  · intro k slot none_there
    rw [Loops.stores_outside, Loops.stores_outside, update_of_ne (by omega)]
    · intro j _
      omega
    · intro j member
      have frame := mem_tables.mp member
      rw [slot_of_table (by omega)]
      omega
  · intro a other out
    rw [Loops.stores_outside, Loops.stores_outside, update_of_ne (by omega)]
    · intro j member
      have := List.mem_range.mp member
      omega
    · intro j member
      have frame := mem_tables.mp member
      rw [slot_of_table (by omega)]
      omega

theorem writeProtect_stores
    (ran : writeProtect img (va (img.bootmemBegin * 4096)) (va (imageBegin * 4096))
      (img.rodataEnd * 4096 - imageBegin * 4096) m = .ok m') :
    (∀ i, 256 ≤ i → i < img.rodataEnd → m' (img.bootmemBegin * 1024 + i) = i * 4096 + 1) ∧
      ∀ a, a < img.bootmemBegin * 1024 + 256 ∨ img.bootmemBegin * 1024 + img.rodataEnd ≤ a →
        m' a = m a := by
  have code := img.code
  have small := img.small
  have array : pa (va (img.bootmemBegin * 4096)) / 4 = img.bootmemBegin * 1024 := by
    rw [pa_va (by omega)]
    omega
  have start : pa (va (imageBegin * 4096)) / 4096 * 4096 = 256 * 4096 := by decide
  have stop : (256 * 4096 + (img.rodataEnd * 4096 - imageBegin * 4096) + 0xfff) / 4096 * 4096 / 4096 =
      img.rodataEnd := by
    unfold imageBegin
    omega
  unfold writeProtect at ran
  simp only [start, stop, array] at ran
  split at ran
  case isFalse => cases ran
  case isTrue =>
  obtain rfl := Except.ok.inj ran
  constructor
  · intro i low high
    apply Loops.stores_inside
    · exact ⟨i, List.mem_range'_1.mpr (by omega), rfl⟩
    · intro j _ eq
      have same : j = i := by omega
      rw [same, or_one]
  · intro a out
    apply Loops.stores_outside
    intro j member
    have := List.mem_range'_1.mp member
    omega

def lastEnd (es : List Entry) : Nat :=
  ((scanned es).getLast?.map fun e => (e.base + e.length) % 2 ^ 32).getD 0

theorem type_counts (e : Entry) : e.type ||| (mbfMem ||| mbfBootdev) ≠ 0 := by
  intro zero
  exact absurd (Nat.or_eq_zero_iff.mp zero).2 (by decide)

theorem sizeUpRam_eq (es : List Entry) : sizeUpRam es = lastEnd es := by
  have last : ∀ (l : List Entry) (tot : Nat),
      l.foldl
        (fun tot e =>
          if e.type ||| (mbfMem ||| mbfBootdev) ≠ 0 then (e.baseAddrLow + e.lengthLow) % 2 ^ 32
          else tot) tot =
        (l.getLast?.map fun e => (e.base + e.length) % 2 ^ 32).getD tot := by
    intro l
    induction l with
    | nil => exact fun _ => rfl
    | cons e rest ih =>
      intro tot
      have word : (e.baseAddrLow + e.lengthLow) % 2 ^ 32 = (e.base + e.length) % 2 ^ 32 := by
        unfold Entry.baseAddrLow Entry.lengthLow
        omega
      rw [List.foldl_cons, ih, if_pos (type_counts e), word]
      cases rest with
      | nil => rfl
      | cons f rest =>
        rw [List.getLast?_cons_cons]
        cases eq : (f :: rest).getLast? with
        | none => simp at eq
        | some g => rfl
  exact last (scanned es) 0

theorem sizeUpRam_lt (es : List Entry) : sizeUpRam es < 2 ^ 32 := by
  rw [sizeUpRam_eq]
  unfold lastEnd
  cases (scanned es).getLast? with
  | none => decide
  | some e => exact Nat.mod_lt _ (by decide)

theorem pfaPage_eq (img : Image) (es : List Entry) :
    pfaPage img es = img.bootmemBegin + nrPgtbls es := rfl

theorem bootmemPage_eq (img : Image) (es : List Entry) :
    bootmemPage img es = pfaPage img es + pfaPages es := rfl

structure Sizes (img : Image) (es : List Entry) : Prop where
  frames : nrPhyspages es < 2 ^ 20
  tables : 0 < nrPgtbls es
  short : nrPhyspages es < nrPgtbls es * 1024 + 1024
  array : nrPhyspages es * 28 ≤ pfaPages es * 4096
  tight : pfaPages es * 4096 < nrPhyspages es * 28 + 4096
  low : bootmemPage img es < 10000

theorem sizes (img : Image) (es : List Entry) : Sizes img es := by
  have bound := sizeUpRam_lt es
  have small := img.small
  have tables : nrPgtbls es = 1 ∧ sizeUpRam es < 2 ^ 22 ∨ nrPgtbls es = sizeUpRam es / 2 ^ 22 ∧
      0 < sizeUpRam es / 2 ^ 22 := by
    unfold nrPgtbls
    split
    · exact .inl ⟨rfl, by omega⟩
    · exact .inr ⟨rfl, by omega⟩
  have frames : nrPhyspages es = sizeUpRam es / 4096 := rfl
  have array : pfaPages es = (nrPhyspages es * 28 + 0xfff) / 4096 := rfl
  refine ⟨by omega, by omega, by omega, by omega, by omega, ?_⟩
  rw [bootmemPage_eq, pfaPage_eq]
  omega

theorem bootmemAlloc_ok {r : Nat × Bootmem}
    (ptr : b.bootmemPtr = va (page * 4096)) (low : page + pages < 2 ^ 18) :
    bootmemAlloc img b pages = .ok r ↔
      va ((page + pages) * 4096) ≤ b.bootmemEnd ∧ (∀ k < pages, direct img b.mem (page + k)) ∧
        r = (va (page * 4096),
          ⟨clear b.mem page pages, va ((page + pages) * 4096), b.bootmemEnd⟩) := by
  have next : (va (page * 4096) + pages * 4096) % 2 ^ 32 = va ((page + pages) * 4096) := by
    unfold va
    omega
  have here : pa (va (page * 4096)) / 4096 = page := by
    rw [pa_va (by omega)]
    omega
  unfold bootmemAlloc
  rw [ptr, next, here]
  by_cases full : va ((page + pages) * 4096) > b.bootmemEnd
  · rw [if_pos full]
    constructor
    · exact fun stopped => nomatch stopped
    · exact fun fits => absurd fits.1 (Nat.not_le.mpr full)
  · rw [if_neg full]
    by_cases mapped : (List.range pages).all fun k => direct img b.mem (page + k)
    · rw [if_pos mapped]
      rw [List.all_eq_true] at mapped
      constructor
      · intro ok
        exact ⟨Nat.not_lt.mp full, fun k inside => mapped k (List.mem_range.mpr inside),
          (Except.ok.inj ok).symm⟩
      · exact fun fits => congrArg Except.ok fits.2.2.symm
    · rw [if_neg mapped]
      constructor
      · exact fun stopped => nomatch stopped
      · intro fits
        refine absurd (List.all_eq_true.mpr ?_) mapped
        exact fun k member => fits.2.1 k (List.mem_range.mp member)

theorem clear_outside (out : a < page * 1024 ∨ (page + pages) * 1024 ≤ a) :
    clear m page pages a = m a :=
  if_neg (by omega)

theorem clear_inside (low : page * 1024 ≤ a) (high : a < (page + pages) * 1024) :
    clear m page pages a = 0 := if_pos (by omega)

structure KernelMapped (img : Image) (es : List Entry) (m : Mem) : Prop where
  pde : ∀ k, k * 1024 < nrPhyspages es →
    m (img.initPgd * 1024 + (768 + k)) = (img.bootmemBegin + k) * 4096 + 3
  pte : ∀ i < nrPhyspages es, i < nrPgtbls es * 1024 →
    m (img.bootmemBegin * 1024 + i) = i * 4096 + 1 ∨ m (img.bootmemBegin * 1024 + i) = i * 4096 + 3
  slots : ∀ k < 256, 0 < k → nrPhyspages es ≤ k * 1024 →
    m (img.initPgd * 1024 + (768 + k)) = 0
  empty : ∀ i, nrPhyspages es ≤ i → img.rodataEnd ≤ i → i < nrPgtbls es * 1024 →
    m (img.bootmemBegin * 1024 + i) = 0

theorem slot_below (img : Image) (es : List Entry) (slot : k < 256) :
    img.initPgd * 1024 + (768 + k) < pfaPage img es * 1024 := by
  have begins := img.begins
  rw [pfaPage_eq]
  omega

theorem KernelMapped.congr (mapped : KernelMapped img es m)
    (same : ∀ a, img.initPgd * 1024 ≤ a → a < pfaPage img es * 1024 → m' a = m a)
    (low : nrPhyspages es ≤ 2 ^ 18) : KernelMapped img es m' := by
  have room := img.room
  have tables := (sizes img es).tables
  have pgd := img.begins
  have array := pfaPage_eq img es
  constructor
  · intro k table
    have slot : k < 256 := by omega
    rw [same _ (by omega) (slot_below img es slot)]
    exact mapped.pde k table
  · intro i frame entry
    rw [same _ (by omega) (by omega)]
    exact mapped.pte i frame entry
  · intro k slot later beyond
    rw [same _ (by omega) (slot_below img es slot)]
    exact mapped.slots k slot later beyond
  · intro i beyond data entry
    rw [same _ (by omega) (by omega)]
    exact mapped.empty i beyond data entry

theorem mapKernel_ok :
    mapKernel img es m = .ok b ↔ ∃ m₁ m₂,
      va (pfaPage img es * 4096) ≤ setupMaxBootmem img es ∧
      (∀ k < nrPgtbls es, direct img (setupInitmem img m) (img.bootmemBegin + k)) ∧
      mapRam img (nrPhyspages es) (va (img.bootmemBegin * 4096))
        (clear (setupInitmem img m) img.bootmemBegin (nrPgtbls es)) = .ok m₁ ∧
      writeProtect img (va (img.bootmemBegin * 4096)) (va (imageBegin * 4096))
        (img.rodataEnd * 4096 - imageBegin * 4096) m₁ = .ok m₂ ∧
      b = ⟨m₂, va (pfaPage img es * 4096), setupMaxBootmem img es⟩ := by
  have low := (sizes img es).low
  have fits_page : img.bootmemBegin + nrPgtbls es < 2 ^ 18 := by
    rw [bootmemPage_eq, pfaPage_eq] at low
    omega
  have ptr : (Bootmem.mk (setupInitmem img m) (va (img.bootmemBegin * 4096))
      (setupMaxBootmem img es)).bootmemPtr = va (img.bootmemBegin * 4096) := rfl
  have alloc := fun r => @bootmemAlloc_ok img _ _ _ r ptr fits_page
  unfold mapKernel
  rw [pfaPage_eq]
  constructor
  · intro ran
    obtain ⟨r, first, later⟩ := Loops.bind_ok.mp ran
    obtain ⟨fits, mapped, rfl⟩ := (alloc r).mp first
    obtain ⟨m₁, ram, later⟩ := Loops.bind_ok.mp later
    obtain ⟨m₂, protect, later⟩ := Loops.bind_ok.mp later
    exact ⟨m₁, m₂, fits, mapped, ram, protect, (Except.ok.inj later).symm⟩
  · rintro ⟨m₁, m₂, fits, mapped, ram, protect, rfl⟩
    refine Loops.bind_ok.mpr ⟨_, (alloc _).mpr ⟨fits, mapped, rfl⟩, ?_⟩
    refine Loops.bind_ok.mpr ⟨m₁, ram, ?_⟩
    exact Loops.bind_ok.mpr ⟨m₂, protect, rfl⟩

theorem mapKernel_mapped (low : nrPhyspages es ≤ 2 ^ 18) (ran : mapKernel img es m = .ok b) :
    KernelMapped img es b.mem := by
  obtain ⟨m₁, m₂, -, -, ram, protect, rfl⟩ := mapKernel_ok.mp ran
  have stored := mapRam_stores low ram
  obtain ⟨code, rest⟩ := writeProtect_stores protect
  have room := img.room
  have small := img.small
  have begins := img.code
  have tables := (sizes img es).tables
  have pgd := img.begins
  change KernelMapped img es m₂
  constructor
  · intro k table
    rw [rest _ (by omega)]
    exact stored.pde k table
  · intro i frame entry
    by_cases inside : 256 ≤ i ∧ i < img.rodataEnd
    · exact .inl (code i inside.1 inside.2)
    · rw [rest _ (by omega)]
      exact .inr (stored.pte i frame)
  · intro k slot later beyond
    rw [rest _ (by omega), stored.slots k slot beyond, clear_outside (by omega)]
    exact setupInitmem_slot img m (by omega) (by omega) (by omega)
  · intro i beyond data entry
    rw [rest _ (by omega), stored.same _ (by omega) (by omega)]
    exact clear_inside (by omega) (by omega)

section

variable {img : Image} {es : List Entry} {m : Mem} (mapped : KernelMapped img es m)
  (low : nrPhyspages es ≤ 2 ^ 18)

include mapped low

theorem KernelMapped.frame_eq (frame : i < nrPhyspages es) :
    (translate (words m) img.initPgd (va (i * 4096))).map Mapping.frame =
      if m (img.bootmemBegin * 1024 + i) % 2 = 0 then none
      else some (m (img.bootmemBegin * 1024 + i) / 4096 % 2 ^ 20) := by
  have small := img.small
  have word : (img.bootmemBegin + i / 1024) * 1024 + i % 1024 = img.bootmemBegin * 1024 + i := by
    omega
  rw [frame_of_pde (by omega) (by omega) (by decide) (by decide) (mapped.pde (i / 1024) (by omega)),
    word]

theorem KernelMapped.direct (frame : i < nrPhyspages es) (entry : i < nrPgtbls es * 1024) :
    (translate (words m) img.initPgd (va (i * 4096))).map Mapping.frame = some i := by
  rw [mapped.frame_eq low frame]
  rcases mapped.pte i frame entry with eq | eq
  · rw [eq, if_neg (by omega)]
    exact congrArg some (by omega)
  · rw [eq, if_neg (by omega)]
    exact congrArg some (by omega)

theorem KernelMapped.not_direct (some_frame : 0 < nrPhyspages es) (beyond : nrPhyspages es ≤ i)
    (data : img.rodataEnd ≤ i) (page : i < 2 ^ 18) (enough : nrPhyspages es ≤ nrPgtbls es * 1024) :
    translate (words m) img.initPgd (va (i * 4096)) = none := by
  have small := img.small
  by_cases table : i / 1024 * 1024 < nrPhyspages es
  · have word : (img.bootmemBegin + i / 1024) * 1024 + i % 1024 = img.bootmemBegin * 1024 + i := by
      omega
    have leads := frame_of_pde page (by omega) (by decide) (by decide)
      (mapped.pde (i / 1024) table)
    rw [word, mapped.empty i beyond data (by omega)] at leads
    exact Option.map_eq_none_iff.mp leads
  · exact translate_no_pde page (mapped.slots (i / 1024) (by omega) (by omega) (Nat.not_lt.mp table))

end

end ScaraOS.Boot
