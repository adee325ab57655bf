import ScaraOS.Boot.Populate

/-! What `ia32_mm_init` leaves behind: which frames are free, and what the kernel's
directory maps. -/
namespace ScaraOS.Boot

open Function Paging

set_option maxRecDepth 4000

variable {m m₀ : Mem} {b : Bootmem} {i pfa target k : Nat} {t : Mapping} {s : State}

section

variable {img : Image} {es : List Entry}

structure Live (img : Image) (es : List Entry) (m₀ : Mem) (s : State) : Prop where
  mapped : KernelMapped img es s.mem
  quiet : Quiet (pfaPage img es) s.mem
  tail : Tail img es s.mem
  counts : ∀ i < nrPhyspages es, count s.mem (pfaOf img es) i = count m₀ (pfaOf img es) i
  freed : ∀ i ∈ s.freed, i < nrPhyspages es ∧ count m₀ (pfaOf img es) i = 0
  ptr : s.bootmemPtr = va (bootmemPage img es * 4096)

def Held (img : Image) (es : List Entry) (m : Mem) : Prop :=
  ∀ i, count m (pfaOf img es) i = 0 → Outside img es i

def marked (img : Image) (es : List Entry) (m : Mem) : Mem :=
  reservePages (pfaOf img es) (va (imageBegin * 4096))
    (va (bootmemPage img es * 4096) - va (imageBegin * 4096))
    (reserveFromE820 (pfaOf img es) es
      (clear (buddyInit img m) (pfaPage img es) (pfaPages es)))

theorem frameArray_ok {r : Nat × Bootmem} :
    frameArray img es m = .ok r ↔ ∃ b, mapKernel img es m = .ok b ∧
      va (bootmemPage img es * 4096) ≤ setupMaxBootmem img es ∧
      (∀ k < pfaPages es, direct img (buddyInit img b.mem) (pfaPage img es + k)) ∧
      r = (pfaOf img es,
        ⟨marked img es b.mem, va (bootmemPage img es * 4096), setupMaxBootmem img es⟩) := by
  have pages := bootmemPage_eq img es
  have low : pfaPage img es + pfaPages es < 2 ^ 18 := by
    have := (sizes img es).low
    omega
  unfold frameArray
  constructor
  · intro ran
    obtain ⟨b, kernel, later⟩ := Loops.bind_ok.mp ran
    obtain ⟨a, alloc, later⟩ := Loops.bind_ok.mp later
    obtain ⟨_, _, _, _, _, _, eq⟩ := mapKernel_ok.mp kernel
    have ptr : (Bootmem.mk (buddyInit img b.mem) b.bootmemPtr b.bootmemEnd).bootmemPtr =
        va (pfaPage img es * 4096) := by rw [eq]
    have top : b.bootmemEnd = setupMaxBootmem img es := by rw [eq]
    obtain ⟨fits, mapped, rfl⟩ := (bootmemAlloc_ok ptr low).mp alloc
    rw [← pages, top] at fits
    refine ⟨b, kernel, fits, mapped, ?_⟩
    rw [← Except.ok.inj later, pages, top]
    unfold marked pfaOf
    rw [pages]
  · rintro ⟨b, kernel, fits, mapped, rfl⟩
    obtain ⟨_, _, _, _, _, _, eq⟩ := mapKernel_ok.mp kernel
    have ptr : (Bootmem.mk (buddyInit img b.mem) b.bootmemPtr b.bootmemEnd).bootmemPtr =
        va (pfaPage img es * 4096) := by rw [eq]
    have top : b.bootmemEnd = setupMaxBootmem img es := by rw [eq]
    have room : va ((pfaPage img es + pfaPages es) * 4096) ≤ b.bootmemEnd := by
      rw [← pages, top]
      exact fits
    refine Loops.bind_ok.mpr ⟨b, kernel, ?_⟩
    refine Loops.bind_ok.mpr ⟨_, (bootmemAlloc_ok ptr low).mpr ⟨room, mapped, rfl⟩, ?_⟩
    unfold marked pfaOf
    rw [pages, top]

theorem marked_held (img : Image) (es : List Entry) (m : Mem) : Held img es (marked img es m) := by
  intro i free
  have low := (sizes img es).low
  by_contra inside
  have within : 256 ≤ i ∧ i < bootmemPage img es := by
    unfold Outside imageBegin at inside
    omega
  have len : va (bootmemPage img es * 4096) - va (imageBegin * 4096) =
      (bootmemPage img es - 256) * 4096 := by
    unfold va imageBegin pageOffset
    omega
  refine absurd free ?_
  unfold marked pfaOf
  rw [len]
  have page : i * 4096 / 4096 = i := by omega
  have covers : ∀ m, count (reservePages (va (pfaPage img es * 4096)) (va (imageBegin * 4096))
      ((bootmemPage img es - 256) * 4096) m) (va (pfaPage img es * 4096)) (i * 4096 / 4096) ≠ 0 :=
    reservePages_covers (pfaPage_low img es) (by unfold imageBegin; omega)
      (by unfold imageBegin; omega) (by unfold imageBegin; omega)
  rw [page] at covers
  exact covers _

theorem marked_covered (ordered : Ordered es) (m : Mem) :
    Covered (pfaPage img es) es (marked img es m) (sizeUpRam es) := by
  have low := pfaPage_low img es
  have covered := reserveFromE820_covers low ordered
    (clear (buddyInit img m) (pfaPage img es) (pfaPages es))
  exact covered.mono (fun _ => id) (reservePages_marks low _ _ _)

theorem buddyInit_eq (img : Image) (m : Mem) :
    buddyInit img m = update (update m img.freeList (headPtr img))
      (img.freeList + 1) (headPtr img) := by
  have next := head_next img
  have prev := head_prev img
  unfold headPtr at next prev
  unfold buddyInit store headPtr
  simp only [next, prev]

theorem marked_marks (img : Image) (es : List Entry) (m : Mem) :
    Marks (pfaPage img es) (clear (buddyInit img m) (pfaPage img es) (pfaPages es))
      (marked img es m) :=
  (reserveFromE820_marks (pfaPage_low img es) es _).trans (reservePages_marks (pfaPage_low img es) _ _ _)

theorem marked_live (low : nrPhyspages es ≤ 2 ^ 18) (some_frame : 0 < nrPhyspages es)
    (kernel : mapKernel img es m = .ok b) :
    Live img es (marked img es b.mem)
      ⟨marked img es b.mem, va (bootmemPage img es * 4096), []⟩ := by
  have marks := marked_marks img es b.mem
  have below := head_below img
  have pgd := initPgd_lt img es
  have before : ∀ a, a < pfaPage img es * 1024 → marked img es b.mem a = buddyInit img b.mem a := by
    intro a inside
    rw [marks.before a inside, clear_outside (.inl inside)]
  constructor
  · apply (mapKernel_mapped low kernel).congr _ low
    intro a above inside
    refine (before a inside).trans ?_
    rw [buddyInit_eq, update_of_ne (by omega), update_of_ne (by omega)]
  · apply marks.quiet
    have pages := pfaPage_lt img some_frame
    rw [bootmemPage_eq] at pages
    constructor
    · intro j inside
      exact .inl (by rw [clear_inside (by omega) (by omega)])
    · intro i inside
      rw [clear_inside (by omega) (by omega)]
      exact Nat.zero_le 1
  · refine .inl ((before _ (by omega)).trans ?_)
    rw [buddyInit_eq, update_self]
  · exact fun _ _ => rfl
  · exact fun i member => absurd member List.not_mem_nil
  · rfl

theorem target_outside (mapped : KernelMapped img es m) (quiet : Quiet (pfaPage img es) m)
    (low : nrPhyspages es ≤ 2 ^ 18) (frame : i < nrPhyspages es) (out : Outside img es i)
    (leads : translate (words m) img.initPgd (va (i * 4096)) = some t) :
    Outside img es t.frame := by
  by_cases entry : i < nrPgtbls es * 1024
  · have own := mapped.direct low frame entry
    rw [leads] at own
    rw [Option.some.inj own]
    exact out
  · have short := (sizes img es).short
    have word : img.bootmemBegin * 1024 + i =
        pfaPage img es * 1024 + (i - nrPgtbls es * 1024) := by
      rw [pfaPage_eq]
      omega
    have eq := mapped.frame_eq low frame
    rw [leads, word, Option.map_some] at eq
    rcases quiet.words (i - nrPgtbls es * 1024) (by omega) with even | one
    · rw [if_pos even] at eq
      cases eq
    · rw [one, if_neg (by decide)] at eq
      rw [Option.some.inj eq]
      exact .inl (by decide)

def released (img : Image) (es : List Entry) (m : Mem) (i target : Nat) : Mem :=
  listAddTail
    (setCount (setType (poison (setCount m (pfaOf img es) i 1) target) (pfaOf img es) i pgFree)
      (pfaOf img es) i 0)
    (pagePtr img es i) (headPtr img)

theorem freePage_fault (leads : translate (words s.mem) img.initPgd (va (i * 4096)) = none) :
    freePage img pfa s i = .error .pageFault := by
  unfold freePage
  rw [leads]

theorem freePage_ok (leads : translate (words s.mem) img.initPgd (va (i * 4096)) = some t)
    (one : count (setType (poison s.mem t.frame) pfa i pgFree) pfa i = 1) :
    freePage img pfa s i = .ok { s with
      mem := listAddTail (setCount (setType (poison s.mem t.frame) pfa i pgFree) pfa i 0)
        (pfa + i * 28) (va (img.freeList * 4))
      freed := s.freed ++ [i] } := by
  have zero : ∀ m, count (setCount m pfa i 0) pfa i = 0 := by
    intro m
    rw [count_setCount, if_pos rfl]
  unfold freePage
  simp only [leads, one, Nat.one_ne_zero, if_false, Nat.sub_self, zero, ne_eq, not_true_eq_false]

theorem populate_free (frame : i < nrPhyspages es) (free : count s.mem (pfaOf img es) i = 0)
    (leads : translate (words (setCount s.mem (pfaOf img es) i 1)) img.initPgd (va (i * 4096)) =
      some t) (out : Outside img es t.frame) :
    populate img (pfaOf img es) s i =
      .ok { s with mem := released img es s.mem i t.frame, freed := s.freed ++ [i] } := by
  have one : count (setType (poison (setCount s.mem (pfaOf img es) i 1) t.frame)
      (pfaOf img es) i pgFree) (pfaOf img es) i = 1 := by
    rw [count_setType, count_poison out frame, count_setCount, if_pos rfl]
  have there : translate (words { s with mem := setCount s.mem (pfaOf img es) i 1 }.mem)
      img.initPgd (va (i * 4096)) = some t := leads
  unfold populate released pagePtr headPtr
  rw [if_neg (not_not_intro free), freePage_ok there one]

theorem unlinked_spares (frame : i < nrPhyspages es) (out : Outside img es target)
    (tail : Tail img es m) :
    Spares img es m (setCount (setType (poison (setCount m (pfaOf img es) i 1) target)
        (pfaOf img es) i pgFree) (pfaOf img es) i 0) ∧
      Tail img es (setCount (setType (poison (setCount m (pfaOf img es) i 1) target)
        (pfaOf img es) i pgFree) (pfaOf img es) i 0) := by
  have some_frame : 0 < nrPhyspages es := Nat.zero_lt_of_lt frame
  constructor
  · exact (((spares_setCount (Nat.le_refl 1)).trans (spares_poison out some_frame)).trans
      (spares_setType (Nat.zero_le 1))).trans (spares_setCount (Nat.zero_le 1))
  · have below := head_below img
    have data := img.data
    have code := img.code
    have pgd := initPgd_lt img es
    have pages := pfaPage_lt img some_frame
    have kernel : imageBegin * 1024 ≤ img.freeList + 1 := by
      unfold imageBegin
      omega
    have same : setCount (setType (poison (setCount m (pfaOf img es) i 1) target)
        (pfaOf img es) i pgFree) (pfaOf img es) i 0 (img.freeList + 1) = m (img.freeList + 1) := by
      unfold setCount setType
      rw [pfaWord, pfaWord, update_of_ne (by omega), update_of_ne (by omega),
        poison_inside out kernel (by omega), update_of_ne (by omega)]
    unfold Tail
    rw [same]
    exact tail

theorem released_count {j : Nat} (frame : i < nrPhyspages es) (other : j < nrPhyspages es)
    (out : Outside img es target) (tail : Tail img es m) (free : count m (pfaOf img es) i = 0) :
    count (released img es m i target) (pfaOf img es) j = count m (pfaOf img es) j := by
  unfold released
  rw [count_listAddTail frame (unlinked_spares frame out tail).2, count_setCount]
  by_cases same : j = i
  · rw [if_pos same, same, free]
  · rw [if_neg same, count_setType, count_poison out other, count_setCount, if_neg same]

theorem released_live (live : Live img es m₀ s) (low : nrPhyspages es ≤ 2 ^ 18)
    (frame : i < nrPhyspages es) (free : count s.mem (pfaOf img es) i = 0)
    (out : Outside img es target) :
    Live img es m₀
      { s with mem := released img es s.mem i target, freed := s.freed ++ [i] } := by
  obtain ⟨spares, tail⟩ := unlinked_spares frame out live.tail
  have all : Spares img es s.mem (released img es s.mem i target) :=
    spares.trans (spares_listAddTail frame tail)
  refine ⟨live.mapped.congr all.tables low, all.quiet live.quiet, tail_listAddTail frame tail,
    ?_, ?_, live.ptr⟩
  · intro j other
    exact (released_count frame other out live.tail free).trans (live.counts j other)
  · intro j member
    rcases List.mem_append.mp member with old | new
    · exact live.freed j old
    · rw [List.mem_singleton.mp new]
      exact ⟨frame, (live.counts i frame).symm.trans free⟩

theorem populate_live (held : Held img es m₀) (low : nrPhyspages es ≤ 2 ^ 18) {t : State}
    (frame : i < nrPhyspages es) (live : Live img es m₀ s)
    (ran : populate img (pfaOf img es) s i = .ok t) : Live img es m₀ t := by
  by_cases free : count s.mem (pfaOf img es) i = 0
  · have spares : Spares img es s.mem (setCount s.mem (pfaOf img es) i 1) :=
      spares_setCount (Nat.le_refl 1)
    have out : Outside img es i := held i ((live.counts i frame).symm.trans free)
    cases leads : translate (words (setCount s.mem (pfaOf img es) i 1)) img.initPgd
        (va (i * 4096)) with
    | none =>
      have there : translate (words { s with mem := setCount s.mem (pfaOf img es) i 1 }.mem)
          img.initPgd (va (i * 4096)) = none := leads
      unfold populate at ran
      rw [if_neg (not_not_intro free), freePage_fault there] at ran
      cases ran
    | some target =>
      have there := target_outside (live.mapped.congr spares.tables low)
        (spares.quiet live.quiet) low frame out leads
      rw [populate_free frame free leads there] at ran
      exact Except.ok.inj ran ▸ released_live live low frame free there
  · unfold populate at ran
    rw [if_pos free] at ran
    exact Except.ok.inj ran ▸ live

theorem populate_goes (held : Held img es m₀) (low : nrPhyspages es ≤ 2 ^ 18)
    (enough : nrPhyspages es ≤ nrPgtbls es * 1024) (frame : i < nrPhyspages es)
    (live : Live img es m₀ s) :
    ∃ t, populate img (pfaOf img es) s i = .ok t ∧ Live img es m₀ t := by
  by_cases free : count s.mem (pfaOf img es) i = 0
  · have spares : Spares img es s.mem (setCount s.mem (pfaOf img es) i 1) :=
      spares_setCount (Nat.le_refl 1)
    have out : Outside img es i := held i ((live.counts i frame).symm.trans free)
    have own := (live.mapped.congr spares.tables low).direct low frame (by omega)
    obtain ⟨target, leads, eq⟩ := Option.map_eq_some_iff.mp own
    have there : Outside img es target.frame := by
      rw [eq]
      exact out
    exact ⟨_, populate_free frame free leads there, released_live live low frame free there⟩
  · refine ⟨s, ?_, live⟩
    unfold populate
    rw [if_pos free]

theorem mmInitTo_cases (ran : mmInitTo k img es m = .ok s) :
    ∃ b, mapKernel img es m = .ok b ∧
      (List.range k).foldlM (populate img (pfaOf img es))
        ⟨marked img es b.mem, va (bootmemPage img es * 4096), []⟩ = .ok s := by
  unfold mmInitTo at ran
  obtain ⟨r, array, loop⟩ := Loops.bind_ok.mp ran
  obtain ⟨b, kernel, -, -, rfl⟩ := frameArray_ok.mp array
  exact ⟨b, kernel, loop⟩

theorem mmInitTo_live (low : nrPhyspages es ≤ 2 ^ 18) (within : k ≤ nrPhyspages es)
    (some_frame : 0 < nrPhyspages es) (ran : mmInitTo k img es m = .ok s) :
    ∃ b : Bootmem, Live img es (marked img es b.mem) s := by
  obtain ⟨b, kernel, loop⟩ := mmInitTo_cases ran
  have held := marked_held img es b.mem
  refine ⟨b, Loops.foldlM_invariant (Live img es (marked img es b.mem)) ?_
    (marked_live low some_frame kernel) loop⟩
  intro s i t member live step
  have := List.mem_range.mp member
  exact populate_live held low (by omega) live step

theorem Ordered.frames_low (ordered : Ordered es) : nrPhyspages es ≤ 2 ^ 18 := by
  have total : sizeUpRam es ≤ 2 ^ 30 := by
    rw [ordered.sizeUpRam_eq]
    cases last : es.getLast? with
    | none => exact Nat.zero_le _
    | some e => exact ordered.bound e (List.mem_of_getLast? last)
  unfold nrPhyspages
  omega

end

/-- Whatever frame the loop has come to, the frames on the free list are memory from
their first byte to their last, and no part of the kernel or of its boot memory. -/
theorem freed_frames_are_memory (img : Image) (es : List Entry) (m : Mem) (ordered : Ordered es)
    (k : Nat) (within : k ≤ nrPhyspages es) (s : State) (ran : mmInitTo k img es m = .ok s) :
    ∀ f ∈ s.freed, ∀ x, f * 4096 ≤ x → x < (f + 1) * 4096 →
      (∃ e ∈ es, e.type = mbfMem ∧ e.has x) ∧
        ¬ (imageBegin * 4096 ≤ x ∧ x < pa s.bootmemPtr) := by
  intro f member x above below
  have low := ordered.frames_low
  have page : x / 4096 = f := by omega
  by_cases some_frame : 0 < nrPhyspages es
  · obtain ⟨b, live⟩ := mmInitTo_live low within some_frame ran
    obtain ⟨frame, free⟩ := live.freed f member
    have total : x < sizeUpRam es := by
      unfold nrPhyspages at frame
      omega
    constructor
    · rcases marked_covered ordered b.mem x total with memory | marked
      · exact memory
      · rw [page] at marked
        exact absurd free marked
    · have out := marked_held img es b.mem f free
      have bound := (sizes img es).low
      rw [live.ptr, pa_va (by omega)]
      unfold Outside at out
      omega
  · -- with no frame at all the loop makes no turn
    obtain ⟨b, -, loop⟩ := mmInitTo_cases ran
    have none_left : k = 0 := by omega
    rw [none_left] at loop
    rw [← Except.ok.inj loop] at member
    exact absurd member List.not_mem_nil

def smallImage : Image where
  rodataEnd := 257
  initPgd := 260
  initPgt := 261
  bootmemBegin := 262
  freeList := 257 * 1024
  code := by decide
  data := by decide
  bss := by decide
  pgt := rfl
  begins := rfl
  small := by decide

/-- As a BIOS reports it: low memory with a reserved end that is no page, a hole, and
the rest. -/
def biosMap : List Entry :=
  [⟨0, 0x9fc00, 1⟩, ⟨0x9fc00, 0x400, 2⟩, ⟨0x100000, 0x20000, 1⟩]

theorem biosMap_ordered : Ordered biosMap := ⟨by decide, by decide, by decide⟩

theorem biosMap_freed :
    (mmInitTo 3 smallImage biosMap fun _ => 0).toOption.map State.freed = some [0, 1, 2] := by
  decide +kernel

theorem freed_frames_are_memory_bios : ∃ s, mmInitTo 3 smallImage biosMap (fun _ => 0) = .ok s ∧
    s.freed = [0, 1, 2] ∧ ∀ f ∈ s.freed, ∀ x, f * 4096 ≤ x → x < (f + 1) * 4096 →
      (∃ e ∈ biosMap, e.type = mbfMem ∧ e.has x) ∧
        ¬ (imageBegin * 4096 ≤ x ∧ x < pa s.bootmemPtr) := by
  have freed := biosMap_freed
  cases ran : mmInitTo 3 smallImage biosMap (fun _ => 0) with
  | error e => rw [ran] at freed; cases freed
  | ok s =>
    rw [ran] at freed
    exact ⟨s, rfl, Option.some.inj freed,
      freed_frames_are_memory smallImage biosMap _ biosMap_ordered 3 (by decide) s ran⟩

def entryWord (img : Image) (i : Nat) : Nat := img.bootmemBegin * 1024 + i

def BootAllocs (img : Image) (es : List Entry) : Prop :=
  va (pfaPage img es * 4096) ≤ setupMaxBootmem img es ∧
    va (bootmemPage img es * 4096) ≤ setupMaxBootmem img es

/-- `ia32_mm_init` comes to its end, and then every frame is where `PAGE_OFFSET` has it:
its address does not run over, the directory leads there, and the entry `map_ram` stored
is in the tables and as it was. -/
def DirectMapped (img : Image) (es : List Entry) (m : Mem) : Prop :=
  ∃ s, ia32MmInit img es m = .ok s ∧ ∀ i < nrPhyspages es,
    pageOffset + i * 4096 < 2 ^ 32 ∧
    (translate (words s.mem) img.initPgd (pageOffset + i * 4096)).map Mapping.frame = some i ∧
    (img.bootmemBegin * 1024 ≤ entryWord img i ∧
      entryWord img i < (img.bootmemBegin + nrPgtbls es) * 1024) ∧
    (s.mem (entryWord img i) = i * 4096 + 1 ∨ s.mem (entryWord img i) = i * 4096 + 3)

def bootEnd (img : Image) (top : Nat) : Nat :=
  (img.bootmemBegin + max 1 (top / 2 ^ 22) + (top / 4096 * 28 + 4095) / 4096) * 4096

/-- The last entry looked at ends below 1 GiB or at it, at a whole number of tables or
within the first, and not below the boot memory. -/
def Tabled (img : Image) (top : Nat) : Prop :=
  top / 4096 ≤ 2 ^ 18 ∧ (top < 2 ^ 22 ∨ top % 2 ^ 22 < 4096) ∧
    (top < 4096 ∨ bootEnd img top ≤ top)

section

variable {img : Image} {es : List Entry}

theorem nrPgtbls_eq (es : List Entry) : nrPgtbls es = max 1 (lastEnd es / 2 ^ 22) := by
  unfold nrPgtbls
  rw [sizeUpRam_eq]
  split
  · omega
  · omega

theorem bootEnd_eq (img : Image) (es : List Entry) :
    bootEnd img (lastEnd es) = bootmemPage img es * 4096 := by
  rw [bootmemPage_eq, pfaPage_eq, nrPgtbls_eq]
  unfold bootEnd pfaPages nrPhyspages
  rw [sizeUpRam_eq]

theorem tabled_iff (img : Image) (es : List Entry) : Tabled img (lastEnd es) ↔
    nrPhyspages es ≤ 2 ^ 18 ∧ nrPhyspages es ≤ nrPgtbls es * 1024 ∧
      (0 < nrPhyspages es → bootmemPage img es ≤ nrPhyspages es) := by
  have frames : nrPhyspages es = lastEnd es / 4096 := by
    unfold nrPhyspages
    rw [sizeUpRam_eq]
  have tables := nrPgtbls_eq es
  unfold Tabled
  rw [bootEnd_eq, frames]
  generalize lastEnd es = top at *
  generalize bootmemPage img es = page at *
  generalize nrPgtbls es = n at *
  constructor
  · rintro ⟨low, whole, boot⟩
    refine ⟨low, by omega, by omega⟩
  · rintro ⟨low, enough, boot⟩
    refine ⟨low, by omega, by omega⟩

theorem first_table_direct {m₁ : Mem} (low : nrPhyspages es ≤ 2 ^ 18)
    (boot : 0 < nrPhyspages es → img.bootmemBegin < nrPhyspages es)
    (ram : mapRam img (nrPhyspages es) (va (img.bootmemBegin * 4096))
      (clear (setupInitmem img m) img.bootmemBegin (nrPgtbls es)) = .ok m₁) :
    direct img m₁ img.bootmemBegin = true := by
  have small := img.small
  have begins := img.begins
  have mapped := mapRam_stores low ram
  by_cases some_frame : 0 < nrPhyspages es
  · have frame := boot some_frame
    have table : img.bootmemBegin / 1024 = 0 := by omega
    have entry : img.bootmemBegin % 1024 = img.bootmemBegin := by omega
    have leads := @frame_of_pde img m₁ img.bootmemBegin _ 3 (by omega) (by omega) (by decide)
      (by decide) (mapped.pde (img.bootmemBegin / 1024) (by omega))
    rw [table, Nat.add_zero, entry, mapped.pte _ frame, if_neg (by omega)] at leads
    unfold direct
    rw [leads]
    simp only [Option.some.injEq, decide_eq_true_eq]
    omega
  · apply direct_initial (m := m) (by omega)
    intro a above below
    by_cases pgd : a / 1024 = img.initPgd
    · have slot : a = img.initPgd * 1024 + (768 + (a - (img.initPgd * 1024 + 768))) := by omega
      rw [slot, mapped.slots _ (by omega) (by omega), clear_outside (by omega)]
    · rw [mapped.same a pgd (.inl below), clear_outside (.inl below)]

theorem mapKernel_goes (m : Mem) (allocs : BootAllocs img es) (low : nrPhyspages es ≤ 2 ^ 18)
    (boot : 0 < nrPhyspages es → img.bootmemBegin < nrPhyspages es)
    (tables : nrPgtbls es ≤ 256) : ∃ b, mapKernel img es m = .ok b := by
  have small := img.small
  have page : pa (va (img.bootmemBegin * 4096)) / 4096 = img.bootmemBegin := by
    rw [pa_va (by omega)]
    omega
  have start : ∀ k < nrPgtbls es, direct img (setupInitmem img m) (img.bootmemBegin + k) := by
    intro k table
    exact direct_initial (by omega) fun _ _ _ => rfl
  obtain ⟨m₁, ram⟩ : ∃ m₁, mapRam img (nrPhyspages es) (va (img.bootmemBegin * 4096))
      (clear (setupInitmem img m) img.bootmemBegin (nrPgtbls es)) = .ok m₁ := by
    refine ⟨_, if_pos (List.all_eq_true.mpr ?_)⟩
    intro k member
    have table := List.mem_range.mp member
    rw [page]
    exact direct_initial (by omega) fun a _ below => clear_outside (.inl below)
  obtain ⟨m₂, protect⟩ : ∃ m₂, writeProtect img (va (img.bootmemBegin * 4096))
      (va (imageBegin * 4096)) (img.rodataEnd * 4096 - imageBegin * 4096) m₁ = .ok m₂ := by
    unfold writeProtect
    rw [page]
    exact ⟨_, if_pos (first_table_direct low boot ram)⟩
  exact ⟨_, mapKernel_ok.mpr ⟨m₁, m₂, allocs.1, start, ram, protect, rfl⟩⟩

theorem buddyInit_mapped (low : nrPhyspages es ≤ 2 ^ 18) (kernel : mapKernel img es m = .ok b) :
    KernelMapped img es (buddyInit img b.mem) := by
  have below := head_below img
  apply (mapKernel_mapped low kernel).congr _ low
  intro a above _
  rw [buddyInit_eq, update_of_ne (by omega), update_of_ne (by omega)]

theorem direct_map_holds (m : Mem) (allocs : BootAllocs img es) (low : nrPhyspages es ≤ 2 ^ 18)
    (enough : nrPhyspages es ≤ nrPgtbls es * 1024)
    (boot : 0 < nrPhyspages es → bootmemPage img es ≤ nrPhyspages es)
    (tables : nrPgtbls es ≤ 256) : DirectMapped img es m := by
  have array := pfaPage_eq img es
  have pages := bootmemPage_eq img es
  have some_table := (sizes img es).tables
  obtain ⟨b, kernel⟩ := mapKernel_goes m allocs low
    (fun some_frame => by have := boot some_frame; omega) tables
  have cleared : ∀ k < pfaPages es, direct img (buddyInit img b.mem) (pfaPage img es + k) := by
    intro k inside
    have some_frame : 0 < nrPhyspages es := by
      have tight := (sizes img es).tight
      omega
    have frame := boot some_frame
    have own := (buddyInit_mapped low kernel).direct low (i := pfaPage img es + k) (by omega) (by omega)
    unfold direct
    rw [own]
    exact decide_eq_true rfl
  have made := frameArray_ok.mpr ⟨b, kernel, allocs.2, cleared, rfl⟩
  by_cases some_frame : 0 < nrPhyspages es
  · have goes : ∀ s i, i ∈ List.range (nrPhyspages es) → Live img es (marked img es b.mem) s →
        ∃ t, populate img (pfaOf img es) s i = .ok t ∧ Live img es (marked img es b.mem) t :=
      fun s i member live => populate_goes (marked_held img es b.mem) low enough
        (List.mem_range.mp member) live
    obtain ⟨s, loop, live⟩ := Loops.foldlM_total _ goes (marked_live low some_frame kernel)
    refine ⟨s, Loops.bind_ok.mpr ⟨_, made, loop⟩, ?_⟩
    intro i frame
    have own := live.mapped.direct low frame (by omega)
    rw [va_page (by omega)] at own
    refine ⟨by unfold pageOffset; omega, own, ?_, live.mapped.pte i frame (by omega)⟩
    unfold entryWord
    omega
  · have none_there : nrPhyspages es = 0 := by omega
    refine ⟨⟨marked img es b.mem, va (bootmemPage img es * 4096), []⟩, ?_, ?_⟩
    · unfold ia32MmInit mmInitTo
      rw [none_there]
      exact Loops.bind_ok.mpr ⟨_, made, rfl⟩
    · intro i frame
      omega

theorem direct_map_boot (low : nrPhyspages es ≤ 2 ^ 18)
    (enough : nrPhyspages es ≤ nrPgtbls es * 1024) (some_frame : 0 < nrPhyspages es)
    (holds : DirectMapped img es m) : bootmemPage img es ≤ nrPhyspages es := by
  obtain ⟨s, ran, -⟩ := holds
  obtain ⟨r, array, -⟩ := Loops.bind_ok.mp ran
  obtain ⟨b, kernel, -, mapped, -⟩ := frameArray_ok.mp array
  by_contra beyond
  have pages := bootmemPage_eq img es
  have bound := (sizes img es).low
  have later := pfaPage_lt img some_frame
  have data := img.data
  have bss := img.bss
  have pgd := initPgd_lt img es
  have last : pfaPage img es + (pfaPages es - 1) = bootmemPage img es - 1 := by omega
  have own := mapped (pfaPages es - 1) (by omega)
  have absent := (buddyInit_mapped low kernel).not_direct low (i := bootmemPage img es - 1)
    some_frame (by omega) (by omega) (by omega) enough
  rw [last] at own
  unfold direct at own
  rw [absent] at own
  cases of_decide_eq_true own

end

/-- Where the boot allocations succeed, the direct map is complete exactly if the memory
ends where the tables do. -/
theorem direct_map_iff (img : Image) (es : List Entry) (m : Mem) (allocs : BootAllocs img es) :
    DirectMapped img es m ↔ Tabled img (lastEnd es) := by
  rw [tabled_iff]
  constructor
  · intro holds
    obtain ⟨s, -, each⟩ := id holds
    have low : nrPhyspages es ≤ 2 ^ 18 := by
      by_contra more
      have over_end := (each (2 ^ 18) (by omega)).1
      unfold pageOffset at over_end
      omega
    have enough : nrPhyspages es ≤ nrPgtbls es * 1024 := by
      by_contra more
      have inside := (each (nrPgtbls es * 1024) (by omega)).2.2.1.2
      unfold entryWord at inside
      omega
    exact ⟨low, enough, fun some_frame => direct_map_boot low enough some_frame holds⟩
  · rintro ⟨low, enough, boot⟩
    refine direct_map_holds m allocs low enough boot ?_
    have frames : nrPhyspages es = sizeUpRam es / 4096 := rfl
    have tables := nrPgtbls_eq es
    rw [← sizeUpRam_eq] at tables
    omega

theorem direct_map_iff_bios : BootAllocs smallImage biosMap ∧
    DirectMapped smallImage biosMap fun _ => 0 := by
  have allocs : BootAllocs smallImage biosMap := ⟨by decide, by decide⟩
  exact ⟨allocs, (direct_map_iff smallImage biosMap _ allocs).mpr ⟨by decide, by decide, by decide⟩⟩

def oddMap : List Entry := [⟨0, 0x500000, 1⟩]

theorem odd_memory_not_mapped : BootAllocs smallImage oddMap ∧
    ¬ DirectMapped smallImage oddMap fun _ => 0 := by
  refine ⟨⟨by decide, by decide⟩, ?_⟩
  rintro ⟨s, -, each⟩
  have frames : 1024 < nrPhyspages oddMap := by decide
  have tables : nrPgtbls oddMap = 1 := by decide
  have inside := (each 1024 frames).2.2.1.2
  rw [tables] at inside
  unfold entryWord at inside
  omega

end ScaraOS.Boot
