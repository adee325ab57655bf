import ScaraOS.Boot.Soundness

/-! Which pages exactly are marked. `reserve_pages` rounds the last byte of a range up to a
page and marks that page as well. -/
namespace ScaraOS.Boot

open Paging

def reservedRange (vptr len : Nat) : List Nat :=
  let len := (len + (2 ^ 32 - 1)) % 2 ^ 32
  let paBegin := pa vptr / 4096 * 4096
  let paEnd := (pa (vptr + len) + 0xfff) % 2 ^ 32 / 4096 * 4096
  List.range' (paBegin / 4096) (paEnd / 4096 + 1 - paBegin / 4096)

def holeLog (s : List Nat × Nat) (e : Entry) : List Nat × Nat :=
  if e.baseAddrLow ≠ s.2 then
    (s.1 ++ reservedRange (va s.2) ((e.baseAddrLow + (2 ^ 32 - s.2)) % 2 ^ 32), e.baseAddrLow)
  else s

def entryLog (s : List Nat × Nat) (e : Entry) : List Nat × Nat :=
  let s := holeLog s e
  let log := if e.type ≠ mbfMem then s.1 ++ reservedRange (va e.baseAddrLow) e.lengthLow else s.1
  (log, (s.2 + e.lengthLow) % 2 ^ 32)

def written (img : Image) (es : List Entry) : List Nat :=
  ((scanned es).foldl entryLog ([], 0)).1 ++
    reservedRange (va (imageBegin * 4096)) (va (bootmemPage img es * 4096) - va (imageBegin * 4096))

theorem reservePages_log (pfa vptr len : Nat) (log : List Nat) (m : Mem) :
    reservePages pfa vptr len (log.foldl (reservePage pfa) m) =
      (log ++ reservedRange vptr len).foldl (reservePage pfa) m := by
  rw [List.foldl_append]
  rfl

theorem reserveEntry_log (pfa : Nat) (log : List Nat) (c : Nat) (e : Entry) (m : Mem) :
    reserveEntry pfa (log.foldl (reservePage pfa) m, c) e =
      ((entryLog (log, c) e).1.foldl (reservePage pfa) m, (entryLog (log, c) e).2) := by
  have hole : reserveHole pfa (log.foldl (reservePage pfa) m, c) e =
      ((holeLog (log, c) e).1.foldl (reservePage pfa) m, (holeLog (log, c) e).2) := by
    unfold reserveHole holeLog
    split
    · rw [reservePages_log]
    · rfl
  unfold reserveEntry entryLog
  rw [hole]
  dsimp only
  split
  · rw [reservePages_log]
  · rfl

theorem reserveEntries_log (pfa : Nat) (es : List Entry) (log : List Nat) (c : Nat) (m : Mem) :
    es.foldl (reserveEntry pfa) (log.foldl (reservePage pfa) m, c) =
      ((es.foldl entryLog (log, c)).1.foldl (reservePage pfa) m, (es.foldl entryLog (log, c)).2) := by
  induction es generalizing log c with
  | nil => rfl
  | cons e rest ih =>
    rw [List.foldl_cons, List.foldl_cons, reserveEntry_log]
    exact ih _ _

theorem marked_eq (img : Image) (es : List Entry) (m : Mem) :
    marked img es m = (written img es).foldl (reservePage (pfaOf img es))
      (clear (buddyInit img m) (pfaPage img es) (pfaPages es)) := by
  have all := reserveEntries_log (pfaOf img es) (scanned es) [] 0
    (clear (buddyInit img m) (pfaPage img es) (pfaPages es))
  unfold marked reserveFromE820 written
  rw [← reservePages_log]
  exact congrArg (reservePages _ _ _) (congrArg Prod.fst all)

theorem reserveAll_count_iff (pfa i : Nat) (l : List Nat) (m : Mem) :
    count (l.foldl (reservePage pfa) m) pfa i ≠ 0 ↔ i ∈ l ∨ count m pfa i ≠ 0 := by
  induction l generalizing m with
  | nil => simp
  | cons j rest ih =>
    rw [List.foldl_cons, ih, count_reservePage, List.mem_cons]
    rcases eq_or_ne i j with rfl | other
    · simp
    · simp [other]

variable {img : Image} {es : List Entry} {i c x : Nat} {e : Entry} {log : List Nat}

theorem marked_count_iff (frame : i < nrPhyspages es) (m : Mem) :
    count (marked img es m) (pfaOf img es) i ≠ 0 ↔ i ∈ written img es := by
  have zero : count (clear (buddyInit img m) (pfaPage img es) (pfaPages es)) (pfaOf img es) i = 0 := by
    unfold count
    rw [pfaWord]
    apply clear_inside (by omega)
    rw [← bootmemPage_eq]
    exact pfaWord_inside frame (by decide)
  rw [marked_eq, reserveAll_count_iff, zero]
  simp

/-- The bytes that are to be reserved, in ranges: the holes, from an address on, and the
entries that are not memory. -/
def rangesFrom : Nat → List Entry → List (Nat × Nat)
  | _, [] => []
  | c, e :: es =>
    (if e.base ≠ c then [(c, e.base)] else []) ++
      (if e.type ≠ mbfMem then [(e.base, e.base + e.length)] else []) ++
      rangesFrom (e.base + e.length) es

def ranges (img : Image) (es : List Entry) : List (Nat × Nat) :=
  rangesFrom 0 es ++ [(imageBegin * 4096, bootmemPage img es * 4096)]

def lastPage (stop : Nat) : Nat := (stop + 4094) / 4096

def pagesOf (r : Nat × Nat) : List Nat :=
  List.range' (r.1 / 4096) (lastPage r.2 + 1 - r.1 / 4096)

theorem mem_pagesOf {r : Nat × Nat} : i ∈ pagesOf r ↔ r.1 / 4096 ≤ i ∧ i ≤ lastPage r.2 := by
  unfold pagesOf lastPage
  rw [List.mem_range'_1]
  omega

theorem reservedRange_eq {start stop : Nat} (some_byte : start < stop) (bound : stop ≤ 2 ^ 30) :
    reservedRange (va start) (stop - start) = pagesOf (start, stop) := by
  have begins : pa (va start) = start := pa_va (by omega)
  have ends : pa (va start + (stop - start + (2 ^ 32 - 1)) % 2 ^ 32) = stop - 1 := by
    unfold pa va pageOffset
    omega
  have first : start / 4096 * 4096 / 4096 = start / 4096 := Nat.mul_div_cancel _ (by decide)
  have last : (stop - 1 + 0xfff) % 2 ^ 32 / 4096 * 4096 / 4096 = (stop + 4094) / 4096 := by
    have sum : stop - 1 + 0xfff = stop + 4094 := by omega
    rw [sum, Nat.mod_eq_of_lt (by omega), Nat.mul_div_cancel _ (by decide)]
  unfold reservedRange pagesOf lastPage
  simp only [begins, ends, first, last]

theorem Ordered.tail (ordered : Ordered (e :: es)) : Ordered es where
  sorted := (List.pairwise_cons.mp ordered.sorted).2
  positive := fun f member => ordered.positive f (List.mem_cons_of_mem e member)
  bound := fun f member => ordered.bound f (List.mem_cons_of_mem e member)

theorem entryLog_eq (after : c ≤ e.base) (positive : 0 < e.length)
    (bound : e.base + e.length ≤ 2 ^ 30) :
    entryLog (log, c) e =
      (log ++ (rangesFrom c [e]).flatMap pagesOf, e.base + e.length) := by
  have base : e.baseAddrLow = e.base := Nat.mod_eq_of_lt (by omega)
  have length : e.lengthLow = e.length := Nat.mod_eq_of_lt (by omega)
  have size : (e.base + (2 ^ 32 - c)) % 2 ^ 32 = e.base - c := by omega
  have next : (e.base + e.length) % 2 ^ 32 = e.base + e.length := Nat.mod_eq_of_lt (by omega)
  have own : reservedRange (va e.base) e.length = pagesOf (e.base, e.base + e.length) := by
    have eq := reservedRange_eq (show e.base < e.base + e.length by omega) bound
    rwa [Nat.add_sub_cancel_left] at eq
  have hole : holeLog (log, c) e =
      (log ++ (if e.base ≠ c then pagesOf (c, e.base) else []), e.base) := by
    unfold holeLog
    rw [base, size]
    split
    · rw [reservedRange_eq (by omega) (by omega)]
    · rename_i same
      rw [List.append_nil, not_not.mp same]
  unfold entryLog
  rw [hole, base, length, own]
  simp only [next, rangesFrom, List.append_nil, List.flatMap_append]
  split_ifs <;> simp

theorem entriesLog_eq (ordered : Ordered es) (after : ∀ e ∈ es, c ≤ e.base) :
    (es.foldl entryLog (log, c)).1 = log ++ (rangesFrom c es).flatMap pagesOf := by
  induction es generalizing log c with
  | nil => simp [rangesFrom]
  | cons e rest ih =>
    have first := (List.pairwise_cons.mp ordered.sorted).1
    rw [List.foldl_cons, entryLog_eq (after e List.mem_cons_self)
      (ordered.positive e List.mem_cons_self) (ordered.bound e List.mem_cons_self),
      ih ordered.tail first, List.append_assoc]
    congr 1
    simp only [rangesFrom, List.append_nil, List.flatMap_append, List.append_assoc]

theorem written_eq (ordered : Ordered es) : written img es = (ranges img es).flatMap pagesOf := by
  have room := img.small
  have low := (sizes img es).low
  have kernel : imageBegin * 4096 < bootmemPage img es * 4096 := by
    have := initPgd_lt img es
    have := imageBegin_le img
    rw [bootmemPage_eq]
    omega
  have len : va (bootmemPage img es * 4096) - va (imageBegin * 4096) =
      bootmemPage img es * 4096 - imageBegin * 4096 := by
    unfold va imageBegin pageOffset
    omega
  unfold written ranges
  rw [ordered.scanned_eq, entriesLog_eq ordered fun e _ => Nat.zero_le e.base, len,
    reservedRange_eq kernel (by omega), List.flatMap_append]
  simp

def endFrom (c : Nat) (es : List Entry) : Nat := es.foldl (fun _ e => e.base + e.length) c

theorem sizeUpRam_end (ordered : Ordered es) : sizeUpRam es = endFrom 0 es := by
  unfold sizeUpRam endFrom
  rw [ordered.scanned_eq]
  apply List.foldl_ext
  intro tot e member
  have bound := ordered.bound e member
  have base : e.baseAddrLow = e.base := Nat.mod_eq_of_lt (by omega)
  have length : e.lengthLow = e.length := Nat.mod_eq_of_lt (by omega)
  rw [if_pos (type_counts e), base, length, Nat.mod_eq_of_lt (by omega)]

def Foreign (es : List Entry) (x : Nat) : Prop :=
  (x < sizeUpRam es ∧ ∀ e ∈ es, ¬ e.has x) ∨ ∃ e ∈ es, e.type ≠ mbfMem ∧ e.has x

theorem endFrom_ge (ordered : Ordered es) (after : ∀ e ∈ es, c ≤ e.base) : c ≤ endFrom c es := by
  induction es generalizing c with
  | nil => exact Nat.le_refl c
  | cons e rest ih =>
    have here := after e List.mem_cons_self
    exact Nat.le_trans (Nat.le_trans here (Nat.le_add_right _ _))
      (ih ordered.tail (List.pairwise_cons.mp ordered.sorted).1)

theorem rangesFrom_cons {rest : List Entry} :
    (∃ r ∈ rangesFrom c (e :: rest), r.1 ≤ x ∧ x < r.2) ↔
      (e.base ≠ c ∧ c ≤ x ∧ x < e.base) ∨ (e.type ≠ mbfMem ∧ e.has x) ∨
        ∃ r ∈ rangesFrom (e.base + e.length) rest, r.1 ≤ x ∧ x < r.2 := by
  simp only [rangesFrom, List.mem_append, or_and_right, exists_or, or_assoc, Entry.has]
  refine or_congr ?_ (or_congr ?_ Iff.rfl)
  · split <;> simp [*]
  · split <;> simp [*]

theorem rangesFrom_has (ordered : Ordered es) (after : ∀ e ∈ es, c ≤ e.base) :
    (∃ r ∈ rangesFrom c es, r.1 ≤ x ∧ x < r.2) ↔
      (c ≤ x ∧ x < endFrom c es ∧ ∀ e ∈ es, ¬ e.has x) ∨ ∃ e ∈ es, e.type ≠ mbfMem ∧ e.has x := by
  induction es generalizing c with
  | nil =>
    have none : ¬ (c ≤ x ∧ x < endFrom c []) := fun both =>
      Nat.lt_irrefl c (Nat.lt_of_le_of_lt both.1 both.2)
    simp only [rangesFrom, List.not_mem_nil, false_and, exists_false, or_false]
    tauto
  | cons e rest ih =>
    have first := (List.pairwise_cons.mp ordered.sorted).1
    have here := after e List.mem_cons_self
    have upto : e.base + e.length ≤ endFrom c (e :: rest) := endFrom_ge ordered.tail first
    have later := ih ordered.tail first
    -- the entries that follow are behind this one
    have behind : x < e.base + e.length → ∀ f ∈ rest, ¬ f.has x := fun before f member has =>
      absurd (Nat.le_trans (first f member) has.1) (Nat.not_le.mpr before)
    rw [rangesFrom_cons, later, List.exists_mem_cons_iff, List.forall_mem_cons]
    have same : endFrom c (e :: rest) = endFrom (e.base + e.length) rest := rfl
    rw [same] at upto ⊢
    by_cases before : x < e.base + e.length
    · have none := behind before
      have noOther : ¬ ∃ f ∈ rest, f.type ≠ mbfMem ∧ f.has x :=
        fun ⟨f, member, _, has⟩ => none f member has
      unfold Entry.has at *
      by_cases inside : e.base ≤ x
      · constructor
        · rintro (⟨-, -, low⟩ | own | ⟨late, -⟩ | other)
          · omega
          · exact .inr (.inl own)
          · omega
          · exact absurd other noOther
        · rintro (⟨-, -, free, -⟩ | own | other)
          · exact absurd ⟨inside, before⟩ free
          · exact .inr (.inl own)
          · exact absurd other noOther
      · constructor
        · rintro (⟨-, low, -⟩ | own | ⟨late, -⟩ | other)
          · exact .inl ⟨low, by omega, by omega, none⟩
          · omega
          · omega
          · exact absurd other noOther
        · rintro (⟨low, -⟩ | own | other)
          · exact .inl ⟨by omega, low, by omega⟩
          · omega
          · exact absurd other noOther
    · have free : ¬ e.has x := fun has => before has.2
      unfold Entry.has at *
      constructor
      · rintro (hole | own | ⟨-, below, none⟩ | other)
        · omega
        · omega
        · exact .inl ⟨by omega, below, free, none⟩
        · exact .inr (.inr other)
      · rintro (⟨-, below, -, none⟩ | own | other)
        · exact .inr (.inr (.inl ⟨by omega, below, none⟩))
        · omega
        · exact .inr (.inr (.inr other))

theorem rangesFrom_proper (ordered : Ordered es) (after : ∀ e ∈ es, c ≤ e.base) :
    ∀ r ∈ rangesFrom c es, r.1 < r.2 := by
  induction es generalizing c with
  | nil => exact nofun
  | cons e rest ih =>
    have here := after e List.mem_cons_self
    have positive := ordered.positive e List.mem_cons_self
    intro r member
    rw [rangesFrom, List.mem_append, List.mem_append] at member
    rcases member with (hole | own) | later
    · obtain ⟨apart, rfl⟩ : e.base ≠ c ∧ r = (c, e.base) := by
        split at hole <;> simp_all
      exact Nat.lt_of_le_of_ne here apart.symm
    · obtain rfl : r = (e.base, e.base + e.length) := by
        split at own <;> simp_all
      exact Nat.lt_add_of_pos_right positive
    · exact ih ordered.tail (List.pairwise_cons.mp ordered.sorted).1 r later

/-- A frame that has a byte of a hole, of an entry that is not memory, or of the kernel and
its boot memory up to this address. -/
def Overlaps (es : List Entry) (bootmemPtr i : Nat) : Prop :=
  ∃ x, x / 4096 = i ∧ (Foreign es x ∨ (imageBegin * 4096 ≤ x ∧ x < bootmemPtr))

section

variable {img : Image} {es : List Entry} (ordered : Ordered es)

include ordered

theorem ranges_proper : ∀ r ∈ ranges img es, r.1 < r.2 := by
  intro r member
  rcases List.mem_append.mp member with map | kernel
  · exact rangesFrom_proper ordered (fun e _ => Nat.zero_le e.base) r map
  · rw [List.mem_singleton.mp kernel]
    have below := initPgd_lt img es
    have begins := imageBegin_le img
    rw [bootmemPage_eq]
    dsimp only
    omega

theorem overlaps_iff (i : Nat) : Overlaps es (bootmemPage img es * 4096) i ↔
    ∃ r ∈ ranges img es, ∃ x, x / 4096 = i ∧ r.1 ≤ x ∧ x < r.2 := by
  have foreign : ∀ x, Foreign es x ↔ ∃ r ∈ rangesFrom 0 es, r.1 ≤ x ∧ x < r.2 := by
    intro x
    rw [rangesFrom_has ordered fun e _ => Nat.zero_le e.base, ← sizeUpRam_end ordered]
    simp only [Foreign, Nat.zero_le, true_and]
  constructor
  · rintro ⟨x, page, map | kernel⟩
    · obtain ⟨r, member, has⟩ := (foreign x).mp map
      exact ⟨r, List.mem_append_left _ member, x, page, has⟩
    · exact ⟨_, List.mem_append_right _ List.mem_cons_self, x, page, kernel⟩
  · rintro ⟨r, member, x, page, has⟩
    rcases List.mem_append.mp member with map | kernel
    · exact ⟨x, page, .inl ((foreign x).mpr ⟨r, map, has⟩)⟩
    · rw [List.mem_singleton.mp kernel] at has
      exact ⟨x, page, .inr has⟩

theorem mem_written : i ∈ written img es ↔
    ∃ r ∈ ranges img es, r.1 / 4096 ≤ i ∧ i ≤ lastPage r.2 := by
  rw [written_eq ordered, List.mem_flatMap]
  constructor
  · rintro ⟨r, member, page⟩
    exact ⟨r, member, mem_pagesOf.mp page⟩
  · rintro ⟨r, member, page⟩
    exact ⟨r, member, mem_pagesOf.mpr page⟩

theorem overlaps_of_written (member : i ∈ written img es) :
    (∃ r ∈ ranges img es, i = lastPage r.2) ∨ Overlaps es (bootmemPage img es * 4096) i := by
  obtain ⟨r, range, low, high⟩ := (mem_written ordered).mp member
  have proper := ranges_proper ordered r range
  by_cases last : i = lastPage r.2
  · exact .inl ⟨r, range, last⟩
  · refine .inr ((overlaps_iff ordered i).mpr ⟨r, range, max r.1 (i * 4096), ?_, ?_, ?_⟩)
    all_goals
      unfold lastPage at *
      omega

theorem written_of_overlaps (overlaps : Overlaps es (bootmemPage img es * 4096) i) :
    i ∈ written img es := by
  obtain ⟨r, range, x, page, low, high⟩ := (overlaps_iff ordered i).mp overlaps
  refine (mem_written ordered).mpr ⟨r, range, ?_, ?_⟩
  · omega
  · unfold lastPage
    omega

end

/-- No index is out of bounds, and the frames that are marked are those that should be. -/
structure ReservedExactly (img : Image) (es : List Entry) (pfa : Nat) (b : Bootmem) : Prop where
  inside : ∀ i ∈ written img es, i < nrPhyspages es
  exactly : ∀ i < nrPhyspages es, count b.mem pfa i ≠ 0 ↔ Overlaps es (pa b.bootmemPtr) i

theorem frameArray_parts {m : Mem} {pfa : Nat} {b : Bootmem}
    (ran : frameArray img es m = .ok (pfa, b)) : ∃ m₀, pfa = pfaOf img es ∧
      b.mem = marked img es m₀ ∧ pa b.bootmemPtr = bootmemPage img es * 4096 := by
  have low := (sizes img es).low
  obtain ⟨c, -, -, -, result⟩ := frameArray_ok.mp ran
  obtain ⟨array, rest⟩ := Prod.mk.inj result
  refine ⟨c.mem, array, by rw [rest], ?_⟩
  rw [rest]
  exact pa_va (by omega)

/-- The last page that is written for each range has to exist and to be one that is reserved. -/
theorem reserved_exactly_iff (img : Image) (es : List Entry) (m : Mem) (ordered : Ordered es)
    (pfa : Nat) (b : Bootmem) (ran : frameArray img es m = .ok (pfa, b)) :
    ReservedExactly img es pfa b ↔ ∀ r ∈ ranges img es,
      lastPage r.2 < nrPhyspages es ∧ Overlaps es (bootmemPage img es * 4096) (lastPage r.2) := by
  obtain ⟨m₀, array, memory, ptr⟩ := frameArray_parts ran
  have last : ∀ r ∈ ranges img es, lastPage r.2 ∈ written img es := by
    intro r member
    have proper := ranges_proper ordered r member
    refine (mem_written ordered).mpr ⟨r, member, ?_, Nat.le_refl _⟩
    unfold lastPage
    omega
  constructor
  · rintro ⟨inside, exactly⟩ r member
    have frame := inside _ (last r member)
    have marked := (marked_count_iff frame m₀).mpr (last r member)
    rw [← memory, ← array] at marked
    have overlaps := (exactly _ frame).mp marked
    rw [ptr] at overlaps
    exact ⟨frame, overlaps⟩
  · intro ends
    constructor
    · intro i member
      obtain ⟨r, range, -, high⟩ := (mem_written ordered).mp member
      exact Nat.lt_of_le_of_lt high (ends r range).1
    · intro i frame
      rw [memory, array, ptr, marked_count_iff frame]
      constructor
      · intro member
        rcases overlaps_of_written ordered member with ⟨r, range, rfl⟩ | overlaps
        · exact (ends r range).2
        · exact overlaps
      · exact written_of_overlaps ordered

theorem frameArray_sample (es : List Entry)
    (evaluated : (frameArray smallImage es fun _ => 0).toOption.isSome = true) :
    ∃ pfa b, frameArray smallImage es (fun _ => 0) = .ok (pfa, b) := by
  obtain ⟨⟨pfa, b⟩, made⟩ := Option.isSome_iff_exists.mp evaluated
  exact ⟨pfa, b, Loops.ok_of_toOption made⟩

/-- One byte behind the boot memory is reserved. -/
def tightMap : List Entry :=
  [⟨0, 265 * 4096, 1⟩, ⟨265 * 4096, 1, 2⟩, ⟨265 * 4096 + 1, 23 * 4096 - 1, 1⟩]

theorem reserved_exactly_iff_tight : ∃ pfa b,
    frameArray smallImage tightMap (fun _ => 0) = .ok (pfa, b) ∧
      ReservedExactly smallImage tightMap pfa b := by
  obtain ⟨pfa, b, made⟩ := frameArray_sample tightMap (by decide +kernel)
  refine ⟨pfa, b, made, (reserved_exactly_iff smallImage tightMap _ ⟨by decide, by decide, by decide⟩
    pfa b made).mpr ?_⟩
  have frame : Overlaps tightMap (bootmemPage smallImage tightMap * 4096) 265 :=
    ⟨265 * 4096, by decide, .inl (.inr ⟨⟨265 * 4096, 1, 2⟩, by decide, by decide, by
      unfold Entry.has
      decide⟩)⟩
  have all : ranges smallImage tightMap =
      [(265 * 4096, 265 * 4096 + 1), (256 * 4096, 265 * 4096)] := by decide
  rw [all]
  intro r member
  rcases List.mem_cons.mp member with rfl | last
  · exact ⟨by decide, frame⟩
  · rw [List.mem_singleton.mp last]
    exact ⟨by decide, frame⟩

/- The frame after the boot memory is memory, and is reserved with it. -/
theorem frame_lost_behind_bootmem : ∃ pfa b,
    frameArray smallImage biosMap (fun _ => 0) = .ok (pfa, b) ∧ 265 < nrPhyspages biosMap ∧
      count b.mem pfa 265 ≠ 0 ∧ ¬ Overlaps biosMap (pa b.bootmemPtr) 265 ∧
      ¬ ReservedExactly smallImage biosMap pfa b := by
  obtain ⟨pfa, b, made⟩ := frameArray_sample biosMap (by decide +kernel)
  obtain ⟨m₀, array, mem, ptr⟩ := frameArray_parts made
  have frame : 265 < nrPhyspages biosMap := by decide
  have marked : count b.mem pfa 265 ≠ 0 := by
    rw [mem, array]
    exact (marked_count_iff frame m₀).mpr (by decide)
  have behind : bootmemPage smallImage biosMap = 265 := by decide
  have memory : ¬ Overlaps biosMap (pa b.bootmemPtr) 265 := by
    rw [ptr, behind]
    rintro ⟨x, page, (⟨-, none⟩ | ⟨e, member, other, has⟩) | ⟨-, below⟩⟩
    · refine none ⟨0x100000, 0x20000, 1⟩ (by decide) ?_
      unfold Entry.has
      dsimp only
      omega
    · simp only [biosMap, List.mem_cons, List.not_mem_nil, or_false] at member
      unfold Entry.has at has
      rcases member with rfl | rfl | rfl
      · exact other rfl
      · dsimp only at has
        omega
      · exact other rfl
    · omega
  exact ⟨pfa, b, made, frame, marked, memory, fun sound =>
    memory ((sound.exactly 265 frame).mp marked)⟩

end ScaraOS.Boot
