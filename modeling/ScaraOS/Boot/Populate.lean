import ScaraOS.Boot.Reserve

/-! The last loop of `ia32_mm_init`: a page that is not marked is poisoned through its
mapping and put on the free list. The loop never writes to the directory or the tables,
and a page it frees is none the kernel or its boot memory lies in. -/
namespace ScaraOS.Boot

open Function Paging

set_option maxRecDepth 4000

variable {m : Mem} {i k v a f : Nat}

section

variable {img : Image} {es : List Entry}

structure Spares (img : Image) (es : List Entry) (m m' : Mem) : Prop where
  tables : ∀ a, img.initPgd * 1024 ≤ a → a < pfaPage img es * 1024 → m' a = m a
  quiet : Quiet (pfaPage img es) m → Quiet (pfaPage img es) m'

theorem Spares.trans {m' m'' : Mem} (first : Spares img es m m') (second : Spares img es m' m'') :
    Spares img es m m'' where
  tables := fun a low high => (second.tables a low high).trans (first.tables a low high)
  quiet := fun quiet => second.quiet (first.quiet quiet)

theorem pfaPage_low (img : Image) (es : List Entry) : pfaPage img es < 2 ^ 18 := by
  have low := (sizes img es).low
  rw [bootmemPage_eq] at low
  omega

def pfaOf (img : Image) (es : List Entry) : Nat := va (pfaPage img es * 4096)

theorem pfaWord (i k : Nat) :
    pageWord (pfaOf img es) i k = pfaPage img es * 1024 + i * 7 + k :=
  pageWord_eq (pfaPage_low img es) i k

theorem pfaWord_inside (frame : i < nrPhyspages es) (field : k < 7) :
    pfaPage img es * 1024 + i * 7 + k < bootmemPage img es * 1024 := by
  have array := (sizes img es).array
  rw [bootmemPage_eq]
  omega

theorem imageBegin_le (img : Image) : imageBegin ≤ img.initPgd := by
  have room := img.room
  unfold imageBegin
  omega

theorem pfaPage_lt (img : Image) (some_frame : 0 < nrPhyspages es) :
    pfaPage img es < bootmemPage img es := by
  have array := (sizes img es).array
  rw [bootmemPage_eq]
  omega

theorem initPgd_lt (img : Image) (es : List Entry) : img.initPgd < pfaPage img es := by
  have begins := img.begins
  rw [pfaPage_eq]
  omega

theorem spares_field (field : k < 6) (word : v % 2 = 0 ∨ v = 1) :
    Spares img es m (update m (pfaPage img es * 1024 + i * 7 + k) v) where
  tables := fun a _ high => update_of_ne (by omega) _ _
  quiet := fun quiet => quiet.update field word

theorem spares_head (head : a < img.initPgd * 1024) : Spares img es m (update m a v) where
  tables := fun a low _ => update_of_ne (by omega) _ _
  quiet := by
    intro quiet
    apply quiet.congr
    intro a low _
    have pgd := initPgd_lt img es
    exact update_of_ne (by omega) _ _

theorem spares_setCount (word : v ≤ 1) : Spares img es m (setCount m (pfaOf img es) i v) := by
  unfold setCount
  rw [pfaWord]
  exact spares_field (by decide) (by omega)

theorem spares_setType (word : v ≤ 1) : Spares img es m (setType m (pfaOf img es) i v) where
  tables := by
    intro a _ high
    unfold setType
    rw [pfaWord]
    exact update_of_ne (by omega) _ _
  quiet := fun quiet => quiet.setType (pfaPage_low img es) word

def Outside (img : Image) (es : List Entry) (f : Nat) : Prop :=
  f < imageBegin ∨ bootmemPage img es ≤ f

theorem poison_inside (out : Outside img es f) (low : imageBegin * 1024 ≤ a)
    (high : a < bootmemPage img es * 1024) : poison m f a = m a := by
  unfold Outside at out
  exact if_neg (by omega)

theorem spares_poison (out : Outside img es f) (some_frame : 0 < nrPhyspages es) :
    Spares img es m (poison m f) := by
  have begins := imageBegin_le img
  have pgd := initPgd_lt img es
  have pages := pfaPage_lt img some_frame
  constructor
  · intro a low high
    exact poison_inside out (by omega) (by omega)
  · intro quiet
    apply quiet.congr
    intro a low high
    exact poison_inside out (by omega) (by omega)

theorem count_poison (out : Outside img es f) (frame : i < nrPhyspages es) :
    count (poison m f) (pfaOf img es) i = count m (pfaOf img es) i := by
  have begins := imageBegin_le img
  have pgd := initPgd_lt img es
  unfold count
  rw [pfaWord]
  exact poison_inside out (by omega) (pfaWord_inside frame (by decide))

def headPtr (img : Image) : Nat := va (img.freeList * 4)
def pagePtr (img : Image) (es : List Entry) (i : Nat) : Nat := pfaOf img es + i * 28

theorem head_next (img : Image) : pa (headPtr img) / 4 = img.freeList := by
  have bss := img.bss
  have begins := img.begins
  have small := img.small
  unfold headPtr pa va pageOffset
  omega

theorem head_prev (img : Image) : pa (headPtr img + 4) / 4 = img.freeList + 1 := by
  have bss := img.bss
  have begins := img.begins
  have small := img.small
  unfold headPtr pa va pageOffset
  omega

theorem page_next (frame : i < nrPhyspages es) :
    pa (pagePtr img es i) / 4 = pfaPage img es * 1024 + i * 7 + 0 := by
  have frames := (sizes img es).frames
  have pages := (sizes img es).low
  rw [bootmemPage_eq] at pages
  unfold pagePtr pfaOf pa va pageOffset
  omega

theorem page_prev (frame : i < nrPhyspages es) :
    pa (pagePtr img es i + 4) / 4 = pfaPage img es * 1024 + i * 7 + 1 := by
  have frames := (sizes img es).frames
  have pages := (sizes img es).low
  rw [bootmemPage_eq] at pages
  unfold pagePtr pfaOf pa va pageOffset
  omega

theorem headPtr_even (img : Image) : headPtr img % 2 = 0 := by
  unfold headPtr va pageOffset
  omega

theorem pagePtr_even (i : Nat) : pagePtr img es i % 2 = 0 := by
  unfold pagePtr pfaOf va pageOffset
  omega

def Tail (img : Image) (es : List Entry) (m : Mem) : Prop :=
  m (img.freeList + 1) = headPtr img ∨
    ∃ j < nrPhyspages es, m (img.freeList + 1) = pagePtr img es j

theorem tail_word (tail : Tail img es m) :
    pa (m (img.freeList + 1)) / 4 = img.freeList ∨
      ∃ j, pa (m (img.freeList + 1)) / 4 = pfaPage img es * 1024 + j * 7 + 0 := by
  rcases tail with eq | ⟨j, there, eq⟩
  · rw [eq]
    exact .inl (head_next img)
  · rw [eq]
    exact .inr ⟨j, page_next there⟩

theorem head_below (img : Image) : img.freeList + 1 < img.initPgd * 1024 := by
  have bss := img.bss
  omega

theorem listAddTail_eq (frame : i < nrPhyspages es) :
    listAddTail m (pagePtr img es i) (headPtr img) =
      store
        (update
          (update
            (update m (img.freeList + 1) (pagePtr img es i))
            (pfaPage img es * 1024 + i * 7 + 0) (headPtr img))
          (pfaPage img es * 1024 + i * 7 + 1) (m (img.freeList + 1)))
        (m (img.freeList + 1)) (pagePtr img es i) := by
  unfold listAddTail store load
  rw [head_prev, page_next frame, page_prev frame]

section

variable (frame : i < nrPhyspages es) (tail : Tail img es m)
include frame tail

theorem spares_listAddTail : Spares img es m (listAddTail m (pagePtr img es i) (headPtr img)) := by
  have even : m (img.freeList + 1) % 2 = 0 := by
    rcases tail with eq | ⟨j, -, eq⟩
    · rw [eq]
      exact headPtr_even img
    · rw [eq]
      exact pagePtr_even j
  have last : ∀ m', Spares img es m' (store m' (m (img.freeList + 1)) (pagePtr img es i)) := by
    intro m'
    unfold store
    rcases tail_word tail with head | ⟨j, node⟩
    · rw [head]
      exact spares_head (by have := head_below img; omega)
    · rw [node]
      exact spares_field (by decide) (.inl (pagePtr_even i))
  rw [listAddTail_eq frame]
  exact (((spares_head (head_below img)).trans (spares_field (by decide) (.inl (headPtr_even img)))).trans
    (spares_field (by decide) (.inl even))).trans (last _)

theorem count_listAddTail {j : Nat} :
    count (listAddTail m (pagePtr img es i) (headPtr img)) (pfaOf img es) j =
      count m (pfaOf img es) j := by
  have below := head_below img
  have pgd := initPgd_lt img es
  have node : pa (m (img.freeList + 1)) / 4 ≠ pfaPage img es * 1024 + j * 7 + 5 := by
    rcases tail_word tail with head | ⟨k, node⟩
    · omega
    · omega
  rw [listAddTail_eq frame]
  unfold count store
  rw [pfaWord, update_of_ne node.symm, update_of_ne (by omega),
    update_of_ne (by omega), update_of_ne (by omega)]

theorem tail_listAddTail : Tail img es (listAddTail m (pagePtr img es i) (headPtr img)) := by
  have below := head_below img
  have pgd := initPgd_lt img es
  refine .inr ⟨i, frame, ?_⟩
  rw [listAddTail_eq frame]
  unfold store
  have other : img.freeList + 1 ≠ pa (m (img.freeList + 1)) / 4 := by
    rcases tail_word tail with head | ⟨k, node⟩
    · omega
    · omega
  rw [update_of_ne other, update_of_ne (by omega),
    update_of_ne (by omega), update_self]

end

end

end ScaraOS.Boot
