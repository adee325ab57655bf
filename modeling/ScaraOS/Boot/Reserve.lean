import Mathlib.Data.List.TakeWhile
import ScaraOS.Boot.Tables

/-! Reservations: which pages of the page frame array are marked after the map of the
BIOS has been read. Every byte below the end of the map that is not memory lies in a
marked page, as does every byte of the kernel and its boot memory. -/
namespace ScaraOS.Boot

open Function Paging

variable {m m' : Mem} {i v contigEnd : Nat} {es seen : List Entry}

section

variable {page : Nat}

theorem pageWord_eq (low : page < 2 ^ 18) (i k : Nat) :
    pageWord (va (page * 4096)) i k = page * 1024 + i * 7 + k := by
  unfold pageWord
  rw [pa_va (by omega)]
  omega

theorem count_setCount (m : Mem) (pfa i j v : Nat) :
    count (setCount m pfa i v) pfa j = if j = i then v else count m pfa j := by
  unfold count setCount
  by_cases same : j = i
  · rw [if_pos same, same, update_self]
  · rw [if_neg same, update_of_ne]
    unfold pageWord
    omega

@[simp] theorem count_setType (m : Mem) (pfa i j v : Nat) :
    count (setType m pfa i v) pfa j = count m pfa j := by
  unfold count setType
  rw [update_of_ne]
  unfold pageWord
  omega

structure Quiet (page : Nat) (m : Mem) : Prop where
  words : ∀ j < 1024, m (page * 1024 + j) % 2 = 0 ∨ m (page * 1024 + j) = 1
  types : ∀ i, i * 7 + 6 < 1024 → m (page * 1024 + i * 7 + 6) ≤ 1

theorem Quiet.congr (quiet : Quiet page m)
    (same : ∀ a, page * 1024 ≤ a → a < page * 1024 + 1024 → m' a = m a) : Quiet page m' where
  words := by
    intro j inside
    rw [same _ (by omega) (by omega)]
    exact quiet.words j inside
  types := by
    intro i inside
    rw [same _ (by omega) (by omega)]
    exact quiet.types i inside

theorem Quiet.update {k : Nat} (quiet : Quiet page m) (field : k < 6) (word : v % 2 = 0 ∨ v = 1) :
    Quiet page (update m (page * 1024 + i * 7 + k) v) where
  words := by
    intro j inside
    by_cases here : page * 1024 + j = page * 1024 + i * 7 + k
    · rw [here, update_self]
      exact word
    · rw [update_of_ne here]
      exact quiet.words j inside
  types := by
    intro j inside
    rw [update_of_ne (by omega)]
    exact quiet.types j inside

theorem Quiet.setType (quiet : Quiet page m) (low : page < 2 ^ 18) (word : v ≤ 1) :
    Quiet page (setType m (va (page * 4096)) i v) := by
  unfold Boot.setType
  rw [pageWord_eq low]
  have stored : i * 7 + 6 < 1024 → m (page * 1024 + i * 7 + 6) / 65536 * 65536 + v = v := by
    intro inside
    have := quiet.types i inside
    omega
  constructor
  · intro j inside
    by_cases here : page * 1024 + j = page * 1024 + i * 7 + 6
    · rw [here, update_self, stored (by omega)]
      omega
    · rw [update_of_ne here]
      exact quiet.words j inside
  · intro j inside
    by_cases here : page * 1024 + j * 7 + 6 = page * 1024 + i * 7 + 6
    · rw [here, update_self, stored (by omega)]
      exact word
    · rw [update_of_ne here]
      exact quiet.types j inside

structure Marks (page : Nat) (m m' : Mem) : Prop where
  before : ∀ a < page * 1024, m' a = m a
  quiet : Quiet page m → Quiet page m'
  kept : ∀ i, count m (va (page * 4096)) i ≠ 0 → count m' (va (page * 4096)) i ≠ 0

theorem Marks.refl (m : Mem) : Marks page m m := ⟨fun _ _ => rfl, id, fun _ => id⟩

theorem Marks.trans {m'' : Mem} (first : Marks page m m') (second : Marks page m' m'') :
    Marks page m m'' where
  before := fun a out => (second.before a out).trans (first.before a out)
  quiet := fun quiet => second.quiet (first.quiet quiet)
  kept := fun i marked => second.kept i (first.kept i marked)

theorem count_reservePage (m : Mem) (pfa i j : Nat) :
    count (reservePage pfa m i) pfa j = if j = i then 1 else count m pfa j := by
  unfold reservePage
  rw [count_setType, count_setCount]

variable (low : page < 2 ^ 18)

include low

theorem reservePage_marks (m : Mem) (i : Nat) :
    Marks page m (reservePage (va (page * 4096)) m i) where
  before := by
    intro a out
    unfold reservePage setType setCount
    rw [pageWord_eq low, pageWord_eq low, update_of_ne (by omega),
      update_of_ne (by omega)]
  quiet := by
    intro quiet
    unfold reservePage setCount
    rw [pageWord_eq low]
    exact (quiet.update (by decide) (.inr rfl)).setType low (by decide)
  kept := by
    intro j marked
    rw [count_reservePage]
    split
    · decide
    · exact marked

theorem reserveAll_marks (l : List Nat) (m : Mem) :
    Marks page m (l.foldl (reservePage (va (page * 4096))) m) := by
  induction l generalizing m with
  | nil => exact Marks.refl m
  | cons i rest ih => exact (reservePage_marks low m i).trans (ih _)

theorem reserveAll_count {l : List Nat} (member : i ∈ l) (m : Mem) :
    count (l.foldl (reservePage (va (page * 4096))) m) (va (page * 4096)) i ≠ 0 := by
  induction l generalizing m with
  | nil => simp at member
  | cons j rest ih =>
    rw [List.foldl_cons]
    rcases List.mem_cons.mp member with rfl | later
    · apply (reserveAll_marks low rest _).kept
      rw [count_reservePage, if_pos rfl]
      decide
    · exact ih later _

theorem reservePages_marks (vptr len : Nat) (m : Mem) :
    Marks page m (reservePages (va (page * 4096)) vptr len m) := reserveAll_marks low _ m

theorem reservePages_covers {x len y : Nat} (bound : x + len ≤ 2 ^ 31) (from_x : x ≤ y)
    (inside : y < x + len) (m : Mem) :
    count (reservePages (va (page * 4096)) (va x) len m) (va (page * 4096)) (y / 4096) ≠ 0 := by
  have begins : pa (va x) = x := pa_va (by omega)
  have ends : pa (va x + (len + (2 ^ 32 - 1)) % 2 ^ 32) = x + (len - 1) := by
    unfold pa va pageOffset
    omega
  unfold reservePages reservePageRange
  simp only [begins, ends]
  apply reserveAll_count low
  rw [List.mem_range'_1]
  omega

theorem reserveHole_marks (s : Mem × Nat) (e : Entry) :
    Marks page s.1 (reserveHole (va (page * 4096)) s e).1 := by
  unfold reserveHole
  split
  · exact reservePages_marks low _ _ _
  · exact Marks.refl _

theorem reserveEntry_marks (s : Mem × Nat) (e : Entry) :
    Marks page s.1 (reserveEntry (va (page * 4096)) s e).1 := by
  refine (reserveHole_marks low s e).trans ?_
  unfold reserveEntry
  dsimp only
  generalize (reserveHole (va (page * 4096)) s e).1 = m
  split
  · exact reservePages_marks low _ _ _
  · exact Marks.refl _

theorem reserveFromE820_marks (es : List Entry) (m : Mem) :
    Marks page m (reserveFromE820 (va (page * 4096)) es m) := by
  have all : ∀ (l : List Entry) (s : Mem × Nat),
      Marks page s.1 (l.foldl (reserveEntry (va (page * 4096))) s).1 := by
    intro l
    induction l with
    | nil => exact fun s => Marks.refl s.1
    | cons e rest ih => exact fun s => (reserveEntry_marks low s e).trans (ih _)
  exact all (scanned es) (m, 0)

end

structure Ordered (es : List Entry) : Prop where
  sorted : es.Pairwise fun e f => e.base + e.length ≤ f.base
  positive : ∀ e ∈ es, 0 < e.length
  bound : ∀ e ∈ es, e.base + e.length ≤ 2 ^ 30

def Entry.has (e : Entry) (x : Nat) : Prop := e.base ≤ x ∧ x < e.base + e.length

def Covered (page : Nat) (es : List Entry) (m : Mem) (upto : Nat) : Prop :=
  ∀ x < upto, (∃ e ∈ es, e.type = mbfMem ∧ e.has x) ∨ count m (va (page * 4096)) (x / 4096) ≠ 0

theorem Covered.mono {page upto : Nat} {fs : List Entry} (covered : Covered page es m upto)
    (more : ∀ e ∈ es, e ∈ fs) (marks : Marks page m m') : Covered page fs m' upto := by
  intro x below
  rcases covered x below with ⟨e, member, mem, has⟩ | marked
  · exact .inl ⟨e, more e member, mem, has⟩
  · exact .inr (marks.kept _ marked)

theorem reserveEntry_covers {page : Nat} (low : page < 2 ^ 18) {e : Entry}
    (covered : Covered page seen m contigEnd) (after : contigEnd ≤ e.base) (positive : 0 < e.length)
    (bound : e.base + e.length ≤ 2 ^ 30) :
    Covered page (seen ++ [e]) (reserveEntry (va (page * 4096)) (m, contigEnd) e).1
        (e.base + e.length) ∧
      (reserveEntry (va (page * 4096)) (m, contigEnd) e).2 = e.base + e.length := by
  have base : e.baseAddrLow = e.base := by
    unfold Entry.baseAddrLow
    omega
  have length : e.lengthLow = e.length := by
    unfold Entry.lengthLow
    omega
  -- the hole is marked, and the entry begins where it ends
  obtain ⟨m₁, hole, marks, gap⟩ : ∃ m₁,
      reserveHole (va (page * 4096)) (m, contigEnd) e = (m₁, e.base) ∧ Marks page m m₁ ∧
        ∀ x, contigEnd ≤ x → x < e.base → count m₁ (va (page * 4096)) (x / 4096) ≠ 0 := by
    have size : (e.base + (2 ^ 32 - contigEnd)) % 2 ^ 32 = e.base - contigEnd := by omega
    unfold reserveHole
    rw [base, size]
    by_cases touches : e.base = contigEnd
    · refine ⟨m, ?_, Marks.refl m, fun x above below => by omega⟩
      rw [if_neg (not_not_intro touches), touches]
    · refine ⟨_, if_pos touches, reservePages_marks low _ _ m, ?_⟩
      intro x above below
      exact reservePages_covers low (by omega) above (by omega) m
  unfold reserveEntry
  rw [hole, base, length]
  refine ⟨?_, Nat.mod_eq_of_lt (by omega)⟩
  dsimp only
  intro x below
  by_cases before : x < e.base
  · -- the bytes before the entry stay as they are
    have kept : Covered page (seen ++ [e]) m₁ contigEnd :=
      covered.mono (fun f member => List.mem_append_left [e] member) marks
    have up : (∃ f ∈ seen ++ [e], f.type = mbfMem ∧ f.has x) ∨
        count m₁ (va (page * 4096)) (x / 4096) ≠ 0 := by
      by_cases old : x < contigEnd
      · exact kept x old
      · exact .inr (gap x (by omega) before)
    split
    · rcases up with mem | marked
      · exact .inl mem
      · exact .inr ((reservePages_marks low _ _ m₁).kept _ marked)
    · exact up
  · split
    case isTrue other => exact .inr (reservePages_covers low (by omega) (by omega) below m₁)
    case isFalse mem =>
      refine .inl ⟨e, by simp, not_not.mp mem, by omega, below⟩

theorem reserveAll_covers {page : Nat} (low : page < 2 ^ 18) (ordered : Ordered es)
    (covered : Covered page seen m contigEnd) (after : ∀ e ∈ es, contigEnd ≤ e.base) :
    Covered page (seen ++ es) (es.foldl (reserveEntry (va (page * 4096))) (m, contigEnd)).1
      ((es.getLast?.map fun e => e.base + e.length).getD contigEnd) := by
  induction es generalizing seen m contigEnd with
  | nil => simpa using covered
  | cons e rest ih =>
    obtain ⟨first, sorted⟩ := List.pairwise_cons.mp ordered.sorted
    obtain ⟨here, ends⟩ := reserveEntry_covers low covered (after e List.mem_cons_self)
      (ordered.positive e List.mem_cons_self) (ordered.bound e List.mem_cons_self)
    have later := ih ⟨sorted, fun f member => ordered.positive f (List.mem_cons_of_mem e member),
      fun f member => ordered.bound f (List.mem_cons_of_mem e member)⟩ here first
    rw [List.append_assoc, List.singleton_append, ← ends, Prod.mk.eta] at later
    rw [List.foldl_cons]
    have upto : ((e :: rest).getLast?.map fun e => e.base + e.length).getD contigEnd =
        (rest.getLast?.map fun e => e.base + e.length).getD
          (reserveEntry (va (page * 4096)) (m, contigEnd) e).2 := by
      rw [ends]
      cases rest with
      | nil => rfl
      | cons f rest =>
        rw [List.getLast?_cons_cons]
        cases eq : (f :: rest).getLast? with
        | none => simp at eq
        | some g => rfl
    rw [upto]
    exact later

theorem Ordered.scanned_eq (ordered : Ordered es) : scanned es = es := by
  unfold scanned
  rw [List.takeWhile_eq_self_iff]
  intro e member
  have positive := ordered.positive e member
  have bound := ordered.bound e member
  unfold Entry.baseAddrLow
  rw [decide_eq_true_eq]
  omega

theorem Ordered.sizeUpRam_eq (ordered : Ordered es) :
    sizeUpRam es = (es.getLast?.map fun e => e.base + e.length).getD 0 := by
  rw [Boot.sizeUpRam_eq]
  unfold lastEnd
  rw [ordered.scanned_eq]
  cases last : es.getLast? with
  | none => rfl
  | some e =>
    have bound := ordered.bound e (List.mem_of_getLast? last)
    exact Nat.mod_eq_of_lt (by omega)

theorem reserveFromE820_covers {page : Nat} (low : page < 2 ^ 18) (ordered : Ordered es) (m : Mem) :
    Covered page es (reserveFromE820 (va (page * 4096)) es m) (sizeUpRam es) := by
  have start : Covered page [] m 0 := fun x below => absurd below (Nat.not_lt_zero x)
  have all := reserveAll_covers low ordered start fun e _ => Nat.zero_le e.base
  unfold reserveFromE820
  rw [ordered.scanned_eq, ordered.sizeUpRam_eq]
  exact all

end ScaraOS.Boot
