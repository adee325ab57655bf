import ScaraOS.Ext2.Pread
import ScaraOS.Lib.Bytes

/-! `ext2_lookup` of `fs/ext2.c`. A buffer is seen from its first byte on, and what stands
behind its `b_len` bytes is whatever memory holds there; it lies far enough below the top of
the address space for `j` not to wrap. -/
namespace ScaraOS.Ext2.Directory

abbrev Buffer := Nat → UInt8

def inode (b : Buffer) (j : Nat) : Nat := Bytes.load32 b j
def recLen (b : Buffer) (j : Nat) : Nat := Bytes.load b (j + 4) 2
def nameLen (b : Buffer) (j : Nat) : Nat := (b (j + 6)).toNat

/-- Whether `memcmp` of the bytes at `p` gives 0, and the offsets it reads. -/
def memcmp (b : Buffer) : (p : Nat) → (n : List UInt8) → Bool × List Nat
  | _, [] => (true, [])
  | p, c :: n => if b p = c then ((memcmp b (p + 1) n).1, p :: (memcmp b (p + 1) n).2) else (false, [p])

structure Search where
  found : Option Nat
  reads : List Nat
  deriving DecidableEq, Repr

/-- The search of a block from the offset `j` on; `none` if it is not over after so many
rounds. -/
def scan (b : Buffer) (n : List UInt8) : (rounds j : Nat) → Option Search
  | 0, _ => none
  | rounds + 1, j =>
    if bLen ≤ j then some ⟨none, []⟩
    else if recLen b j < 8 then some ⟨none, [j + 4, j + 5]⟩
    else if nameLen b j = n.length then
      let (same, places) := memcmp b (j + 8) n
      if same then
        some ⟨some (inode b j), [j + 4, j + 5, j + 6] ++ places ++ [j, j + 1, j + 2, j + 3]⟩
      else
        (scan b n rounds (j + recLen b j)).map fun s =>
          ⟨s.found, [j + 4, j + 5, j + 6] ++ places ++ s.reads⟩
    else
      (scan b n rounds (j + recLen b j)).map fun s => ⟨s.found, [j + 4, j + 5, j + 6] ++ s.reads⟩

structure Dir where
  iBlocks : Nat
  block : Nat → Nat

/-- The loop over the blocks from `x` on; `read x` is what `blk_read` gives for block `x` of
the directory. -/
def lookupFrom (rounds : Nat) (read : Nat → Option Buffer) (d : Dir) (n : List UInt8) :
    (left x : Nat) → Option Search
  | 0, _ => some ⟨none, []⟩
  | left + 1, x =>
    if d.block x = 0 then lookupFrom rounds read d n left (x + 1)
    else
      match read x with
      | none => some ⟨none, []⟩
      | some b =>
        (scan b n rounds 0).bind fun s =>
          if s.found.isSome then some s
          else (lookupFrom rounds read d n left (x + 1)).map fun t => ⟨t.found, s.reads ++ t.reads⟩

/-- `y`. -/
def searched (d : Dir) : Nat := min ext2NdirBlocks d.iBlocks

/-- `ext2_lookup`, which returns `iget` of what is found. -/
def ext2Lookup (rounds : Nat) (read : Nat → Option Buffer) (d : Dir) (n : List UInt8) : Option Search :=
  lookupFrom rounds read d n (searched d) 0

def Agrees (b : Buffer) (p : Nat) (n : List UInt8) (k : Nat) : Prop :=
  ∀ i < k, n[i]? = some (b (p + i))

instance (b : Buffer) (p : Nat) (n : List UInt8) (k : Nat) : Decidable (Agrees b p n k) :=
  inferInstanceAs (Decidable (∀ i < k, _))

def Matches (b : Buffer) (n : List UInt8) (j : Nat) : Prop :=
  nameLen b j = n.length ∧ Agrees b (j + 8) n n.length

instance (b : Buffer) (n : List UInt8) (j : Nat) : Decidable (Matches b n j) :=
  inferInstanceAs (Decidable (_ ∧ _))

def Hit (b : Buffer) (n : List UInt8) (j : Nat) : Prop :=
  j < bLen ∧ 8 ≤ recLen b j ∧ Matches b n j

def Passed (b : Buffer) (n : List UInt8) (j : Nat) : Prop :=
  j < bLen ∧ 8 ≤ recLen b j ∧ ¬ Matches b n j

/-- The offsets that the lengths of the records lead to from `j` on. -/
inductive Reached (b : Buffer) (n : List UInt8) (j : Nat) : Nat → Prop
  | start : Reached b n j j
  | next {k : Nat} : Reached b n j k → Passed b n k → Reached b n j (k + recLen b k)

/-- What is looked at of a record lies in the buffer: its length; if that is one, the length
of its name; and if this is that of `n`, the name as far as it agrees, with the byte after. -/
structure Fits (b : Buffer) (n : List UInt8) (j : Nat) : Prop where
  length : j + 6 ≤ bLen
  nameLength : 8 ≤ recLen b j → j + 7 ≤ bLen
  name : 8 ≤ recLen b j → nameLen b j = n.length →
    ∀ k < n.length, Agrees b (j + 8) n k → j + 8 + k < bLen

variable {b : Buffer} {n : List UInt8} {k j x left rounds : Nat} {s : Search} {d : Dir}
  {l : List Nat} {read : Nat → Option Buffer}

theorem agrees_cons {p : Nat} {c : UInt8} :
    Agrees b p (c :: n) (k + 1) ↔ b p = c ∧ Agrees b (p + 1) n k := by
  constructor
  · intro agrees
    refine ⟨?_, fun i below => ?_⟩
    · simpa using (agrees 0 (Nat.succ_pos k)).symm
    · have here := agrees (i + 1) (Nat.succ_lt_succ below)
      rwa [List.getElem?_cons_succ, ← Nat.add_assoc, Nat.add_right_comm] at here
  · rintro ⟨first, rest⟩ i below
    cases i with
    | zero => simp [first]
    | succ i =>
      rw [List.getElem?_cons_succ, ← Nat.add_assoc, Nat.add_right_comm]
      exact rest i (Nat.lt_of_succ_lt_succ below)

theorem memcmp_same (b : Buffer) (p : Nat) (n : List UInt8) :
    (memcmp b p n).1 = true ↔ Agrees b p n n.length := by
  induction n generalizing p with
  | nil => simp [memcmp, Agrees]
  | cons c n ih =>
    rw [List.length_cons, agrees_cons, memcmp]
    by_cases first : b p = c
    · simp [first, ih]
    · simp [first]

theorem mem_memcmp (b : Buffer) (p : Nat) (n : List UInt8) (q : Nat) :
    q ∈ (memcmp b p n).2 ↔ ∃ k < n.length, Agrees b p n k ∧ q = p + k := by
  induction n generalizing p with
  | nil => simp [memcmp]
  | cons c n ih =>
    have none : Agrees b p (c :: n) 0 := fun i below => absurd below (Nat.not_lt_zero i)
    rw [memcmp]
    by_cases first : b p = c
    · rw [if_pos first, List.mem_cons, ih]
      constructor
      · rintro (here | ⟨k, below, agrees, eq⟩)
        · exact ⟨0, Nat.succ_pos _, none, here⟩
        · exact ⟨k + 1, Nat.succ_lt_succ below, agrees_cons.mpr ⟨first, agrees⟩, by omega⟩
      · rintro ⟨k, below, agrees, eq⟩
        cases k with
        | zero => exact .inl eq
        | succ k =>
          exact .inr ⟨k, Nat.lt_of_succ_lt_succ below, (agrees_cons.mp agrees).2, by omega⟩
    · rw [if_neg first, List.mem_singleton]
      constructor
      · exact fun here => ⟨0, Nat.succ_pos _, none, here⟩
      · rintro ⟨k, below, agrees, eq⟩
        cases k with
        | zero => exact eq
        | succ k => exact absurd (agrees_cons.mp agrees).1 first

theorem reached_iff : Reached b n j k ↔ k = j ∨ Passed b n j ∧ Reached b n (j + recLen b j) k := by
  constructor
  · intro reached
    induction reached with
    | start => exact .inl rfl
    | next _ passed ih =>
      rcases ih with rfl | ⟨first, rest⟩
      · exact .inr ⟨passed, .start⟩
      · exact .inr ⟨first, .next rest passed⟩
  · rintro (rfl | ⟨first, rest⟩)
    · exact .start
    · induction rest with
      | start => exact .next .start first
      | next _ passed ih => exact .next ih passed

theorem reached_last (last : ¬ Passed b n j) : Reached b n j k ↔ k = j := by
  rw [reached_iff]
  exact or_iff_left fun later => last later.1

theorem fits_same (long : 8 ≤ recLen b j) (same : nameLen b j = n.length) :
    Fits b n j ↔ ∀ p ∈ [j + 4, j + 5, j + 6] ++ (memcmp b (j + 8) n).2, p < bLen := by
  constructor
  · rintro ⟨-, header, name⟩ p inside
    rcases List.mem_append.mp inside with inside | inside
    · have bound := header long
      simp only [List.mem_cons, List.not_mem_nil, or_false] at inside
      omega
    · obtain ⟨k, below, agrees, rfl⟩ := (mem_memcmp b (j + 8) n p).mp inside
      exact name long same k below agrees
  · intro all
    have header : j + 6 < bLen := all (j + 6) (by simp)
    refine ⟨by omega, fun _ => by omega, fun _ _ k below agrees => ?_⟩
    exact all _ (List.mem_append_right _ ((mem_memcmp b (j + 8) n _).mpr ⟨k, below, agrees, rfl⟩))

theorem fits_other (long : 8 ≤ recLen b j) (other : nameLen b j ≠ n.length) :
    Fits b n j ↔ ∀ p ∈ [j + 4, j + 5, j + 6], p < bLen := by
  constructor
  · rintro ⟨-, header, -⟩ p inside
    have bound := header long
    simp only [List.mem_cons, List.not_mem_nil, or_false] at inside
    omega
  · intro all
    have header : j + 6 < bLen := all (j + 6) (by simp)
    exact ⟨by omega, fun _ => by omega, fun _ same => absurd same other⟩

theorem fits_short (short : recLen b j < 8) : Fits b n j ↔ ∀ p ∈ [j + 4, j + 5], p < bLen := by
  constructor
  · rintro ⟨length, -, -⟩ p inside
    simp only [List.mem_cons, List.not_mem_nil, or_false] at inside
    omega
  · intro all
    have header : j + 5 < bLen := all (j + 5) (by simp)
    exact ⟨by omega, fun long => by omega, fun long => by omega⟩

structure Scanned (b : Buffer) (n : List UInt8) (j : Nat) (s : Search) : Prop where
  found : s.found.isSome ↔ ∃ k, Reached b n j k ∧ Hit b n k
  inside : (∀ p ∈ s.reads, p < bLen) ↔ ∀ k, Reached b n j k → k < bLen → Fits b n k

theorem scanned_last (last : ¬ Passed b n j) (found : s.found.isSome ↔ Hit b n j)
    (inside : (∀ p ∈ s.reads, p < bLen) ↔ (j < bLen → Fits b n j)) : Scanned b n j s := by
  constructor
  · simp only [reached_last last, exists_eq_left]
    exact found
  · simp only [reached_last last, forall_eq]
    exact inside

theorem scanned_next {looked : List Nat} (passed : Passed b n j)
    (fits : Fits b n j ↔ ∀ p ∈ looked, p < bLen) (rest : Scanned b n (j + recLen b j) s) :
    Scanned b n j ⟨s.found, looked ++ s.reads⟩ := by
  obtain ⟨found, inside⟩ := rest
  constructor
  · rw [found]
    constructor
    · rintro ⟨k, reached, hit⟩
      exact ⟨k, reached_iff.mpr (.inr ⟨passed, reached⟩), hit⟩
    · rintro ⟨k, reached, hit⟩
      rcases reached_iff.mp reached with rfl | ⟨-, later⟩
      · exact absurd hit.2.2 passed.2.2
      · exact ⟨k, later, hit⟩
  · rw [List.forall_mem_append, ← fits, inside]
    constructor
    · rintro ⟨here, later⟩ k reached below
      rcases reached_iff.mp reached with rfl | ⟨-, after⟩
      · exact here
      · exact later k after below
    · intro all
      exact ⟨all j .start passed.1, fun k reached => all k (reached_iff.mpr (.inr ⟨passed, reached⟩))⟩

theorem scan_out (out : bLen ≤ j) :
    (∀ rounds, 0 < rounds → scan b n rounds j = some ⟨none, []⟩) ∧ Scanned b n j ⟨none, []⟩ := by
  refine ⟨fun rounds enough => ?_, scanned_last (fun passed => ?_) ?_ ?_⟩
  · cases rounds with
    | zero => exact absurd enough (Nat.lt_irrefl 0)
    | succ rounds => rw [scan, if_pos out]
  · exact absurd passed.1 (Nat.not_lt.mpr out)
  · simp [Hit, Nat.not_lt.mpr out]
  · simp [Nat.not_lt.mpr out]

theorem scan_stops (here : j < bLen) (stops : recLen b j < 8 ∨ Matches b n j) :
    ∃ s, (∀ rounds, 0 < rounds → scan b n rounds j = some s) ∧ Scanned b n j s := by
  have last : ¬ Passed b n j := fun passed => by
    rcases stops with short | same
    · exact absurd passed.2.1 (by omega)
    · exact passed.2.2 same
  by_cases short : recLen b j < 8
  · refine ⟨⟨none, [j + 4, j + 5]⟩, fun rounds enough => ?_, scanned_last last ?_ ?_⟩
    · cases rounds with
      | zero => exact absurd enough (Nat.lt_irrefl 0)
      | succ rounds => rw [scan, if_neg (by omega), if_pos short]
    · refine iff_of_false (by simp) fun hit => ?_
      exact absurd hit.2.1 (by omega)
    · rw [← fits_short short]
      exact ⟨fun fits _ => fits, fun fits => fits here⟩
  · have same : Matches b n j := stops.resolve_left short
    refine ⟨⟨some (inode b j), [j + 4, j + 5, j + 6] ++ (memcmp b (j + 8) n).2 ++
      [j, j + 1, j + 2, j + 3]⟩, fun rounds enough => ?_, scanned_last last ?_ ?_⟩
    · cases rounds with
      | zero => exact absurd enough (Nat.lt_irrefl 0)
      | succ rounds =>
        rw [scan, if_neg (by omega), if_neg short, if_pos same.1]
        exact if_pos ((memcmp_same b (j + 8) n).mpr same.2)
    · exact iff_of_true rfl ⟨here, by omega, same⟩
    · rw [List.forall_mem_append, ← fits_same (by omega) same.1]
      constructor
      · exact fun both _ => both.1
      · intro fits
        have bound := (fits here).length
        refine ⟨fits here, fun p inside => ?_⟩
        simp only [List.mem_cons, List.not_mem_nil, or_false] at inside
        omega

/-- The search ends, since each record that is left behind takes 8 bytes at least. -/
theorem scan_ends (b : Buffer) (n : List UInt8) (m j : Nat) (far : bLen ≤ j + 8 * m) :
    ∃ s, (∀ rounds, m < rounds → scan b n rounds j = some s) ∧ Scanned b n j s := by
  induction m generalizing j with
  | zero => exact ⟨_, scan_out (by omega)⟩
  | succ m ih =>
    by_cases out : bLen ≤ j
    · obtain ⟨run, spec⟩ := scan_out (b := b) (n := n) out
      exact ⟨_, fun rounds enough => run rounds (by omega), spec⟩
    · by_cases stops : recLen b j < 8 ∨ Matches b n j
      · obtain ⟨s, run, spec⟩ := scan_stops (by omega) stops
        exact ⟨s, fun rounds enough => run rounds (by omega), spec⟩
      · obtain ⟨long, other⟩ := not_or.mp stops
        have passed : Passed b n j := ⟨by omega, by omega, other⟩
        obtain ⟨s, run, spec⟩ := ih (j + recLen b j) (by omega)
        by_cases same : nameLen b j = n.length
        · refine ⟨_, fun rounds enough => ?_, scanned_next passed (fits_same (by omega) same) spec⟩
          cases rounds with
          | zero => exact absurd enough (Nat.not_lt_zero _)
          | succ rounds =>
            have differs : ¬ (memcmp b (j + 8) n).1 = true := fun agrees =>
              other ⟨same, (memcmp_same b (j + 8) n).mp agrees⟩
            rw [scan, if_neg out, if_neg long, if_pos same, run rounds (by omega)]
            exact if_neg differs
        · refine ⟨_, fun rounds enough => ?_, scanned_next passed (fits_other (by omega) same) spec⟩
          cases rounds with
          | zero => exact absurd enough (Nat.not_lt_zero _)
          | succ rounds =>
            rw [scan, if_neg out, if_neg long, if_neg same, run rounds (by omega)]
            rfl

def maxRounds : Nat := bLen / 8

def Skipped (read : Nat → Option Buffer) (d : Dir) (n : List UInt8) (x : Nat) : Prop :=
  d.block x ≠ 0 → ∃ b, read x = some b ∧ ¬ ∃ k, Reached b n 0 k ∧ Hit b n k

def Comes (read : Nat → Option Buffer) (d : Dir) (n : List UInt8) (x₀ x : Nat) : Prop :=
  d.block x ≠ 0 ∧ ∀ y, x₀ ≤ y → y < x → Skipped read d n y

/-- What is looked at of the records of a block lies in the buffer. -/
def Inside (b : Buffer) (n : List UInt8) : Prop := ∀ k, Reached b n 0 k → k < bLen → Fits b n k

def Contained (read : Nat → Option Buffer) (d : Dir) (n : List UInt8) : Prop :=
  ∀ x < searched d, Comes read d n 0 x → ∀ b, read x = some b → Inside b n

theorem comes_succ {z : Nat} (skipped : Skipped read d n x) :
    Comes read d n (x + 1) z ↔ Comes read d n x z := by
  refine and_congr_right fun _ => ⟨fun all y low high => ?_, fun all y low => all y (by omega)⟩
  by_cases here : y = x
  · exact here ▸ skipped
  · exact all y (by omega) high

theorem contained_succ (skipped : Skipped read d n x) :
    (∀ z, x ≤ z → z < x + (left + 1) → Comes read d n x z → ∀ b, read z = some b → Inside b n) ↔
      (d.block x ≠ 0 → ∀ b, read x = some b → Inside b n) ∧
      ∀ z, x + 1 ≤ z → z < x + 1 + left → Comes read d n (x + 1) z → ∀ b, read z = some b →
        Inside b n := by
  constructor
  · intro all
    refine ⟨fun used => all x (Nat.le_refl x) (by omega) ⟨used, fun y low high => by omega⟩, ?_⟩
    intro z low high comes
    exact all z (by omega) (by omega) ((comes_succ skipped).mp comes)
  · rintro ⟨first, rest⟩ z low high comes
    by_cases here : z = x
    · subst here
      exact first comes.1
    · exact rest z (by omega) (by omega) ((comes_succ skipped).mpr comes)

theorem contained_stop (stops : ¬ Skipped read d n x) :
    (∀ z, x ≤ z → z < x + (left + 1) → Comes read d n x z → ∀ b, read z = some b → Inside b n) ↔
      ∀ b, read x = some b → Inside b n := by
  constructor
  · intro all
    have used : d.block x ≠ 0 := fun zero => stops fun used => absurd zero used
    exact all x (Nat.le_refl x) (by omega) ⟨used, fun y low high => by omega⟩
  · intro first z low high comes
    by_cases here : z = x
    · subst here
      exact first
    · exact absurd (comes.2 x (Nat.le_refl x) (by omega)) stops

theorem lookupFrom_ends (read : Nat → Option Buffer) (d : Dir) (n : List UInt8) (left x : Nat) :
    ∃ s, (∀ rounds, maxRounds < rounds → lookupFrom rounds read d n left x = some s) ∧
      ((∀ p ∈ s.reads, p < bLen) ↔ ∀ z, x ≤ z → z < x + left → Comes read d n x z →
        ∀ b, read z = some b → Inside b n) := by
  induction left generalizing x with
  | zero =>
    refine ⟨⟨none, []⟩, fun rounds _ => rfl, iff_of_true (by simp) fun z low high => ?_⟩
    omega
  | succ left ih =>
    obtain ⟨t, later, inside⟩ := ih (x + 1)
    by_cases unused : d.block x = 0
    · refine ⟨t, fun rounds enough => ?_, ?_⟩
      · rw [lookupFrom, if_pos unused, later rounds enough]
      · rw [contained_succ fun used => absurd unused used, inside]
        exact (and_iff_right fun used => absurd unused used).symm
    · cases content : read x with
      | none =>
        refine ⟨⟨none, []⟩, fun rounds _ => ?_, ?_⟩
        · rw [lookupFrom, if_neg unused, content]
        · rw [contained_stop fun skipped => by simpa [content] using skipped unused, content]
          simp
      | some b =>
        obtain ⟨s, run, found, fits⟩ := scan_ends b n maxRounds 0 (by decide)
        by_cases hit : s.found.isSome
        · refine ⟨s, fun rounds enough => ?_, ?_⟩
          · rw [lookupFrom, if_neg unused, content]
            simp only [run rounds enough, Option.bind_some, if_pos hit]
          · have stops : ¬ Skipped read d n x := fun skipped => by
              obtain ⟨b', eq, none⟩ := skipped unused
              rw [content] at eq
              cases eq
              exact none (found.mp hit)
            rw [contained_stop stops, fits, content]
            simp [Inside]
        · have skipped : Skipped read d n x := fun _ => ⟨b, content, fun some => hit (found.mpr some)⟩
          refine ⟨⟨t.found, s.reads ++ t.reads⟩, fun rounds enough => ?_, ?_⟩
          · rw [lookupFrom, if_neg unused, content]
            simp only [run rounds enough, Option.bind_some, if_neg hit, later rounds enough,
              Option.map_some]
          · rw [contained_succ skipped, List.forall_mem_append, fits, inside, content]
            simp [Inside, unused]

/-- The lookup ends, and it reads inside of the buffers exactly if the records do not lead
out of them. -/
theorem lookup_inside_iff (read : Nat → Option Buffer) (d : Dir) (n : List UInt8) :
    ∃ s, (∀ rounds, maxRounds < rounds → ext2Lookup rounds read d n = some s) ∧
      ((∀ p ∈ s.reads, p < bLen) ↔ Contained read d n) := by
  obtain ⟨s, run, inside⟩ := lookupFrom_ends read d n (searched d) 0
  refine ⟨s, run, inside.trans ?_⟩
  simp [Contained]

def oneRecord (length : Nat) : Nat → Option Buffer := fun _ => some (Bytes.store (fun _ => 0) 4 2 length)

def oneBlock : Dir where
  iBlocks := 2
  block := fun x => if x = 0 then 5 else 0

/-- A record of 1023 bytes: the length of the next one is read behind the buffer. -/
theorem lookup_reads_behind : ext2Lookup 129 (oneRecord 1023) oneBlock [97] =
    some ⟨none, [4, 5, 6, 1027, 1028]⟩ ∧ ¬ (1027 < bLen) := by
  decide +kernel

theorem lookup_inside_whole : ext2Lookup 129 (oneRecord 1024) oneBlock [97] = some ⟨none, [4, 5, 6]⟩ ∧
    Contained (oneRecord 1024) oneBlock [97] := by
  have run : ext2Lookup 129 (oneRecord 1024) oneBlock [97] = some ⟨none, [4, 5, 6]⟩ := by
    decide +kernel
  obtain ⟨s, ends, inside⟩ := lookup_inside_iff (oneRecord 1024) oneBlock [97]
  have same := ends 129 (by decide)
  rw [run] at same
  cases same
  exact ⟨run, inside.mp (by decide)⟩

inductive Tiled (b : Buffer) : Nat → List Nat → Prop
  | done : Tiled b bLen []
  | record {j : Nat} {l : List Nat} : j < bLen → 8 + nameLen b j ≤ recLen b j →
      Tiled b (j + recLen b j) l → Tiled b j (j :: l)

structure Block where
  bytes : Buffer
  records : List Nat
  tiled : Tiled bytes 0 records

structure Entry where
  inode : Nat
  name : List UInt8
  deriving DecidableEq, Repr

def entryAt (b : Buffer) (j : Nat) : Entry where
  inode := inode b j
  name := (List.range (nameLen b j)).map fun i => b (j + 8 + i)

def Block.entries (b : Block) : List Entry := b.records.map (entryAt b.bytes)

def entries (d : Dir) (disk : Nat → Block) (places : List Nat) : List Entry :=
  places.flatMap fun x => if d.block x = 0 then [] else (disk x).entries

theorem matches_iff (b : Buffer) (n : List UInt8) (j : Nat) :
    Matches b n j ↔ (entryAt b j).name = n := by
  unfold Matches Agrees entryAt
  constructor
  · rintro ⟨length, agrees⟩
    refine List.ext_getElem (by simpa using length) fun i _ below => ?_
    have here := agrees i below
    rw [List.getElem?_eq_getElem below] at here
    simpa using (Option.some.inj here).symm
  · rintro rfl
    simp +contextual

theorem tiled_length (tiled : Tiled b j l) : j + 8 * l.length ≤ bLen := by
  induction tiled with
  | done => simp
  | record _ long _ ih =>
    rw [List.length_cons]
    omega

theorem scan_tiled (tiled : Tiled b j l) (enough : l.length < rounds) : ∃ reads, scan b n rounds j =
      some ⟨((l.map (entryAt b)).find? fun e => e.name = n).map (·.inode), reads⟩ := by
  induction tiled generalizing rounds with
  | done =>
    cases rounds with
    | zero => exact absurd enough (Nat.not_lt_zero _)
    | succ rounds => exact ⟨[], by rw [scan, if_pos (Nat.le_refl bLen)]; rfl⟩
  | @record j l below long _ ih =>
    cases rounds with
    | zero => exact absurd enough (Nat.not_lt_zero _)
    | succ rounds =>
      obtain ⟨reads, rest⟩ := ih (Nat.lt_of_succ_lt_succ enough)
      rw [scan, if_neg (by omega), if_neg (by omega), List.map_cons, List.find?_cons]
      by_cases hit : Matches b n j
      · have name : decide ((entryAt b j).name = n) = true := decide_eq_true ((matches_iff b n j).mp hit)
        rw [name, if_pos hit.1]
        exact ⟨_, if_pos ((memcmp_same b (j + 8) n).mpr hit.2)⟩
      · have name : decide ((entryAt b j).name = n) = false :=
          decide_eq_false fun same => hit ((matches_iff b n j).mpr same)
        rw [name, rest]
        by_cases same : nameLen b j = n.length
        · have differs : ¬ (memcmp b (j + 8) n).1 = true := fun agrees =>
            hit ⟨same, (memcmp_same b (j + 8) n).mp agrees⟩
          rw [if_pos same]
          exact ⟨_, if_neg differs⟩
        · rw [if_neg same]
          exact ⟨_, rfl⟩

theorem lookupFrom_tiled (d : Dir) (disk : Nat → Block) (n : List UInt8)
    (enough : maxRounds < rounds) (left x : Nat) : ∃ reads,
      lookupFrom rounds (fun x => some (disk x).bytes) d n left x =
        some ⟨((entries d disk (List.range' x left)).find? fun e => e.name = n).map (·.inode),
          reads⟩ := by
  induction left generalizing x with
  | zero => exact ⟨[], rfl⟩
  | succ left ih =>
    obtain ⟨reads, rest⟩ := ih (x + 1)
    have split : entries d disk (List.range' x (left + 1)) =
        (if d.block x = 0 then [] else (disk x).entries) ++
          entries d disk (List.range' (x + 1) left) := by
      rw [List.range'_succ, entries, List.flatMap_cons]
      rfl
    rw [lookupFrom, split]
    by_cases unused : d.block x = 0
    · rw [if_pos unused, if_pos unused, rest]
      exact ⟨reads, rfl⟩
    · have few : (disk x).records.length < rounds := by
        have bound := tiled_length (disk x).tiled
        unfold maxRounds at enough
        omega
      obtain ⟨places, found⟩ := scan_tiled (n := n) (disk x).tiled few
      rw [if_neg unused, if_neg unused, List.find?_append]
      simp only [found, Option.bind_some, rest, Option.map_some]
      unfold Block.entries
      cases List.find? (fun e => decide (e.name = n)) ((disk x).records.map (entryAt (disk x).bytes)) with
      | none | some e => exact ⟨_, rfl⟩

/-- Whatever `iget` gives for the numbers from 1 on, the lookup gives it for the first entry of
the direct blocks that is in use and has the name, and a null pointer if there is none. The
number 0 is refused by `ext2_read_inode`, see `Super.locate_zero`. -/
def Finds (d : Dir) (disk : Nat → Block) (n : List UInt8) : Prop :=
  ∀ iget : Nat → Option Nat, iget 0 = none → ∀ rounds, maxRounds < rounds → ∃ s,
    ext2Lookup rounds (fun x => some (disk x).bytes) d n = some s ∧
      s.found.bind iget = ((entries d disk (List.range ext2NdirBlocks)).find? fun e =>
        e.name = n ∧ e.inode ≠ 0).bind fun e => iget e.inode

theorem lookup_tiled (d : Dir) (disk : Nat → Block) (n : List UInt8) (enough : maxRounds < rounds) :
    ∃ s, ext2Lookup rounds (fun x => some (disk x).bytes) d n = some s ∧
      s.found = ((entries d disk (List.range (searched d))).find? fun e => e.name = n).map (·.inode) := by
  obtain ⟨reads, run⟩ := lookupFrom_tiled d disk n enough (searched d) 0
  rw [← List.range_eq_range'] at run
  exact ⟨_, run, rfl⟩

theorem entries_direct (d : Dir) (disk : Nat → Block) : entries d disk (List.range ext2NdirBlocks) =
    entries d disk (List.range (searched d)) ++
      entries d disk (List.range' (searched d) (ext2NdirBlocks - searched d)) := by
  have below : searched d ≤ ext2NdirBlocks := Nat.min_le_left _ _
  have direct := List.range'_append_1 (s := 0) (m := searched d) (n := ext2NdirBlocks - searched d)
  rw [Nat.zero_add, Nat.add_sub_cancel' below, ← List.range_eq_range', ← List.range_eq_range'] at direct
  rw [← direct, entries, List.flatMap_append]
  rfl

theorem find_in_use_iff (list rest : List Entry) (n : List UInt8) :
    (∀ iget : Nat → Option Nat, iget 0 = none →
      ((list.find? fun e => e.name = n).map (·.inode)).bind iget =
        ((list ++ rest).find? fun e => e.name = n ∧ e.inode ≠ 0).bind fun e => iget e.inode) ↔
    (∃ e, (list.find? fun e => e.name = n) = some e ∧ e.inode ≠ 0) ∨
      ∀ e ∈ list ++ rest, e.name = n → e.inode = 0 := by
  constructor
  · intro right
    by_contra neither
    obtain ⟨unused, some⟩ := not_or.mp neither
    have exist : ((list ++ rest).find? fun e => decide (e.name = n ∧ e.inode ≠ 0)).isSome := by
      rw [List.find?_isSome]
      simpa using some
    obtain ⟨e, found⟩ := Option.isSome_iff_exists.mp exist
    have used : e.name = n ∧ e.inode ≠ 0 := by simpa using List.find?_some found
    -- an `iget` that succeeds for all numbers but 0
    have value := right (fun i => if i = 0 then none else Option.some 0) rfl
    rw [found, Option.bind_some, if_neg used.2] at value
    obtain ⟨i, first, gives⟩ := Option.bind_eq_some_iff.mp value
    obtain ⟨e', first', rfl⟩ := Option.map_eq_some_iff.mp first
    refine unused ⟨e', first', fun zero => ?_⟩
    simp [zero] at gives
  · rintro (⟨e, first, used⟩ | none) iget refused
    · obtain ⟨name, before, after, rfl, earlier⟩ := List.find?_eq_some_iff_append.mp first
      have found : (before ++ e :: after ++ rest).find? (fun e => decide (e.name = n ∧ e.inode ≠ 0)) =
          some e := by
        refine List.find?_eq_some_iff_append.mpr ⟨?_, before, after ++ rest, by simp, fun a inside => ?_⟩
        · exact decide_eq_true ⟨of_decide_eq_true name, used⟩
        · have other := earlier a inside
          simp only [Bool.not_eq_true', decide_eq_false_iff_not] at other ⊢
          exact fun both => other both.1
      rw [found, first]
      rfl
    · have nothing : ((list ++ rest).find? fun e => decide (e.name = n ∧ e.inode ≠ 0)) = Option.none :=
        List.find?_eq_none.mpr fun e inside both =>
          (of_decide_eq_true both).2 (none e inside (of_decide_eq_true both).1)
      rw [nothing]
      cases first : list.find? fun e => decide (e.name = n) with
      | none => rfl
      | some e =>
        have zero := none e (List.mem_append_left _ (List.mem_of_find?_eq_some first))
          (by simpa using List.find?_some first)
        rw [Option.map_some, Option.bind_some, zero, refused]
        rfl

/-- The lookup finds what it should exactly if the first record with the name among the
blocks it searches is in use, or no record in use has the name in any direct block. -/
theorem lookup_finds_iff (d : Dir) (disk : Nat → Block) (n : List UInt8) : Finds d disk n ↔
    (∃ e, ((entries d disk (List.range (searched d))).find? fun e => e.name = n) = some e ∧
      e.inode ≠ 0) ∨
    ∀ e ∈ entries d disk (List.range ext2NdirBlocks), e.name = n → e.inode = 0 := by
  rw [entries_direct, ← find_in_use_iff, ← entries_direct]
  constructor
  · intro finds iget refused
    obtain ⟨s, run, value⟩ := finds iget refused (maxRounds + 1) (Nat.lt_succ_self _)
    obtain ⟨s', run', found⟩ := lookup_tiled d disk n (Nat.lt_succ_self maxRounds)
    rw [run] at run'
    cases run'
    rw [← found, value]
  · intro right iget refused rounds enough
    obtain ⟨s, run, found⟩ := lookup_tiled d disk n enough
    exact ⟨s, run, by rw [found, right iget refused]⟩

def sampleBytes : Buffer := fun i =>
  ([(4, 12), (6, 1), (8, 97), (12, 5), (16, 244), (17, 3), (18, 1), (20, 97)].lookup i).getD 0

def sampleBlock : Block where
  bytes := sampleBytes
  records := [0, 12]
  tiled := by
    have first : 0 + recLen sampleBytes 0 = 12 := by decide +kernel
    have second : 12 + recLen sampleBytes 12 = bLen := by decide +kernel
    refine .record (by decide) (by decide +kernel) ?_
    rw [first]
    refine .record (by decide) (by decide +kernel) ?_
    rw [second]
    exact .done

/-- The lookup of `a` gives inode 0, that of the unused record. -/
theorem lookup_finds_unused :
    (ext2Lookup 129 (fun _ => some sampleBlock.bytes) oneBlock [97]).map (·.found) = some (some 0) ∧
    ((entries oneBlock (fun _ => sampleBlock) (List.range ext2NdirBlocks)).find? fun e =>
      e.name = [97] ∧ e.inode ≠ 0) = some ⟨5, [97]⟩ ∧
    ¬ Finds oneBlock (fun _ => sampleBlock) [97] := by
  have run : (ext2Lookup 129 (fun _ => some sampleBlock.bytes) oneBlock [97]).map (·.found) =
      some (some 0) := by
    decide +kernel
  have used : ((entries oneBlock (fun _ => sampleBlock) (List.range ext2NdirBlocks)).find? fun e =>
      e.name = [97] ∧ e.inode ≠ 0) = some ⟨5, [97]⟩ := by
    decide +kernel
  refine ⟨run, used, fun finds => ?_⟩
  obtain ⟨s, found, value⟩ := finds (fun i => if i = 5 then some 1 else none) rfl 129 (by decide)
  rw [found] at run
  have zero : s.found = some 0 := Option.some.inj run
  rw [zero, used] at value
  exact absurd value (by decide)

theorem lookup_finds_absent : Finds oneBlock (fun _ => sampleBlock) [98] := by
  have absent : (entries oneBlock (fun _ => sampleBlock) (List.range ext2NdirBlocks)).all
      (fun e => e.name ≠ [98]) = true := by
    decide +kernel
  refine (lookup_finds_iff oneBlock (fun _ => sampleBlock) [98]).mpr (.inr fun e inside named => ?_)
  simpa [named] using List.all_eq_true.mp absent e inside

end ScaraOS.Ext2.Directory
