import Mathlib.Order.Interval.Finset.Nat
import Mathlib.Tactic.IntervalCases
import ScaraOS.Boot.Soundness
import ScaraOS.Lib.Bytes

/-! The loops over the bytes of the e820 map: `size_up_ram`, `setup_max_bootmem` and
`reserve_from_e820` find an entry by the size the one before it gives. Pointers are 32-bit
words, and an address may come round. -/
namespace ScaraOS.Boot

def field (a ofs : Nat) : Nat := (a + ofs) % 2 ^ 32

def sizeAt (m : Bytes.Mem) (a : Nat) : Nat := Bytes.load32 m a

/-- What the loops read of an entry; the upper halves of base and length are not among it. -/
def entryAt (m : Bytes.Mem) (a : Nat) : Entry where
  base := Bytes.load32 m (field a 4)
  length := Bytes.load32 m (field a 12)
  type := Bytes.load32 m (field a 20)

def next (m : Bytes.Mem) (a : Nat) : Nat := (a + sizeAt m a + 4) % 2 ^ 32

/-- What a loop does with an entry, and at which offsets it reads to do so. -/
structure Body (S : Type) where
  turn : S → Entry → S
  reads : S → Entry → List Nat
  fields : ∀ s e, ∀ ofs ∈ reads s e, ofs = 4 ∨ ofs = 12 ∨ ofs = 20

/-- The entries that were visited, the addresses of the fields that were read, and the state. -/
structure Walked (S : Type) where
  visited : List Nat
  read : List Nat
  state : S

/-- The loop they have in common, from an entry on. No result is a loop that has not ended. -/
def walk {S : Type} (body : Body S) (m : Bytes.Mem) (stop : Nat) : Nat → Nat → S → Option (Walked S)
  | 0, _, _ => none
  | fuel + 1, a, s =>
    if (a + 4) % 2 ^ 32 > stop then some ⟨[], [], s⟩
    else if next m a > stop then some ⟨[], [a], s⟩
    else if (entryAt m a).base > 0x3fffffff then some ⟨[], [a, field a 4], s⟩
    else
      (walk body m stop fuel (next m a) (body.turn s (entryAt m a))).map fun w =>
        ⟨a :: w.visited, [a, field a 4] ++ (body.reads s (entryAt m a)).map (field a) ++ w.read,
          w.state⟩

def sizeUpRamBody : Body Nat where
  turn tot e :=
    if e.type ||| (mbfMem ||| mbfBootdev) ≠ 0 then (e.baseAddrLow + e.lengthLow) % 2 ^ 32 else tot
  reads _ e := 20 :: if e.type ||| (mbfMem ||| mbfBootdev) ≠ 0 then [4, 12] else []
  fields := by
    intro _ e ofs
    split <;> simp <;> omega

def setupMaxBootmemBody : Body Nat where
  turn curEnd e :=
    if curEnd < (e.baseAddrLow + e.lengthLow) % 2 ^ 32 ∧ e.type = mbfMem then
      (e.baseAddrLow + e.lengthLow) % 2 ^ 32
    else curEnd
  reads curEnd e :=
    [4, 12] ++ if curEnd < (e.baseAddrLow + e.lengthLow) % 2 ^ 32 then
      20 :: if e.type = mbfMem then [4, 12] else []
    else []
  fields := by
    intro curEnd e ofs
    split_ifs <;> simp <;> omega

def reserveFromE820Body (pfa : Nat) : Body (Mem × Nat) where
  turn := reserveEntry pfa
  reads s e :=
    4 :: (if e.baseAddrLow ≠ s.2 then [4, 4, 4] else []) ++ 20 ::
      (if e.type ≠ mbfMem then [4, 12] else []) ++ [12]
  fields := by
    intro s e ofs
    split_ifs <;> simp <;> omega

variable {m : Bytes.Mem} {stop fuel a : Nat} {w : Walked Nat}

theorem walk_state {S : Type} {body : Body S} {s : S} {w : Walked S}
    (ran : walk body m stop fuel a s = some w) :
    w.state = (w.visited.map (entryAt m)).foldl body.turn s ∧
      ∀ x ∈ w.visited, (entryAt m x).base ≤ 0x3fffffff := by
  induction fuel generalizing a s w with
  | zero => cases ran
  | succ fuel ih =>
    rw [walk] at ran
    split_ifs at ran with short cut high
    · cases ran
      exact ⟨rfl, nofun⟩
    · cases ran
      exact ⟨rfl, nofun⟩
    · cases ran
      exact ⟨rfl, nofun⟩
    · obtain ⟨w', later, rfl⟩ := Option.map_eq_some_iff.mp ran
      obtain ⟨state, low⟩ := ih later
      refine ⟨state, ?_⟩
      intro x member
      rcases List.mem_cons.mp member with rfl | after
      · exact Nat.le_of_not_lt high
      · exact low x after

theorem scanned_visited {v : List Nat} (low : ∀ x ∈ v, (entryAt m x).base ≤ 0x3fffffff) :
    scanned (v.map (entryAt m)) = v.map (entryAt m) := by
  unfold scanned
  rw [List.takeWhile_eq_self_iff]
  intro e member
  obtain ⟨x, visited, rfl⟩ := List.mem_map.mp member
  apply decide_eq_true
  exact Nat.le_trans (Nat.mod_le _ _) (low x visited)

theorem walk_sizeUpRam (ran : walk sizeUpRamBody m stop fuel a 0 = some w) :
    w.state = sizeUpRam (w.visited.map (entryAt m)) := by
  obtain ⟨state, low⟩ := walk_state ran
  rw [state, sizeUpRam, scanned_visited low]
  rfl

theorem walk_setupMaxBootmem {img : Image}
    (ran : walk setupMaxBootmemBody m stop fuel a (img.bootmemBegin * 4096) = some w) :
    va w.state = setupMaxBootmem img (w.visited.map (entryAt m)) := by
  obtain ⟨state, low⟩ := walk_state ran
  rw [state, setupMaxBootmem, scanned_visited low]
  rfl

theorem walk_reserveFromE820 {pfa : Nat} {pm : Mem} {w : Walked (Mem × Nat)}
    (ran : walk (reserveFromE820Body pfa) m stop fuel a (pm, 0) = some w) :
    w.state.1 = reserveFromE820 pfa (w.visited.map (entryAt m)) pm := by
  obtain ⟨state, low⟩ := walk_state ran
  rw [state, reserveFromE820, scanned_visited low]
  rfl

def InBuffer (start stop x : Nat) : Prop := start ≤ x ∧ x + 4 ≤ stop

instance (start stop x : Nat) : Decidable (InBuffer start stop x) :=
  inferInstanceAs (Decidable (_ ∧ _))

/-- The place the sizes lead to after `k` entries, wherever that is. -/
def place (m : Bytes.Mem) (addr k : Nat) : Nat := (next m)^[k] addr

/-- There is an entry here that the loops go on from: a size, an entry that ends in the buffer
and begins where the kernel maps memory. -/
def Passed (m : Bytes.Mem) (stop a : Nat) : Prop :=
  (a + 4) % 2 ^ 32 ≤ stop ∧ next m a ≤ stop ∧ (entryAt m a).base ≤ 0x3fffffff

instance (m : Bytes.Mem) (stop a : Nat) : Decidable (Passed m stop a) :=
  inferInstanceAs (Decidable (_ ∧ _))

def Comes (m : Bytes.Mem) (stop addr k : Nat) : Prop := ∀ i < k, Passed m stop (place m addr i)

/-- The fields that a place has are in the buffer. -/
structure Inside (m : Bytes.Mem) (start stop a : Nat) : Prop where
  size : (a + 4) % 2 ^ 32 ≤ stop → InBuffer start stop a
  base : (a + 4) % 2 ^ 32 ≤ stop → next m a ≤ stop → InBuffer start stop (field a 4)
  rest : Passed m stop a → InBuffer start stop (field a 12) ∧ InBuffer start stop (field a 20)

/-- The sizes come to no place twice. -/
def Onward (m : Bytes.Mem) (stop addr : Nat) : Prop :=
  ∀ i j, i < j → Comes m stop addr j → place m addr i ≠ place m addr j

/-- The loop ends, has visited these entries and has read in the buffer. -/
def Ends {S : Type} (body : Body S) (m : Bytes.Mem) (start stop fuel a : Nat) (s : S)
    (visited : List Nat) : Prop :=
  ∃ w, walk body m stop fuel a s = some w ∧ w.visited = visited ∧
    ∀ x ∈ w.read, InBuffer start stop x

section

variable {m : Bytes.Mem} {start stop addr a i j k : Nat}

theorem place_succ (m : Bytes.Mem) (a k : Nat) : place m a (k + 1) = place m (next m a) k :=
  Function.iterate_succ_apply (next m) k a

/-- At the first place that is not passed every loop ends. -/
theorem ends_of_comes (comes : Comes m stop a k)
    (last : ¬ Passed m stop (place m a k)) (inside : ∀ i ≤ k, Inside m start stop (place m a i)) :
    ∃ visited, ∀ (S : Type) (body : Body S) (s : S), Ends body m start stop (k + 1) a s visited := by
  induction k generalizing a with
  | zero =>
    have here : Inside m start stop a := inside 0 (Nat.le_refl 0)
    have stays : ¬ Passed m stop a := last
    refine ⟨[], fun S body s => ?_⟩
    by_cases short : (a + 4) % 2 ^ 32 > stop
    · exact ⟨⟨[], [], s⟩, by rw [walk, if_pos short], rfl, nofun⟩
    have size := here.size (Nat.le_of_not_lt short)
    by_cases cut : next m a > stop
    · exact ⟨⟨[], [a], s⟩, by rw [walk, if_neg short, if_pos cut], rfl, by simpa using size⟩
    have base := here.base (Nat.le_of_not_lt short) (Nat.le_of_not_lt cut)
    have high : (entryAt m a).base > 0x3fffffff := by
      by_contra near
      exact stays ⟨Nat.le_of_not_lt short, Nat.le_of_not_lt cut, Nat.le_of_not_lt near⟩
    exact ⟨⟨[], [a, field a 4], s⟩, by rw [walk, if_neg short, if_neg cut, if_pos high], rfl,
      by simpa using ⟨size, base⟩⟩
  | succ k ih =>
    have passed : Passed m stop a := comes 0 (Nat.succ_pos k)
    have here : Inside m start stop a := inside 0 (Nat.zero_le _)
    obtain ⟨visited, all⟩ := ih (a := next m a)
      (fun i below => place_succ m a i ▸ comes (i + 1) (Nat.succ_lt_succ below))
      (place_succ m a k ▸ last) fun i le => place_succ m a i ▸ inside (i + 1) (Nat.succ_le_succ le)
    obtain ⟨room, fits, near⟩ := passed
    refine ⟨a :: visited, fun S body s => ?_⟩
    obtain ⟨w, later, rfl, within⟩ := all S body (body.turn s (entryAt m a))
    refine ⟨⟨a :: w.visited, [a, field a 4] ++ (body.reads s (entryAt m a)).map (field a) ++ w.read,
      w.state⟩, ?_, rfl, ?_⟩
    · rw [walk, if_neg (Nat.not_lt.mpr room), if_neg (Nat.not_lt.mpr fits),
        if_neg (Nat.not_lt.mpr near), later, Option.map_some]
    · have fields : ∀ ofs, ofs = 4 ∨ ofs = 12 ∨ ofs = 20 → InBuffer start stop (field a ofs) := by
        obtain ⟨length, type⟩ := here.rest ⟨room, fits, near⟩
        rintro ofs (rfl | rfl | rfl)
        · exact here.base room fits
        · exact length
        · exact type
      intro x member
      rcases List.mem_append.mp member with front | after
      · rcases List.mem_append.mp front with head | more
        · rcases List.mem_cons.mp head with rfl | second
          · exact here.size room
          · rw [List.mem_singleton.mp second]
            exact fields 4 (.inl rfl)
        · obtain ⟨ofs, read, rfl⟩ := List.mem_map.mp more
          exact fields ofs (body.fields _ _ ofs read)
      · exact within x after

theorem sizeUpRam_reads (tot : Nat) (e : Entry) : sizeUpRamBody.reads tot e = [20, 4, 12] :=
  congrArg (20 :: ·) (if_pos (type_counts e))

theorem comes_of_ends {tot : Nat} {visited : List Nat}
    (ends : Ends sizeUpRamBody m start stop fuel a tot visited) :
    ∃ k, Comes m stop a k ∧ ¬ Passed m stop (place m a k) ∧
      ∀ i ≤ k, Inside m start stop (place m a i) := by
  induction fuel generalizing a tot visited with
  | zero =>
    obtain ⟨w, ran, -⟩ := ends
    cases ran
  | succ fuel ih =>
    obtain ⟨w, ran, -, inside⟩ := ends
    -- where the loop ends at once, one place is all there is
    have once : ¬ Passed m stop a → Inside m start stop a → ∃ k, Comes m stop a k ∧
        ¬ Passed m stop (place m a k) ∧ ∀ i ≤ k, Inside m start stop (place m a i) :=
      fun last here => ⟨0, nofun, last, fun i le => Nat.le_zero.mp le ▸ here⟩
    rw [walk] at ran
    split_ifs at ran with short cut high
    · refine once (fun passed => absurd passed.1 (Nat.not_le.mpr short)) ⟨fun room => ?_,
        fun room => ?_, fun passed => absurd passed.1 (Nat.not_le.mpr short)⟩
      all_goals exact absurd room (Nat.not_le.mpr short)
    · cases ran
      exact once (fun passed => absurd passed.2.1 (Nat.not_le.mpr cut))
        ⟨fun _ => inside a (by simp), fun _ fits => absurd fits (Nat.not_le.mpr cut),
          fun passed => absurd passed.2.1 (Nat.not_le.mpr cut)⟩
    · cases ran
      exact once (fun passed => absurd passed.2.2 (Nat.not_le.mpr high))
        ⟨fun _ => inside a (by simp), fun _ _ => inside (field a 4) (by simp),
          fun passed => absurd passed.2.2 (Nat.not_le.mpr high)⟩
    · obtain ⟨w', later, rfl⟩ := Option.map_eq_some_iff.mp ran
      rw [sizeUpRam_reads] at inside
      obtain ⟨k, comes, last, within⟩ := ih ⟨w', later, rfl, fun x member => inside x (by simp [member])⟩
      refine ⟨k + 1, fun i below => ?_, place_succ m a k ▸ last, fun i le => ?_⟩
      · cases i with
        | zero => exact ⟨Nat.le_of_not_lt short, Nat.le_of_not_lt cut, Nat.le_of_not_lt high⟩
        | succ i => exact place_succ m a i ▸ comes i (Nat.lt_of_succ_lt_succ below)
      · cases i with
        | zero =>
          exact ⟨fun _ => inside a (by simp), fun _ _ => inside (field a 4) (by simp),
            fun _ => ⟨inside (field a 12) (by simp), inside (field a 20) (by simp)⟩⟩
        | succ i => exact place_succ m a i ▸ within i (Nat.le_of_succ_le_succ le)

/-- Places in the buffer are finitely many, so sizes that come to none twice come to an end. -/
theorem comes_to_end (onward : Onward m stop addr)
    (inside : ∀ k, Comes m stop addr k → Inside m start stop (place m addr k)) :
    ∃ k, Comes m stop addr k ∧ ¬ Passed m stop (place m addr k) := by
  by_contra endless
  have passed : ∀ k, Comes m stop addr k → Passed m stop (place m addr k) := fun k comes => by
    by_contra last
    exact endless ⟨k, comes, last⟩
  have comes : ∀ k, Comes m stop addr k := by
    intro k
    induction k with
    | zero => nofun
    | succ k ih =>
      intro i below
      rcases Nat.lt_succ_iff_lt_or_eq.mp below with before | rfl
      · exact ih i before
      · exact passed i ih
  have injective : Function.Injective (place m addr) := by
    intro i j same
    rcases Nat.lt_trichotomy i j with before | eq | behind
    · exact absurd same (onward i j before (comes j))
    · exact eq
    · exact absurd same.symm (onward j i behind (comes i))
  refine Set.infinite_of_injective_forall_mem injective (s := Set.Icc start stop) (fun k => ?_)
    (Set.finite_Icc start stop)
  have here := (inside k (comes k)).size (passed k (comes k)).1
  exact ⟨here.1, by have := here.2; omega⟩

/-- A place that comes again is passed for ever. -/
theorem onward_of_end (comes : Comes m stop addr k)
    (last : ¬ Passed m stop (place m addr k)) : Onward m stop addr := by
  intro i j before far same
  have within : j ≤ k := by
    by_contra behind
    exact last (far k (Nat.lt_of_not_le behind))
  -- the place `k` is that of `k` less one round
  have round : place m addr k = place m addr (k - j + i) := by
    have split : k = k - j + j := by omega
    rw [split]
    simp only [place, Function.iterate_add_apply, Nat.add_sub_cancel] at same ⊢
    rw [← same]
  exact last (round ▸ comes _ (by omega))

/-- No field of a place, and no size, goes round the address space. -/
def Unwrapped (m : Bytes.Mem) (stop addr : Nat) : Prop :=
  ∀ k, Comes m stop addr k → place m addr k + 24 ≤ 2 ^ 32 ∧
    (place m addr k + 4 ≤ stop → place m addr k + sizeAt m (place m addr k) + 4 < 2 ^ 32)

/-- An entry whose size ends it in the buffer has its base there, and its other fields, too, if
the loops go on from it. -/
def Whole (m : Bytes.Mem) (stop a : Nat) : Prop :=
  a + sizeAt m a + 4 ≤ stop → a + 8 ≤ stop ∧ ((entryAt m a).base ≤ 0x3fffffff → a + 24 ≤ stop)

instance (m : Bytes.Mem) (stop a : Nat) : Decidable (Whole m stop a) :=
  inferInstanceAs (Decidable (_ → _))

theorem next_unwrapped (unwrapped : Unwrapped m stop addr)
    (comes : Comes m stop addr k) (room : place m addr k + 4 ≤ stop) :
    next m (place m addr k) = place m addr k + sizeAt m (place m addr k) + 4 :=
  Nat.mod_eq_of_lt ((unwrapped k comes).2 room)

theorem grows_of_unwrapped (unwrapped : Unwrapped m stop addr)
    (before : i < j) (comes : Comes m stop addr j) : place m addr i < place m addr j := by
  induction j with
  | zero => cases before
  | succ j ih =>
    have earlier : Comes m stop addr j := fun i low => comes i (Nat.lt_succ_of_lt low)
    have room := (comes j (Nat.lt_succ_self j)).1
    have far := (unwrapped j earlier).1
    rw [Nat.mod_eq_of_lt (by omega)] at room
    have more : place m addr (j + 1) = place m addr j + sizeAt m (place m addr j) + 4 := by
      rw [← next_unwrapped unwrapped earlier room, place, Function.iterate_succ_apply']
      rfl
    rcases Nat.lt_succ_iff_lt_or_eq.mp before with below | rfl
    · have := ih below earlier
      omega
    · omega

theorem inside_iff_whole (unwrapped : Unwrapped m stop addr)
    (comes : Comes m stop addr k) :
    Inside m addr stop (place m addr k) ↔ Whole m stop (place m addr k) := by
  have low : addr ≤ place m addr k := by
    cases k with
    | zero => exact Nat.le_refl addr
    | succ k => exact Nat.le_of_lt (grows_of_unwrapped unwrapped (Nat.succ_pos k) comes)
  have far := (unwrapped k comes).1
  have size : (place m addr k + 4) % 2 ^ 32 = place m addr k + 4 := Nat.mod_eq_of_lt (by omega)
  have length : field (place m addr k) 12 = place m addr k + 12 := Nat.mod_eq_of_lt (by omega)
  have type : field (place m addr k) 20 = place m addr k + 20 := Nat.mod_eq_of_lt (by omega)
  have next := next_unwrapped unwrapped comes
  constructor
  · rintro ⟨-, base, rest⟩ ends
    have room : place m addr k + 4 ≤ stop := by omega
    have fits := (next room).symm ▸ ends
    have here := (base (size.symm ▸ room) fits).2
    rw [field, size] at here
    refine ⟨by omega, fun near => ?_⟩
    have last := (rest ⟨size.symm ▸ room, fits, near⟩).2.2
    rw [type] at last
    omega
  · intro whole
    refine ⟨fun room => ?_, fun room fits => ?_, fun passed => ?_⟩
    · rw [size] at room
      exact ⟨low, room⟩
    · rw [size] at room
      have here := (whole (next room ▸ fits)).1
      rw [field, size]
      exact ⟨by omega, by omega⟩
    · obtain ⟨room, fits, near⟩ := passed
      rw [size] at room
      have here := (whole (next room ▸ fits)).2 near
      rw [length, type]
      exact ⟨⟨by omega, by omega⟩, by omega, by omega⟩

/-- The three loops end, visit the same entries and read in the buffer. -/
def Walks (m : Bytes.Mem) (addr len : Nat) (img : Image) (pfa : Nat) (pm : Mem) : Prop :=
  ∃ fuel visited,
    Ends sizeUpRamBody m addr ((addr + len) % 2 ^ 32) fuel addr 0 visited ∧
    Ends setupMaxBootmemBody m addr ((addr + len) % 2 ^ 32) fuel addr (img.bootmemBegin * 4096)
      visited ∧
    Ends (reserveFromE820Body pfa) m addr ((addr + len) % 2 ^ 32) fuel addr (pm, 0) visited

theorem walks_iff_onward {len : Nat} (img : Image) (pfa : Nat) (pm : Mem)
    (whole : addr + len < 2 ^ 32) : Walks m addr len img pfa pm ↔ Onward m (addr + len) addr ∧
      ∀ k, Comes m (addr + len) addr k → Inside m addr (addr + len) (place m addr k) := by
  unfold Walks
  rw [Nat.mod_eq_of_lt whole]
  constructor
  · rintro ⟨fuel, visited, ends, -⟩
    obtain ⟨k, comes, last, inside⟩ := comes_of_ends ends
    refine ⟨onward_of_end comes last, fun i far => inside i ?_⟩
    by_contra behind
    exact last (far k (Nat.lt_of_not_le behind))
  · rintro ⟨onward, inside⟩
    obtain ⟨k, comes, last⟩ := comes_to_end onward inside
    obtain ⟨visited, all⟩ := ends_of_comes comes last fun i le =>
      inside i fun n below => comes n (Nat.lt_of_lt_of_le below le)
    exact ⟨k + 1, visited, all Nat _ _, all Nat _ _, all (Mem × Nat) _ _⟩

end

/-- The loops go right exactly if the sizes come to no place twice and the fields of every
place they come to are in the buffer. If nothing wraps, it is enough that every entry they come
to is there as a whole. -/
theorem e820_walks_iff (m : Bytes.Mem) (addr len : Nat) (img : Image) (pfa : Nat) (pm : Mem)
    (whole : addr + len < 2 ^ 32) :
    (Walks m addr len img pfa pm ↔ Onward m (addr + len) addr ∧
      ∀ k, Comes m (addr + len) addr k → Inside m addr (addr + len) (place m addr k)) ∧
    (Unwrapped m (addr + len) addr → (Walks m addr len img pfa pm ↔
      ∀ k, Comes m (addr + len) addr k → Whole m (addr + len) (place m addr k))) := by
  have iff := walks_iff_onward (m := m) img pfa pm whole
  refine ⟨iff, fun unwrapped => iff.trans ?_⟩
  have onward : Onward m (addr + len) addr := fun i j before comes =>
    Nat.ne_of_lt (grows_of_unwrapped unwrapped before comes)
  rw [and_iff_right onward]
  exact forall₂_congr fun k comes => inside_iff_whole unwrapped comes

/-- Low memory, and 7 MiB from 1 MiB on. -/
def twoEntries : Bytes.Mem :=
  Bytes.store (Bytes.store (Bytes.store (Bytes.store (fun _ => 0)
    0x9000 24 (20 + 0x9f000 * 2 ^ 96 + 2 ^ 160)) 0x9018 4 20) 0x901c 8 0x100000) 0x9024 12
    (0x700000 + 2 ^ 64)

theorem e820_walks_iff_two : Walks twoEntries 0x9000 48 smallImage 0xc0200000 fun _ => 0 := by
  have few : ∀ k, Comes twoEntries (0x9000 + 48) 0x9000 k → k < 3 := fun k comes => by
    by_contra many
    exact absurd (comes 2 (by omega)) (by decide)
  refine ((e820_walks_iff twoEntries 0x9000 48 smallImage 0xc0200000 _ (by decide)).2
    fun k comes => ?_).mpr fun k comes => ?_
  all_goals
    have small := few k comes
    interval_cases k <;> decide

def standing : Bytes.Mem := Bytes.store (fun _ => 0) 0x9000 4 0xfffffffc

/- The loops go round at the first entry. A size of 0 leads to a read behind the buffer. -/
theorem e820_loops_for_ever :
    (∀ fuel tot, walk sizeUpRamBody standing 0x9018 fuel 0x9000 tot = none) ∧
    ¬ Walks standing 0x9000 24 smallImage 0xc0200000 (fun _ => 0) ∧
    ∃ w, walk sizeUpRamBody (fun _ => 0) 0x9004 2 0x9000 0 = some w ∧ 0x9004 ∈ w.read ∧
      ¬ InBuffer 0x9000 0x9004 0x9004 := by
  have stays : next standing 0x9000 = 0x9000 := by decide
  have never : ∀ fuel tot, walk sizeUpRamBody standing 0x9018 fuel 0x9000 tot = none := by
    intro fuel
    induction fuel with
    | zero => exact fun _ => rfl
    | succ fuel ih =>
      intro tot
      rw [walk, if_neg (by decide), if_neg (by decide), if_neg (by decide), stays, ih]
      rfl
  refine ⟨never, ?_, _, rfl, by decide, by decide⟩
  rintro ⟨fuel, visited, ⟨w, ran, -⟩, -⟩
  rw [show (0x9000 + 24) % 2 ^ 32 = 0x9018 by decide, never] at ran
  cases ran

end ScaraOS.Boot
