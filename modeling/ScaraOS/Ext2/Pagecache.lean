import ScaraOS.Ext2.Sequential
import ScaraOS.Lib.Run

/-! What the page cache of a file holds when blocks cannot be read. `ext2_pread` answers
an error in the middle of a page with the count so far, and `pagecache_file_readpage`
takes a short count for the end of the file. -/
namespace ScaraOS.Ext2

open Function Exec

abbrev Cache := Nat → Option (Nat → UInt8)

/-- A call, with the blocks that cannot be read during it and the page `alloc_page`
returns, should it be called. -/
structure Request where
  off : Nat
  fails : Nat → Bool
  alloc : Option (Nat → UInt8)
  word : off < 2 ^ 32

/-- No result is a `BUG_ON`. -/
def readpage (d : Disk) (ino : Nat) (c : Cache) (r : Request) :
    Option (Cache × Option (Nat → UInt8)) :=
  if r.off &&& 0xfff ≠ 0 then none
  else
    match c r.off with
    | some page => some (c, some page)
    | none =>
      match r.alloc with
      | none => some (c, none)
      | some page =>
        (fill d ino r.fails r.off page).map fun filled =>
          match filled with
          | none => (c, none)
          | some bytes => (update c r.off (some bytes), some bytes)

def step (d : Disk) (ino : Nat) (c : Cache) (r : Request) : Option Cache :=
  (readpage d ino c r).map Prod.fst

def Holds (d : Disk) (ino off : Nat) (bytes : Nat → UInt8) : Prop :=
  ∀ j < 4096, bytes j = if off + j < fileSize d ino then contentByte d ino (off + j) else 0

def InPage (d : Disk) (ino off n : Nat) : Prop := off ≤ n ∧ n < min (off + 4096) (fileSize d ino)

/-- The call returns and leaves pages of the file only, and a page it has read is one
without an error. -/
def Right (d : Disk) (ino : Nat) (c : Cache) (r : Request) : Prop :=
  ∀ c' page, readpage d ino c r = some (c', page) →
    (∀ off bytes, c' off = some bytes → Holds d ino off bytes) ∧
    (∀ bytes, page = some bytes → Holds d ino r.off bytes) ∧
    (c r.off = none → page.isSome → ∀ n, InPage d ino r.off n → r.fails (n / sBlocksize) = false)

/-- A page is read of which the first block comes and a later one does not, or which has
a hole while block 0 of the device is not clear there. -/
def Spoiled (d : Disk) (ino : Nat) (c : Cache) (r : Request) : Prop :=
  c r.off = none ∧ r.alloc.isSome ∧ r.off % 4096 = 0 ∧ readable d ino r.off ∧
    r.fails (r.off / sBlocksize) = false ∧
    ∃ n, InPage d ino r.off n ∧ (r.fails (n / sBlocksize) = true ∨
      (d.inode ino).block (n / sBlocksize) = 0 ∧ d.block 0 (n % sBlocksize) ≠ 0)

section

variable {d : Disk} {ino : Nat} {c : Cache} {r : Request}

theorem masked (off : Nat) : off &&& 0xfff = off % 4096 := Nat.and_two_pow_sub_one_eq_mod off 12

theorem readpage_cases {c' : Cache} {page : Option (Nat → UInt8)}
    (ran : readpage d ino c r = some (c', page)) : r.off % 4096 = 0 ∧
      ((c' = c ∧ ∃ bytes, c r.off = some bytes ∧ page = some bytes) ∨
      (c' = c ∧ c r.off = none ∧ page = none) ∨
      ∃ junk bytes, c r.off = none ∧ r.alloc = some junk ∧
        fill d ino r.fails r.off junk = some (some bytes) ∧
        c' = update c r.off (some bytes) ∧ page = some bytes) := by
  unfold readpage at ran
  rw [masked] at ran
  obtain ⟨aligned, ran⟩ := Option.ite_none_left_eq_some.mp ran
  refine ⟨not_not.mp aligned, ?_⟩
  cases cached : c r.off with
  | some bytes =>
    rw [cached] at ran
    cases ran
    exact .inl ⟨rfl, bytes, rfl, rfl⟩
  | none =>
    rw [cached] at ran
    cases alloc : r.alloc with
    | none =>
      rw [alloc] at ran
      cases ran
      exact .inr (.inl ⟨rfl, rfl, rfl⟩)
    | some junk =>
      rw [alloc] at ran
      obtain ⟨filled, fills, eq⟩ := Option.map_eq_some_iff.mp ran
      cases filled with
      | none =>
        obtain ⟨rfl, rfl⟩ := Prod.mk.inj eq
        exact .inr (.inl ⟨rfl, rfl, rfl⟩)
      | some bytes =>
        obtain ⟨rfl, rfl⟩ := Prod.mk.inj eq
        exact .inr (.inr ⟨junk, bytes, rfl, rfl, fills, rfl, rfl⟩)

theorem readpage_fills {junk bytes : Nat → UInt8} (aligned : r.off % 4096 = 0)
    (missing : c r.off = none) (alloc : r.alloc = some junk)
    (fills : fill d ino r.fails r.off junk = some (some bytes)) :
    readpage d ino c r = some (update c r.off (some bytes), some bytes) := by
  unfold readpage
  rw [masked, if_neg (not_not_intro aligned), missing, alloc]
  dsimp only
  rw [fills]
  rfl

theorem content_iff (n : Nat) : contentByte d ino n = fileByte d ino n ↔
    ¬ ((d.inode ino).block (n / sBlocksize) = 0 ∧ d.block 0 (n % sBlocksize) ≠ 0) := by
  unfold contentByte fileByte
  by_cases hole : (d.inode ino).block (n / sBlocksize) = 0
  · rw [if_pos hole, hole]
    constructor
    · exact fun eq bad => bad.2 eq.symm
    · intro good
      by_contra other
      exact good ⟨rfl, fun zero => other zero.symm⟩
  · rw [if_neg hole]
    exact ⟨fun _ bad => hole bad.1, fun _ => rfl⟩

theorem fill_holds (aligned : r.off % 4096 = 0) {junk bytes : Nat → UInt8}
    (missing : c r.off = none) (alloc : r.alloc = some junk) (calm : ¬ Spoiled d ino c r)
    (fills : fill d ino r.fails r.off junk = some (some bytes)) :
    Holds d ino r.off bytes ∧ ∀ n, InPage d ino r.off n → r.fails (n / sBlocksize) = false := by
  have can : readable d ino r.off := by
    by_contra cannot
    exact fill_unreadable r.fails aligned r.word cannot junk bytes fills
  obtain ⟨got, reads, nothing, gives⟩ := fill_readable r.fails can junk
  have some_got : 0 < got := by
    by_contra none_got
    rw [nothing (by omega)] at fills
    cases fills
  obtain ⟨bytes', fills', content⟩ := gives some_got
  obtain rfl := Option.some.inj (Option.some.inj (fills'.symm.trans fills))
  have first : r.fails (r.off / sBlocksize) = false :=
    reads.read r.off (Nat.le_refl _) (by omega)
  -- no byte of the page is lost, and none is taken from block 0
  have good : ∀ n, InPage d ino r.off n → r.fails (n / sBlocksize) = false ∧
      contentByte d ino n = fileByte d ino n := by
    intro n inside
    constructor
    · rw [← Bool.not_eq_true]
      exact fun bad => calm ⟨missing, by rw [alloc]; rfl, aligned, can, first, n, inside, .inl bad⟩
    · rw [content_iff]
      exact fun bad => calm ⟨missing, by rw [alloc]; rfl, aligned, can, first, n, inside, .inr bad⟩
  have all : got = min (r.off + 4096) (fileSize d ino) - r.off := by
    by_contra short
    have bound := reads.short
    have stop := reads.stop (by omega)
    have fine := (good (r.off + got) ⟨by omega, by omega⟩).1
    unfold sBlocksize at fine
    exact Bool.false_ne_true (fine.symm.trans stop)
  refine ⟨?_, fun n inside => (good n inside).1⟩
  intro j below
  rw [content j below]
  by_cases past : r.off + j < fileSize d ino
  · rw [if_pos (by omega), if_pos past]
    exact (good (r.off + j) ⟨by omega, by omega⟩).2.symm
  · rw [if_neg (by omega), if_neg past]

theorem spoiled_fills (spoiled : Spoiled d ino c r) :
    ∃ junk bytes got, r.alloc = some junk ∧ fill d ino r.fails r.off junk = some (some bytes) ∧
      Reads r.fails r.off (min (r.off + 4096) (fileSize d ino) - r.off) got ∧
      ∀ j < 4096, bytes j = if j < got then fileByte d ino (r.off + j) else 0 := by
  obtain ⟨-, alloc, -, can, first, -⟩ := spoiled
  obtain ⟨junk, given⟩ := Option.isSome_iff_exists.mp alloc
  obtain ⟨got, reads, -, gives⟩ := fill_readable r.fails can junk
  have some_got : 0 < got := by
    by_contra none_got
    have inside := can.1
    have stop := reads.stop (by omega)
    have here : (r.off + got) / 1024 = r.off / sBlocksize := by
      unfold sBlocksize
      congr 1
      omega
    rw [here, first] at stop
    exact Bool.false_ne_true stop
  obtain ⟨bytes, fills, content⟩ := gives some_got
  exact ⟨junk, bytes, got, given, fills, reads, content⟩

theorem right_calm (right : Right d ino c r) : ¬ Spoiled d ino c r := by
  intro spoiled
  obtain ⟨junk, bytes, got, given, fills, reads, content⟩ := spoiled_fills spoiled
  obtain ⟨missing, -, aligned, -, -, n, inside, bad⟩ := spoiled
  obtain ⟨-, holds, clean⟩ := right _ _ (readpage_fills aligned missing given fills)
  have fine := clean missing rfl
  rcases bad with failed | hole
  · exact Bool.false_ne_true ((fine n inside).symm.trans failed)
  · have all : got = min (r.off + 4096) (fileSize d ino) - r.off := by
      by_contra short
      have bound := reads.short
      have stop := reads.stop (by omega)
      have good := fine (r.off + got) ⟨by omega, by omega⟩
      unfold sBlocksize at good
      exact Bool.false_ne_true (good.symm.trans stop)
    unfold InPage at inside
    have back : r.off + (n - r.off) = n := by omega
    have held := holds bytes rfl (n - r.off) (by omega)
    rw [content (n - r.off) (by omega), back, if_pos (by omega), if_pos (by omega)] at held
    exact (content_iff n).mp held.symm hole

def Sound (d : Disk) (ino : Nat) (c : Cache) : Prop :=
  ∀ off bytes, c off = some bytes → Holds d ino off bytes

theorem calm_right (sound : Sound d ino c) (calm : ¬ Spoiled d ino c r) :
    Right d ino c r := by
  intro c' page ran
  obtain ⟨aligned, soft | none_there | hard⟩ := readpage_cases ran
  · obtain ⟨rfl, bytes, cached, rfl⟩ := soft
    refine ⟨sound, ?_, ?_⟩
    · intro bytes' eq
      exact Option.some.inj eq ▸ sound _ _ cached
    · intro missing
      rw [cached] at missing
      cases missing
  · obtain ⟨rfl, -, rfl⟩ := none_there
    refine ⟨sound, ?_, ?_⟩
    · intro bytes given
      cases given
    · intro _ given
      cases given
  · obtain ⟨junk, bytes, missing, alloc, fills, rfl, rfl⟩ := hard
    obtain ⟨holds, clean⟩ := fill_holds aligned missing alloc calm fills
    refine ⟨?_, fun bytes' eq => Option.some.inj eq ▸ holds, fun _ _ => clean⟩
    intro off bytes' cached
    by_cases same : off = r.off
    · rw [same, update_self] at cached
      rw [same]
      exact Option.some.inj cached ▸ holds
    · rw [update_of_ne same] at cached
      exact sound off bytes' cached

end

/-- In a run of calls on an inode, every page returned or cached is right and free of
errors exactly if no call reads a page that is spoiled. -/
theorem readpage_right_iff (d : Disk) (ino : Nat) (calls : List Request) :
    Run.Along (step d ino) (Right d ino) (fun _ => none) calls ↔
      Run.Along (step d ino) (fun c r => ¬ Spoiled d ino c r) (fun _ => none) calls := by
  constructor
  · intro along
    exact Run.along_of_invariant (fun _ => True) (fun _ _ right _ => right_calm right)
      (fun _ _ _ _ _ _ => trivial) along trivial
  · intro along
    refine Run.along_of_invariant (Sound d ino) (fun _ _ calm sound => calm_right sound calm) ?_
      along fun off bytes cached => nomatch cached
    intro c r c' calm sound ran
    obtain ⟨⟨_, page⟩, done, rfl⟩ := Option.map_eq_some_iff.mp ran
    exact (calm_right sound calm _ _ done).1

def letters : Disk where
  inode := fun _ => ⟨2048, fun x => x + 7⟩
  block := fun _ _ => 97
  sizes := fun _ => by decide

def brokenRead : Request where
  off := 0
  fails := fun x => x == 1
  alloc := some fun _ => 0x5a
  word := by decide

/-- The read is answered with a page, and the second kilobyte of the file is zeroes in it. -/
theorem error_is_cached : (readpage letters 1 (fun _ => none) brokenRead).map
      (fun r => r.2.map fun page => (page 1023, page 1024)) = some (some (97, 0)) ∧
    fileSize letters 1 = 2048 ∧ contentByte letters 1 1024 = 97 ∧
    ¬ Run.Along (step letters 1) (Right letters 1) (fun _ => none) [brokenRead] := by
  refine ⟨by decide, rfl, rfl, ?_⟩
  intro along
  exact right_calm along.1
    ⟨rfl, rfl, rfl, by decide, rfl, 1024, ⟨by decide, by decide⟩, .inl rfl⟩

def goodRead : Request where
  off := 0
  fails := fun _ => false
  alloc := some fun _ => 0x5a
  word := by decide

theorem goodRead_cached :
    (step letters 1 (fun _ => none) goodRead).map (fun c => (c 0).isSome) = some true := by decide

/-- An error does no harm once the page is in the cache. -/
theorem readpage_right_iff_letters :
    Run.Along (step letters 1) (Right letters 1) (fun _ => none) [goodRead, brokenRead] := by
  refine (readpage_right_iff letters 1 _).mpr ⟨?_, ?_⟩
  · rintro ⟨-, -, -, -, -, n, -, failed | hole⟩
    · cases failed
    · exact absurd hole.1 (Nat.succ_ne_zero _)
  · intro c ran
    refine ⟨?_, fun _ _ => trivial⟩
    rintro ⟨missing, -⟩
    have cached := goodRead_cached
    rw [ran] at cached
    have missing : c 0 = none := missing
    simp [missing] at cached

end ScaraOS.Ext2
