import ScaraOS.Ext2.Pread

/-! What a page of a file holds: `pagecache_file_readpage` fills it from `ext2_pread` and
clears the rest. -/
namespace ScaraOS.Exec

open Ext2

structure Disk where
  inode : Nat → Inode
  block : Nat → Nat → UInt8
  sizes : ∀ ino, (inode ino).iSize < 2 ^ 32

def fileSize (d : Disk) (ino : Nat) : Nat := (d.inode ino).iSize

def fileByte (d : Disk) (ino n : Nat) : UInt8 :=
  d.block ((d.inode ino).block (n / sBlocksize)) (n % sBlocksize)

def poke (d : Disk) (page : Nat → UInt8) (c : Copy) : Nat → UInt8 := fun j =>
  if c.dst ≤ j ∧ j < c.dst + c.moved then d.block c.block (c.coff + (j - c.dst)) else page j

/-- The page after a hard fault, if the disk can be read: none is the `BUG_ON` of
`ext2_pread`, and a read that brings nothing gives no page. -/
def readPage (d : Disk) (ino off : Nat) (page : Nat → UInt8) : Option (Option (Nat → UInt8)) :=
  let out := ext2Pread (fun _ => .copies none) (d.inode ino) 4096 off
  out.ret.map fun ret : Int =>
    if ret ≤ 0 then none
    else some fun j => if ret ≤ (j : Int) then 0 else out.copies.foldl (poke d) page j

def device (fails : Nat → Bool) : Nat → Event := fun x => if fails x then .readFails else .copies none

/-- The same with blocks that cannot be read: what was brought before one is kept, and
the rest cleared. -/
def fill (d : Disk) (ino : Nat) (fails : Nat → Bool) (off : Nat) (page : Nat → UInt8) :
    Option (Option (Nat → UInt8)) :=
  let out := ext2Pread (device fails) (d.inode ino) 4096 off
  out.ret.map fun ret : Int =>
    if ret ≤ 0 then none
    else some fun j => if ret ≤ (j : Int) then 0 else out.copies.foldl (poke d) page j

theorem fill_good (d : Disk) (ino off : Nat) (page : Nat → UInt8) :
    fill d ino (fun _ => false) off page = readPage d ino off page := rfl

theorem signed_small {x : Nat} (small : x < 2 ^ 31) : signed x = x := if_pos small

structure Reads (fails : Nat → Bool) (off len got : Nat) : Prop where
  short : got ≤ len
  read : ∀ n, off ≤ n → n < off + got → fails (n / 1024) = false
  stop : got < len → fails ((off + got) / 1024) = true

variable {fails : Nat → Bool} {off len clen got copied n ino : Nat} {i : Inode} {d : Disk}

theorem reads_nothing (stop : 0 < len → fails (off / 1024) = true) : Reads fails off len 0 where
  short := Nat.zero_le len
  read := fun n low high => by omega
  stop := stop

theorem reads_cons (chunk : off % 1024 + clen ≤ 1024) (fits : clen ≤ len)
    (good : fails (off / 1024) = false) (rest : Reads fails (off + clen) (len - clen) got) :
    Reads fails off len (clen + got) where
  short := by
    have := rest.short
    omega
  read := by
    intro n low high
    by_cases here : n < off + clen
    · have block : n / 1024 = off / 1024 := by omega
      rw [block]
      exact good
    · exact rest.read n (by omega) (by omega)
  stop := by
    intro short
    rw [← Nat.add_assoc]
    exact rest.stop (by omega)

theorem chunk_eq (noWrap : off + len < 2 ^ 32) :
    (if (off % 1024 + len) % wordSize > sBlocksize then sBlocksize - off % 1024 else len) =
      min (1024 - off % 1024) len := by
  unfold wordSize sBlocksize
  split <;> omega

theorem poke_chunk (d : Disk) (ino : Nat) (chunk : off % 1024 + clen ≤ 1024) (page : Nat → UInt8)
    (j : Nat) :
    poke d page ⟨(d.inode ino).block (off / 1024), off % 1024, copied, clen, clen⟩ j =
      if copied ≤ j ∧ j < copied + clen then fileByte d ino (off + (j - copied)) else page j := by
  unfold poke fileByte sBlocksize
  by_cases inside : copied ≤ j ∧ j < copied + clen
  · have block : (off + (j - copied)) / 1024 = off / 1024 := by omega
    have rest : (off + (j - copied)) % 1024 = off % 1024 + (j - copied) := by omega
    simp only [if_pos inside, block, rest]
  · simp only [if_neg inside]

theorem preadLoop_copies (some_left : 0 < len) (good : fails (off / 1024) = false)
    (noWrap : off + len < 2 ^ 32) (small : copied + len < 2 ^ 31) :
    preadLoop (device fails) i (n + 1) (off / 1024) len off copied =
      ⟨⟨i.block (off / 1024), off % 1024, copied, min (1024 - off % 1024) len,
          min (1024 - off % 1024) len⟩ ::
        (preadLoop (device fails) i n (off / 1024 + 1) (len - min (1024 - off % 1024) len)
          (off + min (1024 - off % 1024) len) (copied + min (1024 - off % 1024) len)).copies,
        (preadLoop (device fails) i n (off / 1024 + 1) (len - min (1024 - off % 1024) len)
          (off + min (1024 - off % 1024) len) (copied + min (1024 - off % 1024) len)).ret⟩ := by
  have chunk := chunk_eq noWrap
  have event : device fails (off / 1024) = .copies none := by
    unfold device
    rw [good]
    rfl
  have positive : ¬ min (1024 - off % 1024) len = 0 := by omega
  have counted : ¬ signed (min (1024 - off % 1024) len) < 0 := by
    rw [signed_small (by omega)]
    omega
  have offMod : (off + min (1024 - off % 1024) len) % wordSize =
      off + min (1024 - off % 1024) len := Nat.mod_eq_of_lt (by unfold wordSize; omega)
  have copiedMod : (copied + min (1024 - off % 1024) len) % wordSize =
      copied + min (1024 - off % 1024) len := Nat.mod_eq_of_lt (by unfold wordSize; omega)
  simp only [preadLoop, coff_eq, chunk, if_neg positive, event, copyToUser, if_neg counted,
    offMod, copiedMod]

theorem preadLoop_stops (done : len = 0 ∨ fails (off / 1024) = true) (noWrap : off + len < 2 ^ 32) :
    preadLoop (device fails) i (n + 1) (off / 1024) len off copied =
      ⟨[], some (signed copied)⟩ := by
  have chunk := chunk_eq noWrap
  simp only [preadLoop, coff_eq, chunk]
  by_cases empty : min (1024 - off % 1024) len = 0
  · rw [if_pos empty]
  · have event : device fails (off / 1024) = .readFails := by
      unfold device
      rw [done.resolve_left (by omega)]
      rfl
    rw [if_neg empty, event]

theorem preadLoop_reads (d : Disk) (ino : Nat) (fails : Nat → Bool) (n len off copied : Nat)
    (turns : n = (off + len) / 1024 + 1 - off / 1024) (noWrap : off + len < 2 ^ 32)
    (small : copied + len < 2 ^ 31) :
    ∃ got, Reads fails off len got ∧
      (preadLoop (device fails) (d.inode ino) n (off / 1024) len off copied).ret =
        some ((copied + got : Nat) : Int) ∧
      ∀ page j, (preadLoop (device fails) (d.inode ino) n (off / 1024) len off copied).copies.foldl
        (poke d) page j =
          if copied ≤ j ∧ j < copied + got then fileByte d ino (off + (j - copied)) else page j := by
  induction n generalizing len off copied with
  | zero => omega
  | succ n ih =>
    by_cases done : len = 0 ∨ fails (off / 1024) = true
    · refine ⟨0, reads_nothing fun some_left => done.resolve_left (by omega), ?_, ?_⟩
      · rw [preadLoop_stops done noWrap, signed_small (by omega)]
        rfl
      · intro page j
        rw [preadLoop_stops done noWrap, if_neg (by omega)]
        rfl
    · have some_left : 0 < len := by omega
      have good : fails (off / 1024) = false := by
        rw [← Bool.not_eq_true]
        exact fun bad => done (.inr bad)
      rw [preadLoop_copies some_left good noWrap small]
      by_cases last : off % 1024 + len < 1024
      · -- the range ends inside this block
        have turn : n = 0 := by omega
        have all : min (1024 - off % 1024) len = len := by omega
        rw [turn, all]
        refine ⟨len + 0, reads_cons (by omega) (Nat.le_refl len) good
          (reads_nothing fun left => by omega), ?_, ?_⟩
        · change some (signed (copied + len)) = _
          rw [signed_small (by omega)]
          rfl
        · intro page j
          exact poke_chunk d ino (by omega) page j
      · have whole : min (1024 - off % 1024) len = 1024 - off % 1024 := by omega
        rw [whole]
        have next : off / 1024 + 1 = (off + (1024 - off % 1024)) / 1024 := by omega
        rw [next]
        obtain ⟨got, reads, ret, copies⟩ := ih (len - (1024 - off % 1024))
          (off + (1024 - off % 1024)) (copied + (1024 - off % 1024)) (by omega) (by omega) (by omega)
        refine ⟨1024 - off % 1024 + got, reads_cons (by omega) (by omega) good reads, ?_, ?_⟩
        · rw [← Nat.add_assoc]
          exact ret
        · intro page j
          rw [List.foldl_cons, copies, poke_chunk d ino (by omega)]
          by_cases later : copied + (1024 - off % 1024) ≤ j ∧
              j < copied + (1024 - off % 1024) + got
          · have same : off + (1024 - off % 1024) + (j - (copied + (1024 - off % 1024))) =
                off + (j - copied) := by omega
            rw [if_pos later, if_pos (by omega), same]
          · rw [if_neg later]
            by_cases here : copied ≤ j ∧ j < copied + (1024 - off % 1024)
            · rw [if_pos here, if_pos (by omega)]
            · rw [if_neg here, if_neg (by omega)]

theorem reads_all (reads : Reads (fun _ => false) off len got) : got = len := by
  by_contra short
  have := reads.short
  exact Bool.false_ne_true (reads.stop (by omega))

def readable (d : Disk) (ino off : Nat) : Prop :=
  off < fileSize d ino ∧ min (off + 4096) (fileSize d ino) < ext2NdirBlocks * sBlocksize

instance (d : Disk) (ino off : Nat) : Decidable (readable d ino off) :=
  inferInstanceAs (Decidable (_ ∧ _))

def pageByte (d : Disk) (ino off j : Nat) : UInt8 :=
  if off + j < fileSize d ino then fileByte d ino (off + j) else 0

theorem fill_readable (fails : Nat → Bool) (can : readable d ino off) (page : Nat → UInt8) :
    ∃ got, Reads fails off (min (off + 4096) (fileSize d ino) - off) got ∧
      (got = 0 → fill d ino fails off page = some none) ∧
      (0 < got → ∃ bytes, fill d ino fails off page = some (some bytes) ∧
        ∀ j < 4096, bytes j = if j < got then fileByte d ino (off + j) else 0) := by
  obtain ⟨inside, short⟩ := can
  unfold ext2NdirBlocks sBlocksize at short
  have size : (d.inode ino).iSize = fileSize d ino := rfl
  generalize len_eq : min (off + 4096) (fileSize d ino) - off = len
  have asked : (if (off + 4096) % wordSize > (d.inode ino).iSize then
      (wordSize - off + (d.inode ino).iSize) % wordSize else 4096) = len := by
    unfold wordSize
    split <;> omega
  have blocks : (off + len) % wordSize / sBlocksize = (off + len) / 1024 := by
    unfold wordSize sBlocksize
    omega
  have few : ¬ (off + len) / 1024 ≥ ext2NdirBlocks := by
    unfold ext2NdirBlocks
    omega
  have run : ext2Pread (device fails) (d.inode ino) 4096 off =
      preadLoop (device fails) (d.inode ino) ((off + len) / 1024 + 1 - off / 1024)
        (off / 1024) len off 0 := by
    simp only [ext2Pread, asked, blocks, if_neg few]
    rfl
  obtain ⟨got, reads, ret, copies⟩ := preadLoop_reads d ino fails _ len off 0 rfl (by omega) (by omega)
  rw [← run, Nat.zero_add] at ret
  rw [← run, Nat.zero_add] at copies
  unfold fill
  dsimp only
  rw [ret, Option.map_some]
  refine ⟨got, reads, ?_, ?_⟩
  · intro none_got
    rw [if_pos (by omega)]
  · intro some_got
    rw [if_neg (by omega)]
    refine ⟨_, rfl, ?_⟩
    intro j _
    by_cases brought : j < got
    · rw [if_neg (by omega), copies, if_pos ⟨Nat.zero_le j, brought⟩, if_pos brought]
      rfl
    · rw [if_pos (by omega), if_neg brought]

theorem readPage_readable (can : readable d ino off) (page : Nat → UInt8) :
    ∃ bytes, readPage d ino off page = some (some bytes) ∧
      ∀ j < 4096, bytes j = pageByte d ino off j := by
  obtain ⟨got, reads, -, gives⟩ := fill_readable (fun _ => false) can page
  have all := reads_all reads
  have inside := can.1
  obtain ⟨bytes, filled, content⟩ := gives (by omega)
  refine ⟨bytes, (fill_good d ino off page).symm.trans filled, ?_⟩
  intro j below
  rw [content j below]
  unfold pageByte
  by_cases past : off + j < fileSize d ino
  · rw [if_pos (by omega), if_pos past]
  · rw [if_neg (by omega), if_neg past]

theorem fill_unreadable (fails : Nat → Bool) (aligned : off % 4096 = 0) (word : off < 2 ^ 32)
    (cannot : ¬ readable d ino off) (page : Nat → UInt8) (bytes : Nat → UInt8) :
    fill d ino fails off page ≠ some (some bytes) := by
  have size := d.sizes ino
  have cannot : ¬ (off < (d.inode ino).iSize ∧ min (off + 4096) (d.inode ino).iSize < 12288) :=
    cannot
  obtain ⟨len, asked, value⟩ : ∃ len, (if (off + 4096) % wordSize > (d.inode ino).iSize then
      (wordSize - off + (d.inode ino).iSize) % wordSize else 4096) = len ∧
      ((off + 4096) % wordSize > (d.inode ino).iSize ∧
          len = (wordSize - off + (d.inode ino).iSize) % wordSize ∨
        (off + 4096) % wordSize ≤ (d.inode ino).iSize ∧ len = 4096) := by
    by_cases past : (off + 4096) % wordSize > (d.inode ino).iSize
    · exact ⟨_, if_pos past, .inl ⟨past, rfl⟩⟩
    · exact ⟨_, if_neg past, .inr ⟨Nat.le_of_not_gt past, rfl⟩⟩
  by_cases many : (off + len) % wordSize / sBlocksize ≥ ext2NdirBlocks
  · have run : ext2Pread (device fails) (d.inode ino) 4096 off = ⟨[], none⟩ := by
      simp only [ext2Pread, asked, if_pos many]
    simp [fill, run]
  · have run : ext2Pread (device fails) (d.inode ino) 4096 off =
        preadLoop (device fails) (d.inode ino)
          ((off + len) % wordSize / sBlocksize + 1 - off / sBlocksize) (off / sBlocksize) len off 0 := by
      simp only [ext2Pread, asked, if_neg many]
    have nothing : (off + len) % wordSize / sBlocksize + 1 - off / sBlocksize = 0 ∨ len = 0 := by
      unfold wordSize sBlocksize ext2NdirBlocks at *
      omega
    have none : (preadLoop (device fails) (d.inode ino)
        ((off + len) % wordSize / sBlocksize + 1 - off / sBlocksize) (off / sBlocksize) len off
        0).ret = some 0 := by
      rcases nothing with turns | empty
      · rw [turns]
        rfl
      · cases (off + len) % wordSize / sBlocksize + 1 - off / sBlocksize with
        | zero => rfl
        | succ n =>
          have coff : off &&& (sBlocksize - 1) = 0 := by
            rw [coff_eq]
            omega
          simp [preadLoop, coff, empty, signed]
    simp [fill, run, none]

theorem readPage_unreadable (aligned : off % 4096 = 0) (word : off < 2 ^ 32)
    (cannot : ¬ readable d ino off) (page : Nat → UInt8) (bytes : Nat → UInt8) :
    readPage d ino off page ≠ some (some bytes) := by
  rw [← fill_good]
  exact fill_unreadable (fun _ => false) aligned word cannot page bytes

end ScaraOS.Exec
