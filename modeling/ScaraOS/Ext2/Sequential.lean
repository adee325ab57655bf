import ScaraOS.Exec.Content

/-! Reading a file from its start to its end: `kernel_read` of `kernel/read.c` over
`ext2_pread`, for files whose blocks the inode itself names. -/
namespace ScaraOS.Ext2

open Exec

/-- The result, the offset of the file afterwards and the buffer. No result is the
`BUG_ON` of `ext2_pread`. -/
def kernelRead (d : Disk) (ino : Nat) (buf : Nat → UInt8) (offset size : Nat) :
    Option (Int × Nat × (Nat → UInt8)) :=
  let size := if (d.inode ino).iSize < size then (d.inode ino).iSize else size
  let out := ext2Pread (device fun _ => false) (d.inode ino) size offset
  out.ret.map fun ret : Int =>
    (ret, if ret > 0 then (offset + ret.toNat) % 2 ^ 32 else offset, out.copies.foldl (poke d) buf)

/-- A call as its caller sees it: the offset before, the size, the result and the data. -/
structure Call where
  offset : Nat
  size : Nat
  ret : Int
  data : List UInt8
  deriving DecidableEq, Repr

def readRun (d : Disk) (ino : Nat) (buf : Nat → UInt8) : Nat → List Nat → Option (List Call × Nat)
  | offset, [] => some ([], offset)
  | offset, size :: rest => do
    let (ret, next, filled) ← kernelRead d ino buf offset size
    let (calls, last) ← readRun d ino buf next rest
    some (⟨offset, size, ret, (List.range ret.toNat).map filled⟩ :: calls, last)

/-- The file as it is meant: a pointer of zero is a hole. -/
def contentByte (d : Disk) (ino n : Nat) : UInt8 :=
  if (d.inode ino).block (n / sBlocksize) = 0 then 0 else fileByte d ino n

/-- No call panics, and together they bring the file up to what was asked for. -/
def Sequential (d : Disk) (ino : Nat) (buf : Nat → UInt8) (sizes : List Nat) : Prop :=
  ∃ calls last, readRun d ino buf 0 sizes = some (calls, last) ∧
    calls.flatMap Call.data =
      (List.range (min sizes.sum (d.inode ino).iSize)).map (contentByte d ino) ∧
    last = min sizes.sum (d.inode ino).iSize ∧
    ∀ c ∈ calls, c.size ≠ 0 → (c.ret = 0 ↔ c.offset = (d.inode ino).iSize)

section

variable {d : Disk} {ino : Nat} (buf : Nat → UInt8)

theorem kernelRead_pread {offset size : Nat} (inside : offset ≤ (d.inode ino).iSize)
    (direct : (d.inode ino).iSize ≤ 12288) :
    ext2Pread (device fun _ => false) (d.inode ino)
        (if (d.inode ino).iSize < size then (d.inode ino).iSize else size) offset =
      if offset + min size ((d.inode ino).iSize - offset) ≥ 12288 then ⟨[], none⟩
      else preadLoop (device fun _ => false) (d.inode ino)
        ((offset + min size ((d.inode ino).iSize - offset)) / 1024 + 1 - offset / 1024)
        (offset / 1024) (min size ((d.inode ino).iSize - offset)) offset 0 := by
  have asked : (if (offset + (if (d.inode ino).iSize < size then (d.inode ino).iSize else size)) %
        wordSize > (d.inode ino).iSize then (wordSize - offset + (d.inode ino).iSize) % wordSize
      else if (d.inode ino).iSize < size then (d.inode ino).iSize else size) =
      min size ((d.inode ino).iSize - offset) := by
    unfold wordSize
    split <;> split <;> omega
  have blocks : (offset + min size ((d.inode ino).iSize - offset)) % wordSize / sBlocksize =
      (offset + min size ((d.inode ino).iSize - offset)) / 1024 := by
    unfold wordSize sBlocksize
    omega
  unfold ext2Pread
  simp only [asked, blocks]
  by_cases full : offset + min size ((d.inode ino).iSize - offset) ≥ 12288
  · rw [if_pos full, if_pos (by unfold ext2NdirBlocks; omega)]
  · rw [if_neg full, if_neg (by unfold ext2NdirBlocks; omega)]
    rfl

theorem kernelRead_panics {offset size : Nat} (inside : offset ≤ (d.inode ino).iSize)
    (direct : (d.inode ino).iSize ≤ 12288)
    (full : offset + min size ((d.inode ino).iSize - offset) ≥ 12288) :
    kernelRead d ino buf offset size = none := by
  unfold kernelRead
  dsimp only
  rw [kernelRead_pread inside direct, if_pos full]
  rfl

theorem kernelRead_brings (size : Nat) {offset : Nat} (inside : offset ≤ (d.inode ino).iSize)
    (direct : (d.inode ino).iSize ≤ 12288)
    (room : offset + min size ((d.inode ino).iSize - offset) < 12288) :
    ∃ filled, kernelRead d ino buf offset size =
        some (((min size ((d.inode ino).iSize - offset) : Nat) : Int),
          offset + min size ((d.inode ino).iSize - offset), filled) ∧
      ∀ j < min size ((d.inode ino).iSize - offset), filled j = fileByte d ino (offset + j) := by
  unfold kernelRead
  dsimp only
  rw [kernelRead_pread inside direct]
  generalize min size ((d.inode ino).iSize - offset) = len at room ⊢
  obtain ⟨got, reads, ret, copies⟩ :=
    preadLoop_reads d ino (fun _ => false) _ len offset 0 rfl (by omega) (by omega)
  rw [reads_all reads, Nat.zero_add] at ret copies
  rw [if_neg (by omega), ret, Option.map_some]
  refine ⟨_, ?_, fun j below => (copies buf j).trans (if_pos ⟨Nat.zero_le j, below⟩)⟩
  congr 3
  by_cases some_left : 0 < len
  · rw [if_pos (by omega), Int.toNat_natCast]
    exact Nat.mod_eq_of_lt (by omega)
  · rw [if_neg (by omega)]
    omega

theorem readRun_brings (direct : (d.inode ino).iSize ≤ 12288) (offset : Nat) (sizes : List Nat)
    (inside : offset ≤ (d.inode ino).iSize)
    (room : (d.inode ino).iSize < 12288 ∨ offset + sizes.sum < 12288) :
    ∃ calls, readRun d ino buf offset sizes =
        some (calls, min (offset + sizes.sum) (d.inode ino).iSize) ∧
      calls.flatMap Call.data =
        (List.range' offset (min (offset + sizes.sum) (d.inode ino).iSize - offset)).map
          (fileByte d ino) ∧
      ∀ c ∈ calls, c.size ≠ 0 → (c.ret = 0 ↔ c.offset = (d.inode ino).iSize) := by
  induction sizes generalizing offset with
  | nil =>
    refine ⟨[], ?_, ?_, fun c member => absurd member List.not_mem_nil⟩
    · rw [List.sum_nil, Nat.add_zero, Nat.min_eq_left inside]
      rfl
    · rw [List.sum_nil, Nat.add_zero, Nat.min_eq_left inside, Nat.sub_self]
      rfl
  | cons size rest ih =>
    rw [List.sum_cons] at room ⊢
    obtain ⟨filled, first, bytes⟩ := kernelRead_brings buf size inside direct (by omega)
    obtain ⟨calls, later, data, ends⟩ :=
      ih (offset + min size ((d.inode ino).iSize - offset)) (by omega) (by omega)
    have total : min (offset + min size ((d.inode ino).iSize - offset) + rest.sum)
        (d.inode ino).iSize = min (offset + (size + rest.sum)) (d.inode ino).iSize := by omega
    rw [total] at later data
    refine ⟨⟨offset, size, (min size ((d.inode ino).iSize - offset) : Nat),
      (List.range (min size ((d.inode ino).iSize - offset))).map filled⟩ :: calls, ?_, ?_, ?_⟩
    · unfold readRun
      rw [first]
      simp only [Option.bind_eq_bind, Option.bind_some, later, Int.toNat_natCast]
    · rw [List.flatMap_cons, data]
      have here : (List.range (min size ((d.inode ino).iSize - offset))).map filled =
          (List.range' offset (min size ((d.inode ino).iSize - offset))).map (fileByte d ino) := by
        rw [List.range'_eq_map_range, List.map_map]
        exact List.map_congr_left fun j member => bytes j (List.mem_range.mp member)
      rw [here, ← List.map_append]
      congr 1
      have split : min (offset + (size + rest.sum)) (d.inode ino).iSize - offset =
          min size ((d.inode ino).iSize - offset) +
            (min (offset + (size + rest.sum)) (d.inode ino).iSize -
              (offset + min size ((d.inode ino).iSize - offset))) := by omega
      rw [split]
      exact List.range'_append_1
    · intro c member asked
      rcases List.mem_cons.mp member with rfl | member
      · change ((min size ((d.inode ino).iSize - offset) : Nat) : Int) = 0 ↔
          offset = (d.inode ino).iSize
        have asked : size ≠ 0 := asked
        omega
      · exact ends c member asked

theorem readRun_panics (direct : (d.inode ino).iSize = 12288) {offset : Nat} {sizes : List Nat}
    (inside : offset < 12288) (all : 12288 ≤ offset + sizes.sum) :
    readRun d ino buf offset sizes = none := by
  induction sizes generalizing offset with
  | nil =>
    rw [List.sum_nil] at all
    omega
  | cons size rest ih =>
    rw [List.sum_cons] at all
    unfold readRun
    by_cases full : offset + min size ((d.inode ino).iSize - offset) ≥ 12288
    · rw [kernelRead_panics buf (by omega) (by omega) full]
      rfl
    · obtain ⟨filled, first, -⟩ := kernelRead_brings buf size
        (show offset ≤ (d.inode ino).iSize by omega) (by omega) (by omega)
      rw [first]
      simp only [Option.bind_eq_bind, Option.bind_some]
      rw [ih (by omega) (by omega)]
      rfl

end

/-- A file of twelve whole blocks may not be read to its end, and the bytes of a hole are
those of block 0 of the device. -/
theorem sequential_iff (d : Disk) (ino : Nat) (direct : (d.inode ino).iSize ≤ 12 * 1024)
    (buf : Nat → UInt8) (sizes : List Nat) : Sequential d ino buf sizes ↔
      ((d.inode ino).iSize < 12 * 1024 ∨ sizes.sum < 12 * 1024) ∧
        ∀ n < min sizes.sum (d.inode ino).iSize, (d.inode ino).block (n / sBlocksize) = 0 →
          d.block 0 (n % sBlocksize) = 0 := by
  have bytes : ∀ n, contentByte d ino n = fileByte d ino n ↔
      ((d.inode ino).block (n / sBlocksize) = 0 → d.block 0 (n % sBlocksize) = 0) := by
    intro n
    unfold contentByte fileByte
    by_cases hole : (d.inode ino).block (n / sBlocksize) = 0
    · rw [if_pos hole, hole]
      exact ⟨fun eq _ => eq.symm, fun zero => (zero rfl).symm⟩
    · rw [if_neg hole]
      exact ⟨fun _ is => absurd is hole, fun _ => rfl⟩
  by_cases room : (d.inode ino).iSize < 12288 ∨ sizes.sum < 12288
  · obtain ⟨calls, ran, data, ends⟩ := readRun_brings buf direct 0 sizes (Nat.zero_le _)
      (by omega)
    rw [Nat.zero_add] at ran data
    rw [Nat.sub_zero, ← List.range_eq_range'] at data
    constructor
    · rintro ⟨calls', last, ran', content, -⟩
      obtain ⟨rfl, -⟩ := Prod.mk.inj (Option.some.inj (ran.symm.trans ran'))
      rw [data] at content
      refine ⟨room, ?_⟩
      intro n below
      rw [← bytes n]
      exact (List.map_inj_left.mp content n (List.mem_range.mpr below)).symm
    · rintro ⟨-, holes⟩
      refine ⟨calls, _, ran, ?_, rfl, ends⟩
      rw [data]
      exact List.map_congr_left fun n member =>
        ((bytes n).mpr (holes n (List.mem_range.mp member))).symm
  · constructor
    · rintro ⟨calls, last, ran, -⟩
      rw [readRun_panics buf (by omega) (by decide) (by omega)] at ran
      cases ran
    · exact fun both => absurd both.1 room

def shortFile : Disk where
  inode := fun _ => ⟨1500, fun x => if x = 0 then 7 else 0⟩
  block := fun b j => if b = 7 then if j = 0 then 104 else if j = 1 then 105 else 0 else 0
  sizes := fun _ => by decide

theorem sequential_iff_hole : Sequential shortFile 1 (fun _ => 255) [1, 1000, 600, 10] := by
  refine (sequential_iff shortFile 1 (by decide) _ _).mpr ⟨.inl (by decide), ?_⟩
  intro n _ _
  rfl

def fullFile : Disk where
  inode := fun _ => ⟨12 * 1024, fun x => x + 7⟩
  block := fun _ _ => 0
  sizes := fun _ => by decide

/-- Reading the last byte of a file of twelve blocks panics. -/
theorem full_file_panics : (fullFile.inode 1).iSize ≤ 12 * 1024 ∧
    readRun fullFile 1 (fun _ => 0) 0 [12287, 1] = none ∧
    ¬ Sequential fullFile 1 (fun _ => 0) [12287, 1] := by
  have panics : readRun fullFile 1 (fun _ => 0) 0 [12287, 1] = none :=
    readRun_panics _ rfl (by decide) (by decide)
  refine ⟨Nat.le_refl _, panics, ?_⟩
  rintro ⟨calls, last, ran, -⟩
  rw [panics] at ran
  cases ran

end ScaraOS.Ext2
