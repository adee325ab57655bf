import ScaraOS.Exec.Content

/-! What one call of `ext2_pread` brings: a slice of the blocks that the inode names, up to
the first of them that cannot be read. -/
namespace ScaraOS.Ext2

open Exec

def blocks (d : Disk) (ino n : Nat) : List UInt8 :=
  (List.range n).flatMap fun x => (List.range sBlocksize).map (d.block ((d.inode ino).block x))

theorem blocks_succ (d : Disk) (ino n : Nat) : blocks d ino (n + 1) =
    blocks d ino n ++ (List.range sBlocksize).map (d.block ((d.inode ino).block n)) := by
  unfold blocks
  rw [List.range_succ, List.flatMap_append, List.flatMap_singleton]

theorem length_blocks (d : Disk) (ino n : Nat) : (blocks d ino n).length = n * sBlocksize := by
  induction n with
  | zero => rfl
  | succ n ih =>
    rw [blocks_succ, List.length_append, ih, List.length_map, List.length_range, Nat.succ_mul]

theorem blocks_get (d : Disk) (ino n : Nat) {k : Nat} (inside : k < n * sBlocksize) :
    (blocks d ino n)[k]? = some (fileByte d ino k) := by
  induction n with
  | zero => omega
  | succ n ih =>
    rw [blocks_succ]
    by_cases early : k < n * sBlocksize
    · rw [List.getElem?_append_left (by rw [length_blocks]; exact early)]
      exact ih early
    · have quotient : k / sBlocksize = n := by
        unfold sBlocksize at *
        omega
      have rest : k - n * sBlocksize = k % sBlocksize := by
        unfold sBlocksize at *
        omega
      have bound : k % sBlocksize < sBlocksize := Nat.mod_lt k (by decide)
      rw [List.getElem?_append_right (by rw [length_blocks]; exact Nat.le_of_not_lt early),
        length_blocks, rest, List.getElem?_map, List.getElem?_range bound, Option.map_some]
      unfold fileByte
      rw [quotient]

def sliceLen (d : Disk) (ino len off : Nat) : Nat := min len ((d.inode ino).iSize - off)

theorem ext2Pread_slice {d : Disk} {ino len off : Nat} (env : Nat → Event)
    (inside : off ≤ (d.inode ino).iSize) (noWrap : off + len < 2 ^ 32)
    (direct : (off + sliceLen d ino len off) / 1024 < 12) :
    ext2Pread env (d.inode ino) len off =
      preadLoop env (d.inode ino) ((off + sliceLen d ino len off) / 1024 + 1 - off / 1024)
        (off / 1024) (sliceLen d ino len off) off 0 := by
  have size := d.sizes ino
  have asked : (if (off + len) % wordSize > (d.inode ino).iSize then
      (wordSize - off + (d.inode ino).iSize) % wordSize else len) = sliceLen d ino len off := by
    unfold wordSize sliceLen
    split <;> omega
  have last : (off + sliceLen d ino len off) % wordSize / sBlocksize =
      (off + sliceLen d ino len off) / 1024 := by
    unfold wordSize sBlocksize
    omega
  unfold ext2Pread
  simp only [asked, last]
  rw [if_neg (by unfold ext2NdirBlocks; omega)]
  rfl

theorem reads_first {fails : Nat → Bool} {off len got x : Nat} (reads : Reads fails off len got)
    (bad : fails x = true) (first : ∀ y, off / 1024 ≤ y → y < x → fails y = false)
    (starts : off / 1024 ≤ x) (ends : x * 1024 < off + len) : got = x * 1024 - off := by
  by_contra other
  by_cases more : x * 1024 - off < got
  · -- a byte of block `x` would have been read
    have here : fails (max off (x * 1024) / 1024) = false :=
      reads.read _ (Nat.le_max_left _ _) (by omega)
    have block : max off (x * 1024) / 1024 = x := by omega
    rw [block, bad] at here
    cases here
  · have stopped := reads.stop (by omega)
    rw [first ((off + got) / 1024) (by omega) (by omega)] at stopped
    cases stopped

theorem reads_through {fails : Nat → Bool} {off len got : Nat} (reads : Reads fails off len got)
    (good : ∀ x, off / 1024 ≤ x → x * 1024 < off + len → fails x = false) : got = len := by
  by_contra short
  have := reads.short
  have stopped := reads.stop (by omega)
  rw [good ((off + got) / 1024) (by omega) (by omega)] at stopped
  cases stopped

/-- `ext2_pread` on any device: it returns the length of the slice, or that of the part
before the first block that fails, and that part is the file. -/
theorem pread_slices (d : Disk) (ino len off : Nat) (buf : Nat → UInt8) (fails : Nat → Bool)
    (inside : off ≤ (d.inode ino).iSize) (noWrap : off + len < 2 ^ 32)
    (direct : (off + sliceLen d ino len off) / sBlocksize < ext2NdirBlocks) :
    ∃ got : Nat, (ext2Pread (device fails) (d.inode ino) len off).ret = some (got : Int) ∧
      ((∀ x, off / sBlocksize ≤ x → x * sBlocksize < off + sliceLen d ino len off →
        fails x = false) → got = min len ((d.inode ino).iSize - off)) ∧
      (∀ x, off / sBlocksize ≤ x → x * sBlocksize < off + sliceLen d ino len off →
        fails x = true → (∀ y, off / sBlocksize ≤ y → y < x → fails y = false) →
        got = x * sBlocksize - off) ∧
      (∀ j < got, (blocks d ino ext2NdirBlocks)[off + j]? =
        some ((ext2Pread (device fails) (d.inode ino) len off).copies.foldl (poke d) buf j)) ∧
      ∀ j, got ≤ j →
        (ext2Pread (device fails) (d.inode ino) len off).copies.foldl (poke d) buf j = buf j := by
  have few : (off + sliceLen d ino len off) / 1024 < 12 := direct
  rw [ext2Pread_slice (device fails) inside noWrap few]
  obtain ⟨got, reads, ret, bytes⟩ := preadLoop_reads d ino fails _ (sliceLen d ino len off) off 0
    rfl (by omega) (by omega)
  rw [Nat.zero_add] at ret bytes
  refine ⟨got, ret, ?_, ?_, ?_, ?_⟩
  · exact fun good => reads_through reads good
  · exact fun x starts ends bad first => reads_first reads bad first starts ends
  · intro j below
    have short := reads.short
    rw [bytes, if_pos ⟨Nat.zero_le j, below⟩]
    refine blocks_get d ino ext2NdirBlocks ?_
    unfold ext2NdirBlocks sBlocksize
    omega
  · intro j past
    rw [bytes, if_neg (by omega)]

def threeBlocks : Disk where
  inode := fun _ => ⟨2500, fun x => 20 + x⟩
  block := fun b _ => UInt8.ofNat b
  sizes := fun _ => by decide

/-- From the middle of the first block, with the third unreadable: two blocks' part comes. -/
theorem pread_slices_third : ∃ got : Nat,
    (ext2Pread (device fun x => x == 2) (threeBlocks.inode 1) 2000 1000).ret = some (got : Int) ∧
      got = 2 * 1024 - 1000 := by
  obtain ⟨got, ret, -, stops, -⟩ := pread_slices threeBlocks 1 2000 1000 (fun _ => 0)
    (fun x => x == 2) (by decide) (by decide) (by decide)
  refine ⟨got, ret, stops 2 (by decide) (by decide) (by decide) ?_⟩
  intro y low high
  exact beq_false_of_ne (Nat.ne_of_lt high)

end ScaraOS.Ext2
