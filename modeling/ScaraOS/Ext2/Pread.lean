import Mathlib.Data.Nat.Bitwise
import Mathlib.Algebra.BigOperators.Group.List.Basic
import ScaraOS.Layout

/-! Reading a file: `ext2_pread` of `fs/ext2.c`. Its arithmetic is that of 32-bit
unsigned words. The result lists the copies made, since it is they that can go wrong:
`copy_to_user` checks nothing and moves bytes until it is done or faults. -/
namespace ScaraOS.Ext2

/-- Both drivers have sectors of this size, and `mount` accepts one block size only. -/
def sectsize : Nat := 512
def sBlocksize : Nat := 1024

/-- `blk_set_blocksize` sets the count of sectors, and `blk_read` the length from it. -/
def bLen : Nat := sBlocksize / sectsize * sectsize

def ext2NdirBlocks : Nat := 12

structure Inode where
  iSize : Nat
  block : Nat → Nat

/-- What the machine does about block `x` of the file. A fault stops a copy after that
many bytes. -/
inductive Event where
  | readFails
  | copies (fault : Option Nat)
  deriving DecidableEq, Repr

/-- A call of `copy_to_user`: the block, the offset in it, the offset in `buf`, the
length asked for and the bytes moved. -/
structure Copy where
  block : Nat
  coff : Nat
  dst : Nat
  clen : Nat
  moved : Nat
  deriving DecidableEq, Repr

/-- A word as `ssize_t` or `int`. -/
def signed (x : Nat) : Int := if x < 2 ^ 31 then x else (x : Int) - 2 ^ 32

/-- The count comes back as an `int`, and `-1` after a fault. -/
def copyToUser (clen : Nat) : Option Nat → Nat × Int
  | none => (clen, signed clen)
  | some n => (min n clen, -1)

structure Outcome where
  copies : List Copy
  ret : Option Int
  deriving DecidableEq, Repr

/-- The loop from block `x`, with `n` blocks to go. -/
def preadLoop (env : Nat → Event) (i : Inode) : Nat → Nat → Nat → Nat → Nat → Outcome
  | 0, _, _, _, copied => ⟨[], some (signed copied)⟩
  | n + 1, x, len, off, copied =>
    let coff := off &&& (sBlocksize - 1)
    let clen := if (coff + len) % wordSize > sBlocksize then sBlocksize - coff else len
    if clen = 0 then ⟨[], some (signed copied)⟩
    else
      match env x with
      | .readFails => ⟨[], some (signed copied)⟩
      | .copies fault =>
        let c : Copy := ⟨i.block x, coff, copied, clen, (copyToUser clen fault).1⟩
        if (copyToUser clen fault).2 < 0 then ⟨[c], some (-1)⟩
        else
          let rest := preadLoop env i n (x + 1) (len - clen) ((off + clen) % wordSize)
            ((copied + clen) % wordSize)
          ⟨c :: rest.copies, rest.ret⟩

def ext2Pread (env : Nat → Event) (i : Inode) (len off : Nat) : Outcome :=
  let len := if (off + len) % wordSize > i.iSize then (wordSize - off + i.iSize) % wordSize else len
  let firstBlock := off / sBlocksize
  let lastBlock := (off + len) % wordSize / sBlocksize
  if lastBlock ≥ ext2NdirBlocks then ⟨[], none⟩
  else preadLoop env i (lastBlock + 1 - firstBlock) firstBlock len off 0

/-- No more bytes than asked for, and each from inside its block. -/
structure Safe (len : Nat) (copies : List Copy) : Prop where
  total : (copies.map Copy.moved).sum ≤ len
  inside : ∀ c ∈ copies, c.coff + c.moved ≤ bLen

theorem coff_eq (off : Nat) : off &&& (sBlocksize - 1) = off % 1024 :=
  Nat.and_two_pow_sub_one_eq_mod off 10

theorem moved_le (clen : Nat) (fault : Option Nat) : (copyToUser clen fault).1 ≤ clen := by
  cases fault with
  | none => exact Nat.le_refl clen
  | some n => exact Nat.min_le_right n clen

theorem safe_nil (len : Nat) : Safe len [] := ⟨Nat.zero_le len, by simp⟩

variable {len off : Nat} {i : Inode}

theorem safe_cons {c : Copy} {rest : List Copy} {clen : Nat} (fits : clen ≤ len)
    (moved : c.moved ≤ clen) (inside : c.coff + clen ≤ bLen) (safe : Safe (len - clen) rest) :
    Safe len (c :: rest) := by
  refine ⟨?_, ?_⟩
  · have tail := safe.total
    simp only [List.map_cons, List.sum_cons]
    omega
  · intro d member
    rcases List.mem_cons.mp member with rfl | later
    · omega
    · exact safe.inside d later

theorem preadLoop_safe (env : Nat → Event) (i : Inode) (n x len off copied : Nat)
    (fits : off + len < wordSize) : Safe len (preadLoop env i n x len off copied).copies := by
  induction n generalizing x len off copied with
  | zero => exact safe_nil len
  | succ n ih =>
    unfold wordSize at fits ih
    -- One chunk: it ends with the block or with the range.
    obtain ⟨clen, chunk, short, inside⟩ : ∃ clen,
        (if (off &&& (sBlocksize - 1)) + len > sBlocksize then
          sBlocksize - (off &&& (sBlocksize - 1)) else len) = clen ∧
        clen ≤ len ∧ (off &&& (sBlocksize - 1)) + clen ≤ bLen := by
      refine ⟨_, rfl, ?_⟩
      rw [coff_eq]
      unfold sBlocksize bLen sBlocksize sectsize
      split <;> omega
    have noWrap : ((off &&& (sBlocksize - 1)) + len) % wordSize =
        (off &&& (sBlocksize - 1)) + len := by
      rw [coff_eq]
      unfold wordSize
      omega
    simp only [preadLoop, noWrap, chunk]
    split
    · exact safe_nil len
    · split
      · exact safe_nil len
      · rename_i fault _
        split
        · exact safe_cons short (moved_le clen fault) inside (safe_nil _)
        · refine safe_cons short (moved_le clen fault) inside (ih _ _ _ _ ?_)
          unfold wordSize
          omega

def readEnd (i : Inode) (len off : Nat) : Nat := min ((off + len) % wordSize) i.iSize

theorem clamped (lenWord : len < wordSize) (offWord : off < wordSize) :
    (if (off + len) % wordSize > i.iSize then (wordSize - off + i.iSize) % wordSize else len) =
      (wordSize - off + readEnd i len off) % wordSize := by
  unfold readEnd
  unfold wordSize at *
  split
  · rw [Nat.min_eq_right (by omega)]
  · rw [Nat.min_eq_left (by omega)]
    omega

theorem readEnd_lt (len off : Nat) (sizeWord : i.iSize < wordSize) : readEnd i len off < wordSize :=
  Nat.lt_of_le_of_lt (Nat.min_le_right _ _) sizeWord

theorem readEnd_le (i : Inode) (len off : Nat) : readEnd i len off ≤ off + len := by
  have left : readEnd i len off ≤ (off + len) % wordSize := Nat.min_le_left _ _
  exact Nat.le_trans left (Nat.mod_le _ _)

theorem ext2Pread_eq (env : Nat → Event) (lenWord : len < wordSize) (offWord : off < wordSize)
    (sizeWord : i.iSize < wordSize) :
    ext2Pread env i len off =
      if readEnd i len off / 1024 ≥ 12 then ⟨[], none⟩
      else preadLoop env i (readEnd i len off / 1024 + 1 - off / 1024) (off / 1024)
        ((wordSize - off + readEnd i len off) % wordSize) off 0 := by
  have back : (off + (wordSize - off + readEnd i len off) % wordSize) % wordSize =
      readEnd i len off := by
    have word := readEnd_lt len off sizeWord
    unfold wordSize at *
    omega
  simp only [ext2Pread, clamped lenWord offWord, back, sBlocksize, ext2NdirBlocks]

theorem pread_backward_unsafe (lenWord : len < wordSize) (offWord : off < wordSize)
    (sizeWord : i.iSize < wordSize) (backward : readEnd i len off < off)
    (block : readEnd i len off / 1024 = off / 1024) (direct : off / 1024 < 12) :
    ¬ Safe len (ext2Pread (fun _ => .copies none) i len off).copies := by
  intro safe
  have word := readEnd_lt len off sizeWord
  have one := safe.inside
  rw [ext2Pread_eq _ lenWord offWord sizeWord, if_neg (by omega)] at one
  have once : readEnd i len off / 1024 + 1 - off / 1024 = 0 + 1 := by omega
  have huge : (wordSize - off + readEnd i len off) % wordSize =
      wordSize - off + readEnd i len off := Nat.mod_eq_of_lt (by omega)
  have wraps : ¬ (off % 1024 + (wordSize - off + readEnd i len off)) % wordSize > sBlocksize := by
    unfold wordSize sBlocksize at *
    omega
  have positive : ¬ wordSize - off + readEnd i len off = 0 := by omega
  simp only [once, preadLoop, huge, coff_eq, if_neg wraps, if_neg positive, copyToUser] at one
  have bad : ∀ c : Copy, c.moved = wordSize - off + readEnd i len off →
      ¬ c.coff + c.moved ≤ bLen := by
    intro c all
    unfold bLen sBlocksize sectsize
    unfold wordSize at *
    omega
  split at one
  · exact bad _ rfl (one _ List.mem_cons_self)
  · exact bad _ rfl (one _ List.mem_cons_self)

theorem ext2Pread_safe (lenWord : len < wordSize) (offWord : off < wordSize)
    (sizeWord : i.iSize < wordSize)
    (good : ¬ (readEnd i len off < off ∧ readEnd i len off / 1024 = off / 1024 ∧ off / 1024 < 12))
    (env : Nat → Event) : Safe len (ext2Pread env i len off).copies := by
  have word := readEnd_lt len off sizeWord
  rw [ext2Pread_eq env lenWord offWord sizeWord]
  split
  · exact safe_nil len
  · rename_i direct
    by_cases forward : off ≤ readEnd i len off
    · have exact' : (wordSize - off + readEnd i len off) % wordSize =
          readEnd i len off - off := by
        unfold wordSize at *
        omega
      have within := readEnd_le i len off
      rw [exact']
      have safe := preadLoop_safe env i (readEnd i len off / 1024 + 1 - off / 1024) (off / 1024)
        (readEnd i len off - off) off 0 (by omega)
      exact ⟨Nat.le_trans safe.total (by omega), safe.inside⟩
    · have none : readEnd i len off / 1024 + 1 - off / 1024 = 0 := by omega
      rw [none]
      exact safe_nil len

/-- Whatever the device and the page tables do, the copies are safe exactly when the
range does not end before it starts within one and the same direct block. -/
theorem ext2_pread_safe_iff (i : Inode) (len off : Nat) (lenWord : len < wordSize)
    (offWord : off < wordSize) (sizeWord : i.iSize < wordSize) :
    (∀ env, Safe len (ext2Pread env i len off).copies) ↔
      ¬ (readEnd i len off < off ∧ readEnd i len off / 1024 = off / 1024 ∧ off / 1024 < 12) := by
  constructor
  · rintro safe ⟨backward, block, direct⟩
    exact pread_backward_unsafe lenWord offWord sizeWord backward block direct (safe _)
  · exact fun good => ext2Pread_safe lenWord offWord sizeWord good

theorem ext2_pread_safe_iff_start : readEnd ⟨100, fun _ => 7⟩ 10 0 = 10 ∧
    ∀ env, Safe 10 (ext2Pread env ⟨100, fun _ => 7⟩ 10 0).copies :=
  ⟨by decide, (ext2_pread_safe_iff ⟨100, fun _ => 7⟩ 10 0 (by decide) (by decide)
    (by decide)).mpr (by decide)⟩

/- A read of ten bytes past the end of a short file: four gigabytes are asked for, and here
a fault ends the copy after 5000 bytes. -/
theorem pread_past_end_overruns :
    (ext2Pread (fun _ => .copies (some 5000)) ⟨100, fun _ => 7⟩ 10 200).copies =
      [⟨7, 200, 0, 4294967196, 5000⟩] ∧
    ¬ Safe 10 (ext2Pread (fun _ => .copies (some 5000)) ⟨100, fun _ => 7⟩ 10 200).copies := by
  have made : (ext2Pread (fun _ => .copies (some 5000)) ⟨100, fun _ => 7⟩ 10 200).copies =
      [⟨7, 200, 0, 4294967196, 5000⟩] := by decide
  refine ⟨made, ?_⟩
  intro safe
  rw [made] at safe
  exact absurd safe.total (by decide)

end ScaraOS.Ext2
