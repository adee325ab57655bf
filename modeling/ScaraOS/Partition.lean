import ScaraOS.Lib.Bits
import ScaraOS.Lib.Bytes

/-! Partition tables: `drivers/partition.c`. An entry says where its partition is in two
ways, and `read_pt` has a branch for each. -/
namespace ScaraOS.Partition

open Bytes

def mbrChsLimit : Nat := 1024 * 255 * 63 - 1
def partTypeEmpty : Nat := 0x0

/-- `struct blk_geom`. -/
structure Geom where
  c : Nat
  h : Nat
  s : Nat
  deriving DecidableEq, Repr

structure Part where
  status : Nat
  type : Nat
  lbaStart : Nat
  lbaEnd : Nat
  deriving DecidableEq, Repr

def chsToLba (g : Geom) (m : Mem) (chs : Nat) : Nat :=
  let c := ((m (chs + 1)).toNat &&& 0xc0) <<< 2 ||| (m (chs + 2)).toNat
  let h := (m chs).toNat
  let s := (m (chs + 1)).toNat &&& 0x3f
  ((c * g.h + h) * g.s + s + (2 ^ 32 - 1)) % 2 ^ 32

inductive Branch where
  | chs | lba
  deriving DecidableEq, Repr

/-- `p_lba_start` and `p_lba_end` of the entry at `ptr`, as each branch sets them. -/
def decode (g : Geom) (m : Mem) (ptr : Nat) : Branch → Nat × Nat
  | .chs => (chsToLba g m (ptr + 1), chsToLba g m (ptr + 5))
  | .lba => (load32 m (ptr + 8), (load32 m (ptr + 8) + load32 m (ptr + 12)) % 2 ^ 32)

def branch (g : Geom) (m : Mem) (ptr : Nat) : Branch :=
  if chsToLba g m (ptr + 1) < mbrChsLimit ∧ chsToLba g m (ptr + 5) < mbrChsLimit then .chs
  else .lba

def readBranch (g : Geom) (m : Mem) (ptr : Nat) (b : Branch) : Part :=
  let (first, last) := decode g m ptr b
  ⟨(m ptr).toNat, if first > last then partTypeEmpty else (m (ptr + 4)).toNat, first, last⟩

def readEntry (g : Geom) (m : Mem) (ptr : Nat) : Part := readBranch g m ptr (branch g m ptr)

def partNumSectors (part : Part) : Nat := (part.lbaEnd + 1 + (2 ^ 64 - part.lbaStart)) % 2 ^ 64
def partStartSector (part : Part) : Nat := part.lbaStart

def AtChs (g : Geom) (m : Mem) (chs lba : Nat) : Prop :=
  ∃ c h s, c < 1024 ∧ h < g.h ∧ 1 ≤ s ∧ s ≤ g.s ∧ lba = (c * g.h + h) * g.s + (s - 1) ∧
    (m chs).toNat = h ∧ (m (chs + 1)).toNat = c / 256 * 64 + s ∧ (m (chs + 2)).toNat = c % 256

/-- The entry describes `n` sectors from `a` on in both ways. -/
structure Describes (g : Geom) (m : Mem) (ptr a n : Nat) : Prop where
  some : 1 ≤ n
  first : AtChs g m (ptr + 1) a
  last : AtChs g m (ptr + 5) (a + n - 1)
  below : a + n - 1 < mbrChsLimit
  start : load32 m (ptr + 8) = a
  size : load32 m (ptr + 12) = n

theorem chsToLba_eq {g : Geom} {m : Mem} {chs lba : Nat} (sectors : g.s ≤ 63)
    (small : lba < mbrChsLimit) (described : AtChs g m chs lba) : chsToLba g m chs = lba := by
  obtain ⟨c, h, s, cylinder, _, least, most, rfl, head, packed, low⟩ := described
  have high : (c / 256 * 64 + s) &&& 0xc0 = c / 256 * 64 := by
    have field := Bits.and_mask (c / 256 * 64 + s) 6 2
    rw [Nat.shiftRight_eq_div_pow, Nat.shiftLeft_eq, Nat.shiftLeft_eq] at field
    rw [show 0xc0 = (2 ^ 2 - 1) * 2 ^ 6 from rfl, field]
    omega
  have sector : (c / 256 * 64 + s) &&& 0x3f = s := by
    have field := Nat.and_two_pow_sub_one_eq_mod (c / 256 * 64 + s) 6
    rw [show 0x3f = 2 ^ 6 - 1 from rfl, field]
    omega
  have whole : (c / 256 * 64) <<< 2 ||| c % 256 = c := by
    have parts := Bits.or_low (show c % 256 < 2 ^ 8 from Nat.mod_lt c (by decide)) (c / 256)
    rw [Nat.shiftLeft_eq] at parts ⊢
    rw [Nat.mul_assoc, show 64 * 2 ^ 2 = 2 ^ 8 from rfl, parts]
    omega
  unfold mbrChsLimit at small
  simp only [chsToLba, packed, low, head, high, sector, whole]
  omega

structure Part.Is (part : Part) (a n : Nat) : Prop where
  start : partStartSector part = a
  last : part.lbaEnd = a + n - 1
  size : partNumSectors part = n

section

variable {g : Geom} {m : Mem} {ptr a n : Nat}

theorem readBranch_start (b : Branch) :
    (readBranch g m ptr b).lbaStart = (decode g m ptr b).1 := rfl

theorem readBranch_end (b : Branch) : (readBranch g m ptr b).lbaEnd = (decode g m ptr b).2 := rfl

theorem readBranch_chs (sectors : g.s ≤ 63) (described : Describes g m ptr a n) :
    (readBranch g m ptr .chs).Is a n := by
  have some := described.some
  have below := described.below
  have first := chsToLba_eq sectors (Nat.lt_of_le_of_lt (by omega) below) described.first
  have last := chsToLba_eq sectors below described.last
  unfold mbrChsLimit at below
  constructor
  · rw [partStartSector, readBranch_start, decode, first]
  · rw [readBranch_end, decode, last]
  · rw [partNumSectors, readBranch_start, readBranch_end, decode, first, last]
    omega

theorem readBranch_lba (described : Describes g m ptr a n) :
    (readBranch g m ptr .lba).lbaEnd = a + n := by
  have some := described.some
  have below := described.below
  unfold mbrChsLimit at below
  rw [readBranch_end, decode, described.start, described.size]
  exact Nat.mod_eq_of_lt (by omega)

theorem readEntry_is (sectors : g.s ≤ 63) (described : Describes g m ptr a n) :
    (readEntry g m ptr).Is a n := by
  have below := described.below
  have some := described.some
  have taken : branch g m ptr = .chs := by
    refine if_pos ⟨?_, ?_⟩
    · have low : a < mbrChsLimit := Nat.lt_of_le_of_lt (by omega) below
      rw [chsToLba_eq sectors low described.first]
      exact low
    · rw [chsToLba_eq sectors below described.last]
      exact below
  rw [readEntry, taken]
  exact readBranch_chs sectors described

end

theorem branch_exact_iff (g : Geom) (m : Mem) (ptr a n : Nat) (sectors : g.s ≤ 63)
    (described : Describes g m ptr a n) (b : Branch) :
    (readBranch g m ptr b).Is a n ↔ b = .chs := by
  cases b with
  | chs => exact iff_of_true (readBranch_chs sectors described) rfl
  | lba =>
    refine iff_of_false (fun exact => ?_) (by decide)
    have last := readBranch_lba described
    rw [exact.last] at last
    have some := described.some
    omega

def sampleEntry : Mem := fun x =>
  match x with
  | 1 => 1
  | 2 => 1
  | 4 => 0x83
  | 5 => 16
  | 6 => 55
  | 8 => 63
  | 12 => 0xe8
  | 13 => 3
  | _ => 0

theorem sampleEntry_describes : Describes ⟨1024, 255, 63⟩ sampleEntry 0 63 1000 where
  some := by decide
  first := ⟨0, 1, 1, by decide⟩
  last := ⟨0, 16, 55, by decide⟩
  below := by decide
  start := by decide
  size := by decide

theorem branch_exact_iff_chs : (readBranch ⟨1024, 255, 63⟩ sampleEntry 0 .chs).Is 63 1000 :=
  (branch_exact_iff ⟨1024, 255, 63⟩ sampleEntry 0 63 1000 (by decide) sampleEntry_describes .chs).mpr
    rfl

theorem lba_branch_longer : Describes ⟨1024, 255, 63⟩ sampleEntry 0 63 1000 ∧
    (readBranch ⟨1024, 255, 63⟩ sampleEntry 0 .chs).lbaEnd = 1062 ∧
    (readBranch ⟨1024, 255, 63⟩ sampleEntry 0 .lba).lbaEnd = 1063 ∧
    partNumSectors (readBranch ⟨1024, 255, 63⟩ sampleEntry 0 .lba) = 1001 :=
  ⟨sampleEntry_describes, by decide, by decide, by decide⟩

end ScaraOS.Partition
