import ScaraOS.Blk
import ScaraOS.Lib.Bits
import ScaraOS.Lib.Bytes

/-! Reading from an ATA drive: `ata_rw_blk` of `drivers/ata.c`, and the drive as its task
file sees it. A wait for the drive to be ready ends. -/
namespace ScaraOS.Ata

open Bytes Blk

structure TaskFile where
  sectorCount : Nat
  sector : Nat
  lcyl : Nat
  hcyl : Nat
  driveHead : Nat
  deriving DecidableEq, Repr

def TaskFile.lba (t : TaskFile) : Nat :=
  (t.driveHead &&& 0xf) <<< 24 ||| (t.hcyl <<< 16 ||| (t.lcyl <<< 8 ||| t.sector))

def TaskFile.drive (t : TaskFile) : Nat := t.driveHead / 2 ^ 4 % 2

/-- The bytes of the sectors of the two drives of a channel, and whether `DRQ` is set after
each command. -/
structure Drives where
  content : (drive lba : Nat) → Nat → UInt8
  drq : Nat → Bool

def ataSetDriveHead (t : TaskFile) (lba d h : Nat) : TaskFile :=
  { t with driveHead :=
      0xa0 ||| (if lba ≠ 0 then 1 else 0) <<< 6 ||| (if d ≠ 0 then 1 else 0) <<< 4 ||| h &&& 0xf }

/-- Word by word; a word of the drive has the byte with the lower address in its low half. -/
def ataPioReadBlk (data : Nat → UInt8) (m : Mem) (buf : Nat) : Mem :=
  (List.range 256).foldl
    (fun m i => store m (buf + 2 * i) 2 ((data (2 * i)).toNat + 2 ^ 8 * (data (2 * i + 1)).toNat)) m

def address (t : TaskFile) (drvsel blk : Nat) : TaskFile :=
  let t := ataSetDriveHead t 1 drvsel ((blk >>> 24) &&& 0xf)
  { t with
    sectorCount := 1
    sector := blk &&& 0xff
    lcyl := (blk >>> 8) &&& 0xff
    hcyl := (blk >>> 16) &&& 0xff }

/-- The loop with `count` sectors to go, `done` commands having been given. -/
def rwLoop (hw : Drives) (sectsize drvsel : Nat) :
    (count done : Nat) → TaskFile → Mem → (blk buf : Nat) → Mem × Int
  | 0, _, _, m, _, _ => (m, 0)
  | count + 1, done, t, m, blk, buf =>
    let t := address t drvsel blk
    if hw.drq done = false then (m, -1)
    else
      let m := ataPioReadBlk (hw.content t.drive t.lba) m buf
      rwLoop hw sectsize drvsel count (done + 1) t m ((blk + 1) % 2 ^ 64) (buf + sectsize)

def ataRwBlk (hw : Drives) (dev : Blkdev) (drvsel : Nat) (t : TaskFile) (m : Mem) (blk buf : Nat) :
    Mem × Int :=
  rwLoop hw dev.sectsize drvsel dev.count 0 t m blk buf

/-- A device as `ata_new_blkdev` makes them; `count` is left as it is. -/
def ataNewBlkdev (count : Nat) : Blkdev := ⟨512, count, by decide⟩

theorem driveHead_eq (t : TaskFile) (d h : Nat) : (ataSetDriveHead t 1 d h).driveHead =
    (if d ≠ 0 then 0xf0 else 0xe0) + h % 2 ^ 4 := by
  have low : h &&& 0xf = h % 2 ^ 4 := Nat.and_two_pow_sub_one_eq_mod h 4
  have small : h % 2 ^ 4 < 2 ^ 4 := Nat.mod_lt h (by decide)
  unfold ataSetDriveHead
  rw [low]
  by_cases slave : d ≠ 0
  · rw [if_pos slave, if_pos slave]
    exact Bits.or_low small 0xf
  · rw [if_neg slave, if_neg slave]
    exact Bits.or_low small 0xe

theorem address_lba (t : TaskFile) (drvsel blk : Nat) :
    (address t drvsel blk).lba = blk % 2 ^ 28 := by
  have byte (x : Nat) : x &&& 0xff = x % 2 ^ 8 := Nat.and_two_pow_sub_one_eq_mod x 8
  have nibble (x : Nat) : x &&& 0xf = x % 2 ^ 4 := Nat.and_two_pow_sub_one_eq_mod x 4
  have top : (address t drvsel blk).driveHead &&& 0xf = blk / 2 ^ 24 % 2 ^ 4 := by
    have is : (address t drvsel blk).driveHead =
        (ataSetDriveHead t 1 drvsel ((blk >>> 24) &&& 0xf)).driveHead := rfl
    rw [is, driveHead_eq, nibble, nibble, Nat.shiftRight_eq_div_pow]
    split <;> omega
  have low : (address t drvsel blk).lcyl <<< 8 ||| (address t drvsel blk).sector = blk % 2 ^ 16 := by
    simp only [address, byte, Nat.shiftRight_eq_div_pow]
    rw [Bits.or_low (Nat.mod_lt blk (by decide))]
    omega
  have middle : (address t drvsel blk).hcyl <<< 16 ||| blk % 2 ^ 16 = blk % 2 ^ 24 := by
    simp only [address, byte, Nat.shiftRight_eq_div_pow]
    rw [Bits.or_low (Nat.mod_lt blk (by decide))]
    omega
  rw [TaskFile.lba, top, low, middle, Bits.or_low (Nat.mod_lt blk (by decide))]
  omega

theorem address_drive (t : TaskFile) (drvsel blk : Nat) :
    (address t drvsel blk).drive = if drvsel ≠ 0 then 1 else 0 := by
  have is : (address t drvsel blk).driveHead =
      (ataSetDriveHead t 1 drvsel ((blk >>> 24) &&& 0xf)).driveHead := rfl
  rw [TaskFile.drive, is, driveHead_eq]
  split <;> omega

theorem ataPioReadBlk_eq (data : Nat → UInt8) (m : Mem) (buf x : Nat) :
    ataPioReadBlk data m buf x = if buf ≤ x ∧ x < buf + 512 then data (x - buf) else m x := by
  have words : ∀ n, (List.range n).foldl (fun m i =>
      store m (buf + 2 * i) 2 ((data (2 * i)).toNat + 2 ^ 8 * (data (2 * i + 1)).toNat)) m x =
        if buf ≤ x ∧ x < buf + 2 * n then data (x - buf) else m x := by
    intro n
    induction n with
    | zero => rw [if_neg (by omega)]; rfl
    | succ n ih =>
      rw [List.range_succ, List.foldl_append, List.foldl_cons, List.foldl_nil]
      by_cases first : x = buf + 2 * n
      · have offset : x - buf = 2 * n := by omega
        rw [store_inside _ (by omega), if_pos (by omega), first, Nat.sub_self, Nat.mul_zero, Nat.pow_zero,
          Nat.div_one, Nat.add_sub_cancel_left]
        apply UInt8.toNat_inj.mp
        simp
      · by_cases second : x = buf + 2 * n + 1
        · have one : x - (buf + 2 * n) = 1 := by omega
          have offset : x - buf = 2 * n + 1 := by omega
          rw [store_inside _ (by omega), if_pos (by omega), one, offset]
          apply UInt8.toNat_inj.mp
          have := (data (2 * n)).toNat_lt
          have := (data (2 * n + 1)).toNat_lt
          rw [UInt8.toNat_ofNat']
          omega
        · rw [store_outside _ (by omega), ih]
          by_cases before : buf ≤ x ∧ x < buf + 2 * n
          · rw [if_pos before, if_pos (by omega)]
          · rw [if_neg before, if_neg (by omega)]
  exact words 256

section

variable {hw : Drives} (drvsel : Nat)

theorem rwLoop_fails {count done blk buf : Nat} {t : TaskFile} {m : Mem}
    (fails : ∃ k < count, hw.drq (done + k) = false) :
    (rwLoop hw 512 drvsel count done t m blk buf).2 = -1 := by
  induction count generalizing done blk buf t m with
  | zero =>
    obtain ⟨k, below, -⟩ := fails
    omega
  | succ count ih =>
    rw [rwLoop]
    by_cases here : hw.drq done = false
    · rw [if_pos here]
    · rw [if_neg here]
      refine ih ?_
      obtain ⟨k, below, failed⟩ := fails
      cases k with
      | zero => exact absurd failed here
      | succ k => exact ⟨k, by omega, by rw [← failed]; congr 1; omega⟩

theorem rwLoop_reads (count done : Nat) (t : TaskFile) (m : Mem) (blk buf : Nat)
    (works : ∀ k < count, hw.drq (done + k) = true) :
    (rwLoop hw 512 drvsel count done t m blk buf).2 = 0 ∧
    (∀ x < buf, (rwLoop hw 512 drvsel count done t m blk buf).1 x = m x) ∧
    ∀ k < count, ∀ j < 512, (rwLoop hw 512 drvsel count done t m blk buf).1 (buf + 512 * k + j) =
      hw.content (if drvsel ≠ 0 then 1 else 0) ((blk + k) % 2 ^ 28) j := by
  induction count generalizing done t m blk buf with
  | zero => exact ⟨rfl, fun _ _ => rfl, by omega⟩
  | succ count ih =>
    have here : ¬ hw.drq done = false := by
      have first := works 0 (by omega)
      rw [Nat.add_zero] at first
      rw [first]
      decide
    rw [rwLoop, if_neg here]
    obtain ⟨ended, before, slots⟩ := ih (done + 1) (address t drvsel blk)
      (ataPioReadBlk (hw.content (address t drvsel blk).drive (address t drvsel blk).lba) m buf)
      ((blk + 1) % 2 ^ 64) (buf + 512)
      (fun k below => by rw [← works (k + 1) (by omega)]; congr 1; omega)
    refine ⟨ended, ?_, ?_⟩
    · intro x low
      rw [before x (by omega), ataPioReadBlk_eq, if_neg (by omega)]
    · intro k below j inside
      cases k with
      | zero =>
        rw [before _ (by omega), ataPioReadBlk_eq, if_pos (by omega), address_drive, address_lba]
        congr 1
        omega
      | succ k =>
        have place : buf + 512 * (k + 1) + j = buf + 512 + 512 * k + j := by omega
        rw [place, slots k (by omega) j inside]
        congr 1
        omega

theorem ataRwBlk_reads {count : Nat} (works : ∀ k < count, hw.drq k = true) (t : TaskFile)
    (m : Mem) (blk buf : Nat) :
    (ataRwBlk hw (ataNewBlkdev count) drvsel t m blk buf).2 = 0 ∧
    ∀ k < count, ∀ j < 512,
      (ataRwBlk hw (ataNewBlkdev count) drvsel t m blk buf).1 (buf + 512 * k + j) =
        hw.content (if drvsel ≠ 0 then 1 else 0) ((blk + k) % 2 ^ 28) j := by
  have all : ∀ k < count, hw.drq (0 + k) = true := by
    intro k below
    rw [Nat.zero_add]
    exact works k below
  obtain ⟨ended, -, slots⟩ := rwLoop_reads drvsel count 0 t m blk buf all
  exact ⟨ended, slots⟩

end

/-- A read that returns `0` has the sectors asked for, and one for which 28 bits are not
enough fails. -/
def Faithful (hw : Drives) (drvsel count : Nat) (t : TaskFile) (m : Mem) (blk buf : Nat) : Prop :=
  let r := ataRwBlk hw (ataNewBlkdev count) drvsel t m blk buf
  (r.2 = 0 → ∀ k < count, ∀ j < 512,
    r.1 (buf + 512 * k + j) = hw.content (if drvsel ≠ 0 then 1 else 0) (blk + k) j) ∧
  (¬ blk + count ≤ 2 ^ 28 → r.2 ≠ 0)

theorem ata_faithful_iff (hw : Drives) (drvsel count : Nat) (t : TaskFile) (m : Mem)
    (blk buf : Nat) : Faithful hw drvsel count t m blk buf ↔
      blk + count ≤ 2 ^ 28 ∨ ∃ k < count, hw.drq k = false := by
  by_cases fails : ∃ k < count, hw.drq k = false
  · refine iff_of_true ?_ (.inr fails)
    have failed : (ataRwBlk hw (ataNewBlkdev count) drvsel t m blk buf).2 = -1 :=
      rwLoop_fails drvsel (by simpa [ataNewBlkdev] using fails)
    refine ⟨fun done => ?_, fun _ done => ?_⟩
    · rw [failed] at done
      cases done
    · rw [failed] at done
      cases done
  · have works : ∀ k < count, hw.drq k = true := by
      intro k below
      by_contra not
      exact fails ⟨k, below, Bool.not_eq_true _ ▸ not⟩
    obtain ⟨ended, slots⟩ := ataRwBlk_reads drvsel works t m blk buf
    rw [or_iff_left fails]
    constructor
    · intro faithful
      by_contra wide
      exact faithful.2 wide ended
    · intro fits
      refine ⟨fun _ k below j inside => ?_, fun wide => absurd fits wide⟩
      have same := slots k below j inside
      rw [Nat.mod_eq_of_lt (by omega)] at same
      exact same

def sampleDrives : Drives where
  content _ lba _ := UInt8.ofNat (lba / 2 ^ 28)
  drq _ := true

/- Sector `2 ^ 28` is read as sector 0. -/
theorem ata_reads_other : ∃ m,
    ataRwBlk sampleDrives (ataNewBlkdev 1) 0 ⟨0, 0, 0, 0, 0⟩ (fun _ => 7) (2 ^ 28) 0 = (m, 0) ∧
    m 0 = 0 ∧ sampleDrives.content 0 (2 ^ 28) 0 = 1 ∧
    ¬ Faithful sampleDrives 0 1 ⟨0, 0, 0, 0, 0⟩ (fun _ => 7) (2 ^ 28) 0 := by
  have every : ∀ k < 1, sampleDrives.drq k = true := fun _ _ => rfl
  obtain ⟨ended, slots⟩ := ataRwBlk_reads 0 every ⟨0, 0, 0, 0, 0⟩ (fun _ => 7) (2 ^ 28) 0
  have blank : sampleDrives.content (if (0 : Nat) ≠ 0 then 1 else 0) ((2 ^ 28 + 0) % 2 ^ 28) 0 = 0 := by
    decide
  have first := (slots 0 (by decide) 0 (by decide)).trans blank
  rw [Nat.mul_zero, Nat.add_zero] at first
  have wide : ¬ Faithful sampleDrives 0 1 ⟨0, 0, 0, 0, 0⟩ (fun _ => 7) (2 ^ 28) 0 :=
    fun faithful => faithful.2 (by decide) ended
  cases run : ataRwBlk sampleDrives (ataNewBlkdev 1) 0 ⟨0, 0, 0, 0, 0⟩ (fun _ => 7) (2 ^ 28) 0 with
  | mk m ret =>
    rw [run] at ended first
    cases ended
    exact ⟨m, rfl, first, by decide, wide⟩

end ScaraOS.Ata
