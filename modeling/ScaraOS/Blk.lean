import Mathlib.Algebra.Group.Nat.Defs
import Mathlib.Data.Nat.Bitwise
import ScaraOS.Layout

/-! Block devices: `blk_set_blocksize` of `kernel/blk.c`, and the sizes `blk_read` and the
drivers derive from what it sets. -/
namespace ScaraOS.Blk

/-- `count` is the number of sectors in a block. -/
structure Blkdev where
  sectsize : Nat
  count : Nat
  positive : 0 < sectsize
  deriving DecidableEq, Repr

def blkSetBlocksize (dev : Blkdev) (size : Nat) : Blkdev × Int :=
  if dev.sectsize > size then (dev, -1)
  else if size > pageSize ∨ size < 512 ∨ size &&& (size - 1) ≠ 0 then (dev, -1)
  else if dev.sectsize * dev.count % 2 ^ 32 = size then (dev, 0)
  else ({ dev with count := size / dev.sectsize }, 0)

/-- `b_len` of a buffer that `blk_read` allocates. -/
def Blkdev.bLen (dev : Blkdev) : Nat := dev.count * dev.sectsize % 2 ^ 32

def Blkdev.slots (dev : Blkdev) : List Nat := (List.range dev.count).map (· * dev.sectsize)

def Blkdev.Filled (dev : Blkdev) : Prop :=
  ∀ x, x < dev.bLen ↔ ∃ a ∈ dev.slots, a ≤ x ∧ x < a + dev.sectsize

theorem slots_cover (dev : Blkdev) (x : Nat) :
    (∃ a ∈ dev.slots, a ≤ x ∧ x < a + dev.sectsize) ↔ x < dev.count * dev.sectsize := by
  constructor
  · rintro ⟨a, member, -, inside⟩
    obtain ⟨k, below, rfl⟩ := List.mem_map.mp member
    have room : (k + 1) * dev.sectsize ≤ dev.count * dev.sectsize :=
      Nat.mul_le_mul_right _ (List.mem_range.mp below)
    rw [Nat.succ_mul] at room
    omega
  · intro below
    refine ⟨x / dev.sectsize * dev.sectsize, List.mem_map.mpr ⟨x / dev.sectsize, ?_, rfl⟩, ?_, ?_⟩
    · exact List.mem_range.mpr ((Nat.div_lt_iff_lt_mul dev.positive).mpr below)
    · exact Nat.div_mul_le_self x dev.sectsize
    · rw [Nat.mul_comm]
      exact Nat.lt_mul_div_succ x dev.positive

theorem filled_iff (dev : Blkdev) : dev.Filled ↔ dev.count * dev.sectsize < 2 ^ 32 := by
  unfold Blkdev.Filled
  simp only [slots_cover, Blkdev.bLen]
  constructor
  · intro same
    have := same (dev.count * dev.sectsize - 1)
    omega
  · intro fits x
    rw [Nat.mod_eq_of_lt fits]

/-- A size that is set is exact and the buffers of it are filled; one that is refused changes
nothing. -/
structure Exact (dev : Blkdev) (size : Nat) : Prop where
  set : (blkSetBlocksize dev size).2 = 0 →
    (blkSetBlocksize dev size).1.count * (blkSetBlocksize dev size).1.sectsize = size ∧
      (blkSetBlocksize dev size).1.Filled
  refused : (blkSetBlocksize dev size).2 = -1 → (blkSetBlocksize dev size).1.count = dev.count

def Accepts (dev : Blkdev) (size : Nat) : Prop :=
  dev.sectsize ≤ size ∧ 512 ≤ size ∧ size ≤ pageSize ∧ size &&& (size - 1) = 0

theorem blkSetBlocksize_refused {dev : Blkdev} {size : Nat} (bad : ¬ Accepts dev size) :
    blkSetBlocksize dev size = (dev, -1) := by
  unfold blkSetBlocksize
  by_cases short : dev.sectsize > size
  · rw [if_pos short]
  · rw [if_neg short, if_pos]
    by_contra good
    refine bad ⟨by omega, by omega, by omega, ?_⟩
    tauto

theorem blkSetBlocksize_accepted {dev : Blkdev} {size : Nat} (good : Accepts dev size) :
    blkSetBlocksize dev size =
      if dev.sectsize * dev.count % 2 ^ 32 = size then (dev, 0)
      else ({ dev with count := size / dev.sectsize }, 0) := by
  obtain ⟨sector, least, most, power⟩ := good
  unfold blkSetBlocksize
  rw [if_neg (by omega), if_neg]
  rintro (above | below | other)
  · omega
  · omega
  · exact other power

/-- The block size is exact if it was before, or if it is not taken for set already and is a
multiple of the sector size. -/
theorem blocksize_exact_iff (dev : Blkdev) (size : Nat) :
    Exact dev size ↔ (Accepts dev size →
      if dev.sectsize * dev.count % 2 ^ 32 = size then dev.sectsize * dev.count = size
      else dev.sectsize ∣ size) := by
  by_cases good : Accepts dev size
  · have word : size < 2 ^ 32 := Nat.lt_of_le_of_lt good.2.2.1 (by decide)
    rw [forall_prop_of_true good]
    have result := blkSetBlocksize_accepted good
    by_cases same : dev.sectsize * dev.count % 2 ^ 32 = size
    · rw [if_pos same] at result ⊢
      constructor
      · intro exact
        have set := (exact.set (by rw [result])).1
        rwa [result, Nat.mul_comm] at set
      · intro product
        refine ⟨fun _ => ?_, fun failed => ?_⟩
        · rw [result, filled_iff, Nat.mul_comm, product]
          exact ⟨rfl, word⟩
        · rw [result] at failed
          cases failed
    · rw [if_neg same] at result ⊢
      constructor
      · intro exact
        have set := (exact.set (by rw [result])).1
        rw [result] at set
        exact ⟨size / dev.sectsize, by rw [Nat.mul_comm]; exact set.symm⟩
      · intro divides
        refine ⟨fun _ => ?_, fun failed => ?_⟩
        · rw [result, filled_iff]
          exact ⟨Nat.div_mul_cancel divides, by rw [Nat.div_mul_cancel divides]; exact word⟩
        · rw [result] at failed
          cases failed
  · refine iff_of_true ?_ fun accepted => absurd accepted good
    have result := blkSetBlocksize_refused good
    refine ⟨fun done => ?_, fun _ => ?_⟩
    · rw [result] at done
      cases done
    · rw [result]

/- A `count` that was never set passes for right, and sectors of 768 bytes do not make 1024. -/
theorem blocksize_comes_round :
    (blkSetBlocksize ⟨512, 2 ^ 23 + 1, by decide⟩ 512).2 = 0 ∧
    (blkSetBlocksize ⟨512, 2 ^ 23 + 1, by decide⟩ 512).1.count = 2 ^ 23 + 1 ∧
    ¬ Exact ⟨512, 2 ^ 23 + 1, by decide⟩ 512 ∧
    (blkSetBlocksize ⟨768, 0, by decide⟩ 1024).2 = 0 ∧
    (blkSetBlocksize ⟨768, 0, by decide⟩ 1024).1.count = 1 ∧ ¬ Exact ⟨768, 0, by decide⟩ 1024 := by
  refine ⟨by decide, by decide, ?_, by decide, by decide, ?_⟩
  · intro exact
    exact absurd (exact.set (by decide)).1 (by decide)
  · intro exact
    exact absurd (exact.set (by decide)).1 (by decide)

end ScaraOS.Blk
