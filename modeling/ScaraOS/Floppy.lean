import Mathlib.Data.List.Count
import ScaraOS.Blk

/-! Reading from a floppy disk: `floppy_rw_blk` of `arch-ia32/floppy.c`. What comes of each
attempt is up to the drive. -/
namespace ScaraOS.Floppy

open Blk

def heads : Nat := 2
def spt : Nat := 18

/-- `floppy_block`, with the bytes that are sent of the head, the track and the sector. -/
structure Place where
  head : Nat
  track : Nat
  sector : Nat
  deriving DecidableEq, Repr

def floppyBlock (block : Nat) : Place where
  head := block % (spt * heads) / spt % 2 ^ 8
  track := block / (spt * heads) % 2 ^ 8
  sector := (block % spt + 1) % 2 ^ 8

def Place.block (p : Place) : Nat := (p.track * heads + p.head) * spt + (p.sector - 1)

structure Command where
  place : Place
  buf : Nat
  len : Nat
  deriving DecidableEq, Repr

inductive Outcome where
  | change | error | success
  deriving DecidableEq, Repr

/-- There is no command where the disk has changed. -/
structure Attempt where
  command : Option Command
  outcome : Outcome
  deriving DecidableEq, Repr

/-- From `try_again` on: the attempts that are made and the value returned, given what will
come of the attempts. No result is a loop that has not ended. -/
def tryAgain (sectsize : Nat) :
    Nat → (Nat → Outcome) → (count tries blk buf : Nat) → Option (List Attempt × Int)
  | 0, _, _, _, _, _ => none
  | fuel + 1, os, count, tries, blk, buf =>
    let command : Command := ⟨floppyBlock blk, buf, sectsize⟩
    let later := fun i => os (i + 1)
    match os 0 with
    | .change => some ([⟨none, .change⟩], -1)
    | .success =>
      let count := (count + (2 ^ 32 - 1)) % 2 ^ 32
      if count ≠ 0 then
        (tryAgain sectsize fuel later count tries ((blk + 1) % 2 ^ 64) (buf + sectsize)).map
          fun (log, ret) => (⟨command, .success⟩ :: log, ret)
      else some ([⟨command, .success⟩], 0)
    | .error =>
      let tries := tries - 1
      if tries ≠ 0 then
        (tryAgain sectsize fuel later count tries blk buf).map
          fun (log, ret) => (⟨command, .error⟩ :: log, ret)
      else some ([⟨command, .error⟩], -1)

def floppyRwBlk (fuel : Nat) (os : Nat → Outcome) (dev : Blkdev) (write : Bool) (blk buf : Nat) :
    Option (List Attempt × Int) :=
  if write then some ([], -1) else tryAgain dev.sectsize fuel os dev.count 3 blk buf

/-- So many attempts succeed before the disk is changed or that many fail. -/
def Completes (os : Nat → Outcome) (count tries : Nat) : Prop :=
  ∃ n, ((List.range n).map os).count .change = 0 ∧ ((List.range n).map os).count .error < tries ∧
    ((List.range n).map os).count .success = count

def slot (log : List Attempt) (i : Nat) : Nat := (log.take i).countP (·.outcome = .success)

def Filled (log : List Attempt) (k : Nat) (command : Command) : Prop :=
  ∃ i, log[i]? = some ⟨some command, .success⟩ ∧ slot log i = k ∧
    ∀ j, i < j → j < log.length → slot log j ≠ k

section

variable {os : Nat → Outcome}

theorem map_range_succ (os : Nat → Outcome) (n : Nat) :
    (List.range (n + 1)).map os = os 0 :: (List.range n).map fun i => os (i + 1) := by
  rw [List.range_succ_eq_map, List.map_cons, List.map_map]
  rfl

theorem completes_first {count tries : Nat} : Completes os (count + 1) tries ↔
    ∃ n, ((os 0 :: (List.range n).map fun i => os (i + 1)).count .change = 0 ∧
      (os 0 :: (List.range n).map fun i => os (i + 1)).count .error < tries ∧
      (os 0 :: (List.range n).map fun i => os (i + 1)).count .success = count + 1) := by
  constructor
  · rintro ⟨n, changes, errors, successes⟩
    cases n with
    | zero => cases successes
    | succ n =>
      rw [map_range_succ] at changes errors successes
      exact ⟨n, changes, errors, successes⟩
  · rintro ⟨n, changes, errors, successes⟩
    refine ⟨n + 1, ?_⟩
    rw [map_range_succ]
    exact ⟨changes, errors, successes⟩

theorem completes_change {count tries : Nat} (here : os 0 = .change) :
    ¬ Completes os (count + 1) tries := by
  rw [completes_first]
  rintro ⟨n, changes, -⟩
  rw [here, List.count_cons_self] at changes
  omega

theorem completes_success {count tries : Nat} (here : os 0 = .success) :
    Completes os (count + 1) tries ↔ Completes (fun i => os (i + 1)) count tries := by
  rw [completes_first, Completes, here]
  refine exists_congr fun n => ?_
  rw [List.count_cons_self, List.count_cons_of_ne (by decide), List.count_cons_of_ne (by decide),
    Nat.succ_inj]

theorem completes_error {count tries : Nat} (here : os 0 = .error) :
    Completes os (count + 1) (tries + 1) ↔
      Completes (fun i => os (i + 1)) (count + 1) tries := by
  rw [completes_first, Completes, here]
  refine exists_congr fun n => ?_
  rw [List.count_cons_self, List.count_cons_of_ne (by decide), List.count_cons_of_ne (by decide),
    Nat.succ_lt_succ_iff]

theorem completes_none {count : Nat} : ¬ Completes os count 0 := by
  rintro ⟨n, -, errors, -⟩
  omega

theorem completes_all {tries : Nat} (left : 0 < tries) : Completes os 0 tries :=
  ⟨0, rfl, left, rfl⟩

end

theorem filled_first (command : Command) (log : List Attempt) :
    Filled (⟨some command, .success⟩ :: log) 0 command := by
  refine ⟨0, rfl, rfl, ?_⟩
  intro j after _
  obtain ⟨j, rfl⟩ : ∃ i, j = i + 1 := ⟨j - 1, by omega⟩
  simp [slot]

theorem filled_later {log : List Attempt} {k : Nat} {command : Command} (a : Attempt)
    (filled : Filled log k command) :
    Filled (a :: log) (if a.outcome = .success then k + 1 else k) command := by
  obtain ⟨i, here, is, last⟩ := filled
  have shift (j : Nat) : slot (a :: log) (j + 1) =
      if a.outcome = .success then slot log j + 1 else slot log j := by
    simp only [slot, List.take_succ_cons, List.countP_cons, decide_eq_true_eq]
    split <;> rfl
  refine ⟨i + 1, here, ?_, ?_⟩
  · rw [shift, is]
  · intro j after inside
    obtain ⟨j, rfl⟩ : ∃ i, j = i + 1 := ⟨j - 1, by omega⟩
    have other := last j (by omega) (by simpa using inside)
    rw [shift]
    split <;> omega

theorem tryAgain_spec (sectsize : Nat) {fuel count tries : Nat} (os : Nat → Outcome) {blk : Nat}
    (buf : Nat) (word : count + 1 < 2 ^ 32) (block : blk < 2 ^ 64)
    (enough : count + tries < fuel) :
    ∃ log ret, tryAgain sectsize fuel os (count + 1) (tries + 1) blk buf = some (log, ret) ∧
      log.length ≤ count + tries + 1 ∧ (ret = 0 ↔ Completes os (count + 1) (tries + 1)) ∧
      (ret = 0 → ∀ k < count + 1, Filled log k
        ⟨floppyBlock ((blk + k) % 2 ^ 64), buf + k * sectsize, sectsize⟩) := by
  induction fuel generalizing os count tries blk buf with
  | zero => omega
  | succ fuel ih =>
    cases here : os 0 with
    | change =>
      refine ⟨[⟨none, .change⟩], -1, by simp only [tryAgain, here], by simp, ?_, nofun⟩
      exact iff_of_false (by decide) (completes_change here)
    | success =>
      have less : (count + 1 + (2 ^ 32 - 1)) % 2 ^ 32 = count := by omega
      have first : (blk + 0) % 2 ^ 64 = blk := Nat.mod_eq_of_lt block
      rw [completes_success here]
      cases count with
      | zero =>
        refine ⟨[⟨some ⟨floppyBlock blk, buf, sectsize⟩, .success⟩], 0, ?_, by simp, ?_, ?_⟩
        · simp only [tryAgain, here, less, ne_eq, not_true_eq_false, if_false]
        · exact iff_of_true rfl (completes_all (Nat.succ_pos tries))
        · intro _ k below
          obtain rfl : k = 0 := by omega
          rw [first, Nat.zero_mul, Nat.add_zero]
          exact filled_first _ []
      | succ count =>
        obtain ⟨log, ret, ran, length, iff, filled⟩ :=
          ih (fun i => os (i + 1)) (buf + sectsize) (Nat.lt_of_succ_lt word)
          (Nat.mod_lt (blk + 1) (by decide)) (show count + tries < fuel by omega)
        refine ⟨⟨some ⟨floppyBlock blk, buf, sectsize⟩, .success⟩ :: log, ret, ?_, ?_, iff, ?_⟩
        · simp only [tryAgain, here, less, ne_eq, Nat.succ_ne_zero, not_false_eq_true, if_true, ran,
            Option.map_some]
        · rw [List.length_cons]
          omega
        · intro done k below
          cases k with
          | zero =>
            rw [first, Nat.zero_mul, Nat.add_zero]
            exact filled_first _ log
          | succ k =>
            have next := filled_later ⟨some ⟨floppyBlock blk, buf, sectsize⟩, .success⟩
              (filled done k (by omega))
            rw [if_pos rfl] at next
            have place : ((blk + 1) % 2 ^ 64 + k) % 2 ^ 64 = (blk + (k + 1)) % 2 ^ 64 := by omega
            have target : buf + sectsize + k * sectsize = buf + (k + 1) * sectsize := by
              rw [Nat.succ_mul]
              omega
            rwa [place, target] at next
    | error =>
      rw [completes_error here]
      cases tries with
      | zero =>
        refine ⟨[⟨some ⟨floppyBlock blk, buf, sectsize⟩, .error⟩], -1, ?_, by simp, ?_, nofun⟩
        · simp only [tryAgain, here, Nat.add_sub_cancel, ne_eq, not_true_eq_false, if_false]
        · exact iff_of_false (by decide) completes_none
      | succ tries =>
        obtain ⟨log, ret, ran, length, iff, filled⟩ := ih (fun i => os (i + 1)) buf word block
          (Nat.lt_of_succ_lt_succ enough)
        refine ⟨⟨some ⟨floppyBlock blk, buf, sectsize⟩, .error⟩ :: log, ret, ?_, ?_, iff, ?_⟩
        · simp only [tryAgain, here, Nat.add_sub_cancel, ne_eq, Nat.succ_ne_zero, not_false_eq_true,
            if_true, ran, Option.map_some]
        · rw [List.length_cons]
          omega
        · intro done k below
          have next := filled_later ⟨some ⟨floppyBlock blk, buf, sectsize⟩, .error⟩
            (filled done k below)
          rwa [if_neg nofun] at next

theorem floppyBlock_block_iff (x : Nat) : (floppyBlock (x % 2 ^ 64)).block = x ↔ x < 9216 := by
  have wraps (y : Nat) : (floppyBlock y).block = y % 9216 := by
    simp only [Place.block, floppyBlock, heads, spt]
    omega
  rw [wraps]
  constructor
  · intro same
    rw [← same]
    exact Nat.mod_lt _ (by decide)
  · intro low
    rw [Nat.mod_eq_of_lt (Nat.lt_trans low (by decide)), Nat.mod_eq_of_lt low]

/-- The call ends in time, returns `0` exactly if enough attempts succeed, and then every
sector is in its slot. -/
def Right (os : Nat → Outcome) (dev : Blkdev) (blk buf : Nat) : Prop :=
  ∃ log ret, floppyRwBlk (dev.count + 2) os dev false blk buf = some (log, ret) ∧
    log.length ≤ dev.count + 2 ∧ (ret = 0 ↔ Completes os dev.count 3) ∧
    (ret = 0 → ∀ k < dev.count, ∃ command, Filled log k command ∧ command.place.block = blk + k ∧
      command.buf = buf + k * dev.sectsize ∧ command.len = dev.sectsize)

theorem filled_unique {log : List Attempt} {k : Nat} {c d : Command} (left : Filled log k c)
    (right : Filled log k d) : c = d := by
  obtain ⟨i, here, is, last⟩ := left
  obtain ⟨j, there, js, final⟩ := right
  have inside {x : Nat} {a : Attempt} (at_x : log[x]? = some a) : x < log.length :=
    (List.getElem?_eq_some_iff.mp at_x).1
  rcases Nat.lt_trichotomy i j with before | same | after
  · exact absurd js (last j before (inside there))
  · rw [same, there] at here
    simpa using here.symm
  · exact absurd is (final i after (inside here))

theorem floppy_right_iff (os : Nat → Outcome) (dev : Blkdev) (blk buf : Nat)
    (count : 1 ≤ dev.count ∧ dev.count < 2 ^ 32) (block : blk < 2 ^ 64) :
    Right os dev blk buf ↔ (Completes os dev.count 3 → blk + dev.count ≤ 9216) := by
  obtain ⟨n, is⟩ : ∃ n, dev.count = n + 1 := ⟨dev.count - 1, by omega⟩
  obtain ⟨log, ret, ran, length, iff, filled⟩ := tryAgain_spec dev.sectsize os buf
    (is ▸ count.2) block (show n + 2 < dev.count + 2 by omega)
  rw [← is] at ran iff filled
  have called : floppyRwBlk (dev.count + 2) os dev false blk buf = some (log, ret) := ran
  constructor
  · rintro ⟨log', ret', again, -, -, slots⟩ completes
    cases called.symm.trans again
    have done := iff.mpr completes
    -- the last slot has the highest block number
    obtain ⟨command, here, is_block, -⟩ := slots done n (by omega)
    obtain rfl := filled_unique here (filled done n (by omega))
    have last : blk + n < 9216 := (floppyBlock_block_iff (blk + n)).mp is_block
    rw [is]
    exact last
  · intro fits
    refine ⟨log, ret, called, by omega, iff, ?_⟩
    intro done k below
    have room := fits (iff.mp done)
    exact ⟨_, filled done k below, (floppyBlock_block_iff (blk + k)).mpr (by omega), rfl, rfl⟩

def sampleOutcomes (i : Nat) : Outcome := if i = 1 then .error else .success

theorem floppy_right_iff_retry : Right sampleOutcomes ⟨512, 3, by decide⟩ 17 0 :=
  (floppy_right_iff sampleOutcomes ⟨512, 3, by decide⟩ 17 0 (by decide) (by decide)).mpr
    fun _ => by decide

/- Block 9216 would be on track 256, and track 0 is read. -/
theorem floppy_reads_track_zero :
    floppyRwBlk 3 (fun _ => .success) ⟨512, 1, by decide⟩ false 9216 0 =
      some ([⟨some ⟨⟨0, 0, 1⟩, 0, 512⟩, .success⟩], 0) ∧
    Place.block ⟨0, 0, 1⟩ = 0 ∧ ¬ Right (fun _ => .success) ⟨512, 1, by decide⟩ 9216 0 := by
  have ran : floppyRwBlk 3 (fun _ => .success) ⟨512, 1, by decide⟩ false 9216 0 =
      some ([⟨some ⟨⟨0, 0, 1⟩, 0, 512⟩, .success⟩], 0) := by decide
  refine ⟨ran, by decide, ?_⟩
  rintro ⟨log, ret, again, -, -, slots⟩
  cases ran.symm.trans again
  obtain ⟨command, ⟨i, here, -⟩, is_block, -⟩ := slots rfl 0 (by decide)
  have member := List.mem_of_getElem? here
  simp only [List.mem_singleton, Attempt.mk.injEq, Option.some.injEq, and_true] at member
  rw [member] at is_block
  exact absurd is_block (by decide)

end ScaraOS.Floppy
