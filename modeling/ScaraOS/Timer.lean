import Mathlib.Data.Nat.Bitwise
import Mathlib.Data.Nat.Log

/-! The delay loop: `calibrate_delay_loop` of `arch-ia32/timer.c`. The timer is what
`get_timer_chan` reads after `__delay` of so many loops. -/
namespace ScaraOS.Timer

def pitSecond : Nat := 1193180

/-- The coarse calibration. No result is a loop that has not ended. -/
def coarse (timer : Nat → Nat) : Nat → Nat → Option Nat
  | 0, _ => none
  | fuel + 1, loopsMs =>
    let loopsMs := loopsMs * 2 % 2 ^ 32
    if loopsMs = 0 then some 0
    else if timer loopsMs < 64000 then some loopsMs
    else coarse timer fuel loopsMs

/-- The precision calculation, with `lp` turns left. -/
def precise (timer : Nat → Nat) : (lp lb loopsMs : Nat) → Nat
  | 0, _, loopsMs => loopsMs
  | lp + 1, lb, loopsMs =>
    let lb := lb / 2
    if lb = 0 then loopsMs
    else
      let loopsMs := loopsMs ||| lb
      precise timer lp lb
        (if timer loopsMs < 64000 then loopsMs &&& ((2 ^ 32 - 1) ^^^ lb) else loopsMs)

def search (timer : Nat → Nat) : Option Nat :=
  (coarse timer 20 (1 <<< 12)).map fun loopsMs =>
    let loopsMs := loopsMs / 2
    precise timer 8 loopsMs loopsMs

def normalise (loopsMs : Nat) : Nat :=
  loopsMs * (pitSecond / (65535 - 64000)) % 2 ^ 32 / 1000

/-- The value of `loops_ms` at the end. -/
def calibrateDelayLoop (timer : Nat → Nat) : Option Nat := (search timer).map normalise

structure Threshold (timer : Nat → Nat) (T : Nat) : Prop where
  low : 2 ^ 13 ≤ T
  high : T < 2 ^ 31
  exact : ∀ l < 2 ^ 32, timer l < 64000 ↔ T < l

section

variable {timer : Nat → Nat} {T : Nat}

theorem coarse_eq (threshold : Threshold timer T) {m : Nat} (below : 2 ^ m ≤ T)
    (above : T < 2 ^ (m + 1)) {fuel k : Nat} (start : k ≤ m) (enough : m < k + fuel) :
    coarse timer fuel (2 ^ k) = some (2 ^ (m + 1)) := by
  have small : m < 31 := (Nat.pow_lt_pow_iff_right (by decide)).mp
    (Nat.lt_of_le_of_lt below threshold.high)
  induction fuel generalizing k with
  | zero => omega
  | succ fuel ih =>
    have word : 2 ^ (k + 1) < 2 ^ 32 := Nat.pow_lt_pow_right (by decide) (by omega)
    have positive : 2 ^ (k + 1) ≠ 0 := Nat.ne_of_gt (Nat.two_pow_pos (k + 1))
    rw [coarse, ← Nat.pow_succ, Nat.mod_eq_of_lt word]
    simp only [if_neg positive, threshold.exact _ word]
    rcases Nat.eq_or_lt_of_le start with rfl | more
    · rw [if_pos above]
    · have still : 2 ^ (k + 1) ≤ T :=
        Nat.le_trans (Nat.pow_le_pow_right (by decide) more) below
      rw [if_neg (Nat.not_lt.mpr still)]
      exact ih more (by omega)

theorem or_bit {x i : Nat} (free : 2 ^ (i + 1) ∣ x) : x ||| 2 ^ i = x + 2 ^ i := by
  obtain ⟨q, rfl⟩ := free
  rw [Nat.two_pow_add_eq_or_of_lt (Nat.pow_lt_pow_right (by decide) (Nat.lt_succ_self i))]

theorem clear_bit {x i : Nat} (free : 2 ^ (i + 1) ∣ x) (word : x < 2 ^ 32) (low : i < 32) :
    (x ||| 2 ^ i) &&& ((2 ^ 32 - 1) ^^^ 2 ^ i) = x := by
  have off : x.testBit i = false := by
    obtain ⟨q, rfl⟩ := free
    rw [Nat.testBit_two_pow_mul]
    simp
  apply Nat.eq_of_testBit_eq
  intro b
  simp only [Nat.testBit_and, Nat.testBit_or, Nat.testBit_xor, Nat.testBit_two_pow_sub_one,
    Nat.testBit_two_pow]
  by_cases here : i = b
  · subst here
    simp [off, low]
  · by_cases inside : b < 32
    · simp [here, inside]
    · have out : x.testBit b = false :=
        Nat.testBit_lt_two_pow (Nat.lt_of_lt_of_le word (Nat.pow_le_pow_right (by decide) (by omega)))
      simp [here, out]

theorem precise_brackets (threshold : Threshold timer T) {lp j x : Nat} (turns : lp ≤ j)
    (small : j < 31) (grid : 2 ^ j ∣ x) (below : x ≤ T) (above : T < x + 2 ^ j) :
    precise timer lp (2 ^ j) x ≤ T ∧ T < precise timer lp (2 ^ j) x + 2 ^ (j - lp) ∧
      2 ^ (j - lp) ∣ precise timer lp (2 ^ j) x := by
  induction lp generalizing j x with
  | zero => exact ⟨below, above, grid⟩
  | succ lp ih =>
    obtain ⟨i, rfl⟩ : ∃ i, j = i + 1 := ⟨j - 1, by omega⟩
    have half : 2 ^ (i + 1) / 2 = 2 ^ i := by
      rw [Nat.pow_succ, Nat.mul_div_cancel _ (by decide)]
    have positive : 2 ^ i ≠ 0 := Nat.ne_of_gt (Nat.two_pow_pos i)
    have double : 2 ^ (i + 1) = 2 ^ i + 2 ^ i := by omega
    have word : x + 2 ^ i < 2 ^ 32 := by
      have bit : 2 ^ i < 2 ^ 31 := Nat.pow_lt_pow_right (by decide) (by omega)
      have := threshold.high
      omega
    have finer : 2 ^ i ∣ x := Nat.dvd_trans (Nat.pow_dvd_pow 2 (Nat.le_succ i)) grid
    have left : i + 1 - (lp + 1) = i - lp := by omega
    rw [precise, half, left]
    simp only [if_neg positive, or_bit grid, threshold.exact _ word]
    by_cases late : T < x + 2 ^ i
    · have back : (x + 2 ^ i) &&& ((2 ^ 32 - 1) ^^^ 2 ^ i) = x := by
        rw [← or_bit grid]
        exact clear_bit grid (by omega) (by omega)
      rw [if_pos late, back]
      exact ih (by omega) (by omega) finer below late
    · rw [if_neg late]
      exact ih (by omega) (by omega) (Nat.dvd_add finer (Nat.dvd_refl _)) (by omega) (by omega)

theorem search_brackets (threshold : Threshold timer T) : ∃ L, search timer = some L ∧
    L ≤ T ∧ T < L + 2 ^ (Nat.log2 T - 8) ∧ 2 ^ (Nat.log2 T - 8) ∣ L := by
  have nonzero : T ≠ 0 := by
    have := threshold.low
    omega
  have below : 2 ^ Nat.log2 T ≤ T := Nat.log2_self_le nonzero
  have above : T < 2 ^ (Nat.log2 T + 1) := Nat.lt_log2_self
  have least : 13 ≤ Nat.log2 T := (Nat.le_log2 nonzero).mpr threshold.low
  have most : Nat.log2 T < 31 := (Nat.log2_lt nonzero).mpr threshold.high
  have doubled := coarse_eq threshold below above (k := 12) (by omega)
    (show Nat.log2 T < 12 + 20 by omega)
  have half : 2 ^ (Nat.log2 T + 1) / 2 = 2 ^ Nat.log2 T := by
    rw [Nat.pow_succ, Nat.mul_div_cancel _ (by decide)]
  refine ⟨precise timer 8 (2 ^ Nat.log2 T) (2 ^ Nat.log2 T), ?_, ?_⟩
  · have first : (1 <<< 12 : Nat) = 2 ^ 12 := by decide
    rw [search, first, doubled, Option.map_some, half]
  · refine precise_brackets threshold (by omega) most (Nat.dvd_refl _) below ?_
    rw [← Nat.two_mul, Nat.mul_comm, ← Nat.pow_succ]
    exact above

end

/-- The search ends close below the threshold, and the product with `777` fits a word. -/
def Calibrated (timer : Nat → Nat) (T : Nat) : Prop :=
  ∃ L, search timer = some L ∧ L ≤ T ∧ T < L + 2 ^ (Nat.log2 T - 8) ∧
    L * (pitSecond / 1535) < 2 ^ 32 ∧
    calibrateDelayLoop timer = some (L * (pitSecond / 1535) / 1000)

theorem product_fits_iff {T L : Nat} (low : 2 ^ 13 ≤ T) (below : L ≤ T)
    (above : T < L + 2 ^ (Nat.log2 T - 8)) (grid : 2 ^ (Nat.log2 T - 8) ∣ L) :
    L * 777 < 2 ^ 32 ↔ T < 338 * 2 ^ 14 := by
  have nonzero : T ≠ 0 := by omega
  have least : 2 ^ Nat.log2 T ≤ T := Nat.log2_self_le nonzero
  have most : T < 2 ^ (Nat.log2 T + 1) := Nat.lt_log2_self
  rcases Nat.lt_trichotomy (Nat.log2 T) 22 with small | same | large
  · have bound : T < 2 ^ 22 := (Nat.log2_lt nonzero).mp small
    exact iff_of_true (by omega) (by omega)
  · rw [same] at above grid
    obtain ⟨q, rfl⟩ := grid
    omega
  · have bound : 2 ^ 23 ≤ T := (Nat.le_log2 nonzero).mp large
    have part : 2 ^ (Nat.log2 T - 8) * 2 ^ 8 = 2 ^ Nat.log2 T := by
      rw [← Nat.pow_add, Nat.sub_add_cancel (by omega)]
    exact iff_of_false (by omega) (by omega)

theorem calibrate_iff (timer : Nat → Nat) (T : Nat) (threshold : Threshold timer T) :
    Calibrated timer T ↔ T < 338 * 2 ^ 14 := by
  obtain ⟨L, found, below, above, grid⟩ := search_brackets threshold
  have fits := product_fits_iff threshold.low below above grid
  have factor : pitSecond / 1535 = 777 := by decide
  rw [← fits]
  constructor
  · rintro ⟨L', again, -, -, product, -⟩
    cases found.symm.trans again
    rwa [factor] at product
  · intro product
    refine ⟨L, found, below, above, by rwa [factor], ?_⟩
    have last : calibrateDelayLoop timer = some (normalise L) := by
      rw [calibrateDelayLoop, found, Option.map_some]
    rw [last, normalise, factor]
    show some (L * 777 % 2 ^ 32 / 1000) = _
    rw [Nat.mod_eq_of_lt product]

def timerOf (T l : Nat) : Nat := if T < l then 0 else 65535

theorem timerOf_threshold {T : Nat} (low : 2 ^ 13 ≤ T) (high : T < 2 ^ 31) :
    Threshold (timerOf T) T where
  low := low
  high := high
  exact := by
    intro l _
    unfold timerOf
    split
    · exact iff_of_true (by decide) ‹_›
    · exact iff_of_false (by decide) ‹_›

theorem calibrate_iff_million : Calibrated (timerOf 1000000) 1000000 :=
  (calibrate_iff _ 1000000 (timerOf_threshold (by decide) (by decide))).mpr (by decide)

/- Six million loops: the product with 777 does not fit a word. -/
theorem calibrate_overflows : Threshold (timerOf 6000000) 6000000 ∧
    search (timerOf 6000000) = some 5996544 ∧
    calibrateDelayLoop (timerOf 6000000) = some 364347 ∧ 5996544 * 777 / 1000 = 4659314 ∧
    ¬ Calibrated (timerOf 6000000) 6000000 := by
  have found : search (timerOf 6000000) = some 5996544 := by decide
  refine ⟨timerOf_threshold (by decide) (by decide), found, by decide, by decide, ?_⟩
  rintro ⟨L, again, -, -, product, -⟩
  cases found.symm.trans again
  exact absurd product (by decide)

end ScaraOS.Timer
