import Mathlib.Data.Nat.Bitwise
import ScaraOS.Irq

/-! Which lines can be delivered after any calls of `irq_on` and `irq_off`. A call for a line of
the slave sets the bit of the cascade as well, in the same direction. -/
namespace ScaraOS.Irq

open Function (update update_of_ne update_self)

variable {H P : Type}

def bits (n : Nat) : List (PicId × Nat) := pinOf n :: above (pinOf n).1

def call (about : Fin 16 → Bool) (last : Option Bool) : Cmd H P → Option Bool
  | .set _ _ _ => last
  | .on irq => if about irq then some true else last
  | .off irq => if about irq then some false else last

/-- Whether the last call for one of these lines was `irq_on`, if there was one. -/
def lastCall (about : Fin 16 → Bool) (cs : List (Cmd H P)) : Option Bool :=
  cs.foldl (call about) none

/-- No call is for the line of the cascade. -/
def Cmd.direct : Cmd H P → Bool
  | .set _ _ _ => true
  | .on irq | .off irq => irq.val ≠ 2

theorem fold_other (f : Nat → Nat → Nat) (imr : PicId → Nat) (bs : List (PicId × Nat)) (q : PicId)
    (away : q ∉ bs.map Prod.fst) :
    bs.foldl (fun imr b => update imr b.1 (f (imr b.1) b.2)) imr q = imr q := by
  induction bs generalizing imr with
  | nil => rfl
  | cons b bs ih =>
    rw [List.map_cons, List.mem_cons, not_or] at away
    rw [List.foldl_cons, ih _ away.2, update_of_ne away.1]

variable {i : Nat} {m : Machine H P} {cs : List (Cmd H P)}

theorem fold_testBit (f : Nat → Nat → Nat) (g : Bool)
    (sets : ∀ x bit i, i < 8 → (f x bit).testBit i = if i = bit then g else x.testBit i)
    (imr : PicId → Nat) (bs : List (PicId × Nat)) (q : PicId) (low : i < 8) :
    (bs.foldl (fun imr b => update imr b.1 (f (imr b.1) b.2)) imr q).testBit i =
      if (q, i) ∈ bs then g else (imr q).testBit i := by
  induction bs generalizing imr with
  | nil => simp
  | cons b bs ih =>
    obtain ⟨p, bit⟩ := b
    rw [List.foldl_cons, ih]
    by_cases later : (q, i) ∈ bs
    · rw [if_pos later, if_pos (List.mem_cons_of_mem _ later)]
    · rw [if_neg later]
      rcases eq_or_ne q p with rfl | other
      · rw [update_self, sets _ _ _ low]
        simp [later]
      · simp [other, later]

theorem unmask_testBit (x bit i : Nat) (low : i < 8) :
    (x &&& (0xff ^^^ 1 <<< bit)).testBit i = if i = bit then false else x.testBit i := by
  have ones : (0xff : Nat).testBit i = true := by
    have := Nat.testBit_two_pow_sub_one 8 i
    simpa [low] using this
  rw [Nat.testBit_and, Nat.testBit_xor, ones, Nat.shiftLeft_eq, Nat.one_mul, Nat.testBit_two_pow]
  rcases eq_or_ne i bit with rfl | other
  · simp
  · simp [other, other.symm]

theorem mask_testBit (x bit i : Nat) (low : i < 8) :
    ((x ||| 1 <<< bit) % 2 ^ 8).testBit i = if i = bit then true else x.testBit i := by
  rw [Nat.testBit_mod_two_pow, Nat.testBit_or, Nat.shiftLeft_eq, Nat.one_mul, Nat.testBit_two_pow]
  rcases eq_or_ne i bit with rfl | other
  · simp [low]
  · simp [low, other, other.symm]

theorem written_imr {chips : Chips} (programmed : Programmed chips) (imr : PicId → Nat)
    (qs : List PicId) (q : PicId) :
    (qs.foldl (fun chips q => outb chips (pics q).portImr (imr q)) chips q).imr =
      if q ∈ qs then imr q else (chips q).imr := by
  induction qs generalizing chips with
  | nil => simp
  | cons p qs ih =>
    have still : Programmed (outb chips (pics p).portImr (imr p)) :=
      (sameService_imr programmed imr [p]).programmed programmed
    rw [List.foldl_cons, ih still, outb_imr (programmed p).1]
    by_cases later : q ∈ qs
    · simp [later]
    · rcases eq_or_ne q p with rfl | other
      · simp [later]
      · simp [later, other]

def Synced (m : Machine H P) : Prop := ∀ p, (m.chips p).imr = m.imr p

theorem synced_call (programmed : Programmed m.chips) (synced : Synced m) (f : Nat → Nat → Nat)
    (n : Nat) (imr : PicId → Nat)
    (new : imr = (bits n).foldl (fun imr b => update imr b.1 (f (imr b.1) b.2)) m.imr) :
    Synced { m with imr := imr, chips := picSyncImr imr m.chips (pinOf n).1 } := by
  intro q
  have written := written_imr programmed imr ((bits n).map Prod.fst) q
  refine Eq.trans written ?_
  split
  · rfl
  · rename_i away
    rw [synced q, new]
    exact (fold_other f m.imr (bits n) q away).symm

structure Masks (m : Machine H P) (cs : List (Cmd H P)) : Prop where
  programmed : Programmed m.chips
  synced : Synced m
  bit : ∀ q i, i < 8 → (m.imr q).testBit i =
    decide (lastCall (fun irq => (q, i) ∈ bits irq) cs ≠ some true)

theorem masks_boot (irqNull : H) (null : P) (chips : Chips) : Masks (boot irqNull null chips) [] where
  programmed := picInit_programmed chips
  synced := by
    intro p
    cases p <;> rfl
  bit := by
    intro q i low
    have ones := Nat.testBit_two_pow_sub_one 8 i
    simpa [boot, lastCall, low] using ones

theorem lastCall_append (about : Fin 16 → Bool) (cs : List (Cmd H P)) (c : Cmd H P) :
    lastCall about (cs ++ [c]) = call about (lastCall about cs) c := by
  rw [lastCall, List.foldl_append, List.foldl_cons, List.foldl_nil, lastCall]

theorem masks_call (masks : Masks m cs) {f : Nat → Nat → Nat} {g : Bool}
    (sets : ∀ x bit i, i < 8 → (f x bit).testBit i = if i = bit then g else x.testBit i)
    {c : Cmd H P} {irq : Fin 16}
    (calls : ∀ about last, call about last c = if about irq then some !g else last) {q : PicId}
    (low : i < 8) :
    ((bits irq).foldl (fun imr b => update imr b.1 (f (imr b.1) b.2)) m.imr q).testBit i =
      decide (lastCall (fun irq => (q, i) ∈ bits irq) (cs ++ [c]) ≠ some true) := by
  rw [fold_testBit f g sets m.imr (bits irq) q low, lastCall_append, calls, masks.bit q i low]
  by_cases touched : (q, i) ∈ bits irq
  · simp [touched]
  · simp [touched]

theorem masks_cmd (masks : Masks m cs) (c : Cmd H P) : Masks (m.cmd c) (cs ++ [c]) := by
  have programmed := (cmd_service masks.programmed c).programmed masks.programmed
  cases c with
  | set irq h priv =>
    have same : (setIrqHandler m irq h priv).chips = m.chips ∧
        (setIrqHandler m irq h priv).imr = m.imr := by
      unfold setIrqHandler
      split <;> exact ⟨rfl, rfl⟩
    refine ⟨programmed, ?_, ?_⟩
    · intro p
      rw [Machine.cmd, same.1, same.2]
      exact masks.synced p
    · intro q i low
      rw [lastCall_append, Machine.cmd, same.2]
      exact masks.bit q i low
  | on irq =>
    refine ⟨programmed, synced_call masks.programmed masks.synced
      (fun x bit => x &&& (0xff ^^^ 1 <<< bit)) irq _ rfl, ?_⟩
    intro q i low
    exact masks_call masks unmask_testBit (fun _ _ => rfl) low
  | off irq =>
    refine ⟨programmed, synced_call masks.programmed masks.synced
      (fun x bit => (x ||| 1 <<< bit) % 2 ^ 8) irq _ rfl, ?_⟩
    intro q i low
    exact masks_call masks mask_testBit (fun _ _ => rfl) low

theorem masks_run {before : List (Cmd H P)} (masks : Masks m before) (cs : List (Cmd H P)) :
    Masks (cs.foldl Machine.cmd m) (before ++ cs) := by
  induction cs generalizing m before with
  | nil =>
    rw [List.append_nil]
    exact masks
  | cons c cs ih =>
    rw [List.append_cons]
    exact ih (masks_cmd masks c)

/-- Line by line, as the last call for the line has it, and the masks that were written. -/
structure AsCalled (m : Machine H P) (cs : List (Cmd H P)) : Prop where
  delivered : ∀ n : Fin 16, n ≠ 2 →
    (masked m.chips n = false ↔ lastCall (fun irq => irq = n) cs = some true)
  synced : Synced m

theorem lastCall_congr {about about' : Fin 16 → Bool} (direct : ∀ c ∈ cs, c.direct = true)
    (same : ∀ irq, irq ≠ 2 → about irq = about' irq) : lastCall about cs = lastCall about' cs := by
  unfold lastCall
  generalize none = last
  induction cs generalizing last with
  | nil => rfl
  | cons c cs ih =>
    have one : call about last c = call about' last c := by
      cases c with
      | set irq h priv => rfl
      | on irq | off irq =>
        have value : irq.val ≠ 2 := of_decide_eq_true (direct _ List.mem_cons_self)
        have other : irq ≠ 2 := fun same => value (congrArg Fin.val same)
        rw [call, call, same irq other]
    rw [List.foldl_cons, List.foldl_cons, one]
    exact ih (fun c member => direct c (List.mem_cons_of_mem _ member)) _

theorem own_bit (n irq : Fin 16) (first : n ≠ 2) (second : irq ≠ 2) :
    decide (pinOf n ∈ bits irq) = decide (irq = n) := by
  revert n irq
  decide

theorem cascade_bit (irq : Fin 16) (direct : irq ≠ 2) :
    decide ((PicId.master, 2) ∈ bits irq) = decide (8 ≤ irq) := by
  revert irq
  decide

theorem pinOf_chip (n : Fin 16) : (pinOf n).1 = if 8 ≤ n then .slave else .master := by
  revert n
  decide

theorem masked_iff (masks : Masks m cs) (direct : ∀ c ∈ cs, c.direct = true) (n : Fin 16)
    (other : n ≠ 2) :
    masked m.chips n = false ↔ lastCall (fun irq => irq = n) cs = some true ∧
      (8 ≤ n → lastCall (fun irq => 8 ≤ irq) cs = some true) := by
  have own : ((m.chips (pinOf n).1).imr.testBit (pinOf n).2 = false) ↔
      lastCall (fun irq => irq = n) cs = some true := by
    rw [masks.synced, masks.bit _ _ (pinOf_low n)]
    rw [lastCall_congr direct fun irq second => own_bit n irq other second]
    simp
  have cascade : ((m.chips .master).imr.testBit 2 = false) ↔
      lastCall (fun irq => 8 ≤ irq) cs = some true := by
    rw [masks.synced, masks.bit _ _ (by decide)]
    rw [lastCall_congr direct cascade_bit]
    simp
  rw [← own, ← cascade]
  by_cases high : 8 ≤ n
  · have slave : (pinOf n).1 = .slave := (pinOf_chip n).trans (if_pos high)
    simp [masked, slave, above, pics, high]
  · have master : (pinOf n).1 = .master := (pinOf_chip n).trans (if_neg high)
    simp [masked, master, above, pics, high]

/-- The lines are as called unless the last call for a line of the slave was `irq_off` and
there is another that is on. -/
theorem masking_iff (irqNull : H) (null : P) (chips : Chips) (cs : List (Cmd H P))
    (direct : ∀ c ∈ cs, c.direct = true) :
    AsCalled (cs.foldl Machine.cmd (boot irqNull null chips)) cs ↔
      ∀ n : Fin 16, 8 ≤ n → lastCall (fun irq => irq = n) cs = some true →
        lastCall (fun irq => 8 ≤ irq) cs = some true := by
  have masks := masks_run (masks_boot irqNull null chips) cs
  rw [List.nil_append] at masks
  constructor
  · intro asCalled n slave on
    have other : n ≠ 2 := by
      rintro rfl
      exact absurd slave (by decide)
    have free := (asCalled.delivered n other).mpr on
    exact ((masked_iff masks direct n other).mp free).2 slave
  · intro kept
    refine ⟨?_, masks.synced⟩
    intro n other
    rw [masked_iff masks direct n other]
    exact ⟨fun both => both.1, fun on => ⟨on, fun slave => kept n slave on⟩⟩

theorem masking_iff_disk : AsCalled (List.foldl Machine.cmd (boot 0 0 unprogrammed)
    [.on 0, .on 14, .off 14, .on 14, .on 15]) [Cmd.on 0, .on 14, .off 14, .on 14, .on 15] :=
  (masking_iff 0 0 unprogrammed [Cmd.on 0, .on 14, .off 14, .on 14, .on 15] (by decide)).mpr
    (by decide)

/- The clock is switched on, the other line of the slave off. -/
theorem clock_goes_off :
    lastCall (fun irq => irq = 8) [Cmd.on (H := Nat) (P := Nat) 8, .off 9] = some true ∧
    masked (List.foldl Machine.cmd (boot (0 : Nat) (0 : Nat) unprogrammed)
      [.on 8, .off 9]).chips 8 = true ∧
    ¬ AsCalled (List.foldl Machine.cmd (boot (0 : Nat) (0 : Nat) unprogrammed) [.on 8, .off 9])
      [.on 8, .off 9] := by
  have on : lastCall (fun irq => irq = 8) [Cmd.on (H := Nat) (P := Nat) 8, .off 9] = some true := by
    decide
  have off : masked (List.foldl Machine.cmd (boot (0 : Nat) (0 : Nat) unprogrammed)
      [.on 8, .off 9]).chips 8 = true := by
    decide
  refine ⟨on, off, fun asCalled => ?_⟩
  have free := (asCalled.delivered 8 (by decide)).mpr on
  exact absurd (off.symm.trans free) (by decide)

end ScaraOS.Irq
