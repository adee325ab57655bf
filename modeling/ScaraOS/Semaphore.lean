import Mathlib.Data.Finset.Card
import ScaraOS.Sched.Soundness

/-! Counting semaphores, `kernel/semaphore.c`, over the scheduler's wait queues.
A label names the task that runs next, any task of `runq`: nothing is assumed of
the order in which woken tasks and newcomers get the processor. -/

namespace ScaraOS.Semaphore

open Function
open Sched (TaskState Queue Cell Lists)

/-- Where a task is in `sem_P`: asleep on `waiters`, or back on `runq` by
`wake_one` and not yet at the test of its `while` loop. -/
inductive Phase where
  | outside | asleep | woken
  deriving DecidableEq, Repr

/-- `val` and the tasks are the kernel's; the rest is history: completed calls,
the tasks that are between a `sem_P` and a `sem_V` (once for each `sem_P`), and
whether every `sem_V` so far was made by such a task. -/
structure State (T W : Type) where
  sched : Sched.State T W
  val : Int
  phase : T → Phase
  pDone : Nat
  vDone : Nat
  holders : List T
  paired : Bool

variable {T W : Type} [DecidableEq T] [DecidableEq W]

def intMax : Int := 2147483647

def init (idle : T) (n : Int) : State T W where
  sched := Sched.schedInit idle
  val := n
  phase := fun _ => .outside
  pDone := 0
  vDone := 0
  holders := []
  paired := true

def dispatch (s : State T W) (t : T) : State T W := { s with sched := { s.sched with current := t } }

/-- One test of the loop in `sem_P` by the current task and what follows it. -/
def semP (s : State T W) (w : W) : State T W :=
  let t := s.sched.current
  if s.val ≤ 0 then
    { s with
      sched := Sched.sleepEnqueue s.sched w
      phase := update s.phase t .asleep }
  else
    { s with
      val := s.val - 1
      phase := update s.phase t .outside
      pDone := s.pDone + 1
      holders := t :: s.holders }

/-- `sem->val++` on an `int`: the increment of the processor goes from `INT_MAX` to `INT_MIN`. -/
def increment (v : Int) : Int := if v = intMax then -intMax - 1 else v + 1

def semV (s : State T W) (w : W) : Option (State T W) :=
  let t := s.sched.current
  let s := { s with
    val := increment s.val
    vDone := s.vDone + 1
    paired := s.paired && decide (t ∈ s.holders)
    holders := s.holders.erase t }
  if 0 < s.val then
    (Sched.wakeOne s.sched w).map fun sched =>
      { s with
        sched := sched
        phase := fun x =>
          if s.sched.state x = .sleeping ∧ sched.state x = .ready then .woken else s.phase x }
  else some s

inductive Op (T : Type) where
  | newTask (t : T)
  | semP (t : T)
  | semV (t : T)

def Runnable (s : State T W) (t : T) : Prop :=
  t ∈ s.sched.tasks ∧ t ≠ s.sched.idle ∧ (s.sched.state t = .running ∨ s.sched.state t = .ready)

instance (s : State T W) (t : T) : Decidable (Runnable s t) := by
  unfold Runnable; infer_instance

/-- A task is in `sem_P` or it is not: a woken one runs on in the loop and makes no
new call before it left. -/
def step (w : W) (s : State T W) : Op T → Option (State T W)
  | .newTask t =>
    if t ∈ s.sched.tasks then none
    else some { s with
      sched := Sched.taskToRunq { s.sched with tasks := t :: s.sched.tasks } t
      phase := update s.phase t .outside }
  | .semP t => if Runnable s t then some (semP (dispatch s t) w) else none
  | .semV t => if Runnable s t ∧ s.phase t = .outside then semV (dispatch s t) w else none

def pendingWakes (s : State T W) (L : Lists T W) : Finset T :=
  (L .runq).toFinset.filter fun t => s.phase t = .woken

structure Inv (w : W) (n : Int) (s : State T W) (L : Lists T W) : Prop where
  placed : Sched.Placed s.sched L
  nonneg : 0 ≤ s.val
  fits : s.val ≤ intMax
  balance : s.val = n + s.vDone - s.pDone
  asleep : ∀ t, s.phase t = .asleep ↔ t ∈ L (.waitq w)
  woken : ∀ t, s.phase t = .woken → t ∈ L .runq
  wakes : L (.waitq w) ≠ [] → s.val ≤ (pendingWakes s L).card
  paired : s.paired = true → (s.holders.length : Int) = s.pDone - s.vDone

omit [DecidableEq W] in
theorem inv_init (w : W) (idle : T) (n : Int) (nonneg : 0 ≤ n) (fits : n ≤ intMax) :
    Inv w n (init idle n : State T W) (fun _ => []) := by
  have start : Sched.Placed (init idle n : State T W).sched (fun _ => []) :=
    (Sched.inv_schedInit idle).toPlaced
  exact ⟨start, nonneg, fits, by simp [init], by simp [init], by simp [init], by simp, by simp [init]⟩

variable {w : W} {n : Int} {s r : State T W} {L : Lists T W} {t : T}

omit [DecidableEq W] in
theorem runnable_member (inv : Inv w n s L) (runs : Runnable s t) : t ∈ L .runq := by
  obtain ⟨q, hq⟩ := inv.placed.listed t runs.1 runs.2.1
  exact Sched.home_running runs.2.2 (inv.placed.member q t hq).2.2 ▸ hq

-- Who is current is not part of the placement.
omit [DecidableEq T] [DecidableEq W] in
theorem placed_dispatch (placed : Sched.Placed s.sched L) (t : T) :
    Sched.Placed (dispatch s t).sched L :=
  ⟨placed.rep, placed.distinct, placed.idleIn, placed.idleAwake, placed.member, placed.listed⟩

omit [DecidableEq W] in
theorem mem_pendingWakes (s : State T W) (L : Lists T W) (t : T) :
    t ∈ pendingWakes s L ↔ t ∈ L .runq ∧ s.phase t = .woken := by
  simp [pendingWakes]

theorem inv_newTask {t : State T W} (inv : Inv w n s L) {u : T}
    (ran : step w s (.newTask u) = some t) : ∃ M, Inv w n t M := by
  simp only [step] at ran
  split at ran
  · cases ran
  · rename_i fresh
    cases ran
    have absent : ∀ q, u ∉ L q := fun q hq => fresh (inv.placed.member q u hq).1
    have notAsleep : s.phase u ≠ .asleep := fun h => absent _ ((inv.asleep u).mp h)
    have notWoken : s.phase u ≠ .woken := fun h => absent _ (inv.woken u h)
    refine ⟨Sched.append L .runq u, Sched.placed_newTask inv.placed fresh s.sched.inSched,
      inv.nonneg, inv.fits, inv.balance, ?_, ?_, ?_, inv.paired⟩
    · intro x
      by_cases same : x = u
      · subst same
        simpa [Sched.append] using absent (.waitq w)
      · simpa [Sched.append, same] using inv.asleep x
    · intro x hx
      by_cases same : x = u
      · simp [same] at hx
      · exact (Sched.mem_append _ _ _ _ _).mpr (.inl (inv.woken x (by simpa [same] using hx)))
    · intro waiting
      have before := inv.wakes (by simpa [Sched.append] using waiting)
      refine before.trans (Int.ofNat_le.mpr (Finset.card_le_card ?_))
      intro x hx
      rw [mem_pendingWakes] at hx ⊢
      have other : x ≠ u := fun eq => notWoken (eq ▸ hx.2)
      exact ⟨(Sched.mem_append _ _ _ _ _).mpr (.inl hx.1), by simpa [other] using hx.2⟩

theorem inv_semP_sleep (inv : Inv w n s L) (runs : t ∈ L .runq) (low : s.val ≤ 0) :
    Inv w n (semP (dispatch s t) w) (Sched.append (Sched.drop L .runq t) (.waitq w) t) := by
  have moved := Sched.placed_sleepEnqueue (placed_dispatch inv.placed t) w runs
  have body : semP (dispatch s t) w = { dispatch s t with
      sched := Sched.sleepEnqueue (dispatch s t).sched w
      phase := update s.phase t .asleep } := by
    simp [semP, dispatch, low]
  rw [body]
  refine ⟨moved, inv.nonneg, inv.fits, inv.balance, ?_, ?_, ?_, inv.paired⟩
  · intro x
    rw [Sched.mem_append, Sched.mem_drop inv.placed.rep runs]
    by_cases same : x = t
    · simp [same]
    · simpa [same] using inv.asleep x
  · intro x hx
    by_cases same : x = t
    · simp [same] at hx
    · rw [Sched.mem_append, Sched.mem_drop inv.placed.rep runs]
      exact .inl ⟨inv.woken x (by simpa [same] using hx), same⟩
  · intro _
    exact low.trans (Int.natCast_nonneg _)

theorem inv_semP_take (inv : Inv w n s L) (runs : t ∈ L .runq) (high : 0 < s.val) :
    Inv w n (semP (dispatch s t) w) L := by
  have body : semP (dispatch s t) w = { dispatch s t with
      val := s.val - 1
      phase := update s.phase t .outside
      pDone := s.pDone + 1
      holders := t :: s.holders } := by
    simp [semP, dispatch, Int.not_le.mpr high]
  rw [body]
  refine ⟨placed_dispatch inv.placed t, ?_, ?_, ?_, ?_, ?_, ?_, ?_⟩
  · show 0 ≤ s.val - 1
    omega
  · have before := inv.fits
    show s.val - 1 ≤ intMax
    omega
  · have before := inv.balance
    show s.val - 1 = n + s.vDone - ((s.pDone + 1 : Nat) : Int)
    push_cast
    omega
  · intro x
    by_cases same : x = t
    · subst same
      have awake : x ∉ L (.waitq w) := fun hw => by
        cases Sched.represents_place inv.placed.rep runs hw
      simpa using awake
    · simpa [same] using inv.asleep x
  · intro x hx
    by_cases same : x = t
    · simp [same] at hx
    · exact inv.woken x (by simpa [same] using hx)
  · intro waiting
    have before := inv.wakes waiting
    have fewer : (pendingWakes s L).card ≤ (pendingWakes { dispatch s t with
        val := s.val - 1
        phase := update s.phase t .outside
        pDone := s.pDone + 1
        holders := t :: s.holders } L).card + 1 := by
      refine le_trans (Finset.card_le_card ?_) (Finset.card_insert_le t _)
      intro x hx
      rw [Finset.mem_insert, mem_pendingWakes]
      rw [mem_pendingWakes] at hx
      by_cases same : x = t
      · exact .inl same
      · exact .inr ⟨hx.1, by simpa [same] using hx.2⟩
    show s.val - 1 ≤ _
    omega
  · intro paired
    have before := inv.paired paired
    show ((s.holders.length + 1 : Nat) : Int) = ((s.pDone + 1 : Nat) : Int) - s.vDone
    push_cast
    omega

omit [DecidableEq W] in
theorem holders_semV (inv : Inv w n s L) (paired : (s.paired && decide (t ∈ s.holders)) = true) :
    ((s.holders.erase t).length : Int) = s.pDone - ((s.vDone + 1 : Nat) : Int) := by
  simp only [Bool.and_eq_true, decide_eq_true_eq] at paired
  have before := inv.paired paired.1
  have some : 0 < s.holders.length := List.length_pos_of_mem paired.2
  rw [List.length_erase_of_mem paired.2]
  push_cast
  omega

def counted (s : State T W) (t : T) : State T W :=
  { dispatch s t with
    val := s.val + 1
    vDone := s.vDone + 1
    paired := s.paired && decide (t ∈ s.holders)
    holders := s.holders.erase t }

theorem semV_cases (inv : Inv w n s L) (below : s.val < intMax)
    (ran : semV (dispatch s t) w = some r) :
    (L (.waitq w) = [] ∧ r = counted s t) ∨
    ∃ u l, L (.waitq w) = u :: l ∧ r = { counted s t with
      sched := Sched.wakeTask (dispatch s t).sched u
      phase := update s.phase u .woken } := by
  have placed := placed_dispatch inv.placed t
  have more : increment (dispatch s t).val = s.val + 1 := if_neg (ne_of_lt below)
  have high : 0 < s.val + 1 := Int.lt_add_one_of_le inv.nonneg
  simp only [semV, more, if_pos high] at ran
  rcases Sched.wakeOne_spec placed w with ⟨none, same⟩ | ⟨u, l, eq, woke⟩
  · simp only [same, Option.map_some, Option.some.injEq] at ran
    refine .inl ⟨none, ran.symm.trans ?_⟩
    have phases : ∀ x, (if (dispatch s t).sched.state x = .sleeping ∧
        (dispatch s t).sched.state x = .ready then Phase.woken else s.phase x) = s.phase x := by
      intro x
      rw [if_neg]
      rintro ⟨asleep, ready⟩
      cases asleep.symm.trans ready
    exact congrArg (fun f => { counted s t with phase := f }) (funext phases)
  · simp only [woke, Option.map_some, Option.some.injEq] at ran
    refine .inr ⟨u, l, eq, ran.symm.trans ?_⟩
    have asleep := Sched.waitq_asleep placed (w := w) (t := u) (by simp [eq])
    have phases : ∀ x, (if (dispatch s t).sched.state x = .sleeping ∧
        (Sched.wakeTask (dispatch s t).sched u).state x = .ready then Phase.woken else s.phase x)
        = update s.phase u .woken x := by
      intro x
      by_cases same : x = u
      · subst same
        simp [asleep, Sched.wakeTask, Sched.taskToRunq, Sched.setState]
      · simp only [Sched.wakeTask, Sched.taskToRunq, Sched.setState, update_of_ne same]
        rw [if_neg]
        rintro ⟨asleep, ready⟩
        cases asleep.symm.trans ready
    exact congrArg (fun f => { counted s t with
      sched := Sched.wakeTask (dispatch s t).sched u, phase := f }) (funext phases)

theorem inv_semV (inv : Inv w n s L) (below : s.val < intMax) (ran : semV (dispatch s t) w = some r) :
    ∃ M, Inv w n r M := by
  have placed := placed_dispatch inv.placed t
  have nonneg : 0 ≤ s.val + 1 := by have := inv.nonneg; omega
  have balance : s.val + 1 = n + ((s.vDone + 1 : Nat) : Int) - s.pDone := by
    have := inv.balance
    push_cast
    omega
  rcases semV_cases inv below ran with ⟨none, rfl⟩ | ⟨u, l, eq, rfl⟩
  · exact ⟨L, placed, nonneg, below, balance, inv.asleep, inv.woken, fun h => absurd none h,
      fun paired => holders_semV inv paired⟩
  · have member : u ∈ L (.waitq w) := by simp [eq]
    have offRunq : u ∉ L .runq := fun hr => by
      cases Sched.represents_place placed.rep member hr
    refine ⟨_, Sched.placed_wakeTask placed member, nonneg, below, balance, ?_, ?_, ?_,
      fun paired => holders_semV inv paired⟩
    · intro x
      rw [Sched.mem_append, Sched.mem_drop placed.rep member]
      by_cases same : x = u
      · simp [same]
      · simpa [same] using inv.asleep x
    · intro x hx
      rw [Sched.mem_append, Sched.mem_drop placed.rep member]
      by_cases same : x = u
      · exact .inr ⟨rfl, same⟩
      · exact .inl ⟨inv.woken x (by simpa [same] using hx), same⟩
    · -- the new unit of `val` comes with the task it wakes
      intro _
      have before := inv.wakes (by simp [eq])
      have more : (insert u (pendingWakes s L)).card = (pendingWakes s L).card + 1 :=
        Finset.card_insert_of_notMem (fun h => offRunq ((mem_pendingWakes s L u).mp h).1)
      have grown : insert u (pendingWakes s L) ⊆ pendingWakes { counted s t with
          sched := Sched.wakeTask (dispatch s t).sched u
          phase := update s.phase u .woken }
          (Sched.append (Sched.drop L (.waitq w) u) .runq u) := by
        intro x hx
        rw [mem_pendingWakes, Sched.mem_append, Sched.mem_drop placed.rep member]
        rcases Finset.mem_insert.mp hx with rfl | old
        · simp
        · rw [mem_pendingWakes] at old
          have other : x ≠ u := fun e => offRunq (e ▸ old.1)
          exact ⟨.inl ⟨old.1, other⟩, by simpa [other] using old.2⟩
      have size := Finset.card_le_card grown
      show s.val + 1 ≤ _
      omega

/-- No `sem_V` finds `val` at `INT_MAX`. -/
def Below (s : State T W) : Op T → Prop
  | .semV _ => s.val < intMax
  | _ => True

instance (s : State T W) : (op : Op T) → Decidable (Below s op)
  | .semV _ => inferInstanceAs (Decidable (s.val < intMax))
  | .newTask _ | .semP _ => isTrue trivial

theorem step_inv (inv : Inv w n s L) {op : Op T} (below : Below s op) (ran : step w s op = some r) :
    ∃ M, Inv w n r M := by
  cases op with
  | newTask u => exact inv_newTask inv ran
  | semP t =>
    simp only [step] at ran
    split at ran
    · rename_i runs
      cases ran
      have onRunq := runnable_member inv runs
      by_cases low : s.val ≤ 0
      · exact ⟨_, inv_semP_sleep inv onRunq low⟩
      · exact ⟨L, inv_semP_take inv onRunq (Int.not_le.mp low)⟩
    · cases ran
  | semV t =>
    simp only [step] at ran
    split at ran
    · exact inv_semV inv below ran
    · cases ran

/-- `val` is not negative and counts what is left, a mutex has one holder, and no wake-up is
lost: while tasks sleep, every unit of `val` is matched by a task that `wake_one` put on `runq`
and that has yet to test. -/
def Sound (w : W) (n : Int) (s : State T W) : Prop :=
  (0 ≤ s.val ∧ (s.pDone : Int) ≤ n + s.vDone) ∧
  (n = 1 → s.paired = true → s.holders.length ≤ 1) ∧
  ∃ L, Sched.Represents s.sched.links L ∧ (0 < s.val → L (.waitq w) ≠ [] →
    ∃ ts : Finset T, s.val ≤ ts.card ∧ ∀ t ∈ ts, t ∈ L .runq ∧ s.phase t = .woken)

omit [DecidableEq W] in
theorem sound_of_inv (inv : Inv w n s L) : Sound w n s := by
  have nonneg := inv.nonneg
  have balance := inv.balance
  refine ⟨⟨nonneg, by omega⟩, ?_, L, inv.placed.rep, ?_⟩
  · intro one paired
    have count := inv.paired paired
    omega
  · intro _ waiting
    exact ⟨pendingWakes s L, inv.wakes waiting, fun t ht => (mem_pendingWakes s L t).mp ht⟩

/- A `sem_V` at `INT_MAX` wakes nobody and leaves `INT_MIN`. -/
theorem semV_overflow (high : s.val = intMax) (ran : step w s (.semV t) = some r) : r.val < 0 := by
  simp only [step] at ran
  split at ran
  · have wrapped : increment (dispatch s t).val = -intMax - 1 := if_pos high
    have low : ¬ 0 < -intMax - 1 := by decide
    simp only [semV, wrapped, if_neg low, Option.some.injEq] at ran
    rw [← ran]
    exact show -intMax - 1 < 0 by decide
  · cases ran

theorem below_of_sound {ops : List (Op T)} (inv : ∃ L, Inv w n s L)
    (ran : Run.exec (step w) s ops = some r)
    (sound : ∀ k u, Run.exec (step w) s (ops.take k) = some u → 0 ≤ u.val) :
    Run.Along (step w) Below s ops := by
  induction ops generalizing s with
  | nil => trivial
  | cons op ops ih =>
    obtain ⟨L, inv⟩ := inv
    obtain ⟨m, first, later⟩ := (Run.exec_cons _ _ _ _ _).mp ran
    have below : Below s op := by
      cases op with
      | semV t =>
        by_contra high
        have full : s.val = intMax := Int.le_antisymm inv.fits (Int.not_lt.mp high)
        have nonneg := sound 1 m ((Run.exec_cons _ _ _ _ _).mpr ⟨m, first, rfl⟩)
        exact absurd (semV_overflow full first) (Int.not_lt.mpr nonneg)
      | _ => trivial
    refine ⟨below, fun m' again => ?_⟩
    cases first.symm.trans again
    exact ih (step_inv inv below first) later fun k u reached =>
      sound (k + 1) u ((Run.exec_cons _ _ _ _ _).mpr ⟨m, first, reached⟩)

/-- An interleaving goes right in all its states if and only if `val` never overflows. -/
theorem semaphore_sound_iff (w : W) (idle : T) (n : Int) (start : 0 ≤ n) (fits : n ≤ intMax)
    (ops : List (Op T)) (r : State T W) (ran : Run.exec (step w) (init idle n) ops = some r) :
    (∀ k s, Run.exec (step w) (init idle n) (ops.take k) = some s → Sound w n s) ↔
      Run.Along (step w) Below (init idle n : State T W) ops := by
  have begun : ∃ L, Inv w n (init idle n : State T W) L := ⟨_, inv_init w idle n start fits⟩
  constructor
  · exact fun sound => below_of_sound begun ran fun k u reached => (sound k u reached).1.1
  · intro below k s reached
    rw [← List.take_append_drop k ops] at below
    obtain ⟨L, inv⟩ : ∃ L, Inv w n s L :=
      Run.along_invariant (fun s => ∃ L, Inv w n s L)
        (fun _ _ _ below ⟨_, inv⟩ stepped => step_inv inv below stepped)
        (Run.along_append below reached).1 begun reached
    exact sound_of_inv inv

/- A mutex: task 1 takes it, tasks 2 and 3 go to sleep, 1 releases it, and the
woken 2 has not tested `val` yet while 3 still sleeps. -/
theorem semaphore_sound_iff_mutex : ∃ s : State Nat Nat,
    Run.exec (step 9) (init 0 1) [.newTask 1, .newTask 2, .newTask 3, .semP 1, .semP 2, .semP 3,
      .semV 1] = some s ∧ s.val = 1 ∧ s.phase 2 = .woken ∧ s.phase 3 = .asleep ∧
    Sound 9 1 s := by
  refine ⟨_, rfl, rfl, rfl, rfl, ?_⟩
  refine (semaphore_sound_iff (W := Nat) 9 0 1 (by decide) (by decide) [.newTask 1, .newTask 2,
    .newTask 3, .semP 1, .semP 2, .semP 3, .semV 1] _ rfl).mpr ?_ 7 _ rfl
  decide

theorem semV_makes_negative : ∃ s : State Nat Nat,
    Run.exec (step 9) (init 0 intMax) [.newTask 1, .semV 1] = some s ∧ s.val = -2147483648 ∧
    ¬ Sound 9 intMax s :=
  ⟨_, rfl, rfl, fun sound => absurd sound.1.1 (by decide)⟩

end ScaraOS.Semaphore
