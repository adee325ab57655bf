import ScaraOS.Sched.Invariant

/-! From the splices to whole runs: every operation takes an operation boundary
to an operation boundary. -/

namespace ScaraOS.Sched

open Function

variable {T W : Type} [DecidableEq T] [DecidableEq W]

structure Pending (s : State T W) (L : Lists T W) : Prop extends Placed s L where
  curIn : s.current ∈ s.tasks
  curNotReady : s.state s.current ≠ .ready
  curHead : s.current ≠ s.idle → s.state s.current = .running → ∃ rest, L .runq = s.current :: rest
  onlyRunning : ∀ t ∈ s.tasks, s.state t = .running → t = s.current

structure Inv (s : State T W) (L : Lists T W) : Prop extends Pending s L where
  curAwake : s.state s.current ≠ .sleeping

omit [DecidableEq T] [DecidableEq W] in
theorem inv_schedInit (idle : T) : Inv (schedInit idle : State T W) (fun _ => []) := by
  have ring : ∀ q : Queue W, Links.Ring (schedInit idle : State T W).links (.head q)
      (cells (fun _ => []) q) := by
    intro q
    simp [Links.Ring, Links.Seg, cells, schedInit]
  refine ⟨⟨⟨⟨ring, ?_⟩, by simp [schedInit], by simp [schedInit], .inl rfl, by simp, ?_⟩,
    by simp [schedInit], by simp [schedInit], ?_, ?_⟩, by simp [schedInit]⟩
  · intro q r ne y hy hz
    simp [cells] at hy hz
    exact ne (Queue.casesOn q (by simp_all) (by simp_all) (by simp_all))
  · intro t ht ne
    exact absurd (by simpa [schedInit] using ht) ne
  · intro ne
    exact absurd rfl ne
  · intro t ht _
    simpa [schedInit] using ht

variable {s t : State T W} {L M : Lists T W} {x : TaskState}

omit [DecidableEq W] in
theorem placed_setState (placed : Placed s L) {t : T}
    (idle : t = s.idle → x = .running ∨ x = .ready) (fits : ∀ q, t ∈ L q → Home x q) :
    Placed (setState s t x) L := by
  refine ⟨placed.rep, placed.distinct, placed.idleIn, ?_, ?_, placed.listed⟩
  · by_cases same : t = s.idle
    · simpa [setState, same] using idle same
    · simpa [setState, update_of_ne (Ne.symm same)] using placed.idleAwake
  · intro q u hu
    have known := placed.member q u hu
    refine ⟨known.1, known.2.1, ?_⟩
    by_cases same : u = t
    · subst same
      simpa [setState] using fits q hu
    · simpa [setState, update_of_ne same] using known.2.2

omit [DecidableEq W] in
theorem home_running {q : Queue W} (was : x = .running ∨ x = .ready) (home : Home x q) :
    q = .runq := by
  rcases was with rfl | rfl <;> cases q <;> simp [Home] at home ⊢

theorem placed_switchTask (placed : Placed s L) {next : T} (chosen : next = s.idle ∨ next ∈ L .runq) :
    Placed (switchTask s next) L := by
  have stepDown : Placed (if s.state s.current = .running then setState s s.current .ready else s) L := by
    split
    · rename_i runs
      refine placed_setState placed (fun _ => .inr rfl) ?_
      intro q hq
      rw [home_running (.inl runs) (placed.member q _ hq).2.2]
      trivial
    · exact placed
  have sameIdle : (if s.state s.current = .running then setState s s.current .ready else s).idle
      = s.idle := by split <;> rfl
  have up := placed_setState stepDown (t := next) (x := .running) (fun _ => .inl rfl) (by
    intro q hq
    rcases chosen with idle | onRunq
    · exact absurd (idle.trans sameIdle.symm) (stepDown.member q next hq).2.1
    · rw [represents_place stepDown.rep hq onRunq]
      trivial)
  exact ⟨up.rep, up.distinct, up.idleIn, up.idleAwake, up.member, up.listed⟩

omit [DecidableEq W] in
theorem switchTask_state (s : State T W) (next t : T) : (switchTask s next).state t =
    if t = next then .running
    else if t = s.current ∧ s.state s.current = .running then .ready else s.state t := by
  by_cases isNext : t = next
  · simp [switchTask, setState, isNext]
  · by_cases runs : s.state s.current = .running
    · by_cases isCur : t = s.current
      · subst isCur
        simp [switchTask, setState, isNext, runs]
      · simp [switchTask, setState, isNext, runs, isCur]
    · simp [switchTask, setState, isNext, runs]

omit [DecidableEq W] in
theorem switchTask_frame (s : State T W) (next : T) : (switchTask s next).tasks = s.tasks ∧
    (switchTask s next).idle = s.idle ∧ (switchTask s next).current = next ∧
    (switchTask s next).log = s.log ∧ (switchTask s next).exitCode = s.exitCode := by
  unfold switchTask
  dsimp only
  split <;> exact ⟨rfl, rfl, rfl, rfl, rfl⟩

def FreesOnlyDead (s t : State T W) (L : Lists T W) : Prop :=
  ∀ x ∈ s.tasks, x ∉ t.tasks → x ∈ L .delq ∧ x ≠ t.current

theorem inv_switched {next : T} (placed : Placed s L)
    (only : ∀ t ∈ s.tasks, s.state t = .running → t = s.current)
    (chosen : (next = s.idle ∧ L .runq = []) ∨ ∃ rest, L .runq = next :: rest) :
    Inv (switchTask s next) L := by
  have frame := switchTask_frame s next
  have source : next = s.idle ∨ next ∈ L .runq := by
    rcases chosen with ⟨idle, _⟩ | ⟨rest, eq⟩
    · exact .inl idle
    · exact .inr (by simp [eq])
  have running : (switchTask s next).state (switchTask s next).current = .running := by
    rw [switchTask_state, if_pos frame.2.2.1]
  refine ⟨⟨placed_switchTask placed source, ?_, by simp [running], ?_, ?_⟩, by simp [running]⟩
  · rw [frame.1, frame.2.2.1]
    rcases source with idle | onRunq
    · exact idle ▸ placed.idleIn
    · exact (placed.member .runq next onRunq).1
  · rw [frame.2.2.1, frame.2.1]
    intro notIdle _
    rcases chosen with ⟨idle, _⟩ | heads
    · exact absurd idle notIdle
    · exact heads
  · intro t ht runs
    rw [frame.1] at ht
    rw [frame.2.2.1]
    by_contra other
    rw [switchTask_state, if_neg other] at runs
    split at runs
    · simp at runs
    · rename_i up
      exact up ⟨only t ht runs, only t ht runs ▸ runs⟩

omit [DecidableEq T] [DecidableEq W] in
theorem awake_of_chosen {u : State T W} (pending : Pending s L) (placed : Placed u M)
    (states : u.state = s.state) (place : s.current = s.idle ∨ s.current ∈ M .runq) :
    s.state s.current = .running := by
  have up : s.state s.current = .running ∨ s.state s.current = .ready := by
    rcases place with idle | onRunq
    · exact idle ▸ pending.idleAwake
    · have home := (placed.member .runq _ onRunq).2.2
      rw [states] at home
      cases h : s.state s.current with
      | running => exact .inl rfl
      | ready => exact .inr rfl
      | sleeping | zombie => rw [h] at home; exact home.elim
  exact up.resolve_right pending.curNotReady

theorem inv_flushed (inv : Inv s L) (alive : s.current ∉ L .delq) (flushed : flushDelq s = some t) :
    Inv t (update L .delq []) ∧ t.current = s.current ∧ t.idle = s.idle ∧
      ∀ x, x ∈ t.tasks ↔ x ∈ s.tasks ∧ x ∉ L .delq := by
  obtain ⟨z, ran, after, states, cur, idle, tasks, _⟩ := flushDelq_spec inv.toPlaced
  cases ran.symm.trans flushed
  refine ⟨⟨⟨after, ?_, ?_, ?_, ?_⟩, ?_⟩, cur, idle, tasks⟩
  · rw [tasks, cur]
    exact ⟨inv.curIn, alive⟩
  · rw [states, cur]
    exact inv.curNotReady
  · rw [cur, idle, states, update_of_ne (by simp)]
    exact inv.curHead
  · intro x here runs
    rw [states] at runs
    rw [cur]
    exact inv.onlyRunning x ((tasks x).mp here).1 runs
  · rw [states, cur]
    exact inv.curAwake

theorem sched_spec (pending : Pending s L) (overflowed : Bool) (ran : sched s overflowed = some t) :
    ∃ M, Inv t M ∧ (t.current = t.idle → M .runq = []) ∧ FreesOnlyDead s t L ∧
      M .runq = rotate L s.current .runq ∧ ∃ u, getNextTask s = some (t.current, u) := by
  obtain ⟨next, u, got, placed, frame, states, chosen⟩ := getNextTask_spec pending.toPlaced
  have chosenHere : (next = u.idle ∧ rotate L s.current .runq = []) ∨
      ∃ rest, rotate L s.current .runq = next :: rest := by
    rw [frame.idle, rotate_empty]
    exact chosen
  have only : ∀ x ∈ u.tasks, u.state x = .running → x = u.current := by
    rw [frame.tasks, states, frame.current]
    exact pending.onlyRunning
  have idleEmpty : next = u.idle → rotate L s.current .runq = [] := by
    intro idle
    rcases chosenHere with ⟨_, none⟩ | ⟨rest, eq⟩
    · exact none
    · exact absurd idle (placed.member .runq next (by simp [eq])).2.1
  simp only [sched, got, Option.bind_some] at ran
  split at ran
  · -- the caller is chosen again and keeps its state
    rename_i again
    cases ran
    have place : s.current = s.idle ∨ s.current ∈ rotate L s.current .runq := by
      have chosenSelf : s.current = next := frame.current.symm.trans again
      rcases chosenHere with ⟨idle, _⟩ | ⟨rest, eq⟩
      · exact .inl (chosenSelf.trans (idle.trans frame.idle))
      · exact .inr (by rw [eq]; simp [chosenSelf])
    have awake := awake_of_chosen pending placed states place
    refine ⟨rotate L s.current, ⟨⟨placed, ?_, ?_, ?_, only⟩, ?_⟩, ?_, ?_, rfl, _, again ▸ got⟩
    · rw [frame.current, frame.tasks]
      exact pending.curIn
    · simp [frame.current, states, awake]
    · intro notIdle _
      rw [again] at notIdle ⊢
      rcases chosenHere with ⟨idle, _⟩ | heads
      · exact absurd idle notIdle
      · exact heads
    · simp [frame.current, states, awake]
    · exact fun idle => idleEmpty (again ▸ idle)
    · intro x here gone
      exact absurd (frame.tasks ▸ here) gone
  · split at ran
    · cases ran
    · have inv := inv_switched placed only chosenHere
      have same := switchTask_frame u next
      split at ran
      · -- behind `switch_task`, in the resumed task
        have alive : next ∉ rotate L s.current .delq := by
          intro dead
          rcases chosenHere with ⟨idle, _⟩ | ⟨rest, eq⟩
          · exact (placed.member .delq next dead).2.1 idle
          · have clash := represents_place placed.rep dead (show next ∈ _ by rw [eq]; simp)
            cases clash
        obtain ⟨after, cur, idle, tasks⟩ := inv_flushed inv (same.2.2.1.symm ▸ alive) ran
        have chose : t.current = next := cur.trans same.2.2.1
        refine ⟨update (rotate L s.current) .delq [], after, ?_, ?_,
          update_of_ne (by simp) _ _, u, chose ▸ got⟩
        · intro isIdle
          rw [update_of_ne (by simp)]
          rw [cur, idle, same.2.2.1, same.2.1] at isIdle
          exact idleEmpty isIdle
        · intro x here gone
          rw [tasks x, same.1, frame.tasks] at gone
          have dead : x ∈ rotate L s.current .delq := by
            by_contra alive
            exact gone ⟨here, alive⟩
          rw [cur, same.2.2.1]
          refine ⟨?_, fun eq => alive (eq ▸ dead)⟩
          rwa [rotate_other L _ .delq (by simp)] at dead
      · cases ran
        refine ⟨rotate L s.current, inv, ?_, ?_, rfl, u, same.2.2.1.symm ▸ got⟩
        · intro isIdle
          rw [same.2.2.1, same.2.1] at isIdle
          exact idleEmpty isIdle
        · intro x here gone
          rw [same.1, frame.tasks] at gone
          exact absurd here gone

omit [DecidableEq T] [DecidableEq W] in
theorem frees_none (L : Lists T W) (same : t.tasks = s.tasks) :
    FreesOnlyDead s t L := fun _ here gone => absurd (same ▸ here) gone

omit [DecidableEq T] [DecidableEq W] in
theorem inv_woken (inv : Inv s L) (placed : Placed t M) (frame : Frame s t) (l : List T)
    (runq : M .runq = L .runq ++ l)
    (states : ∀ x, t.state x = s.state x ∨ (x ∈ l ∧ t.state x = .ready ∧ s.state x = .sleeping)) :
    Inv t M := by
  have same : t.state t.current = s.state s.current := by
    rw [frame.current]
    rcases states s.current with h | ⟨_, _, asleep⟩
    · exact h
    · exact absurd asleep inv.curAwake
  refine ⟨⟨placed, ?_, same ▸ inv.curNotReady, ?_, ?_⟩, same ▸ inv.curAwake⟩
  · rw [frame.current, frame.tasks]
    exact inv.curIn
  · rw [same, frame.current, frame.idle, runq]
    intro notIdle runs
    obtain ⟨rest, eq⟩ := inv.curHead notIdle runs
    exact ⟨rest ++ l, by simp [eq]⟩
  · intro x hx runs
    rw [frame.tasks] at hx
    rw [frame.current]
    rcases states x with h | ⟨_, ready, _⟩
    · exact inv.onlyRunning x hx (h ▸ runs)
    · simp [ready] at runs

omit [DecidableEq T] [DecidableEq W] in
theorem waitq_asleep (placed : Placed s L) {w : W} {t : T} (member : t ∈ L (.waitq w)) :
    s.state t = .sleeping := by
  have home := (placed.member _ t member).2.2
  cases h : s.state t with
  | sleeping => rfl
  | running | ready | zombie => rw [h] at home; exact home.elim

theorem inv_wakeUp (inv : Inv s L) (w : W) (ran : wakeUp s w = some t) :
    ∃ M, Inv t M ∧ FreesOnlyDead s t L ∧
      t.current = s.current ∧ M .runq = L .runq ++ L (.waitq w) := by
  obtain ⟨u, woke, placed, frame, states⟩ := wakeUp_spec inv.toPlaced w
  cases woke.symm.trans ran
  refine ⟨_, inv_woken inv placed frame _ (wakeAll_runq L w _) ?_, frees_none L frame.tasks,
    frame.current, wakeAll_runq L w _⟩
  intro x
  rw [states x]
  split
  · rename_i member
    exact .inr ⟨member, rfl, waitq_asleep inv.toPlaced member⟩
  · exact .inl rfl

theorem inv_wakeOne (inv : Inv s L) (w : W) (ran : wakeOne s w = some t) :
    ∃ M, Inv t M ∧ FreesOnlyDead s t L ∧
      t.current = s.current ∧ M .runq = L .runq ++ (L (.waitq w)).head?.toList := by
  rcases wakeOne_spec inv.toPlaced w with ⟨none, same⟩ | ⟨u, l, eq, woke⟩
  · cases same.symm.trans ran
    exact ⟨L, inv, frees_none L rfl, rfl, by simp [none]⟩
  · cases woke.symm.trans ran
    have member : u ∈ L (.waitq w) := by simp [eq]
    refine ⟨_, inv_woken inv (placed_wakeTask inv.toPlaced member) (wakeTask_frame s u) [u]
      (by simp [append, drop]) ?_, frees_none L rfl, rfl, by simp [append, drop, eq]⟩
    intro x
    by_cases same : x = u
    · subst same
      refine .inr ⟨by simp, ?_, waitq_asleep inv.toPlaced member⟩
      simp [wakeTask, taskToRunq, setState]
    · exact .inl (by simp [wakeTask, taskToRunq, setState, same])

omit [DecidableEq T] [DecidableEq W] in
theorem current_listed (inv : Inv s L)
    (allowed : ¬ (s.current = s.idle ∨ s.state s.current = .zombie)) :
    s.state s.current = .running ∧ ∃ rest, L .runq = s.current :: rest := by
  have runs : s.state s.current = .running := by
    cases h : s.state s.current with
    | running => rfl
    | ready => exact absurd h inv.curNotReady
    | sleeping => exact absurd h inv.curAwake
    | zombie => exact absurd (.inr h) allowed
  exact ⟨runs, inv.curHead (fun idle => allowed (.inl idle)) runs⟩

theorem pending_sleepEnqueue (inv : Inv s L) (w : W)
    (allowed : ¬ (s.current = s.idle ∨ s.state s.current = .zombie)) :
    Pending (sleepEnqueue s w) (append (drop L .runq s.current) (.waitq w) s.current) := by
  obtain ⟨_, rest, eq⟩ := current_listed inv allowed
  have asleep : (sleepEnqueue s w).state s.current = .sleeping := by simp [sleepEnqueue, setState]
  refine ⟨placed_sleepEnqueue inv.toPlaced w (by simp [eq]), inv.curIn, ?_, ?_, ?_⟩
  · exact fun ready => by cases asleep.symm.trans ready
  · exact fun _ runs => by cases asleep.symm.trans runs
  · intro t ht runs
    by_cases same : t = s.current
    · exact same
    · exact inv.onlyRunning t ht (by simpa [sleepEnqueue, setState, same] using runs)

theorem inv_exitMark (inv : Inv s L) (code : Nat)
    (allowed : ¬ (s.current = s.idle ∨ s.state s.current = .zombie)) :
    Inv (exitMark s code) (append (drop L .runq s.current) .delq s.current) := by
  obtain ⟨_, rest, eq⟩ := current_listed inv allowed
  have dead : (exitMark s code).state s.current = .zombie := by simp [exitMark, setState]
  refine ⟨⟨placed_exitMark inv.toPlaced code (by simp [eq]), inv.curIn, ?_, ?_, ?_⟩, ?_⟩
  · exact fun ready => by cases dead.symm.trans ready
  · exact fun _ runs => by cases dead.symm.trans runs
  · intro t ht runs
    by_cases same : t = s.current
    · exact same
    · exact inv.onlyRunning t ht (by simpa [exitMark, setState, same] using runs)
  · exact fun asleep => by cases dead.symm.trans asleep

theorem inv_newTask (inv : Inv s L) {t : T} (fresh : t ∉ s.tasks) (resume : T → Bool) :
    Inv (taskToRunq { s with tasks := t :: s.tasks, inSched := resume } t) (append L .runq t) := by
  have other : s.current ≠ t := fun eq => fresh (eq ▸ inv.curIn)
  have same : update s.state t .ready s.current = s.state s.current :=
    update_of_ne other _ _
  refine ⟨⟨placed_newTask inv.toPlaced fresh resume, List.mem_cons_of_mem t inv.curIn, ?_, ?_, ?_⟩, ?_⟩
  · exact fun ready => inv.curNotReady (same.symm.trans ready)
  · intro notIdle runs
    obtain ⟨rest, eq⟩ := inv.curHead notIdle (same.symm.trans runs)
    exact ⟨rest ++ [t], by simp [append, eq, taskToRunq, setState]⟩
  · intro x hx runs
    by_cases isNew : x = t
    · simp [taskToRunq, setState, isNew] at runs
    · refine inv.onlyRunning x ((List.mem_cons.mp hx).resolve_left isNew) ?_
      simpa [taskToRunq, setState, isNew] using runs
  · exact fun asleep => inv.curAwake (same.symm.trans asleep)

def Op.chooses : Op T W → Prop
  | .sched _ | .sleepOn _ _ => True
  | _ => False

theorem step_spec (inv : Inv s L) (op : Op T W) (ran : step s op = some t) :
    ∃ M, Inv t M ∧ (op.chooses → t.current = t.idle → M .runq = []) ∧ FreesOnlyDead s t L := by
  cases op with
  | newTask u =>
    simp only [step] at ran
    split at ran
    · cases ran
    · rename_i fresh
      cases ran
      refine ⟨_, inv_newTask inv fresh _, fun h => h.elim, fun x here gone => ?_⟩
      exact absurd (List.mem_cons_of_mem u here) gone
  | sched overflowed =>
    obtain ⟨M, after, idle, frees, -⟩ := sched_spec inv.toPending overflowed ran
    exact ⟨M, after, fun _ => idle, frees⟩
  | sleepOn w overflowed =>
    simp only [step] at ran
    split at ran
    · cases ran
    · rename_i allowed
      obtain ⟨M, after, idle, frees, -⟩ :=
        sched_spec (pending_sleepEnqueue inv w allowed) overflowed ran
      refine ⟨M, after, fun _ => idle, fun x here gone => ?_⟩
      obtain ⟨dead, other⟩ := frees x here gone
      refine ⟨?_, other⟩
      simpa [append, drop] using dead
  | wakeUp w =>
    obtain ⟨M, after, frees, -⟩ := inv_wakeUp inv w ran
    exact ⟨M, after, fun h => h.elim, frees⟩
  | wakeOne w =>
    obtain ⟨M, after, frees, -⟩ := inv_wakeOne inv w ran
    exact ⟨M, after, fun h => h.elim, frees⟩
  | exit code =>
    simp only [step] at ran
    split at ran
    · cases ran
    · rename_i allowed
      cases ran
      exact ⟨_, inv_exitMark inv code allowed, fun h => h.elim, frees_none L rfl⟩

theorem run_inv (idle : T) (ops : List (Op T W)) (s : State T W)
    (ran : Run.exec step (schedInit idle) ops = some s) : ∃ L, Inv s L := by
  refine Run.exec_invariant (fun s => ∃ L, Inv s L) (fun _ => True) ?_ (fun _ _ => trivial)
    ⟨_, inv_schedInit idle⟩ ran
  rintro s op t _ ⟨L, inv⟩ step
  obtain ⟨M, after, _⟩ := step_spec inv op step
  exact ⟨M, after⟩

/-- An operation boundary, in terms of the lists `L` that the pointers hold. -/
structure Boundary (s : State T W) (L : Lists T W) : Prop where
  rings : Represents s.links L
  existing : ∀ q t, t ∈ L q → t ∈ s.tasks
  oneList : ∀ t ∈ s.tasks, t ≠ s.idle → ∃! q, t ∈ L q
  runq : ∀ t ∈ s.tasks, t ≠ s.idle →
    (t ∈ L .runq ↔ s.state t = .running ∨ s.state t = .ready)
  waitq : ∀ t ∈ s.tasks, t ≠ s.idle → ((∃ w, t ∈ L (.waitq w)) ↔ s.state t = .sleeping)
  delq : ∀ t ∈ s.tasks, t ≠ s.idle → (t ∈ L .delq ↔ s.state t = .zombie)
  current : s.current ≠ s.idle → s.state s.current ≠ .zombie →
    s.state s.current = .running ∧ (∀ t ∈ s.tasks, s.state t = .running → t = s.current) ∧
      ∃ rest, L .runq = s.current :: rest
  idleOff : ∀ q, s.idle ∉ L q

omit [DecidableEq T] in
theorem inv_boundary (inv : Inv s L) : Boundary s L := by
  refine ⟨inv.rep, fun q t h => (inv.member q t h).1, ?_, ?_, ?_, ?_, ?_, ?_⟩
  · intro t here ne
    obtain ⟨q, hq⟩ := inv.listed t here ne
    exact ⟨q, hq, fun r hr => represents_place inv.rep hr hq⟩
  · intro t here ne
    constructor
    · intro member
      have home := (inv.member .runq t member).2.2
      cases h : s.state t <;> simp [h, Home] at home ⊢
    · intro up
      obtain ⟨q, hq⟩ := inv.listed t here ne
      exact home_running up (inv.member q t hq).2.2 ▸ hq
  · intro t here ne
    constructor
    · rintro ⟨w, member⟩
      exact waitq_asleep inv.toPlaced member
    · intro asleep
      obtain ⟨q, hq⟩ := inv.listed t here ne
      have home := (inv.member q t hq).2.2
      cases q with
      | waitq w => exact ⟨w, hq⟩
      | runq | delq => rw [asleep] at home; exact home.elim
  · intro t here ne
    constructor
    · intro member
      have home := (inv.member .delq t member).2.2
      cases h : s.state t <;> simp [h, Home] at home ⊢
    · intro dead
      obtain ⟨q, hq⟩ := inv.listed t here ne
      have home := (inv.member q t hq).2.2
      cases q with
      | delq => exact hq
      | runq | waitq w => rw [dead] at home; exact home.elim
  · intro notIdle alive
    obtain ⟨runs, heads⟩ := current_listed inv (by tauto)
    exact ⟨runs, inv.onlyRunning, heads⟩
  · exact fun q member => (inv.member q _ member).2.1 rfl

/-- Every run, in any order of operations, and every next operation: the boundary
holds before and after; a choice of the idle task means `runq` is empty; and what
the operation frees was on `delq` alone and is not what it leaves running. -/
theorem scheduler_lists (idle : T) (ops : List (Op T W)) (s : State T W)
    (ran : Run.exec step (schedInit idle) ops = some s) :
    ∃ L, Boundary s L ∧ ∀ op t, step s op = some t →
      ∃ M, Boundary t M ∧ (op.chooses → t.current = t.idle → M .runq = []) ∧
        ∀ x ∈ s.tasks, x ∉ t.tasks →
          x ≠ t.current ∧ x ∈ L .delq ∧ ∀ q, q ≠ .delq → x ∉ L q := by
  obtain ⟨L, inv⟩ := run_inv idle ops s ran
  refine ⟨L, inv_boundary inv, ?_⟩
  intro op t stepped
  obtain ⟨M, after, idles, frees⟩ := step_spec inv op stepped
  refine ⟨M, inv_boundary after, idles, ?_⟩
  intro x here gone
  obtain ⟨dead, other⟩ := frees x here gone
  exact ⟨other, dead, fun q ne hq => ne (represents_place inv.rep hq dead)⟩

/- Two tasks; the first sleeps and is woken while the second exits and is freed. -/
theorem scheduler_lists_exit : ∃ s : State Nat Nat,
    Run.exec step (schedInit 0) [.newTask 1, .newTask 2, .sched false, .sleepOn 5 false,
      .wakeOne 5, .exit 7, .sched false] = some s ∧ s.log = [(2, 7)] ∧ s.current = 1 ∧
    ∃ L, Boundary s L := by
  refine ⟨_, rfl, rfl, rfl, ?_⟩
  obtain ⟨L, boundary, _⟩ := scheduler_lists (W := Nat) 0 [.newTask 1, .newTask 2, .sched false,
    .sleepOn 5 false, .wakeOne 5, .exit 7, .sched false] _ rfl
  exact ⟨L, boundary⟩

end ScaraOS.Sched
