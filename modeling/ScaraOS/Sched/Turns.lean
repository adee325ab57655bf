import ScaraOS.Lib.RoundRobin
import ScaraOS.Sched.Soundness

/-! The order in which tasks get their turns. `runq` with the task that heads it is a
queue served in turn, as `RoundRobin` has it: a sleeper and an exiting task leave it in
their turn, a woken and a new task join it, and `sched` gives the next turn. -/

namespace ScaraOS.Sched

variable {T W : Type} [DecidableEq T] [DecidableEq W]

def nextTurn (s : State T W) : Option T :=
  if listEmpty s .runq then none else (getNextTask s).map Prod.fst

def turn (s : State T W) : Op T W → Option T
  | .sched _ => nextTurn s
  | .sleepOn w _ => nextTurn (sleepEnqueue s w)
  | _ => none

abbrev turns (s : State T W) (ops : List (Op T W)) : List T := Run.outputs step turn s ops

def RunQueue (s : State T W) (q : List T) : Prop := s.links.Ring (.head .runq) (q.map .task)

def inProgress (s : State T W) (q : List T) : List T := if s.current ∈ q then [s.current] else []

/-- What happens while `t` waits behind the tasks `ahead`, from a state `s`: the steps `ops`
in which it has no turn, to the state `s'`. -/
structure Waiting (s : State T W) (ahead : List T) (t : T) (ops : List (Op T W)) (s' : State T W) :
    Prop where
  /-- It stays where it is, and so does everyone ahead who has had no turn yet. -/
  stay : ∃ q, RunQueue s' q ∧ t ∈ q ∧ ∀ x ∈ ahead, x ∉ inProgress s ahead ++ turns s ops → x ∈ q
  /-- The turns are those of the tasks ahead, in their order, one each. -/
  order : ∃ rest, inProgress s ahead ++ turns s ops ++ rest = ahead ∧ ahead.Nodup
  /-- When its own turn comes, all of them have had theirs. -/
  all : ∀ op s'', step s' op = some s'' → turn s' op = some t →
    inProgress s ahead ++ turns s ops = ahead
  /-- Who is queued behind it has no turn from then on. -/
  behind : ∀ pre post s₁, ops = pre ++ post → Run.exec step s pre = some s₁ →
    ∀ front x rest, RunQueue s₁ (front ++ t :: rest) → x ∈ rest → x ∉ turns s₁ post

structure InTurn (s : State T W) : Prop where
  /-- Whose turn it is heads `runq`; so the only task on it goes to the tail and is next. -/
  first : ∀ q, RunQueue s q → s.current ∈ q → ∃ rest, q = s.current :: rest
  waiting : ∀ ahead t behind, RunQueue s (ahead ++ t :: behind) → t ≠ s.current →
    ∀ ops s', Run.exec step s ops = some s' → t ∉ turns s ops → Waiting s ahead t ops s'

def serving (s : State T W) (L : Lists T W) : RoundRobin.Ring T := ⟨decide (s.current ∈ L .runq), L .runq⟩

variable {s t : State T W} {L M : Lists T W} {ops : List (Op T W)} {ahead behind : List T}

omit [DecidableEq T] [DecidableEq W] in
theorem current_heads (pending : Pending s L) (member : s.current ∈ L .runq) :
    ∃ rest, L .runq = s.current :: rest := by
  obtain ⟨-, notIdle, home⟩ := pending.member .runq s.current member
  apply pending.curHead notIdle
  cases state : s.state s.current with
  | running => rfl
  | ready => exact absurd state pending.curNotReady
  | sleeping | zombie =>
    rw [state] at home
    cases home

theorem sched_ring (pending : Pending s L) (overflowed : Bool) (ran : sched s overflowed = some t) :
    ∃ M es, Inv t M ∧ Run.exec RoundRobin.step (serving s L) es = some (serving t M) ∧
      RoundRobin.turns (serving s L) es = (nextTurn s).toList := by
  obtain ⟨M, inv, -, -, runq, u, got⟩ := sched_spec pending overflowed ran
  cases queue : L .runq with
  | nil =>
    have none : M .runq = [] := runq.trans ((rotate_empty L s.current).mpr queue)
    have empty : listEmpty s .runq = true := (represents_empty pending.rep .runq).mpr queue
    refine ⟨M, [], inv, ?_, ?_⟩
    · simp [serving, queue, none]
    · simp [nextTurn, empty, Run.outputs]
  | cons x rest =>
    have full : listEmpty s .runq = false := by
      rw [← Bool.not_eq_true]
      intro empty
      rw [(represents_empty pending.rep .runq).mp empty] at queue
      cases queue
    have given : nextTurn s = some t.current := by simp [nextTurn, full, got]
    -- the one who runs now heads the queue
    obtain ⟨rest', heads⟩ : ∃ rest', M .runq = t.current :: rest' := by
      obtain ⟨next, u', got', -, -, -, chosen⟩ := getNextTask_spec pending.toPlaced
      cases got.symm.trans got'
      rcases chosen with ⟨-, none⟩ | ⟨rest', eq⟩
      · rw [none] at queue
        cases queue
      · exact ⟨rest', runq.trans eq⟩
    have served : RoundRobin.step (serving s L) .turn = some (serving t M) := by
      by_cases member : s.current ∈ L .runq
      · obtain ⟨others, shape⟩ := current_heads pending member
        have spun : M .runq = others ++ [s.current] := by
          simp [runq, rotate, shape, append, drop]
        have before : serving s L = ⟨true, s.current :: others⟩ := by simp [serving, shape]
        have after : serving t M = ⟨true, others ++ [s.current]⟩ := by
          rw [← spun]
          simp [serving, heads]
        rw [before, after]
        rfl
      · have still : M .runq = L .runq := by
          rw [runq, rotate, if_neg]
          intro head
          exact member (List.mem_of_mem_head? head)
        have shape : L .runq = t.current :: rest' := still.symm.trans heads
        rw [shape] at member
        simp [RoundRobin.step, serving, shape, heads, member]
    have mine : RoundRobin.turn (serving s L) .turn = some t.current := by
      simp only [RoundRobin.turn, served, Option.bind_some]
      simp [serving, heads]
    refine ⟨M, [.turn], inv, by simp [Run.exec, served], ?_⟩
    rw [given, RoundRobin.turns, Run.outputs_cons _ served, mine]
    rfl

omit [DecidableEq W] in
theorem ring_join {l : List T} (same : t.current = s.current) (runq : M .runq = L .runq ++ l)
    (other : s.current ∉ l) : RoundRobin.step (serving s L) (.join l) = some (serving t M) := by
  simp [RoundRobin.step, serving, same, runq, other]

omit [DecidableEq W] in
theorem ring_leave {rest : List T} (placed : Placed s L) (same : t.current = s.current)
    (heads : L .runq = s.current :: rest) (left : M .runq = rest) :
    RoundRobin.step (serving s L) .leave = some (serving t M) := by
  have apart : s.current ∉ rest := by
    have distinct := represents_nodup placed.rep .runq
    rw [heads] at distinct
    exact (List.nodup_cons.mp distinct).1
  simp [RoundRobin.step, serving, same, heads, left, apart]

omit [DecidableEq T] [DecidableEq W] in
theorem not_asleep (inv : Inv s L) (w : W) :
    s.current ∉ L (.waitq w) := fun member => inv.curAwake (waitq_asleep inv.toPlaced member)

theorem step_ring (inv : Inv s L) {op : Op T W} (ran : step s op = some t) :
    ∃ M es, Inv t M ∧ Run.exec RoundRobin.step (serving s L) es = some (serving t M) ∧
      RoundRobin.turns (serving s L) es = (turn s op).toList := by
  cases op with
  | newTask u =>
    simp only [step] at ran
    split at ran
    · cases ran
    · rename_i fresh
      cases ran
      have other : s.current ∉ [u] := by
        rw [List.mem_singleton]
        exact fun eq => fresh (eq ▸ inv.curIn)
      refine ⟨append L .runq u, [.join [u]], inv_newTask inv fresh _,
        (Run.exec_cons ..).mpr ⟨_, ring_join rfl (by simp [append]) other, rfl⟩, ?_⟩
      simp [RoundRobin.turns, Run.outputs, RoundRobin.turn, RoundRobin.step, turn]
  | sched overflowed => exact sched_ring inv.toPending overflowed ran
  | sleepOn w overflowed =>
    simp only [step] at ran
    split at ran
    · cases ran
    · rename_i allowed
      obtain ⟨-, rest, heads⟩ := current_listed inv allowed
      obtain ⟨M, es, after, served, given⟩ :=
        sched_ring (pending_sleepEnqueue inv w allowed) overflowed ran
      have left := ring_leave (t := sleepEnqueue s w) inv.toPlaced rfl heads
        (M := append (drop L .runq s.current) (.waitq w) s.current) (by simp [append, drop, heads])
      refine ⟨M, .leave :: es, after, (Run.exec_cons ..).mpr ⟨_, left, served⟩, ?_⟩
      rw [RoundRobin.turns, Run.outputs_cons _ left]
      exact given
  | wakeUp w =>
    obtain ⟨M, after, -, same, runq⟩ := inv_wakeUp inv w ran
    have joined := ring_join (L := L) same runq (not_asleep inv w)
    refine ⟨M, [.join (L (.waitq w))], after, by simp [Run.exec, joined], ?_⟩
    simp [RoundRobin.turns, Run.outputs, RoundRobin.turn, joined, turn]
  | wakeOne w =>
    obtain ⟨M, after, -, same, runq⟩ := inv_wakeOne inv w ran
    have other : s.current ∉ (L (.waitq w)).head?.toList := by
      intro member
      rw [Option.mem_toList] at member
      exact not_asleep inv w (List.mem_of_mem_head? member)
    have joined := ring_join (L := L) same runq other
    refine ⟨M, [.join (L (.waitq w)).head?.toList], after, by simp [Run.exec, joined], ?_⟩
    simp [RoundRobin.turns, Run.outputs, RoundRobin.turn, joined, turn]
  | exit code =>
    simp only [step] at ran
    split at ran
    · cases ran
    · rename_i allowed
      cases ran
      obtain ⟨-, rest, heads⟩ := current_listed inv allowed
      have left := ring_leave (t := exitMark s code) inv.toPlaced rfl heads
        (M := append (drop L .runq s.current) .delq s.current) (by simp [append, drop, heads])
      refine ⟨_, [.leave], inv_exitMark inv code allowed, by simp [Run.exec, left], ?_⟩
      simp [RoundRobin.turns, Run.outputs, RoundRobin.turn, left, turn]

theorem run_ring (inv : Inv s L) (ran : Run.exec step s ops = some t) :
    ∃ M es, Inv t M ∧ Run.exec RoundRobin.step (serving s L) es = some (serving t M) ∧
      RoundRobin.turns (serving s L) es = turns s ops := by
  induction ops generalizing s L with
  | nil => exact Option.some.inj ran ▸ ⟨L, [], inv, rfl, rfl⟩
  | cons op rest ih =>
    obtain ⟨m, first, later⟩ := (Run.exec_cons ..).mp ran
    obtain ⟨N, es, inv₁, served, given⟩ := step_ring inv first
    obtain ⟨M, es', inv', served', given'⟩ := ih inv₁ later
    refine ⟨M, es ++ es', inv', ?_, ?_⟩
    · rw [Run.exec_append, served]
      exact served'
    · rw [RoundRobin.turns, Run.outputs_append _ served, turns, Run.outputs_cons _ first]
      exact congrArg₂ (· ++ ·) given given'

section Waiting

variable {s s' : State T W} {L M : Lists T W}

omit [DecidableEq T] [DecidableEq W] in
theorem runQueue_iff (inv : Inv s L) {q : List T} : RunQueue s q ↔ q = L .runq := by
  have here : s.links.Ring (.head .runq) ((L .runq).map .task) := inv.rep.ring .runq
  constructor
  · intro queue
    exact List.map_injective_iff.mpr (fun _ _ eq => Cell.task.inj eq) (Links.ring_unique queue here)
  · rintro rfl
    exact here

omit [DecidableEq W] in
theorem begun_ring (inv : Inv s L) {t : T} (queue : L .runq = ahead ++ t :: behind)
    (other : t ≠ s.current) :
    RoundRobin.begun (serving s L) = inProgress s ahead ∧ ((serving s L).inTurn = true → ahead ≠ []) := by
  by_cases member : s.current ∈ L .runq
  · obtain ⟨rest, heads⟩ := current_heads inv.toPending member
    have first : RoundRobin.begun (serving s L) = [s.current] := by
      simp [RoundRobin.begun, serving, heads]
    cases ahead with
    | nil =>
      rw [heads] at queue
      exact absurd (List.cons.inj queue).1.symm other
    | cons x ahead =>
      rw [heads] at queue
      have same : s.current = x := (List.cons.inj queue).1
      exact ⟨by rw [first, inProgress, if_pos (same ▸ List.mem_cons_self)], fun _ => by simp⟩
  · have none : (serving s L).inTurn = false := by simp [serving, member]
    rw [queue] at member
    have away : s.current ∉ ahead := fun inside => member (List.mem_append_left _ inside)
    exact ⟨by simp [RoundRobin.begun, none, inProgress, away], fun now => by simp [none] at now⟩

theorem run_waits (inv : Inv s L) {t : T} (queue : L .runq = ahead ++ t :: behind)
    (other : t ≠ s.current) (ran : Run.exec step s ops = some s') (later : t ∉ turns s ops) :
    ∃ M waiting, Inv s' M ∧ inProgress s ahead ++ turns s ops ++ waiting = ahead ∧
      RoundRobin.Waits (serving s' M) waiting t := by
  obtain ⟨begun, notYet⟩ := begun_ring inv queue other
  obtain ⟨waiting, split, waits⟩ := RoundRobin.waits_start (r := serving s L) queue notYet
  obtain ⟨M, es, inv', served, given⟩ := run_ring inv ran
  obtain ⟨waiting', split', waits'⟩ := RoundRobin.waits_run waits served (given ▸ later)
  refine ⟨M, waiting', inv', ?_, waits'⟩
  rw [← begun, ← given, List.append_assoc, split', split]

theorem turns_ahead (inv : Inv s L) {t : T} (queue : L .runq = ahead ++ t :: behind)
    (other : t ≠ s.current) (ran : Run.exec step s ops = some s') (later : t ∉ turns s ops) :
    ∀ x ∈ turns s ops, x ∈ ahead := by
  obtain ⟨M, waiting, -, split, -⟩ := run_waits inv queue other ran later
  intro x member
  rw [← split]
  exact List.mem_append_left _ (List.mem_append_right _ member)

omit [DecidableEq W] in
theorem current_other (inv : Inv s' M) {waiting : List T} {t : T}
    (waits : RoundRobin.Waits (serving s' M) waiting t) : t ≠ s'.current ∧ t ∈ M .runq := by
  obtain ⟨behind, queue⟩ := waits
  have here : M .runq = RoundRobin.begun (serving s' M) ++ waiting ++ t :: behind := queue
  have member : t ∈ M .runq := by
    rw [here]
    simp
  refine ⟨?_, member⟩
  rintro rfl
  obtain ⟨rest, heads⟩ := current_heads inv.toPending member
  have first : RoundRobin.begun (serving s' M) = [s'.current] := by
    simp [RoundRobin.begun, serving, heads]
  have distinct := represents_nodup inv.rep .runq
  rw [here, first] at distinct
  simp at distinct

theorem waiting_of_inv (inv : Inv s L) {t : T} (queue : L .runq = ahead ++ t :: behind)
    (other : t ≠ s.current) (ran : Run.exec step s ops = some s') (later : t ∉ turns s ops) :
    Waiting s ahead t ops s' := by
  obtain ⟨M, waiting, inv', split, waits⟩ := run_waits inv queue other ran later
  have distinct : (ahead ++ t :: behind).Nodup := queue ▸ represents_nodup inv.rep .runq
  have aheadOnce : ahead.Nodup := distinct.of_append_left
  have apart : t ∉ ahead := fun inside =>
    (List.nodup_append'.mp distinct).2.2 inside List.mem_cons_self
  constructor
  case stay =>
    refine ⟨M .runq, (runQueue_iff inv').mpr rfl, (current_other inv' waits).2, ?_⟩
    intro x inside none
    rw [← split, List.mem_append] at inside
    obtain ⟨behind', queue'⟩ := waits
    have here : M .runq = RoundRobin.begun (serving s' M) ++ waiting ++ t :: behind' := queue'
    rw [here]
    exact List.mem_append_left _ (List.mem_append_right _ (inside.resolve_left none))
  case order => exact ⟨waiting, split, aheadOnce⟩
  case all =>
    intro op s'' stepped mine
    obtain ⟨M', es, -, served, given⟩ := step_ring inv' stepped
    rw [mine] at given
    have out : t ∉ waiting := fun member => apart (split ▸ List.mem_append_right _ member)
    obtain ⟨post, shape⟩ := RoundRobin.waits_served waits out served (by simp [given])
    have none : waiting = [] := by
      rw [given] at shape
      cases waiting with
      | nil => rfl
      | cons x rest =>
        cases (List.cons.inj shape).1
        exact absurd List.mem_cons_self out
    rw [none, List.append_nil] at split
    exact split
  case behind =>
    intro pre post s₁ parts reached front x rest queue₁ inside
    subst parts
    rw [Run.exec_append, reached, Option.bind_some] at ran
    rw [turns, Run.outputs_append turn reached, List.mem_append, not_or] at later
    obtain ⟨M₁, waiting₁, inv₁, -, waits₁⟩ := run_waits inv queue other reached later.1
    rw [runQueue_iff inv₁] at queue₁
    intro member
    have early := turns_ahead inv₁ queue₁.symm (current_other inv₁ waits₁).1 ran later.2 x member
    have once : (front ++ t :: rest).Nodup := queue₁ ▸ represents_nodup inv₁.rep .runq
    exact (List.nodup_append'.mp once).2.2 early (List.mem_cons_of_mem t inside)

end Waiting

/-- Every state of every run. -/
theorem round_robin (idle : T) (ops : List (Op T W)) (s : State T W)
    (ran : Run.exec step (schedInit idle) ops = some s) : InTurn s := by
  obtain ⟨L, inv⟩ := run_inv idle ops s ran
  constructor
  · intro q queue member
    rw [runQueue_iff inv] at queue
    rw [queue] at member ⊢
    exact current_heads inv.toPending member
  · intro ahead t behind queue other ops' s' ran' later
    exact waiting_of_inv inv ((runQueue_iff inv).mp queue).symm other ran' later

/-- Task 3 wakes task 2, which waits behind 3 and 4 and then has its turn; 4 sleeps in its
own turn, and 5, which comes later, waits. -/
theorem round_robin_woken : ∃ s, Run.exec step (schedInit 0 : State Nat Nat)
    [.newTask 1, .newTask 2, .newTask 3, .newTask 4, .sched false, .exit 0, .sched false,
      .sleepOn 7 false, .wakeUp 7] = some s ∧ InTurn s ∧ s.current = 3 ∧
    turns s [.newTask 5, .sched false, .sleepOn 8 false, .sched false] = [4, 2, 5] := by
  have evaluated : (Run.exec step (schedInit 0 : State Nat Nat)
      [.newTask 1, .newTask 2, .newTask 3, .newTask 4, .sched false, .exit 0, .sched false,
        .sleepOn 7 false, .wakeUp 7]).map (fun s => (s.current,
          turns s [.newTask 5, .sched false, .sleepOn 8 false, .sched false])) =
      some (3, [4, 2, 5]) := by decide
  obtain ⟨s, ran, values⟩ := Option.map_eq_some_iff.mp evaluated
  obtain ⟨current, given⟩ := Prod.mk.inj values
  exact ⟨s, ran, round_robin 0 _ s ran, current, given⟩

end ScaraOS.Sched
