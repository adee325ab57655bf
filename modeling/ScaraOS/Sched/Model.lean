import ScaraOS.Lib.Links
import ScaraOS.Lib.Run

/-! The scheduler: `kernel/sched.c` with the intrusive lists of `list.h`.
A task is on a list by the `struct list_head` inside it, so a cell is either a
task's own or one of the list heads `runq`, `delq` and the wait queues. One
`lock_irq` section is one step; what follows `switch_task` runs in the resumed
task with interrupts still off and belongs to the step that resumed it. -/
namespace ScaraOS.Sched

open Function

inductive TaskState where
  | running | ready | sleeping | zombie
  deriving DecidableEq, Repr

inductive Queue (W : Type) where
  | runq | delq
  | waitq (w : W)
  deriving DecidableEq, Repr

inductive Cell (T W : Type) where
  | task (t : T)
  | head (q : Queue W)
  deriving DecidableEq, Repr

/-- `tasks` are the task pages in existence, `inSched` says of a task that is
switched out whether it resumes behind `switch_task` (else at its entry point),
and `log` collects what `flush_delq` reports: each freed task and its exit code. -/
structure State (T W : Type) where
  links : Links (Cell T W)
  state : T → TaskState
  exitCode : T → Nat
  inSched : T → Bool
  tasks : List T
  current : T
  idle : T
  log : List (T × Nat)

variable {T W : Type} [DecidableEq T] [DecidableEq W]

def setState (s : State T W) (t : T) (x : TaskState) : State T W :=
  { s with state := update s.state t x }

def listEmpty (s : State T W) (q : Queue W) : Bool := s.links.listEmpty (.head q)

/-- The boot processor's own stack becomes the idle task; the lists are empty. -/
def schedInit (idle : T) : State T W where
  links := { next := id, prev := id }
  state := fun _ => .running
  exitCode := fun _ => 0
  inSched := fun _ => false
  tasks := [idle]
  current := idle
  idle := idle
  log := []

def taskToRunq (s : State T W) (t : T) : State T W :=
  let s := setState s t .ready
  { s with links := s.links.listAddTail (.task t) (.head .runq) }

/-- `sleep_on` up to its call of `sched`. -/
def sleepEnqueue (s : State T W) (w : W) : State T W :=
  let t := s.current
  let s := setState s t .sleeping
  let s := { s with links := s.links.listDel (.task t) }
  { s with links := s.links.listAddTail (.task t) (.head (.waitq w)) }

/-- `list_del` and `task_to_runq` of one sleeper. -/
def wakeTask (s : State T W) (t : T) : State T W :=
  taskToRunq { s with links := s.links.listDel (.task t) } t

/-- `list_for_each_entry_safe` over a wait queue. A head met in the place of a
task would be read as one by `container_of`; such a run has no meaning here. -/
def wakeLoop (w : W) : Nat → State T W → Cell T W → Cell T W → Option (State T W)
  | 0, _, _, _ => none
  | n + 1, s, pos, tmp =>
    if pos = .head (.waitq w) then some s
    else match pos with
      | .head _ => none
      | .task t =>
        let s := wakeTask s t
        wakeLoop w n s tmp (s.links.next tmp)

/-- A list holds at most the existing tasks, which bounds the loop. -/
def wakeUp (s : State T W) (w : W) : Option (State T W) :=
  let first := s.links.next (.head (.waitq w))
  wakeLoop w (s.tasks.length + 1) s first (s.links.next first)

def wakeOne (s : State T W) (w : W) : Option (State T W) :=
  if listEmpty s (.waitq w) then some s
  else match s.links.next (.head (.waitq w)) with
    | .head _ => none
    | .task t => some (wakeTask s t)

/-- `do_exit` up to its call of `sched`. -/
def exitMark (s : State T W) (code : Nat) : State T W :=
  let t := s.current
  let s := { s with links := s.links.listMoveTail (.task t) (.head .delq) }
  let s := { s with exitCode := update s.exitCode t code }
  setState s t .zombie

/-- `list_entry(runq.next, struct task, list)`. -/
def runqFirst (s : State T W) : Option T :=
  match s.links.next (.head .runq) with
  | .head _ => none
  | .task t => some t

/-- `get_next_task`, which may rotate `runq`; the last test is its `BUG_ON`. -/
def getNextTask (s : State T W) : Option (T × State T W) :=
  let found : Option (T × State T W) :=
    if listEmpty s .runq then some (s.idle, s)
    else (runqFirst s).bind fun t =>
      if s.current = t then
        let s := { s with links := s.links.listMoveTail (.task s.current) (.head .runq) }
        (runqFirst s).map fun t => (t, s)
      else some (t, s)
  found.bind fun r => if r.2.state r.1 = .sleeping then none else some r

/-- One round of `flush_delq`: its `BUG_ON`, the report, `list_del`, `free_page`. -/
def reap (s : State T W) (t : T) : Option (State T W) :=
  if s.state t ≠ .zombie then none
  else some { s with
    log := s.log ++ [(t, s.exitCode t)]
    links := s.links.listDel (.task t)
    tasks := s.tasks.erase t }

def flushLoop : Nat → State T W → Cell T W → Cell T W → Option (State T W)
  | 0, _, _, _ => none
  | n + 1, s, pos, tmp =>
    if pos = .head .delq then some s
    else match pos with
      | .head _ => none
      | .task t => (reap s t).bind fun s => flushLoop n s tmp (s.links.next tmp)

def flushDelq (s : State T W) : Option (State T W) :=
  let first := s.links.next (.head .delq)
  flushLoop (s.tasks.length + 1) s first (s.links.next first)

/-- The stores of `sched` around `switch_task(current, next)`. -/
def switchTask (s : State T W) (next : T) : State T W :=
  let current := s.current
  let s := if s.state current = .running then setState s current .ready else s
  let s := setState s next .running
  { s with inSched := update s.inSched current true, current := next }

/-- `sched`; `overflowed` is what `task_stack_overflowed(next)` finds. -/
def sched (s : State T W) (overflowed : Bool) : Option (State T W) :=
  (getNextTask s).bind fun r =>
    let next := r.1
    let s := r.2
    if s.current = next then some s
    else if overflowed then none
    else
      let s := switchTask s next
      if s.inSched next && !listEmpty s .delq then flushDelq s else some s

def sleepOn (s : State T W) (w : W) (overflowed : Bool) : Option (State T W) :=
  sched (sleepEnqueue s w) overflowed

inductive Op (T W : Type) where
  | newTask (t : T)
  | sched (overflowed : Bool)
  | sleepOn (w : W) (overflowed : Bool)
  | wakeUp (w : W)
  | wakeOne (w : W)
  | exit (code : Nat)

/-- A new task's page is not a task's already. Interrupts wake tasks and call
`sched` whatever is current; only a task that is neither idle nor exiting sleeps
or exits. -/
def step (s : State T W) : Op T W → Option (State T W)
  | .newTask t =>
    if t ∈ s.tasks then none
    else some (taskToRunq { s with tasks := t :: s.tasks, inSched := update s.inSched t false } t)
  | .sched overflowed => Sched.sched s overflowed
  | .sleepOn w overflowed =>
    if s.current = s.idle ∨ s.state s.current = .zombie then none else Sched.sleepOn s w overflowed
  | .wakeUp w => Sched.wakeUp s w
  | .wakeOne w => Sched.wakeOne s w
  | .exit code =>
    if s.current = s.idle ∨ s.state s.current = .zombie then none else some (exitMark s code)

end ScaraOS.Sched
