import ScaraOS.Sched.Model

/-! The lists of the scheduler as lists. `Represents` ties the pointers to them;
`Placed` says that every task but the idle one is on the one list its state names.
Both are kept by every splice, whoever is current. -/

namespace ScaraOS.Sched

open Function

abbrev Lists (T W : Type) := Queue W → List T

variable {T W : Type} [DecidableEq T] [DecidableEq W]

def cells (L : Lists T W) (q : Queue W) : List (Cell T W) := (L q).map .task

def firstCell (q : Queue W) : List T → Cell T W
  | [] => .head q
  | t :: _ => .task t

def Represents (σ : Links (Cell T W)) (L : Lists T W) : Prop := σ.Rings .head (cells L)

def drop (L : Lists T W) (q : Queue W) (t : T) : Lists T W := update L q ((L q).erase t)
def append (L : Lists T W) (q : Queue W) (t : T) : Lists T W := update L q (L q ++ [t])

omit [DecidableEq T] in
theorem cells_update (L : Lists T W) (q : Queue W) (l : List T) :
    cells (update L q l) = update (cells L) q (l.map .task) := by
  funext r
  by_cases same : r = q
  · subst same
    simp [cells]
  · simp [cells, update_of_ne same]

theorem cells_erase (L : Lists T W) (q : Queue W) (t : T) :
    ((L q).erase t).map .task = (cells L q).erase (.task t) :=
  List.map_erase (fun _ _ eq => Cell.task.inj eq) (L q)

variable {q : Queue W} {t : T} {s : State T W} {L : Lists T W}

section Represented

variable {σ : Links (Cell T W)} {L : Lists T W}

omit [DecidableEq T] [DecidableEq W] in
theorem represents_nodup (rep : Represents σ L) (q : Queue W) : (L q).Nodup :=
  List.Nodup.of_map _ (List.nodup_cons.mp (rep.ring q).2).2

omit [DecidableEq T] in
theorem represents_place (rep : Represents σ L) {r : Queue W} (here : t ∈ L q) (there : t ∈ L r) :
    q = r := by
  by_contra ne
  have apart := rep.apart q r ne (.task t) (List.mem_cons_of_mem _ (List.mem_map_of_mem here))
  exact apart (List.mem_cons_of_mem _ (List.mem_map_of_mem there))

theorem represents_empty (rep : Represents σ L) (q : Queue W) :
    σ.listEmpty (.head q) = true ↔ L q = [] := by
  rw [Links.ring_empty_iff (rep.ring q), cells, List.map_eq_nil_iff]

omit [DecidableEq T] [DecidableEq W] in
theorem represents_next_head (rep : Represents σ L) (q : Queue W) :
    σ.next (.head q) = firstCell q (L q) := by
  have eq := Links.seg_next σ (rep.ring q).1
  cases hl : L q with
  | nil | cons t l => simpa [cells, hl, firstCell] using eq

omit [DecidableEq T] [DecidableEq W] in
theorem represents_next_task (rep : Represents σ L) {l : List T} (eq : L q = t :: l) :
    σ.next (.task t) = firstCell q l := by
  have seg := (rep.ring q).1
  simp only [cells, eq, List.map_cons] at seg
  have next := Links.seg_next σ seg.2
  cases l with
  | nil | cons u l => simpa [firstCell] using next

omit [DecidableEq T] [DecidableEq W] in
theorem cells_off (absent : ∀ q, t ∉ L q) : Links.Off Cell.head (cells L) (.task t) := by
  intro q
  simpa [cells] using absent q

theorem represents_listDel (rep : Represents σ L) (member : t ∈ L q) :
    Represents (σ.listDel (.task t)) (drop L q t) := by
  have h := Links.rings_listDel rep (i := q) (x := .task t) (List.mem_map_of_mem member)
  rwa [Represents, drop, cells_update, cells_erase]

theorem represents_listAddTail (rep : Represents σ L) (q : Queue W) (absent : ∀ q, t ∉ L q) :
    Represents (σ.listAddTail (.task t) (.head q)) (append L q t) := by
  have h := Links.rings_listAddTail rep q (cells_off absent)
  rw [Represents, append, cells_update, List.map_append]
  exact h

theorem mem_drop (rep : Represents σ L) (member : t ∈ L q) (r : Queue W) (x : T) :
    x ∈ drop L q t r ↔ x ∈ L r ∧ x ≠ t := by
  by_cases same : r = q
  · subst same
    simp [drop, (represents_nodup rep r).mem_erase_iff, and_comm]
  · have elsewhere : x ∈ L r → x ≠ t := fun hx eq =>
      same (represents_place rep hx (eq ▸ member))
    simp only [drop, update_of_ne same]
    tauto

omit [DecidableEq T] in
theorem mem_append (L : Lists T W) (q r : Queue W) (t x : T) :
    x ∈ append L q t r ↔ x ∈ L r ∨ (r = q ∧ x = t) := by
  by_cases same : r = q
  · subst same
    simp [append]
  · simp [append, same]

theorem drop_absent (rep : Represents σ L) (member : t ∈ L q) :
    ∀ r, t ∉ drop L q t r := fun r hm => ((mem_drop rep member r t).mp hm).2 rfl

theorem represents_listMoveTail (rep : Represents σ L) (r : Queue W) (member : t ∈ L q) :
    Represents (σ.listMoveTail (.task t) (.head r)) (append (drop L q t) r t) := by
  have h := Links.rings_listMoveTail rep r (i := q) (x := .task t) (List.mem_map_of_mem member)
  have base : cells (drop L q t) =
      update (cells L) q ((cells L q).erase (.task t)) := by
    rw [drop, cells_update, cells_erase]
  rw [Represents, append, cells_update, List.map_append, base]
  rwa [← base] at h ⊢

end Represented

def Home : TaskState → Queue W → Prop
  | .running, .runq => True
  | .ready, .runq => True
  | .sleeping, .waitq _ => True
  | .zombie, .delq => True
  | _, _ => False

structure Placed (s : State T W) (L : Lists T W) : Prop where
  rep : Represents s.links L
  distinct : s.tasks.Nodup
  idleIn : s.idle ∈ s.tasks
  idleAwake : s.state s.idle = .running ∨ s.state s.idle = .ready
  member : ∀ q t, t ∈ L q → t ∈ s.tasks ∧ t ≠ s.idle ∧ Home (s.state t) q
  listed : ∀ t ∈ s.tasks, t ≠ s.idle → ∃ q, t ∈ L q

section

variable (placed : Placed s L)
include placed

theorem placed_move (r : Queue W) {x : TaskState} {σ : Links (Cell T W)} (member : t ∈ L q)
    (fits : Home x r) (rep : Represents σ (append (drop L q t) r t)) :
    Placed { setState s t x with links := σ } (append (drop L q t) r t) := by
  have known := placed.member q t member
  refine ⟨rep, placed.distinct, placed.idleIn, ?_, ?_, ?_⟩
  · simpa [setState, update_of_ne known.2.1.symm] using placed.idleAwake
  · intro p u hu
    rcases (mem_append _ _ _ _ _).mp hu with old | ⟨rfl, rfl⟩
    · obtain ⟨old, ne⟩ := (mem_drop placed.rep member p u).mp old
      simpa [setState, update_of_ne ne] using placed.member p u old
    · simpa [setState] using ⟨known.1, known.2.1, fits⟩
  · intro u hu ne
    by_cases same : u = t
    · exact ⟨r, (mem_append _ _ _ _ _).mpr (.inr ⟨rfl, same⟩)⟩
    · obtain ⟨p, hp⟩ := placed.listed u hu ne
      exact ⟨p, (mem_append _ _ _ _ _).mpr
        (.inl ((mem_drop placed.rep member p u).mpr ⟨hp, same⟩))⟩

theorem placed_wakeTask {w : W} (member : t ∈ L (.waitq w)) :
    Placed (wakeTask s t) (append (drop L (.waitq w) t) .runq t) :=
  placed_move placed .runq member trivial
    (represents_listAddTail (represents_listDel placed.rep member) .runq
      (drop_absent placed.rep member))

theorem placed_sleepEnqueue (w : W) (member : s.current ∈ L q) :
    Placed (sleepEnqueue s w) (append (drop L q s.current) (.waitq w) s.current) :=
  placed_move placed (.waitq w) member trivial
    (represents_listAddTail (represents_listDel placed.rep member) (.waitq w)
      (drop_absent placed.rep member))

theorem placed_exitMark (code : Nat) (member : s.current ∈ L q) :
    Placed (exitMark s code) (append (drop L q s.current) .delq s.current) := by
  have moved := placed_move placed .delq (x := .zombie) member trivial
    (represents_listMoveTail placed.rep .delq member)
  exact ⟨moved.rep, moved.distinct, moved.idleIn, moved.idleAwake, moved.member, moved.listed⟩

theorem placed_newTask (fresh : t ∉ s.tasks) (resume : T → Bool) :
    Placed (taskToRunq { s with tasks := t :: s.tasks, inSched := resume } t)
      (append L .runq t) := by
  have absent : ∀ q, t ∉ L q := fun q hq => fresh (placed.member q t hq).1
  have other : s.idle ≠ t := fun eq => fresh (eq ▸ placed.idleIn)
  refine ⟨represents_listAddTail placed.rep .runq absent,
    List.nodup_cons.mpr ⟨fresh, placed.distinct⟩, List.mem_cons_of_mem t placed.idleIn, ?_, ?_, ?_⟩
  · simpa [taskToRunq, setState, update_of_ne other] using placed.idleAwake
  · intro q u hu
    rcases (mem_append _ _ _ _ _).mp hu with old | ⟨rfl, rfl⟩
    · have known := placed.member q u old
      have ne : u ≠ t := fun eq => fresh (eq ▸ known.1)
      simpa [taskToRunq, setState, update_of_ne ne, ne] using known
    · simpa [taskToRunq, setState, Home] using other.symm
  · intro u hu ne
    rcases List.mem_cons.mp hu with rfl | old
    · exact ⟨.runq, (mem_append _ _ _ _ _).mpr (.inr ⟨rfl, rfl⟩)⟩
    · obtain ⟨q, hq⟩ := placed.listed u old ne
      exact ⟨q, (mem_append _ _ _ _ _).mpr (.inl hq)⟩

end

end ScaraOS.Sched
