import ScaraOS.Sched.Placement

/-! What holds between any two scheduler operations, in whatever order they come:
tasks are placed, and the current task heads `runq` unless it idles or is exiting. -/

namespace ScaraOS.Sched

open Function

variable {T W : Type} [DecidableEq T] [DecidableEq W]

structure Frame (s t : State T W) : Prop where
  tasks : t.tasks = s.tasks
  current : t.current = s.current
  idle : t.idle = s.idle
  inSched : t.inSched = s.inSched
  exitCode : t.exitCode = s.exitCode
  log : t.log = s.log

variable {s : State T W} {L : Lists T W} {t : T}

omit [DecidableEq T] [DecidableEq W] in
theorem Frame.trans {t u : State T W} (one : Frame s t) (two : Frame t u) : Frame s u :=
  ⟨two.tasks.trans one.tasks, two.current.trans one.current, two.idle.trans one.idle,
    two.inSched.trans one.inSched, two.exitCode.trans one.exitCode, two.log.trans one.log⟩

theorem wakeTask_frame (s : State T W) (t : T) : Frame s (wakeTask s t) :=
  ⟨rfl, rfl, rfl, rfl, rfl, rfl⟩

def wakeAll (L : Lists T W) (w : W) (l : List T) : Lists T W :=
  l.foldl (fun L t => append (drop L (.waitq w) t) .runq t) L

theorem wakeAll_runq (L : Lists T W) (w : W) (l : List T) :
    wakeAll L w l .runq = L .runq ++ l := by
  induction l generalizing L with
  | nil => simp [wakeAll]
  | cons t l ih =>
    have first : append (drop L (.waitq w) t) .runq t .runq = L .runq ++ [t] := by
      simp [append, drop]
    have rest := ih (append (drop L (.waitq w) t) .runq t)
    rw [first, List.append_assoc] at rest
    exact rest

theorem drop_head (L : Lists T W) (w : W) (t : T) (l : List T) (eq : L (.waitq w) = t :: l) :
    append (drop L (.waitq w) t) .runq t (.waitq w) = l := by
  simp [append, drop, eq]

/-- The induction is on what is left of the queue: `pos` is its first cell and
`tmp` the one behind, read before `pos` was spliced away. -/
theorem wakeLoop_spec (w : W) (l : List T) (n : Nat) (s : State T W) (L : Lists T W)
    (tmp : Cell T W) (placed : Placed s L) (left : L (.waitq w) = l) (enough : l.length < n)
    (saved : l ≠ [] → tmp = firstCell (.waitq w) l.tail) :
    ∃ t, wakeLoop w n s (firstCell (.waitq w) l) tmp = some t ∧ Placed t (wakeAll L w l) ∧
      Frame s t ∧ (∀ x, t.state x = if x ∈ l then .ready else s.state x) := by
  induction l generalizing n s L tmp with
  | nil =>
    obtain ⟨n, rfl⟩ : ∃ m, n = m + 1 := ⟨n - 1, by simp at enough; omega⟩
    exact ⟨s, by simp [wakeLoop, firstCell], placed, ⟨rfl, rfl, rfl, rfl, rfl, rfl⟩, by simp⟩
  | cons t l ih =>
    obtain ⟨n, rfl⟩ : ∃ m, n = m + 1 := ⟨n - 1, by simp at enough; omega⟩
    have member : t ∈ L (.waitq w) := by simp [left]
    have woken := placed_wakeTask placed member
    have behind := drop_head L w t l left
    have next : l ≠ [] → (wakeTask s t).links.next tmp = firstCell (.waitq w) l.tail := by
      intro more
      obtain ⟨u, l', rfl⟩ := List.exists_cons_of_ne_nil more
      have reads := represents_next_task woken.rep behind
      rw [saved (by simp)]
      simpa [firstCell] using reads
    obtain ⟨r, ran, after, frame, states⟩ := ih n (wakeTask s t) _ ((wakeTask s t).links.next tmp)
      woken behind (by simp at enough; omega) next
    refine ⟨r, ?_, after, (wakeTask_frame s t).trans frame, ?_⟩
    · have first : tmp = firstCell (.waitq w) l := saved (by simp)
      simp only [wakeLoop, firstCell, reduceCtorEq, if_false]
      rw [first] at ran ⊢
      exact ran
    · intro x
      rw [states x]
      by_cases inRest : x ∈ l
      · simp [inRest]
      · by_cases same : x = t
        · simp [same, wakeTask, taskToRunq, setState]
        · simp [inRest, same, wakeTask, taskToRunq, setState]

omit [DecidableEq T] [DecidableEq W] in
theorem placed_length (placed : Placed s L) (q : Queue W) : (L q).length < s.tasks.length + 1 := by
  have sub : (L q).Subperm s.tasks :=
    (represents_nodup placed.rep q).subperm (fun t ht => (placed.member q t ht).1)
  exact Nat.lt_succ_of_le sub.length_le

theorem wakeUp_spec (placed : Placed s L) (w : W) :
    ∃ t, wakeUp s w = some t ∧ Placed t (wakeAll L w (L (.waitq w))) ∧ Frame s t ∧
      (∀ x, t.state x = if x ∈ L (.waitq w) then .ready else s.state x) := by
  have first := represents_next_head placed.rep (.waitq w)
  unfold wakeUp
  dsimp only
  rw [first]
  refine wakeLoop_spec w (L (.waitq w)) _ s L _ placed rfl (placed_length placed _) ?_
  intro more
  obtain ⟨t, l, eq⟩ := List.exists_cons_of_ne_nil more
  rw [eq]
  exact represents_next_task placed.rep eq

theorem wakeOne_spec (placed : Placed s L) (w : W) :
    (L (.waitq w) = [] ∧ wakeOne s w = some s) ∨
    ∃ t l, L (.waitq w) = t :: l ∧ wakeOne s w = some (wakeTask s t) := by
  have empty := represents_empty placed.rep (.waitq w)
  have first := represents_next_head placed.rep (.waitq w)
  cases hl : L (.waitq w) with
  | nil => exact .inl ⟨rfl, by simp [wakeOne, listEmpty, empty.mpr hl]⟩
  | cons t l =>
    have full : s.links.listEmpty (.head (.waitq w)) = false := by
      rw [← Bool.not_eq_true, empty, hl]
      simp
    rw [hl] at first
    exact .inr ⟨t, l, rfl, by simp [wakeOne, listEmpty, full, first, firstCell]⟩

/- Freeing: a zombie leaves `delq` and the set of existing tasks at once. -/

theorem placed_reap (placed : Placed s L) (member : t ∈ L .delq) :
    ∃ r, reap s t = some r ∧ Placed r (drop L .delq t) ∧ r.state = s.state ∧
      r.current = s.current ∧ r.idle = s.idle ∧ r.tasks = s.tasks.erase t ∧
      r.inSched = s.inSched ∧ r.exitCode = s.exitCode ∧ r.log = s.log ++ [(t, s.exitCode t)] := by
  have known := placed.member .delq t member
  have dead : s.state t = .zombie := by
    cases h : s.state t <;> simp [Home, h] at known ⊢
  refine ⟨{ s with
    log := s.log ++ [(t, s.exitCode t)]
    links := s.links.listDel (.task t)
    tasks := s.tasks.erase t }, by simp [reap, dead], ⟨represents_listDel placed.rep member,
    placed.distinct.erase t, ?_, placed.idleAwake, ?_, ?_⟩, rfl, rfl, rfl, rfl, rfl, rfl, rfl⟩
  · exact (placed.distinct.mem_erase_iff).mpr ⟨known.2.1.symm, placed.idleIn⟩
  · intro q u hu
    obtain ⟨old, ne⟩ := (mem_drop placed.rep member q u).mp hu
    have h := placed.member q u old
    exact ⟨(placed.distinct.mem_erase_iff).mpr ⟨ne, h.1⟩, h.2⟩
  · intro u hu ne
    obtain ⟨other, old⟩ := (placed.distinct.mem_erase_iff).mp hu
    obtain ⟨q, hq⟩ := placed.listed u old ne
    exact ⟨q, (mem_drop placed.rep member q u).mpr ⟨hq, other⟩⟩

theorem flushLoop_spec (l : List T) (n : Nat) (s : State T W) (L : Lists T W) (tmp : Cell T W)
    (placed : Placed s L) (left : L .delq = l) (enough : l.length < n)
    (saved : l ≠ [] → tmp = firstCell .delq l.tail) :
    ∃ t, flushLoop n s (firstCell .delq l) tmp = some t ∧
      Placed t (update L .delq []) ∧ t.state = s.state ∧ t.current = s.current ∧
      t.idle = s.idle ∧ (∀ x, x ∈ t.tasks ↔ x ∈ s.tasks ∧ x ∉ l) ∧
      t.log = s.log ++ l.map (fun x => (x, s.exitCode x)) := by
  induction l generalizing n s L tmp with
  | nil =>
    obtain ⟨n, rfl⟩ : ∃ m, n = m + 1 := ⟨n - 1, by simp at enough; omega⟩
    have same : update L .delq [] = L := by rw [← left, update_eq_self]
    exact ⟨s, by simp [flushLoop, firstCell], by rw [same]; exact placed,
      rfl, rfl, rfl, by simp, by simp⟩
  | cons t l ih =>
    obtain ⟨n, rfl⟩ : ∃ m, n = m + 1 := ⟨n - 1, by simp at enough; omega⟩
    have member : t ∈ L .delq := by simp [left]
    obtain ⟨r, reaped, after, states, cur, idle, tasks, _, codes, log⟩ := placed_reap placed member
    have behind : drop L .delq t .delq = l := by simp [drop, left]
    have next : l ≠ [] → r.links.next tmp = firstCell .delq l.tail := by
      intro more
      obtain ⟨u, l', rfl⟩ := List.exists_cons_of_ne_nil more
      have reads := represents_next_task after.rep behind
      rw [saved (by simp)]
      simpa [firstCell] using reads
    obtain ⟨z, ran, final, states', cur', idle', tasks', log'⟩ := ih n r _ (r.links.next tmp)
      after behind (by simp at enough; omega) next
    have forget : update (drop L .delq t) .delq [] = update L .delq [] := by
      rw [drop, update_idem]
    refine ⟨z, ?_, forget ▸ final, states'.trans states, cur'.trans cur, idle'.trans idle, ?_, ?_⟩
    · have first : tmp = firstCell .delq l := saved (by simp)
      simp only [flushLoop, firstCell, reduceCtorEq, if_false, reaped, Option.bind_some]
      rw [first] at ran ⊢
      exact ran
    · intro x
      rw [tasks' x, tasks, placed.distinct.mem_erase_iff, List.mem_cons]
      tauto
    · rw [log', log, codes]
      simp

theorem flushDelq_spec (placed : Placed s L) :
    ∃ t, flushDelq s = some t ∧ Placed t (update L .delq []) ∧ t.state = s.state ∧
      t.current = s.current ∧ t.idle = s.idle ∧ (∀ x, x ∈ t.tasks ↔ x ∈ s.tasks ∧ x ∉ L .delq) ∧
      t.log = s.log ++ (L .delq).map (fun x => (x, s.exitCode x)) := by
  have first := represents_next_head placed.rep .delq
  unfold flushDelq
  dsimp only
  rw [first]
  refine flushLoop_spec (L .delq) _ s L _ placed rfl (placed_length placed _) ?_
  intro more
  obtain ⟨t, l, eq⟩ := List.exists_cons_of_ne_nil more
  rw [eq]
  exact represents_next_task placed.rep eq

/-- What `get_next_task` does to `runq`: the caller, when it heads it, goes to the tail. -/
def rotate (L : Lists T W) (t : T) : Lists T W :=
  if (L .runq).head? = some t then append (drop L .runq t) .runq t else L

theorem rotate_other (L : Lists T W) (t : T) (q : Queue W) (ne : q ≠ .runq) :
    rotate L t q = L q := by
  unfold rotate
  split
  · simp [append, drop, update_of_ne ne]
  · rfl

theorem rotate_empty (L : Lists T W) (t : T) : rotate L t .runq = [] ↔ L .runq = [] := by
  unfold rotate
  split
  · rename_i heads
    constructor
    · simp [append]
    · intro none
      simp [none] at heads
  · rfl

omit [DecidableEq T] [DecidableEq W] in
theorem runqFirst_cons (rep : Represents s.links L) {l : List T} (eq : L .runq = t :: l) :
    runqFirst s = some t := by
  have first := represents_next_head rep .runq
  simp [runqFirst, first, eq, firstCell]

theorem placed_rotate (placed : Placed s L) (member : t ∈ L .runq) :
    Placed { s with links := s.links.listMoveTail (.task t) (.head .runq) }
      (append (drop L .runq t) .runq t) := by
  have moved := placed_move placed .runq member (placed.member .runq t member).2.2
    (represents_listMoveTail placed.rep .runq member)
  have same : setState s t (s.state t) = s := by simp [setState]
  rwa [same] at moved

theorem getNextTask_spec (placed : Placed s L) :
    ∃ next t, getNextTask s = some (next, t) ∧ Placed t (rotate L s.current) ∧ Frame s t ∧
      t.state = s.state ∧
      ((next = s.idle ∧ L .runq = []) ∨ ∃ rest, rotate L s.current .runq = next :: rest) := by
  have empty := represents_empty placed.rep .runq
  have awake : ∀ (M : Lists T W) (u : T) (l : List T), (∀ q x, x ∈ M q → x ≠ s.idle ∧
      Home (s.state x) q) → M .runq = u :: l → s.state u ≠ .sleeping := by
    intro M u l known eq asleep
    have h := (known .runq u (by simp [eq])).2
    simp [asleep, Home] at h
  cases hl : L .runq with
  | nil =>
    have idle : s.state s.idle ≠ .sleeping := by
      rcases placed.idleAwake with h | h <;> simp [h]
    have same : rotate L s.current = L := by simp [rotate, hl]
    refine ⟨s.idle, s, ?_, by rw [same]; exact placed,
      ⟨rfl, rfl, rfl, rfl, rfl, rfl⟩, rfl, .inl ⟨rfl, rfl⟩⟩
    simp [getNextTask, listEmpty, empty.mpr hl, idle]
  | cons u l =>
    have full : s.links.listEmpty (.head .runq) = false := by
      rw [← Bool.not_eq_true, empty, hl]
      simp
    have first := runqFirst_cons placed.rep hl
    by_cases heads : s.current = u
    · subst heads
      have spin : rotate L s.current = append (drop L .runq s.current) .runq s.current := by
        simp [rotate, hl]
      have moved := placed_rotate placed (t := s.current) (by simp [hl])
      rw [← spin] at moved
      obtain ⟨v, r, eq⟩ : ∃ v r, rotate L s.current .runq = v :: r := by
        apply List.exists_cons_of_ne_nil
        rw [ne_eq, rotate_empty, hl]
        simp
      have again := runqFirst_cons moved.rep eq
      have up := awake _ v r (fun q x hx => (moved.member q x hx).2) eq
      refine ⟨v, _, ?_, moved, ⟨rfl, rfl, rfl, rfl, rfl, rfl⟩, rfl, .inr ⟨r, eq⟩⟩
      simp [getNextTask, listEmpty, full, first, again, up]
    · have same : rotate L s.current = L := by
        simp [rotate, hl, Ne.symm heads]
      have up := awake _ u l (fun q x hx => (placed.member q x hx).2) hl
      refine ⟨u, s, ?_, by rw [same]; exact placed, ⟨rfl, rfl, rfl, rfl, rfl, rfl⟩, rfl,
        .inr ⟨l, by rw [same, hl]⟩⟩
      simp [getNextTask, listEmpty, full, first, heads, up]

end ScaraOS.Sched
