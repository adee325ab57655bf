import Mathlib.Data.List.Nodup
import Mathlib.Data.Set.Basic
import Mathlib.Logic.Function.Basic
import ScaraOS.Lib.Run

/-! Deadlock freedom from a ranking of the locks. A task runs programs that acquire
and release locks; a lock that is acquired lies above every lock its task holds. The
release order is free. Locks are counters, so nothing here rests on how many
tasks a lock admits. -/

namespace LockOrder

open Function

variable {T L : Type*} [DecidableEq T] [DecidableEq L]

inductive Act (L : Type*) where
  | acquire (l : L)
  | release (l : L)
  | reset (l : L)
  deriving DecidableEq, Repr

/-- What each task still has to do, the locks it holds, the counter of each lock. -/
structure State (T L : Type*) where
  todo : T → List (Act L)
  held : T → List L
  val : L → Int

def idle : State T L := ⟨fun _ => [], fun _ => [], fun _ => 1⟩

def begin (s : State T L) (t : T) (p : List (Act L)) : Option (State T L) :=
  match s.todo t with
  | [] => some { s with todo := update s.todo t p }
  | _ :: _ => none

/-- One action of a task. An acquisition waits until the counter is positive. -/
def advance (s : State T L) (t : T) : Option (State T L) :=
  match s.todo t with
  | [] => none
  | .acquire l :: rest =>
    if 0 < s.val l then
      some
        { todo := update s.todo t rest
          held := update s.held t (l :: s.held t)
          val := update s.val l (s.val l - 1) }
    else none
  | .release l :: rest =>
    some
      { todo := update s.todo t rest
        held := update s.held t ((s.held t).erase l)
        val := update s.val l (s.val l + 1) }
  | .reset l :: rest =>
    some
      { s with
        todo := update s.todo t rest
        val := update s.val l 1 }

def Waits (s : State T L) (t : T) (l : L) : Prop := (s.todo t).head? = some (.acquire l)

/-- Every task of the set waits for a lock that a task of the set holds. -/
def Deadlocked (s : State T L) (tasks : Set T) : Prop :=
  tasks.Nonempty ∧ ∀ t ∈ tasks, ∃ l, Waits s t l ∧ ∃ u ∈ tasks, l ∈ s.held u

variable {p : List (Act L)} {s s' : State T L} {t : T} {low : Nat}

section Ranking

variable (rank : L → Nat)

/-- From these locks held the program acquires upwards only, releases what it
holds, and ends with none. -/
def Ordered : List L → List (Act L) → Prop
  | held, [] => held = []
  | held, .acquire l :: rest => (∀ h ∈ held, rank h < rank l) ∧ Ordered (l :: held) rest
  | held, .release l :: rest => l ∈ held ∧ Ordered (held.erase l) rest
  | held, .reset _ :: rest => Ordered held rest

/-- A part of a program that may run wherever all locks held rank below `low`,
and leaves them as they were. -/
def Block (low : Nat) (p : List (Act L)) : Prop :=
  ∀ held rest, (∀ h ∈ held, rank h < low) → Ordered rank held rest → Ordered rank held (p ++ rest)

variable {rank}

theorem block_nil (low : Nat) : Block rank low ([] : List (Act L)) :=
  fun _ _ _ rest => rest

theorem block_append {q : List (Act L)} (first : Block rank low p)
    (second : Block rank low q) : Block rank low (p ++ q) := by
  intro held rest below ordered
  rw [List.append_assoc]
  exact first held (q ++ rest) below (second held rest below ordered)

theorem block_mono {high : Nat} (block : Block rank high p) (le : low ≤ high) :
    Block rank low p :=
  fun held rest below ordered =>
    block held rest (fun h member => Nat.lt_of_lt_of_le (below h member) le) ordered

theorem block_reset (l : L) : Block rank low [.reset l] :=
  fun _ _ _ ordered => ordered

theorem block_flatMap {B : Type*} (f : B → List (Act L)) (bs : List B)
    (each : ∀ b, Block rank low (f b)) : Block rank low (bs.flatMap f) := by
  induction bs with
  | nil => exact block_nil low
  | cons b bs ih => exact block_append (each b) ih

theorem block_around (l : L) (inner : Block rank (rank l + 1) p) :
    Block rank (rank l) (.acquire l :: p ++ [.release l]) := by
  intro held rest below ordered
  have bounded : ∀ h ∈ l :: held, rank h < rank l + 1 := by
    intro h member
    rcases List.mem_cons.mp member with rfl | member
    · exact Nat.lt_succ_self _
    · exact Nat.lt_succ_of_lt (below h member)
  have released : Ordered rank (l :: held) (.release l :: rest) := by
    refine ⟨List.mem_cons_self, ?_⟩
    rw [List.erase_cons_head]
    exact ordered
  refine ⟨below, ?_⟩
  simpa using inner (l :: held) (.release l :: rest) bounded released

theorem block_crossed (a b : L) (lt : rank a < rank b) (inner : Block rank (rank b + 1) p) :
    Block rank (rank a) (.acquire a :: .acquire b :: p ++ [.release a, .release b]) := by
  intro held rest below ordered
  have ne : b ≠ a := fun eq => absurd lt (by rw [eq]; exact Nat.lt_irrefl _)
  have under : ∀ h ∈ a :: held, rank h < rank b := by
    intro h member
    rcases List.mem_cons.mp member with rfl | member
    · exact lt
    · exact Nat.lt_trans (below h member) lt
  have bounded : ∀ h ∈ b :: a :: held, rank h < rank b + 1 := by
    intro h member
    rcases List.mem_cons.mp member with rfl | member
    · exact Nat.lt_succ_self _
    · exact Nat.lt_succ_of_lt (under h member)
  have released : Ordered rank (b :: a :: held) (.release a :: .release b :: rest) := by
    refine ⟨by simp, ?_⟩
    rw [List.erase_cons_tail (by simpa using ne), List.erase_cons_head]
    refine ⟨List.mem_cons_self, ?_⟩
    rw [List.erase_cons_head]
    exact ordered
  refine ⟨below, under, ?_⟩
  simpa using inner (b :: a :: held) (.release a :: .release b :: rest) bounded released

theorem ordered_of_block (block : Block rank low p) : Ordered rank [] p := by
  have whole := block [] [] (by simp) rfl
  rwa [List.append_nil] at whole

def Inv (rank : L → Nat) (s : State T L) : Prop := ∀ t, Ordered rank (s.held t) (s.todo t)

omit [DecidableEq T] in
theorem idle_inv : Inv rank (idle : State T L) := fun _ => rfl

theorem begin_inv (inv : Inv rank s) (ordered : Ordered rank [] p) (stepped : begin s t p = some s') :
    Inv rank s' := by
  unfold begin at stepped
  split at stepped
  · rename_i done
    cases stepped
    intro u
    have mine := inv t
    rw [done] at mine
    have none : s.held t = [] := mine
    by_cases same : u = t
    · subst same
      simpa [none] using ordered
    · simpa [same] using inv u
  · cases stepped

theorem advance_inv (inv : Inv rank s) (stepped : advance s t = some s') : Inv rank s' := by
  have mine := inv t
  -- the acting task moves along its own program; the others are not touched
  have others : ∀ (todo : List (Act L)) (held : List L), Ordered rank held todo →
      ∀ u, Ordered rank (update s.held t held u) (update s.todo t todo u) := by
    intro todo held ordered u
    by_cases same : u = t
    · subst same
      simpa using ordered
    · simpa [same] using inv u
  unfold advance at stepped
  split at stepped
  · cases stepped
  · rename_i l rest head
    rw [head] at mine
    split at stepped
    · cases stepped
      exact others rest (l :: s.held t) mine.2
    · cases stepped
  · rename_i l rest head
    rw [head] at mine
    cases stepped
    exact others rest ((s.held t).erase l) mine.2
  · rename_i l rest head
    rw [head] at mine
    cases stepped
    intro u
    have ordered := others rest (s.held t) mine u
    rwa [update_eq_self] at ordered

omit [DecidableEq T] in
theorem waits_above (inv : Inv rank s) {h l : L} (holds : h ∈ s.held t) (waits : Waits s t l) :
    rank h < rank l := by
  have mine := inv t
  unfold Waits at waits
  obtain ⟨rest, eq⟩ : ∃ rest, s.todo t = .acquire l :: rest := by
    cases todo : s.todo t with
    | nil => simp [todo] at waits
    | cons a rest => exact ⟨rest, by simpa [todo] using waits⟩
  rw [eq] at mine
  exact mine.1 h holds

omit [DecidableEq T] in
/-- Along the tasks of a deadlocked set the ranks waited for would grow for ever. -/
theorem inv_not_deadlocked (inv : Inv rank s) {top : Nat} (bounded : ∀ l, rank l ≤ top)
    (tasks : Set T) : ¬ Deadlocked s tasks := by
  rintro ⟨⟨t, member⟩, blocked⟩
  have grows : ∀ n, ∀ t ∈ tasks, ∃ u ∈ tasks, ∃ l, Waits s u l ∧ n ≤ rank l := by
    intro n
    induction n with
    | zero =>
      intro t member
      obtain ⟨l, waits, -⟩ := blocked t member
      exact ⟨t, member, l, waits, Nat.zero_le _⟩
    | succ n ih =>
      intro t member
      obtain ⟨u, mu, l, waits, le⟩ := ih t member
      obtain ⟨l', waits', v, mv, holds⟩ := blocked u mu
      have same : l' = l := by
        have eq := waits'.symm.trans waits
        simpa using eq
      subst same
      obtain ⟨m, waitsV, -⟩ := blocked v mv
      exact ⟨v, mv, m, waitsV, Nat.lt_of_le_of_lt le (waits_above inv holds waitsV)⟩
  obtain ⟨-, -, l, -, le⟩ := grows (top + 1) t member
  exact absurd (bounded l) (Nat.not_le_of_lt le)

end Ranking

end LockOrder
