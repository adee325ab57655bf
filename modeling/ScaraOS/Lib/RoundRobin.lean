import ScaraOS.Lib.Run

/-! A queue served in turn. The head keeps its place for the time of its turn and goes
to the tail when the next turn is given; it may also leave. Others join at the tail. -/
namespace RoundRobin

structure Ring (T : Type*) where
  /-- The head has its turn. -/
  inTurn : Bool
  queue : List T
  deriving DecidableEq, Repr

inductive Event (T : Type*) where
  | turn
  | leave
  | join (l : List T)
  deriving DecidableEq, Repr

variable {T : Type*}

def step (r : Ring T) : Event T → Option (Ring T)
  | .turn =>
    match r.inTurn, r.queue with
    | _, [] => none
    | true, t :: rest => some ⟨true, rest ++ [t]⟩
    | false, t :: rest => some ⟨true, t :: rest⟩
  | .leave =>
    match r.inTurn, r.queue with
    | true, _ :: rest => some ⟨false, rest⟩
    | _, _ => none
  | .join l => some { r with queue := r.queue ++ l }

def turn (r : Ring T) (e : Event T) : Option T :=
  match e with
  | .turn => (step r e).bind fun r' => r'.queue.head?
  | _ => none

def begun (r : Ring T) : List T := if r.inTurn then r.queue.head?.toList else []

abbrev turns (r : Ring T) (es : List (Event T)) : List T := Run.outputs step turn r es

def Waits (r : Ring T) (waiting : List T) (t : T) : Prop :=
  ∃ behind, r.queue = begun r ++ waiting ++ t :: behind

variable {r r' : Ring T} {t : T} {e : Event T} {es : List (Event T)} {waiting : List T}

theorem waits_start {ahead behind : List T} (queue : r.queue = ahead ++ t :: behind)
    (notYet : r.inTurn = true → ahead ≠ []) :
    ∃ waiting, begun r ++ waiting = ahead ∧ Waits r waiting t := by
  cases now : r.inTurn with
  | false => exact ⟨ahead, by simp [begun, now], behind, by simpa [begun, now] using queue⟩
  | true =>
    cases ahead with
    | nil => exact absurd rfl (notYet now)
    | cons x rest =>
      have first : begun r = [x] := by simp [begun, now, queue]
      exact ⟨rest, by rw [first]; rfl, behind, by rw [first, queue]; rfl⟩

theorem turn_first (waits : Waits r waiting t) (stepped : step r .turn = some r') :
    ∃ x rest behind, waiting ++ [t] = x :: rest ∧ turn r .turn = some x ∧ r'.inTurn = true ∧
      r'.queue = x :: (rest ++ behind) := by
  obtain ⟨behind, queue⟩ := waits
  obtain ⟨x, rest, first⟩ := List.exists_cons_of_ne_nil (List.concat_ne_nil t waiting)
  cases now : r.inTurn with
  | false =>
    have shape : r.queue = x :: (rest ++ behind) := by
      rw [queue]
      simp only [begun, now, Bool.false_eq_true, if_false, List.nil_append]
      rw [← List.singleton_append, ← List.append_assoc, first, List.cons_append]
    simp only [step, now, shape] at stepped
    cases stepped
    exact ⟨x, rest, behind, first, by simp [turn, step, now, shape], rfl, rfl⟩
  | true =>
    cases shape : r.queue with
    | nil => simp [shape, begun] at queue
    | cons y others =>
      have more : others ++ [y] = x :: (rest ++ (behind ++ [y])) := by
        rw [shape] at queue
        simp only [begun, now, shape, if_true, List.head?_cons, Option.toList_some,
          List.cons_append, List.cons.injEq, true_and] at queue
        rw [queue, ← List.append_assoc, ← List.cons_append, ← List.cons_append, ← first]
        simp
      simp only [step, now, shape, more] at stepped
      cases stepped
      exact ⟨x, rest, behind ++ [y], first, by simp [turn, step, now, shape, more], rfl, rfl⟩

theorem waits_step (waits : Waits r waiting t) (stepped : step r e = some r')
    (other : turn r e ≠ some t) :
    ∃ waiting', (turn r e).toList ++ waiting' = waiting ∧ Waits r' waiting' t := by
  cases e with
  | turn =>
    obtain ⟨x, rest, behind, first, given, now, queue⟩ := turn_first waits stepped
    cases waiting with
    | nil =>
      cases first
      exact absurd given other
    | cons y waiting' =>
      cases first
      refine ⟨waiting', by rw [given]; rfl, behind, ?_⟩
      rw [queue]
      simp [begun, now, queue]
  | leave =>
    obtain ⟨behind, queue⟩ := waits
    refine ⟨waiting, rfl, behind, ?_⟩
    cases now : r.inTurn with
    | false => simp [step, now] at stepped
    | true =>
      cases shape : r.queue with
      | nil => simp [step, now, shape] at stepped
      | cons y others =>
        simp only [step, now, shape] at stepped
        cases stepped
        rw [shape] at queue
        simpa [begun, now, shape] using queue
  | join l =>
    obtain ⟨behind, queue⟩ := waits
    cases stepped
    refine ⟨waiting, rfl, behind ++ l, ?_⟩
    have same : begun { r with queue := r.queue ++ l } = begun r := by
      cases now : r.inTurn with
      | false => simp [begun, now]
      | true =>
        cases shape : r.queue with
        | nil => simp [shape] at queue
        | cons y others => simp [begun, now, shape]
    rw [same]
    simp [queue]

theorem waits_run (waits : Waits r waiting t)
    (ran : Run.exec step r es = some r') (later : t ∉ turns r es) :
    ∃ waiting', turns r es ++ waiting' = waiting ∧ Waits r' waiting' t := by
  induction es generalizing r waiting with
  | nil => exact ⟨waiting, rfl, Option.some.inj ran ▸ waits⟩
  | cons e rest ih =>
    obtain ⟨m, first, after⟩ := (Run.exec_cons step r r' e rest).mp ran
    rw [turns, Run.outputs_cons turn first, List.mem_append, not_or] at later
    have other : turn r e ≠ some t := by
      intro mine
      exact later.1 (by simp [mine])
    obtain ⟨waiting₁, split, waits₁⟩ := waits_step waits first other
    obtain ⟨waiting', split', waits'⟩ := ih waits₁ after later.2
    refine ⟨waiting', ?_, waits'⟩
    rw [turns, Run.outputs_cons turn first, List.append_assoc, split', split]

theorem waits_turn (waits : Waits r waiting t) (apart : t ∉ waiting)
    (stepped : step r e = some r') (mine : turn r e = some t) : waiting = [] := by
  cases e with
  | turn =>
    obtain ⟨x, rest, behind, first, given, -⟩ := turn_first waits stepped
    cases mine.symm.trans given
    cases waiting with
    | nil => rfl
    | cons y others =>
      cases first
      exact absurd List.mem_cons_self apart
  | leave | join l => cases mine

theorem waits_served (waits : Waits r waiting t) (apart : t ∉ waiting)
    (ran : Run.exec step r es = some r') (comes : t ∈ turns r es) :
    ∃ post, turns r es = waiting ++ t :: post := by
  induction es generalizing r waiting with
  | nil => cases comes
  | cons e rest ih =>
    obtain ⟨m, first, after⟩ := (Run.exec_cons step r r' e rest).mp ran
    rw [turns, Run.outputs_cons turn first] at comes ⊢
    by_cases mine : turn r e = some t
    · rw [waits_turn waits apart first mine, mine]
      exact ⟨turns m rest, rfl⟩
    · obtain ⟨waiting', split, waits'⟩ := waits_step waits first mine
      have later : t ∈ turns m rest := by
        refine (List.mem_append.mp comes).resolve_left fun now => ?_
        exact mine (Option.mem_toList.mp now)
      have apart' : t ∉ waiting' := fun member => apart (split ▸ List.mem_append_right _ member)
      obtain ⟨post, tail⟩ := ih waits' apart' after later
      refine ⟨post, ?_⟩
      rw [← split, List.append_assoc, ← tail]

end RoundRobin
