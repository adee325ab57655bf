import Mathlib.Data.Option.Basic

/-! Runs of a labelled step function. A label fixes every choice of the
environment, so the function is deterministic and can be evaluated; `none` is a
step that does not happen: a guard that fails, or a machine that stopped. -/
namespace Run

variable {S T A : Type*}

def exec (step : S → A → Option S) : S → List A → Option S
  | s, [] => some s
  | s, a :: rest => (step s a).bind fun t => exec step t rest

@[simp] theorem exec_nil (step : S → A → Option S) (s : S) : exec step s [] = some s := rfl

theorem exec_cons (step : S → A → Option S) (s t : S) (a : A) (rest : List A) :
    exec step s (a :: rest) = some t ↔ ∃ m, step s a = some m ∧ exec step m rest = some t := by
  simp only [exec, Option.bind_eq_some_iff]

theorem exec_append (step : S → A → Option S) (s : S) (as bs : List A) :
    exec step s (as ++ bs) = (exec step s as).bind fun t => exec step t bs := by
  induction as generalizing s with
  | nil => rfl
  | cons a rest ih =>
    simp only [List.cons_append, exec, Option.bind_assoc, ih]

theorem exec_replicate {step : S → A → Option S} {a : A} (f : Nat → S)
    (next : ∀ n, step (f n) a = some (f (n + 1))) (n : Nat) :
    exec step (f 0) (List.replicate n a) = some (f n) := by
  induction n with
  | zero => rfl
  | succ n ih => simp [List.replicate_succ', exec_append, ih, exec, next]

/-- What was decided of the end of an evaluated run holds of it. -/
theorem decided (end_ : Option S) (P : S → Prop) [DecidablePred P]
    (value : end_.map (fun s => decide (P s)) = some true) : ∃ s, end_ = some s ∧ P s := by
  obtain ⟨s, ran, holds⟩ := Option.map_eq_some_iff.mp value
  exact ⟨s, ran, of_decide_eq_true holds⟩

variable {s t : S} {as bs : List A} {ok ok' : S → A → Prop}
  {step : S → A → Option S}

variable (inv : S → Prop)

/-- What one step keeps, a whole run keeps. The labels may be restricted by `ok`. -/
theorem exec_invariant (ok : A → Prop) (keeps : ∀ s a t, ok a → inv s → step s a = some t → inv t)
    (allowed : ∀ a ∈ as, ok a) (start : inv s) (ran : exec step s as = some t) : inv t := by
  induction as generalizing s with
  | nil => exact Option.some.inj ran ▸ start
  | cons a rest ih =>
    obtain ⟨m, first, later⟩ := (exec_cons step s t a rest).mp ran
    exact ih (fun b hb => allowed b (List.mem_cons_of_mem a hb))
      (keeps s a m (allowed a List.mem_cons_self) start first) later

/-- Every step of the run is made in a state where it meets the condition. -/
def Along (step : S → A → Option S) (ok : S → A → Prop) : S → List A → Prop
  | _, [] => True
  | s, a :: rest => ok s a ∧ ∀ t, step s a = some t → Along step ok t rest

instance decidableAlong {step : S → A → Option S} {ok : S → A → Prop}
    [∀ s a, Decidable (ok s a)] : (s : S) → (as : List A) → Decidable (Along step ok s as)
  | _, [] => isTrue trivial
  | s, a :: rest =>
    match eq : step s a with
    | none => decidable_of_iff (ok s a) (by simp [Along, eq])
    | some t =>
      have : Decidable (Along step ok t rest) := decidableAlong t rest
      decidable_of_iff (ok s a ∧ Along step ok t rest) (by simp [Along, eq])

theorem along_append (along : Along step ok s (as ++ bs))
    (ran : exec step s as = some t) : Along step ok s as ∧ Along step ok t bs := by
  induction as generalizing s with
  | nil => exact ⟨trivial, Option.some.inj ran ▸ along⟩
  | cons a rest ih =>
    obtain ⟨m, first, later⟩ := (exec_cons step s t a rest).mp ran
    obtain ⟨front, back⟩ := ih (along.2 m first) later
    refine ⟨⟨along.1, ?_⟩, back⟩
    intro m' again
    exact Option.some.inj (first.symm.trans again) ▸ front

theorem along_invariant (keeps : ∀ s a t, ok s a → inv s → step s a = some t → inv t)
    (along : Along step ok s as) (start : inv s) (ran : exec step s as = some t) : inv t := by
  induction as generalizing s with
  | nil => exact Option.some.inj ran ▸ start
  | cons a rest ih =>
    obtain ⟨m, first, later⟩ := (exec_cons step s t a rest).mp ran
    exact ih (along.2 m first) (keeps s a m along.1 start first) later

theorem along_of_invariant (gives : ∀ s a, ok s a → inv s → ok' s a)
    (keeps : ∀ s a t, ok s a → inv s → step s a = some t → inv t) (along : Along step ok s as)
    (start : inv s) : Along step ok' s as := by
  induction as generalizing s with
  | nil => trivial
  | cons a rest ih =>
    refine ⟨gives s a along.1 start, ?_⟩
    intro t ran
    exact ih (along.2 t ran) (keeps s a t along.1 start ran)

theorem along_join (ran : exec step s as = some t) (front : Along step ok s as)
    (back : Along step ok t bs) : Along step ok s (as ++ bs) := by
  induction as generalizing s with
  | nil => exact Option.some.inj ran ▸ back
  | cons a rest ih =>
    obtain ⟨m, first, later⟩ := (exec_cons step s t a rest).mp ran
    refine ⟨front.1, ?_⟩
    intro m' again
    cases first.symm.trans again
    exact ih later (front.2 m first)

theorem along_of_exec (ran : exec step s as = some t) :
    Along step (fun s a => ∃ u, step s a = some u) s as := by
  induction as generalizing s with
  | nil => trivial
  | cons a rest ih =>
    obtain ⟨m, first, later⟩ := (exec_cons step s t a rest).mp ran
    refine ⟨⟨m, first⟩, ?_⟩
    intro m' again
    exact Option.some.inj (first.symm.trans again) ▸ ih later

/-- Two conditions that agree on the legal steps in states of an invariant, which those that
meet the second keep. -/
theorem along_iff_of_legal {legal : S → A → Prop}
    (same : ∀ s a, legal s a → inv s → (ok s a ↔ ok' s a))
    (keeps : ∀ s a t, legal s a → ok' s a → inv s → step s a = some t → inv t)
    (allowed : Along step legal s as) (start : inv s) :
    Along step ok s as ↔ Along step ok' s as := by
  induction as generalizing s with
  | nil => exact Iff.rfl
  | cons a rest ih =>
    have here := same s a allowed.1 start
    have tail (met : ok' s a) (t : S) (first : step s a = some t) :
        Along step ok t rest ↔ Along step ok' t rest :=
      ih (allowed.2 t first) (keeps s a t allowed.1 met start first)
    constructor
    · rintro ⟨met, after⟩
      exact ⟨here.mp met, fun t first => (tail (here.mp met) t first).mp (after t first)⟩
    · rintro ⟨met, after⟩
      exact ⟨here.mpr met, fun t first => (tail met t first).mpr (after t first)⟩

theorem along_iff_of_invariant (same : ∀ s a t, inv s → step s a = some t → (ok s a ↔ ok' s a))
    (keeps : ∀ s a t, ok' s a → inv s → step s a = some t → inv t) (start : inv s)
    (ran : exec step s as = some t) : Along step ok s as ↔ Along step ok' s as := by
  refine along_iff_of_legal inv ?_ ?_ (along_of_exec ran) start
  · rintro s a ⟨u, first⟩ holds
    exact same s a u holds first
  · intro s a u _ met holds first
    exact keeps s a u met holds first

def outputs {B : Type*} (step : S → A → Option S) (out : S → A → Option B) : S → List A → List B
  | _, [] => []
  | s, a :: rest =>
    match step s a with
    | none => []
    | some t => (out s a).toList ++ outputs step out t rest

theorem outputs_cons {B : Type*} (out : S → A → Option B) {a : A}
    (first : step s a = some t) (rest : List A) :
    outputs step out s (a :: rest) = (out s a).toList ++ outputs step out t rest := by
  simp only [outputs, first]

theorem outputs_append {B : Type*} (out : S → A → Option B)
    (ran : exec step s as = some t) (bs : List A) :
    outputs step out s (as ++ bs) = outputs step out s as ++ outputs step out t bs := by
  induction as generalizing s with
  | nil => exact Option.some.inj ran ▸ rfl
  | cons a rest ih =>
    obtain ⟨m, first, later⟩ := (exec_cons step s t a rest).mp ran
    rw [List.cons_append, outputs_cons out first, outputs_cons out first, ih later, List.append_assoc]

end Run
