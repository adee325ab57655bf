import Mathlib.Logic.Function.Basic

/-! Loops: a fold of stores into a memory, a move of what it holds, and a fold of steps that
may stop with an error. -/
namespace Loops

open Function

universe u

variable {A B I Err : Type*} {S T : Type u} [DecidableEq A]

/-- `for i in l: m[addr i] := val i`. -/
def stores (addr : I → A) (val : I → B) (l : List I) (m : A → B) : A → B :=
  l.foldl (fun m i => update m (addr i) (val i)) m

theorem stores_outside {addr : I → A} {val : I → B} {l : List I} {m : A → B} {a : A}
    (out : ∀ i ∈ l, addr i ≠ a) : stores addr val l m a = m a := by
  induction l generalizing m with
  | nil => rfl
  | cons i rest ih =>
    have later := ih (m := update m (addr i) (val i))
      fun j member => out j (List.mem_cons_of_mem i member)
    have first : update m (addr i) (val i) a = m a :=
      update_of_ne (out i List.mem_cons_self).symm _ _
    exact later.trans first

theorem stores_inside {addr : I → A} {val : I → B} {l : List I} {m : A → B} {a : A} {v : B}
    (some_i : ∃ i ∈ l, addr i = a) (same : ∀ i ∈ l, addr i = a → val i = v) :
    stores addr val l m a = v := by
  induction l generalizing m with
  | nil => simp at some_i
  | cons i rest ih =>
    by_cases again : ∃ j ∈ rest, addr j = a
    · exact ih again fun j member => same j (List.mem_cons_of_mem i member)
    · have last : addr i = a := by
        obtain ⟨j, member, eq⟩ := some_i
        rcases List.mem_cons.mp member with rfl | member
        · exact eq
        · exact absurd ⟨j, member, eq⟩ again
      have later : stores addr val rest (update m (addr i) (val i)) a =
          update m (addr i) (val i) a :=
        stores_outside fun j member eq => again ⟨j, member, eq⟩
      refine later.trans ?_
      rw [last, update_self]
      exact same i List.mem_cons_self last

def shift (w n : Nat) (m : Nat → B) : Nat → B :=
  (List.range' w n).foldl (fun m i => update m (i - w) (m i)) m

/-- What a turn reads no turn before it has written, so the loop moves what was there at
first. -/
theorem shift_eq (w n : Nat) (m : Nat → B) (a : Nat) :
    shift w n m a = if a < n then m (a + w) else m a := by
  induction n generalizing a with
  | zero => rfl
  | succ n ih =>
    have last : shift w (n + 1) m = update (shift w n m) n (shift w n m (w + n)) := by
      unfold shift
      rw [List.range'_1_concat, List.foldl_append]
      simp
    have unread : shift w n m (w + n) = m (n + w) := by
      rw [ih, if_neg (by omega), Nat.add_comm]
    rw [last, unread]
    by_cases here : a = n
    · rw [here, update_self, if_pos (Nat.lt_succ_self n)]
    · rw [update_of_ne here, ih]
      by_cases below : a < n
      · rw [if_pos below, if_pos (by omega)]
      · rw [if_neg below, if_neg (by omega)]

theorem bind_ok {x : Except Err S} {f : S → Except Err T} {b : T} :
    x >>= f = .ok b ↔ ∃ a, x = .ok a ∧ f a = .ok b := by
  cases x with
  | error e | ok a => simp [bind, Except.bind]

theorem ok_of_toOption {x : Except Err S} {a : S} (eq : x.toOption = some a) : x = .ok a := by
  cases x with
  | error e => cases eq
  | ok b =>
    cases eq
    rfl

/-- A run that was evaluated: what was decided of its result holds of it. -/
theorem ok_of_decided {x : Except Err (S × Option I)} (P : S → I → Prop) [∀ s i, Decidable (P s i)]
    (eq : x.toOption.map (fun r => r.2.map fun i => decide (P r.1 i)) = some (some true)) :
    ∃ s i, x = .ok (s, some i) ∧ P s i := by
  obtain ⟨⟨s, r⟩, done, rest⟩ := Option.map_eq_some_iff.mp eq
  obtain ⟨i, rfl, value⟩ := Option.map_eq_some_iff.mp rest
  exact ⟨s, i, ok_of_toOption done, of_decide_eq_true value⟩

theorem foldlM_invariant {step : S → I → Except Err S} (inv : S → Prop) {l : List I}
    (keeps : ∀ s i t, i ∈ l → inv s → step s i = .ok t → inv t) {s t : S} (start : inv s)
    (ran : l.foldlM step s = .ok t) : inv t := by
  induction l generalizing s with
  | nil => exact Except.ok.inj ran ▸ start
  | cons i rest ih =>
    rw [List.foldlM_cons] at ran
    obtain ⟨m, first, later⟩ := bind_ok.mp ran
    exact ih (fun s j t member => keeps s j t (List.mem_cons_of_mem i member))
      (keeps s i m List.mem_cons_self start first) later

theorem foldlM_total {step : S → I → Except Err S} (inv : S → Prop) {l : List I}
    (goes : ∀ s i, i ∈ l → inv s → ∃ t, step s i = .ok t ∧ inv t) {s : S} (start : inv s) :
    ∃ t, l.foldlM step s = .ok t ∧ inv t := by
  induction l generalizing s with
  | nil => exact ⟨s, rfl, start⟩
  | cons i rest ih =>
    obtain ⟨m, first, kept⟩ := goes s i List.mem_cons_self start
    obtain ⟨t, later, inv_t⟩ :=
      ih (fun s j member => goes s j (List.mem_cons_of_mem i member)) kept
    refine ⟨t, ?_, inv_t⟩
    rw [List.foldlM_cons, first]
    exact later

end Loops
