import Mathlib.Logic.Function.Basic
import ScaraOS.Lib.Run

/-! Demand filling of permissions. A page that is not there is filled by the first
access to it, with the permission that access needs and no more; a page that is
there is never filled again. A step that does not happen is an access refused. -/
namespace Demand

open Function

variable {K : Type*} [DecidableEq K]

structure Touch (K : Type*) where
  page : K
  write : Bool
  granted : Bool
  deriving DecidableEq, Repr

def touch (v : K → Option Bool) (x : Touch K) : Option (K → Option Bool) :=
  match v x.page with
  | some rw => if x.write = true → rw = true then some v else none
  | none => if x.granted then some (update v x.page (some x.write)) else none

/-- Access `x` comes after `pre`: a page that was there at the start allows it, and any
other was filled by an access that was granted and no weaker than `x`. -/
def Allowed (v : K → Option Bool) (pre : List (Touch K)) (x : Touch K) : Prop :=
  match v x.page with
  | some rw => x.write = true → rw = true
  | none => ∃ b, (pre ++ [x]).find? (fun y => decide (y.page = x.page)) = some b ∧
      b.granted = true ∧ (x.write = true → b.write = true)

theorem touch_isSome (v : K → Option Bool) (x : Touch K) :
    (touch v x).isSome = true ↔ Allowed v [] x := by
  unfold touch Allowed
  cases v x.page with
  | some rw | none => simp

theorem allowed_cons {v w : K → Option Bool} {y : Touch K} (done : touch v y = some w)
    (pre : List (Touch K)) (x : Touch K) : Allowed v (y :: pre) x ↔ Allowed w pre x := by
  unfold touch at done
  cases there : v y.page with
  | some rw =>
    simp only [there] at done
    split at done
    · cases done
      unfold Allowed
      cases mine : v x.page with
      | some _ => rfl
      | none =>
        have other : ¬ y.page = x.page := by
          intro same
          rw [same, mine] at there
          cases there
        simp only [List.cons_append, List.find?_cons, other, decide_false]
    · cases done
  | none =>
    simp only [there] at done
    split at done
    · rename_i granted
      cases done
      unfold Allowed
      by_cases same : x.page = y.page
      · -- The first access filled the page of `x`.
        simp only [same, there, update_self, List.cons_append, List.find?_cons,
          decide_true, Option.some.injEq, exists_eq_left', granted, true_and]
      · have other : ¬ y.page = x.page := fun is => same is.symm
        simp only [update_of_ne same, List.cons_append, List.find?_cons, other,
          decide_false]
    · cases done

theorem exec_isSome (v : K → Option Bool) (xs : List (Touch K)) :
    (Run.exec touch v xs).isSome = true ↔
      ∀ pre x post, xs = pre ++ x :: post → Allowed v pre x := by
  induction xs generalizing v with
  | nil =>
    constructor
    · intro _ pre x post split
      cases pre <;> cases split
    · intro _
      rfl
  | cons y rest ih =>
    have head := touch_isSome v y
    cases done : touch v y with
    | none =>
      rw [done] at head
      simp only [Run.exec, done, Option.bind_none, Option.isSome_none, Bool.false_eq_true,
        false_iff]
      intro all
      have := head.mpr (all [] y rest rfl)
      cases this
    | some w =>
      rw [done] at head
      simp only [Run.exec, done, Option.bind_some]
      rw [ih w]
      constructor
      · intro all pre x post split
        cases pre with
        | nil =>
          obtain ⟨rfl, _⟩ := List.cons.inj split
          exact head.mp rfl
        | cons z pre =>
          obtain ⟨rfl, tail⟩ := List.cons.inj split
          exact (allowed_cons done pre x).mpr (all pre x post tail)
      · intro all pre x post split
        exact (allowed_cons done pre x).mp (all (y :: pre) x post (by rw [split]; rfl))

end Demand
