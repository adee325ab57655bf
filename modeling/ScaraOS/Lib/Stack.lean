import Mathlib.Logic.Function.Basic
import Mathlib.Tactic.Common

/-! A stack of words that grows down through a memory, four bytes a word, and the list it
holds. What is written below the stack pointer, or at or above the top, leaves the list as
it is. -/
namespace Stack

open Function

variable {W : Type*}

/-- The words from `sp` up to `top`, the last one pushed first. -/
def Holds (mem : Nat → W) : Nat → List W → Nat → Prop
  | sp, [], top => sp = top
  | sp, w :: ws, top => mem sp = w ∧ Holds mem (sp + 4) ws top

/-- The words written one after the other, from `sp` up. -/
def store (mem : Nat → W) (sp : Nat) : List W → Nat → W
  | [] => mem
  | w :: ws => update (store mem (sp + 4) ws) sp w

def load (mem : Nat → W) (sp : Nat) : Nat → List W
  | 0 => []
  | n + 1 => mem sp :: load mem (sp + 4) n

variable {mem : Nat → W} {sp top : Nat} {ws front : List W}

theorem Holds.size (holds : Holds mem sp ws top) : sp + 4 * ws.length = top := by
  induction ws generalizing sp with
  | nil => exact holds
  | cons w ws ih =>
    have rest := ih holds.2
    simp only [List.length_cons]
    omega

theorem Holds.congr {mem' : Nat → W} (holds : Holds mem sp ws top)
    (same : ∀ a, sp ≤ a → a < top → mem' a = mem a) : Holds mem' sp ws top := by
  induction ws generalizing sp with
  | nil => exact holds
  | cons w ws ih =>
    have size := holds.2.size
    exact ⟨(same sp (Nat.le_refl sp) (by omega)).trans holds.1,
      ih holds.2 fun a low high => same a (by omega) high⟩

theorem holds_append {back : List W} :
    Holds mem sp (front ++ back) top ↔
      Holds mem sp front (sp + 4 * front.length) ∧ Holds mem (sp + 4 * front.length) back top := by
  induction front generalizing sp with
  | nil => simp [Holds]
  | cons w ws ih =>
    have shift : sp + 4 * (w :: ws).length = sp + 4 + 4 * ws.length := by
      simp only [List.length_cons]; omega
    simp only [List.cons_append, Holds, ih, shift, and_assoc]

theorem store_outside (mem : Nat → W) {a : Nat} (out : a < sp ∨ sp + 4 * ws.length ≤ a) :
    store mem sp ws a = mem a := by
  induction ws generalizing sp with
  | nil => rfl
  | cons w ws ih =>
    simp only [List.length_cons] at out
    rw [store, update_of_ne (by omega)]
    exact ih (by omega)

theorem holds_store (mem : Nat → W) (sp : Nat) (ws : List W) :
    Holds (store mem sp ws) sp ws (sp + 4 * ws.length) := by
  induction ws generalizing sp with
  | nil => rfl
  | cons w ws ih =>
    have shift : sp + 4 * (w :: ws).length = sp + 4 + 4 * ws.length := by
      simp only [List.length_cons]; omega
    refine ⟨update_self .., ?_⟩
    rw [shift]
    exact (ih (sp + 4)).congr fun a low _ => update_of_ne (by omega) ..

/-- Words pushed below a stack. -/
theorem Holds.push (holds : Holds mem sp ws top) {sp' : Nat}
    (room : sp' + 4 * front.length = sp) : Holds (store mem sp' front) sp' (front ++ ws) top := by
  subst room
  exact holds_append.mpr ⟨holds_store mem sp' front,
    holds.congr fun a low _ => store_outside mem (.inr low)⟩

theorem Holds.pop (front : List W) (holds : Holds mem sp (front ++ ws) top) :
    Holds mem (sp + 4 * front.length) ws top :=
  (holds_append.mp holds).2

/-- One word of the stack overwritten. -/
theorem Holds.set (front : List W) {w : W} (holds : Holds mem sp (front ++ w :: ws) top)
    (v : W) : Holds (update mem (sp + 4 * front.length) v) sp (front ++ v :: ws) top := by
  obtain ⟨below, -, above⟩ := holds_append.mp holds
  refine holds_append.mpr ⟨below.congr fun a _ high => update_of_ne (by omega) ..,
    update_self .., above.congr fun a low _ => update_of_ne (by omega) ..⟩

theorem Holds.load_eq (holds : Holds mem sp ws top) : load mem sp ws.length = ws := by
  induction ws generalizing sp with
  | nil => rfl
  | cons w ws ih => simp only [List.length_cons, load, ih holds.2, holds.1]

end Stack
