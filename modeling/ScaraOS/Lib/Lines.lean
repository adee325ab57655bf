import Mathlib.Data.List.Basic

/-! A text cut into lines. A line ends at certain characters, which are not part of it, and
where it has reached the width. -/
namespace Lines

structure Text (A : Type*) where
  done : List (List A)
  line : List A
  deriving DecidableEq, Repr

variable {A : Type*} {ends : A → Bool} {width : Nat}

namespace Text

def cur (t : Text A) : Nat := t.done.length

def nth (t : Text A) (j : Nat) : List A := (t.done ++ [t.line]).getD j []

def extend (t : Text A) (c : A) : Text A := ⟨t.done, t.line ++ [c]⟩

def endLine (t : Text A) : Text A := ⟨t.done ++ [t.line], []⟩

def feed (ends : A → Bool) (width : Nat) (t : Text A) (c : A) : Text A :=
  if ends c then t.endLine
  else if (t.extend c).line.length < width then t.extend c
  else (t.extend c).endLine

def top (height : Nat) (t : Text A) : Nat := t.cur - (height - 1)

@[simp] theorem cur_extend (t : Text A) (c : A) : (t.extend c).cur = t.cur := rfl

@[simp] theorem cur_endLine (t : Text A) : t.endLine.cur = t.cur + 1 := by
  simp [endLine, cur]

theorem nth_cur (t : Text A) : t.nth t.cur = t.line := by
  simp [nth, cur]

theorem nth_above {t : Text A} {j : Nat} (above : t.cur < j) : t.nth j = [] := by
  unfold cur at above
  unfold nth
  rw [List.getD_eq_getElem?_getD, List.getElem?_eq_none (by simp; omega)]
  rfl

theorem nth_extend {t : Text A} {j : Nat} (c : A) (other : j ≠ t.cur) :
    (t.extend c).nth j = t.nth j := by
  rcases Nat.lt_or_gt_of_ne other with below | above
  · unfold cur at below
    simp [nth, extend, List.getElem?_append_left below]
  · rw [nth_above above, nth_above (show (t.extend c).cur < j from above)]

theorem nth_endLine (t : Text A) (j : Nat) : t.endLine.nth j = t.nth j := by
  by_cases within : j ≤ t.cur
  · unfold cur at within
    unfold nth endLine
    rw [List.getD_eq_getElem?_getD, List.getD_eq_getElem?_getD,
      List.getElem?_append_left (by simp; omega)]
  · rw [nth_above (show t.cur < j by omega)]
    by_cases next : j = t.cur + 1
    · rw [next, ← cur_endLine, nth_cur]
      rfl
    · exact nth_above (by rw [cur_endLine]; omega)

structure Fits (width : Nat) (t : Text A) : Prop where
  done : ∀ l ∈ t.done, l.length ≤ width
  line : t.line.length < width

theorem Fits.nth_le {t : Text A} (fits : t.Fits width) (j : Nat) : (t.nth j).length ≤ width := by
  by_cases within : j ≤ t.cur
  · have found : t.nth j ∈ t.done ++ [t.line] := by
      unfold cur at within
      unfold nth
      rw [List.getD_eq_getElem?_getD, List.getElem?_eq_getElem (by simp; omega)]
      exact List.getElem_mem _
    rcases List.mem_append.mp found with ended | last
    · exact fits.done _ ended
    · rw [List.mem_singleton.mp last]
      exact Nat.le_of_lt fits.line
  · rw [nth_above (by omega)]
    exact Nat.zero_le width

theorem Fits.endLine {t : Text A} (done : ∀ l ∈ t.done, l.length ≤ width)
    (line : t.line.length ≤ width) (wide : 0 < width) : t.endLine.Fits width := by
  refine ⟨?_, wide⟩
  intro l member
  rcases List.mem_append.mp member with ended | last
  · exact done l ended
  · rw [List.mem_singleton.mp last]
    exact line

theorem Fits.feed {t : Text A} (fits : t.Fits width) (c : A) :
    (t.feed ends width c).Fits width := by
  have wide : 0 < width := Nat.zero_lt_of_lt fits.line
  unfold Text.feed
  split
  · exact Fits.endLine fits.done (Nat.le_of_lt fits.line) wide
  · split
    · next room => exact ⟨fits.done, room⟩
    · have line : (t.extend c).line.length ≤ width := by
        have short := fits.line
        simp only [extend, List.length_append, List.length_singleton]
        omega
      exact Fits.endLine (t := t.extend c) fits.done line wide

end Text

def cut (ends : A → Bool) (width : Nat) (text : List A) : Text A :=
  text.foldl (Text.feed ends width) ⟨[], []⟩

theorem cut_fits (wide : 0 < width) (text : List A) : (cut ends width text).Fits width := by
  have start : (⟨[], []⟩ : Text A).Fits width := ⟨by simp, wide⟩
  unfold cut
  generalize (⟨[], []⟩ : Text A) = t at start
  induction text generalizing t with
  | nil => exact start
  | cons c rest ih => exact ih _ (start.feed c)

end Lines
