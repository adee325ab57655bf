import Mathlib.Data.List.Basic
import Mathlib.Tactic.Common

/-! The maximal runs of a stretch of memory that hold no separator, as pairs of a start and
a length. -/
namespace Separated

variable {B : Type*} {text : Nat → B} {sep : B} {start len stop : Nat} {c : Nat × Nat}

/-- A run between two separators or ends of the `len` elements from `start` on. -/
structure IsSpan (text : Nat → B) (sep : B) (start len : Nat) (c : Nat × Nat) : Prop where
  pos : 0 < c.2
  lower : start ≤ c.1
  upper : c.1 + c.2 ≤ start + len
  clear : ∀ x, c.1 ≤ x → x < c.1 + c.2 → text x ≠ sep
  left : c.1 = start ∨ text (c.1 - 1) = sep
  right : c.1 + c.2 = start + len ∨ text (c.1 + c.2) = sep

structure Spans (text : Nat → B) (sep : B) (start len : Nat) (cs : List (Nat × Nat)) : Prop where
  sorted : cs.Pairwise fun c d => c.1 + c.2 < d.1
  mem_iff : ∀ c, c ∈ cs ↔ IsSpan text sep start len c

theorem spans_empty : Spans text sep start 0 [] where
  sorted := List.Pairwise.nil
  mem_iff := by
    intro c
    refine ⟨fun member => absurd member (by simp), fun span => ?_⟩
    have pos := span.pos
    have lower := span.lower
    have upper := span.upper
    omega

/-- What lies behind a separator does not depend on what is before it. -/
theorem isSpan_behind (le : start ≤ stop) (here : text stop = sep) (late : stop + 1 ≤ c.1) :
    IsSpan text sep start (stop - start + (len + 1)) c ↔ IsSpan text sep (stop + 1) len c := by
  constructor
  · intro span
    have upper := span.upper
    refine ⟨span.pos, late, by omega, span.clear, ?_, ?_⟩
    · exact .inr (span.left.resolve_left (by omega))
    · exact span.right.imp_left fun eq => by omega
  · intro span
    have upper := span.upper
    refine ⟨span.pos, by omega, by omega, span.clear, ?_, ?_⟩
    · rcases span.left with eq | eq
      · refine .inr ?_
        rw [eq, Nat.add_sub_cancel]
        exact here
      · exact .inr eq
    · exact span.right.imp_left fun eq => by omega

theorem isSpan_skip (here : text start = sep) :
    IsSpan text sep start (len + 1) c ↔ IsSpan text sep (start + 1) len c := by
  have behind : start + 1 ≤ c.1 →
      (IsSpan text sep start (start - start + (len + 1)) c ↔ IsSpan text sep (start + 1) len c) :=
    isSpan_behind (Nat.le_refl start) here
  rw [Nat.sub_self, Nat.zero_add] at behind
  constructor
  · intro span
    refine (behind ?_).mp span
    have lower := span.lower
    by_contra early
    have pos := span.pos
    exact span.clear start (by omega) (by omega) here
  · exact fun span => (behind span.lower).mpr span

theorem IsSpan.whole (span : IsSpan text sep start len c) (upper : stop ≤ start + len)
    (clear : ∀ x, start ≤ x → x < stop → text x ≠ sep) (ends : c.1 + c.2 ≤ stop) :
    c = (start, stop - start) := by
  have lower := span.lower
  have size := span.pos
  have first : c.1 = start := by
    rcases span.left with eq | eq
    · exact eq
    · by_contra other
      exact clear (c.1 - 1) (by omega) (by omega) eq
  have last : c.1 + c.2 = stop := by
    rcases span.right with eq | eq
    · omega
    · by_contra other
      exact clear (c.1 + c.2) (by omega) (by omega) eq
  exact Prod.ext first (by omega)

theorem spans_skip {cs : List (Nat × Nat)} (here : text start = sep)
    (rest : Spans text sep (start + 1) len cs) : Spans text sep start (len + 1) cs where
  sorted := rest.sorted
  mem_iff := fun c => (rest.mem_iff c).trans (isSpan_skip here).symm

section

variable (pos : 0 < len) (clear : ∀ x, start ≤ x → x < start + len → text x ≠ sep)
include pos clear

theorem isSpan_whole : IsSpan text sep start len c ↔ c = (start, len) := by
  constructor
  · intro span
    have is := span.whole (Nat.le_refl _) clear span.upper
    rwa [Nat.add_sub_cancel_left] at is
  · rintro rfl
    exact ⟨pos, Nat.le_refl _, Nat.le_refl _, clear, .inl rfl, .inl rfl⟩

theorem spans_whole : Spans text sep start len [(start, len)] where
  sorted := List.pairwise_singleton _ _
  mem_iff := fun _ => List.mem_singleton.trans (isSpan_whole pos clear).symm

end

section

variable (pos : start < stop) (clear : ∀ x, start ≤ x → x < stop → text x ≠ sep)
  (here : text stop = sep)
include pos clear here

theorem isSpan_first : IsSpan text sep start (stop - start + (len + 1)) c ↔
      c = (start, stop - start) ∨ IsSpan text sep (stop + 1) len c := by
  constructor
  · intro span
    have size := span.pos
    -- it does not reach over the separator
    have side : c.1 + c.2 ≤ stop ∨ stop + 1 ≤ c.1 := by
      by_contra across
      exact span.clear stop (by omega) (by omega) here
    rcases side with early | late
    · exact .inl (span.whole (by omega) clear early)
    · exact .inr ((isSpan_behind (Nat.le_of_lt pos) here late).mp span)
  · rintro (rfl | span)
    · have last : start + (stop - start) = stop := by omega
      refine ⟨by omega, Nat.le_refl _, by omega, ?_, .inl rfl, .inr ?_⟩
      · intro x low high
        exact clear x low (by omega)
      · rw [last]
        exact here
    · exact (isSpan_behind (Nat.le_of_lt pos) here span.lower).mpr span

theorem spans_first {cs : List (Nat × Nat)} (rest : Spans text sep (stop + 1) len cs) :
    Spans text sep start (stop - start + (len + 1)) ((start, stop - start) :: cs) where
  sorted := by
    refine List.pairwise_cons.mpr ⟨?_, rest.sorted⟩
    intro d member
    have lower := ((rest.mem_iff d).mp member).lower
    omega
  mem_iff := by
    intro c
    rw [List.mem_cons, rest.mem_iff, isSpan_first pos clear here]

end

end Separated
