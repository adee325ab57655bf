import Mathlib.Algebra.Group.Nat.Defs
import Mathlib.Data.List.Nodup
import Mathlib.Tactic.Common

/-! A flat memory of bytes with little-endian 32-bit words, and singly linked
lists threaded through it: the word at a member's address is the address of the
next one, and the list ends at zero. -/
namespace Bytes

abbrev Mem := Nat → UInt8

def load32 (m : Mem) (a : Nat) : Nat :=
  (m a).toNat + 2 ^ 8 * (m (a + 1)).toNat + 2 ^ 16 * (m (a + 2)).toNat + 2 ^ 24 * (m (a + 3)).toNat

def store8 (m : Mem) (a : Nat) (v : UInt8) : Mem := fun x => if x = a then v else m x

def store32 (m : Mem) (a v : Nat) : Mem := fun x =>
  if a ≤ x ∧ x < a + 4 then UInt8.ofNat (v / 2 ^ (8 * (x - a))) else m x

/-- `memset`. -/
def fill (m : Mem) (a n : Nat) (b : UInt8) : Mem := fun x => if a ≤ x ∧ x < a + n then b else m x

theorem load32_lt (m : Mem) (a : Nat) : load32 m a < 2 ^ 32 := by
  have bounds := fun i => (m i).toNat_lt
  have b₀ := bounds a
  have b₁ := bounds (a + 1)
  have b₂ := bounds (a + 2)
  have b₃ := bounds (a + 3)
  unfold load32
  omega

variable {m m' : Mem} {a v x n : Nat} {l : List Nat}

theorem load32_congr (same : ∀ x, a ≤ x → x < a + 4 → m' x = m x) : load32 m' a = load32 m a := by
  simp only [load32, same a (by omega) (by omega), same (a + 1) (by omega) (by omega),
    same (a + 2) (by omega) (by omega), same (a + 3) (by omega) (by omega)]

theorem load32_store32 (m : Mem) (a : Nat) (word : v < 2 ^ 32) : load32 (store32 m a v) a = v := by
  have low : a ≤ a ∧ a < a + 4 := by omega
  have second : a ≤ a + 1 ∧ a + 1 < a + 4 := by omega
  have third : a ≤ a + 2 ∧ a + 2 < a + 4 := by omega
  have high : a ≤ a + 3 ∧ a + 3 < a + 4 := by omega
  simp only [load32, store32, if_pos low, if_pos second, if_pos third, if_pos high,
    UInt8.toNat_ofNat', Nat.sub_self, Nat.add_sub_cancel_left]
  omega

theorem store8_ne (m : Mem) (v : UInt8) (other : x ≠ a) : store8 m a v x = m x :=
  if_neg other

theorem store32_outside (m : Mem) (v : Nat) (out : x < a ∨ a + 4 ≤ x) : store32 m a v x = m x := by
  unfold store32
  rw [if_neg (by omega)]

theorem fill_outside (m : Mem) (b : UInt8) (out : x < a ∨ a + n ≤ x) : fill m a n b x = m x := by
  unfold fill
  rw [if_neg (by omega)]

def load (m : Mem) (a : Nat) : Nat → Nat
  | 0 => 0
  | n + 1 => (m a).toNat + 2 ^ 8 * load m (a + 1) n

theorem load_inj : load m a n = load m' a n ↔ ∀ k < n, m (a + k) = m' (a + k) := by
  induction n generalizing a with
  | zero => simp [load]
  | succ n ih =>
    have low := (m a).toNat_lt
    have low' := (m' a).toNat_lt
    have split : load m a (n + 1) = load m' a (n + 1) ↔
        m a = m' a ∧ load m (a + 1) n = load m' (a + 1) n := by
      rw [load, load, ← UInt8.toNat_inj]
      omega
    rw [split, ih]
    constructor
    · rintro ⟨first, rest⟩ k below
      cases k with
      | zero => exact first
      | succ k => exact Nat.succ_add_eq_add_succ a k ▸ rest k (by omega)
    · intro all
      refine ⟨all 0 (by omega), fun k below => ?_⟩
      rw [Nat.succ_add_eq_add_succ]
      exact all (k + 1) (by omega)

def store (m : Mem) (a n v : Nat) : Mem := fun x =>
  if a ≤ x ∧ x < a + n then UInt8.ofNat (v / 2 ^ (8 * (x - a))) else m x

theorem store_inside (m : Mem) (inside : a ≤ x ∧ x < a + n) :
    store m a n v x = UInt8.ofNat (v / 2 ^ (8 * (x - a))) := if_pos inside

theorem store_outside (m : Mem) (out : ¬ (a ≤ x ∧ x < a + n)) : store m a n v x = m x := if_neg out

theorem store_eq_iff (m : Mem) (a b n u v : Nat) : store m a 1 u = store m b n v ↔
    UInt8.ofNat u = store m b n v a ∧ ∀ x, b ≤ x → x < b + n → x ≠ a →
      m x = UInt8.ofNat (v / 2 ^ (8 * (x - b))) := by
  have first : store m a 1 u a = UInt8.ofNat u := by
    rw [store_inside m ⟨Nat.le_refl a, Nat.lt_succ_self a⟩]
    simp
  have others : ∀ x, x ≠ a → store m a 1 u x = m x := fun x other =>
    store_outside m fun inside => other (Nat.le_antisymm (Nat.lt_succ_iff.mp inside.2) inside.1)
  constructor
  · intro same
    refine ⟨by rw [← same, first], ?_⟩
    intro x low high other
    rw [← others x other, same, store_inside m ⟨low, high⟩]
  · rintro ⟨here, rest⟩
    funext x
    by_cases is : x = a
    · rw [is, first, here]
    · rw [others x is]
      by_cases inside : b ≤ x ∧ x < b + n
      · rw [store_inside m inside]
        exact rest x inside.1 inside.2 is
      · rw [store_outside m inside]

def Chain (m : Mem) : Nat → List Nat → Prop
  | a, [] => a = 0
  | a, x :: l => a = x ∧ x ≠ 0 ∧ Chain m (load32 m x) l

theorem chain_congr (same : ∀ x ∈ l, load32 m' x = load32 m x) (chain : Chain m a l) :
    Chain m' a l := by
  induction l generalizing a with
  | nil => exact chain
  | cons x l ih =>
    obtain ⟨start, mapped, rest⟩ := chain
    have tail := ih (fun y hy => same y (List.mem_cons_of_mem x hy)) rest
    exact ⟨start, mapped, (same x List.mem_cons_self).symm ▸ tail⟩

theorem chain_zero (chain : Chain m a l) : a = 0 ↔ l = [] := by
  cases l with
  | nil => exact ⟨fun _ => rfl, fun _ => chain⟩
  | cons x l =>
    obtain ⟨start, mapped, _⟩ := chain
    exact ⟨fun zero => absurd (start ▸ zero) mapped, fun empty => by cases empty⟩

theorem chain_push (mapped : x ≠ 0) (link : load32 m' x = a)
    (same : ∀ y ∈ l, load32 m' y = load32 m y) (chain : Chain m a l) : Chain m' x (x :: l) :=
  ⟨rfl, mapped, link.symm ▸ chain_congr same chain⟩

end Bytes
