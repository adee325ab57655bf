import Mathlib.Data.List.Chain
import ScaraOS.Fdt.Model

/-! What the walks of the descriptor table look at. With two entries or more the
second one is never looked at, and the list head is, as if it were an entry. The
search for a handle ends at the least handle that is not met. -/
namespace ScaraOS.Fdt

variable {σ : Links Cell} {a first b : Cell} {l : List Cell} {n h fuel k : Nat} {t : Table}
  {handles : List Nat}

section Walk

variable {β : Type}

def foldUntil (body : Cell → β → β × Bool) : List Cell → β → β
  | [], acc => acc
  | c :: rest, acc =>
    match body c acc with
    | (acc, true) => acc
    | (acc, false) => foldUntil body rest acc

def examined : List Cell → List Cell
  | [] => []
  | e :: rest => ((e :: rest) ++ [.fds, e]).drop 2

theorem examined_many (e x : Cell) (rest : List Cell) :
    examined (e :: x :: rest) = rest ++ [.fds, e] := rfl

theorem chain_around (seg : Links.Seg σ a l .fds) (back : σ.next .fds = first) :
    (a :: l ++ [.fds, first]).IsChain (fun x y => σ.next x = y) := by
  induction l generalizing a with
  | nil => simpa using ⟨seg.1, back⟩
  | cons x l ih => simpa using ⟨seg.1.1, by simpa using ih seg.2⟩

/-- The cursor `a`, the saved next cell `b` and the cells `rest` yet to be met. -/
theorem forEachEntrySafe_spec (body : Cell → β → β × Bool) {rest : List Cell} (acc : β)
    (ahead : l ++ [.fds, first] = a :: b :: rest)
    (linked : (a :: b :: rest).IsChain (fun x y => σ.next x = y)) (inner : Cell.fds ∉ l)
    (enough : l.length < n) :
    forEachEntrySafe σ body n a b acc = some (foldUntil body rest acc) := by
  induction l generalizing a b rest n acc with
  | nil =>
    obtain ⟨rfl, rfl, rfl⟩ : Cell.fds = a ∧ first = b ∧ [] = rest := by simpa using ahead
    cases n with
    | zero => simp at enough
    | succ n => simp only [forEachEntrySafe, if_true, foldUntil]
  | cons x l ih =>
    obtain ⟨rfl, behind⟩ : x = a ∧ l ++ [.fds, first] = b :: rest := by simpa using ahead
    obtain ⟨other, inner⟩ := List.ne_and_not_mem_of_not_mem_cons inner
    cases n with
    | zero => simp at enough
    | succ n =>
      cases rest with
      | nil =>
        have short := congrArg List.length behind
        simp at short
      | cons c rest =>
        have tail := (List.isChain_cons_cons.mp linked).2
        have next : σ.next b = c := (List.isChain_cons_cons.mp tail).1
        simp only [forEachEntrySafe, if_neg (Ne.symm other), next, foldUntil]
        obtain ⟨after, returns⟩ := body c acc
        cases returns with
        | true => rfl
        | false => exact ih after behind tail inner (by simpa using enough)

theorem overFds_spec (body : Cell → β → β × Bool) (ring : Links.Ring t.links .fds l) (acc : β)
    (enough : l.length < n) : overFds t body n acc = some (foldUntil body (examined l) acc) := by
  have inner := (List.nodup_cons.mp ring.2).1
  cases l with
  | nil =>
    have back : t.links.next .fds = .fds := ring.1.1
    cases n with
    | zero => simp at enough
    | succ n => simp only [overFds, back, forEachEntrySafe, if_true, examined, foldUntil]
  | cons e rest =>
    have back : t.links.next .fds = e := ring.1.1.1
    have linked := chain_around ring.1.2 back
    cases rest with
    | nil | cons x rest =>
      have second := (List.isChain_cons_cons.mp linked).1
      simp only [overFds, back, second]
      exact forEachEntrySafe_spec body acc rfl linked inner enough

end Walk

def bump (handles : List Nat) (handle : Nat) : Nat :=
  handles.foldl (fun handle x => if x = handle then (handle + 1) % wordSize else handle) handle

theorem foldUntil_bump (t : Table) (cells : List Cell) (handle : Nat) :
    foldUntil (fun fdt handle =>
      (if t.handle fdt = handle then (handle + 1) % wordSize else handle, false)) cells handle
      = bump (cells.map t.handle) handle := by
  induction cells generalizing handle with
  | nil => rfl
  | cons c cells ih =>
    simp only [foldUntil]
    rw [ih]
    rfl

theorem bump_spec (handles : List Nat) {handle : Nat} (small : handle + handles.length < wordSize) :
    handle ≤ bump handles handle ∧ bump handles handle ≤ handle + handles.length ∧
      (∀ k, handle ≤ k → k < bump handles handle → k ∈ handles) ∧
      (bump handles handle = handle → handle ∉ handles) := by
  induction handles generalizing handle with
  | nil =>
    refine ⟨Nat.le_refl _, Nat.le_refl _, ?_, by simp⟩
    intro k low high
    exact absurd high (Nat.not_lt_of_le low)
  | cons x handles ih =>
    simp only [List.length_cons] at small
    by_cases hit : x = handle
    · have step : bump (x :: handles) handle = bump handles (handle + 1) := by
        simp only [bump, List.foldl_cons, if_pos hit]
        rw [Nat.mod_eq_of_lt (by omega)]
      have passed := ih (show handle + 1 + handles.length < wordSize by omega)
      obtain ⟨low, high, seen, _⟩ := passed
      rw [step, List.length_cons]
      refine ⟨by omega, by omega, ?_, by omega⟩
      intro k above below
      rcases Nat.lt_or_eq_of_le above with later | same
      · exact List.mem_cons_of_mem x (seen k later below)
      · exact List.mem_cons.mpr (.inl (same.symm.trans hit.symm))
    · have step : bump (x :: handles) handle = bump handles handle := by
        simp only [bump, List.foldl_cons, if_neg hit]
      obtain ⟨low, high, seen, still⟩ := ih (show handle + handles.length < wordSize by omega)
      rw [step, List.length_cons]
      refine ⟨low, by omega, ?_, ?_⟩
      · exact fun k above below => List.mem_cons_of_mem x (seen k above below)
      · intro same member
        rcases List.mem_cons.mp member with here | there
        · exact hit here.symm
        · exact still same there

def LeastMissing (handles : List Nat) (h : Nat) : Prop := h ∉ handles ∧ ∀ k < h, k ∈ handles

theorem least_unique {g : Nat} (left : LeastMissing handles g)
    (right : LeastMissing handles h) : g = h := by
  rcases Nat.lt_trichotomy g h with below | same | above
  · exact absurd (right.2 g below) left.1
  · exact same
  · exact absurd (left.2 h above) right.1

theorem below_length (below : ∀ k < h, k ∈ handles) : h ≤ handles.length := by
  have within : List.range h ⊆ handles := fun k member => below k (List.mem_range.mp member)
  have bound := (List.nodup_range.subperm within).length_le
  rwa [List.length_range] at bound

theorem handleSearch_spec (ring : Links.Ring t.links .fds l)
    (met : (examined l).map t.handle = handles) (few : handles.length + handles.length < wordSize)
    (enough : l.length < fuel) (below : ∀ k < h, k ∈ handles) (rounds : handles.length < h + n) :
    ∃ r, handleSearch t fuel n h = some r ∧ LeastMissing handles r := by
  induction n generalizing h with
  | zero =>
    have bound := below_length below
    omega
  | succ n ih =>
    have bound := below_length below
    have pass : handlePass t fuel h = some (bump handles h) := by
      unfold handlePass
      rw [overFds_spec _ ring h enough, foldUntil_bump, met]
    obtain ⟨low, high, seen, still⟩ :=
      bump_spec handles (show h + handles.length < wordSize by omega)
    have reached : ∀ k < bump handles h, k ∈ handles := by
      intro k under
      rcases Nat.lt_or_ge k h with before | behind
      · exact below k before
      · exact seen k behind under
    simp only [handleSearch, pass, Option.bind_some]
    by_cases same : h = bump handles h
    · rw [if_neg (not_not.mpr same)]
      exact ⟨bump handles h, rfl, same ▸ still same.symm, reached⟩
    · rw [if_pos same]
      exact ih reached (by omega)

theorem forEachEntrySafe_more {β : Type} {body : Cell → β → β × Bool} {acc r : β}
    (ended : forEachEntrySafe σ body n a b acc = some r) (more : n ≤ k) :
    forEachEntrySafe σ body k a b acc = some r := by
  induction n generalizing k a b acc with
  | zero => cases ended
  | succ n ih =>
    cases k with
    | zero => omega
    | succ k =>
      simp only [forEachEntrySafe] at ended ⊢
      split at ended
      · rename_i around
        rw [if_pos around]
        exact ended
      · rename_i inner
        rw [if_neg inner]
        cases outcome : body (σ.next b) acc with
        | mk after returns =>
          rw [outcome] at ended
          cases returns with
          | true => exact ended
          | false => exact ih ended (by omega)

theorem handleSearch_more {more r : Nat} (ended : handleSearch t fuel n h = some r)
    (longer : fuel ≤ more) (rounds : n ≤ k) : handleSearch t more k h = some r := by
  induction n generalizing k h with
  | zero => cases ended
  | succ n ih =>
    cases k with
    | zero => omega
    | succ k =>
      simp only [handleSearch, Option.bind_eq_some_iff] at ended ⊢
      obtain ⟨g, pass, rest⟩ := ended
      refine ⟨g, forEachEntrySafe_more pass longer, ?_⟩
      split at rest
      · rename_i other
        rw [if_pos other]
        exact ih rest (by omega)
      · rename_i same
        rw [if_neg same]
        exact rest

theorem fdtEntryAdd_more {file a : Nat} {r : Table × Int}
    (ended : fdtEntryAdd n t file (some a) = some r) (more : n ≤ k) :
    fdtEntryAdd k t file (some a) = some r := by
  unfold fdtEntryAdd at ended ⊢
  split at ended
  · rename_i null
    rw [if_pos null]
    exact ended
  · rename_i some
    rw [if_neg some]
    simp only [Option.map_eq_some_iff] at ended ⊢
    obtain ⟨h, found, result⟩ := ended
    refine ⟨h, ?_, result⟩
    split at found
    · rename_i empty
      rw [if_pos empty]
      exact found
    · rename_i nonempty
      rw [if_neg nonempty]
      exact handleSearch_more found more more

theorem fdtEntryDel_more {r : Table × Option Nat} (ended : fdtEntryDel n t h = some r)
    (more : n ≤ k) : fdtEntryDel k t h = some r := by
  unfold fdtEntryDel findHandle at ended ⊢
  simp only [Option.map_eq_some_iff] at ended ⊢
  obtain ⟨found, walked, result⟩ := ended
  refine ⟨found, ?_, result⟩
  split at walked
  · rename_i empty
    rw [if_pos empty]
    exact walked
  · rename_i nonempty
    rw [if_neg nonempty]
    exact forEachEntrySafe_more walked more

end ScaraOS.Fdt
