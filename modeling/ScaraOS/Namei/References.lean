import ScaraOS.Namei

/-! The references that `namei` takes and gives back. -/
namespace ScaraOS.Namei

open Function Separated

variable {I R : Type} [DecidableEq I]

/-- A null pointer comes back with the counts as they were, and an inode with one reference
more to it. -/
def Neutral (count : I → Nat) : Option (Option I × State I R) → Prop
  | none => False
  | some (none, s) => s.count = count
  | some (some i, s) => s.count = update count i (count i + 1)

/-- Every component is found from `i` on, and no count on the way is so high that the
references of the walk do not fit: there is one to the inode the walk stands on, and two
while that is looked up in itself. -/
def Resolves (g : Graph I R) (count : I → Nat) : R → I → List (Nat × Nat) → Prop
  | _, i, [] => count i + 1 < 2 ^ 32
  | r, i, c :: cs =>
    count i + 1 < 2 ^ 32 ∧
      match g.find r i c.1 c.2 with
      | (none, _) => False
      | (some j, r) =>
        (j = i → count i + 2 < 2 ^ 32) ∧
          Resolves g count (if j ≠ i ∧ count i = 0 then g.free r i else r) j cs

variable {s s' : State I R} {i : I} {g : Graph I R} {mem : Nat → UInt8} {name : Nat}
  {found : Option I} {count : I → Nat}

theorem walk_wrapped (g : Graph I R) (cs : List (Nat × Nat))
    (full : count i + 1 = 2 ^ 32) (wrapped : s.count = update count i 0) :
    ¬ Neutral count (walk g.vfs s i cs) := by
  have zero : s.count i = 0 := by rw [wrapped, update_self]
  induction cs generalizing s with
  | nil =>
    intro neutral
    have value := congrFun neutral i
    rw [zero, update_self] at value
    omega
  | cons c cs ih =>
    rw [walk]
    cases found : g.find s.rest i c.1 c.2 with
    | mk got r =>
      cases got with
      | none =>
        rw [lookup_none found]
        intro neutral
        have value := congrFun neutral i
        simp only at value
        omega
      | some j =>
        rw [lookup_some found]
        by_cases same : j = i
        · subst same
          have one : ({ iref s j with rest := r } : State I R).count j = 0 + 1 := by
            simp [iref, zero]
          simp only [iput_held g one]
          refine ih ?_ (update_self _ _ _)
          simp [iref, wrapped]
        · have stuck : iput g.vfs { iref s j with rest := r } i = none := by
            unfold iput
            rw [if_pos]
            simp only [iref]
            rw [update_of_ne (Ne.symm same), zero]
          simp only [stuck]
          exact id

theorem Resolves.room {r : R} :
    ∀ {cs : List (Nat × Nat)}, Resolves g count r i cs → count i + 1 < 2 ^ 32
  | [], right => right
  | _ :: _, right => right.1

theorem walk_neutral_iff (g : Graph I R) (words : ∀ k, count k < 2 ^ 32)
    (cs : List (Nat × Nat)) (small : count i + 1 < 2 ^ 32)
    (held : s.count = update count i (count i + 1)) :
    Neutral count (walk g.vfs s i cs) ↔ Resolves g count s.rest i cs := by
  have here : s.count i = count i + 1 := by rw [held, update_self]
  induction cs generalizing s i with
  | nil => exact iff_of_true held small
  | cons c cs ih =>
    rw [walk, Resolves]
    cases found : g.find s.rest i c.1 c.2 with
    | mk got r =>
      cases got with
      | none =>
        rw [lookup_none found]
        refine iff_of_false (fun neutral => ?_) fun right => right.2
        have value := congrFun neutral i
        simp only at value
        omega
      | some j =>
        rw [lookup_some found]
        simp only [small, true_and]
        by_cases same : j = i
        · subst same
          simp only [ne_eq, not_true_eq_false, false_and, if_false, forall_const]
          by_cases fits : count j + 2 < 2 ^ 32
          · have two : ({ iref s j with rest := r } : State I R).count j = (count j + 1) + 1 := by
              simp only [iref, update_self, here]
              exact Nat.mod_eq_of_lt fits
            simp only [iput_held g two, if_neg (Nat.succ_ne_zero (count j)), and_iff_right fits]
            refine ih small ?_ (update_self _ _ _)
            simp only [iref, update_idem, held]
          · have none' : iput g.vfs { iref s j with rest := r } j = none := by
              unfold iput
              rw [if_pos]
              simp only [iref, update_self, here]
              omega
            simp only [none']
            exact iff_of_false id fun right => fits right.1
        · have still : ({ iref s j with rest := r } : State I R).count i = count i + 1 := by
            simp only [iref]
            rw [update_of_ne (Ne.symm same), here]
          simp only [iput_held g still, step_other same held, ne_eq, same, not_false_eq_true,
            true_and, false_implies]
          by_cases fits : count j + 1 < 2 ^ 32
          · rw [Nat.mod_eq_of_lt fits]
            exact ih fits rfl (update_self _ _ _)
          · have full : count j + 1 = 2 ^ 32 := by
              have := words j
              omega
            refine iff_of_false ?_ fun right => fits right.room
            refine walk_wrapped g cs full ?_
            rw [full, Nat.mod_self]

/-- The references are right after `namei` exactly if there is no name, or every component of
it is found and the counts have room: a lookup that fails leaves the reference to the
directory it failed in. -/
theorem namei_neutral_iff (g : Graph I R) (mem : Nat → UInt8) (root cwd : I) (name len fuel : Nat)
    (s : State I R) (words : ∀ i, s.count i < 2 ^ 32)
    (string : name ≠ 0 → Terminated mem name len) (enough : len < fuel) :
    ∃ cs, (name ≠ 0 → Spans mem slash name len cs) ∧
      (Neutral s.count (namei g.vfs mem root cwd fuel name s) ↔
        name = 0 ∨ Resolves g s.count s.rest (if mem name = slash then root else cwd) cs) := by
  by_cases given : name = 0
  · refine ⟨[], fun named => absurd given named, iff_of_true ?_ (.inl given)⟩
    rw [namei, if_pos given]
    exact rfl
  · obtain ⟨cs, spans, run⟩ := namei_eq_walk g.vfs mem root cwd given (string given) enough
    refine ⟨cs, fun _ => spans, ?_⟩
    rw [run s, or_iff_right given]
    set start := if mem name = slash then root else cwd
    by_cases fits : s.count start + 1 < 2 ^ 32
    · refine walk_neutral_iff g words cs fits ?_
      rw [iref, Nat.mod_eq_of_lt fits]
    · have full : s.count start + 1 = 2 ^ 32 := by
        have := words start
        omega
      refine iff_of_false (walk_wrapped g cs full ?_) fun right => fits right.room
      rw [iref, full, Nat.mod_self]

theorem iref_words (words : ∀ k, s.count k < 2 ^ 32) (i k : I) : (iref s i).count k < 2 ^ 32 := by
  simp only [iref, update_apply]
  split
  · exact Nat.mod_lt _ (by decide)
  · exact words k

theorem iput_words (words : ∀ k, s.count k < 2 ^ 32) (put : iput g.vfs s i = some s') (k : I) :
    s'.count k < 2 ^ 32 := by
  unfold iput at put
  split at put
  · cases put
  · have count : s'.count = update s.count i (s.count i - 1) := by
      rw [← Option.some.inj put]
      split <;> rfl
    rw [count, update_apply]
    split
    · exact Nat.lt_of_le_of_lt (Nat.sub_le _ _) (words i)
    · exact words k

theorem scan_words (fuel : Nat) {n : Nat} {state : Scan} (words : ∀ k, s.count k < 2 ^ 32)
    (ran : scan g.vfs mem fuel s i name n state = some (found, s')) (k : I) :
    s'.count k < 2 ^ 32 := by
  induction fuel generalizing s i name n state with
  | zero => cases ran
  | succ fuel ih =>
    cases state with
    | inside =>
      rw [scan] at ran
      split at ran
      · cases looked : g.find s.rest i name (n - name) with
        | mk got r =>
          cases got with
          | none =>
            rw [lookup_none looked] at ran
            cases ran
            exact words k
          | some j =>
            rw [lookup_some looked] at ran
            dsimp only at ran
            cases put : iput g.vfs { iref s j with rest := r } i with
            | none =>
              rw [put] at ran
              cases ran
            | some u =>
              have after := iput_words (s := { iref s j with rest := r }) (iref_words words j) put
              rw [put] at ran
              dsimp only at ran
              split at ran
              · cases ran
                exact after k
              · exact ih after ran
      · exact ih words ran
    | between =>
      rw [scan] at ran
      split at ran
      · cases ran
        exact words k
      · split at ran
        · exact ih words ran
        · exact ih words ran

theorem namei_words {root cwd : I} {fuel : Nat} (words : ∀ k, s.count k < 2 ^ 32)
    (ran : namei g.vfs mem root cwd fuel name s = some (found, s')) (k : I) :
    s'.count k < 2 ^ 32 := by
  unfold namei at ran
  split at ran
  · cases ran
    exact words k
  · split at ran
    · exact scan_words fuel (iref_words words root) ran k
    · exact scan_words fuel (iref_words words cwd) ran k

/-- The second name of `/a//bc/` is not found in the inode 21, which keeps its reference. -/
theorem namei_keeps_directory :
    ∃ s, namei (sampleGraph 1).vfs samplePath 2 3 8 100 ⟨fun _ => 1, ()⟩ = some (none, s) ∧
      s.count 21 = 2 := by
  exact ⟨_, rfl, by decide⟩

def sampleCounts : Nat → Nat :=
  let count := update (fun _ => 1) 2 2
  let count := update (update count 21 2) 2 1
  update (update count 212 2) 21 1

theorem namei_neutral_found :
    (∃ cs, Spans samplePath slash 100 7 cs ∧ Resolves (sampleGraph 2) (fun _ => 1) () 2 cs) ∧
    Neutral (fun _ => 1) (namei (sampleGraph 2).vfs samplePath 2 3 8 100 ⟨fun _ => 1, ()⟩) := by
  have neutral : Neutral (fun _ => 1)
      (namei (sampleGraph 2).vfs samplePath 2 3 8 100 ⟨fun _ => 1, ()⟩) := by
    have run : namei (sampleGraph 2).vfs samplePath 2 3 8 100 ⟨fun _ => 1, ()⟩ =
        some (some 212, ⟨sampleCounts, ()⟩) := rfl
    rw [run]
    funext k
    simp only [sampleCounts, update_apply]
    grind
  obtain ⟨cs, spans, iff⟩ := namei_neutral_iff (sampleGraph 2) samplePath 2 3 100 7 8
    ⟨fun _ => 1, ()⟩ (fun _ => by norm_num) (fun _ => samplePath_terminated) (by decide)
  exact ⟨⟨cs, spans (by decide), (iff.mp neutral).resolve_left (by decide)⟩, neutral⟩

end ScaraOS.Namei
