import Mathlib.Algebra.Group.Nat.Defs
import Mathlib.Logic.Function.Basic
import Mathlib.Tactic.IntervalCases
import ScaraOS.Lib.Spans

/-! Path names: `namei` of `fs/dentry.c`, with `iref` and `iput` of `vfs.h`. -/
namespace ScaraOS.Namei

open Function Separated

structure State (I R : Type) where
  count : I → Nat
  rest : R

/-- `i_iop->lookup`, which is given the address and the length of a name, and
`inode_free`. -/
structure Vfs (I R : Type) where
  lookup : State I R → I → Nat → Nat → Option I × State I R
  inodeFree : State I R → I → State I R

variable {I R : Type} [DecidableEq I]

def iref (s : State I R) (i : I) : State I R :=
  { s with count := update s.count i ((s.count i + 1) % 2 ^ 32) }

variable {s : State I R} {i j : I} {n a : Nat} {v : Vfs I R} {r : R}

theorem iref_count (small : s.count i + 1 < 2 ^ 32) : (iref s i).count i = s.count i + 1 := by
  unfold iref
  simp only [update_self]
  exact Nat.mod_eq_of_lt small

/-- No result is the `BUG_ON`. -/
def iput (v : Vfs I R) (s : State I R) (i : I) : Option (State I R) :=
  if s.count i = 0 then none
  else
    let s := { s with count := update s.count i (s.count i - 1) }
    some (if s.count i = 0 then v.inodeFree s i else s)

def slash : UInt8 := 47

/-- The `state` of the loop: 0 in a component, 1 between two. -/
inductive Scan where
  | inside
  | between
  deriving DecidableEq, Repr

/-- The `for` loop, `name` being where the component starts. -/
def scan (v : Vfs I R) (mem : Nat → UInt8) :
    Nat → State I R → I → (name n : Nat) → Scan → Option (Option I × State I R)
  | 0, _, _, _, _, _ => none
  | fuel + 1, s, i, name, n, .inside =>
    if mem n = 0 ∨ mem n = slash then
      match v.lookup s i name (n - name) with
      | (none, s) => some (none, s)
      | (some j, s) =>
        match iput v s i with
        | none => none
        | some s => if mem n = 0 then some (some j, s) else scan v mem fuel s j name (n + 1) .between
    else scan v mem fuel s i name (n + 1) .inside
  | fuel + 1, s, i, name, n, .between =>
    if mem n = 0 then some (some i, s)
    else if mem n ≠ slash then scan v mem fuel s i n (n + 1) .inside
    else scan v mem fuel s i name (n + 1) .between

def namei (v : Vfs I R) (mem : Nat → UInt8) (root cwd : I) (fuel name : Nat) (s : State I R) :
    Option (Option I × State I R) :=
  if name = 0 then some (none, s)
  else if mem name = slash then scan v mem fuel (iref s root) root (name + 1) (name + 1) .between
  else scan v mem fuel (iref s cwd) cwd name name .between

def Terminated (mem : Nat → UInt8) (name len : Nat) : Prop :=
  (∀ x, name ≤ x → x < name + len → mem x ≠ 0) ∧ mem (name + len) = 0

/-- One lookup after the other, each directory given back when the next inode is there. -/
def walk (v : Vfs I R) : State I R → I → List (Nat × Nat) → Option (Option I × State I R)
  | s, i, [] => some (some i, s)
  | s, i, c :: cs =>
    match v.lookup s i c.1 c.2 with
    | (none, s) => some (none, s)
    | (some j, s) =>
      match iput v s i with
      | none => none
      | some s => walk v s j cs

def Finds (v : Vfs I R) (find : I → Nat → Nat → Option I) : Prop :=
  ∀ s i a n, (v.lookup s i a n).1 = find i a n

/-- A lookup gives a reference to what it finds, as long as that can be counted, and takes none
away. -/
structure Counted (v : Vfs I R) : Prop where
  found : ∀ s i a n j s', v.lookup s i a n = (some j, s') →
    (s.count j + 1 < 2 ^ 32 → s'.count j = s.count j + 1) ∧
      ∀ k ≠ j, s.count k ≠ 0 → s'.count k ≠ 0
  freed : ∀ s i, (v.inodeFree s i).count = s.count

/-- No count is at its limit when a lookup of the walk is to raise it. -/
def Fits (v : Vfs I R) : State I R → I → List (Nat × Nat) → Prop
  | _, _, [] => True
  | s, i, c :: cs => ∀ j s', v.lookup s i c.1 c.2 = (some j, s') →
      s.count j + 1 < 2 ^ 32 ∧ ∀ s'', iput v s' i = some s'' → Fits v s'' j cs

theorem terminated_next {mem : Nat → UInt8} {k : Nat} (string : Terminated mem n (k + 1)) :
    mem n ≠ 0 ∧ Terminated mem (n + 1) k := by
  obtain ⟨chars, stop⟩ := string
  refine ⟨chars n (Nat.le_refl n) (by omega), ?_, ?_⟩
  · intro x low high
    exact chars x (by omega) (by omega)
  · rwa [Nat.add_assoc, Nat.add_comm 1 k]

theorem slash_ne_zero : slash ≠ 0 := by decide

/-- From either state, with `k` characters to come, the loop walks through the components
that are left. In a component that began at `name` this is one that nothing has ended yet. -/
theorem scan_walk (v : Vfs I R) (mem : Nat → UInt8) (k fuel n : Nat) (string : Terminated mem n k)
    (enough : k < fuel) :
    (∃ cs, Spans mem slash n k cs ∧
      ∀ s i name, scan v mem fuel s i name n .between = walk v s i cs) ∧
    ∀ name, name < n → (∀ x, name ≤ x → x < n → mem x ≠ slash) →
      ∃ cs, Spans mem slash name (n - name + k) cs ∧
        ∀ s i, scan v mem fuel s i name n .inside = walk v s i cs := by
  induction k generalizing fuel n with
  | zero =>
    obtain ⟨fuel, rfl⟩ := Nat.exists_eq_succ_of_ne_zero (Nat.ne_of_gt enough)
    have stop : mem n = 0 := string.2
    refine ⟨⟨[], spans_empty, ?_⟩, ?_⟩
    · intro s i name
      simp [scan, walk, stop]
    · intro name before clear
      refine ⟨[(name, n - name)], ?_, ?_⟩
      · refine spans_whole (by omega) ?_
        intro x low high
        exact clear x low (by omega)
      · intro s i
        simp [scan, walk, stop]
  | succ k ih =>
    obtain ⟨fuel, rfl⟩ := Nat.exists_eq_succ_of_ne_zero (Nat.ne_of_gt (Nat.zero_lt_of_lt enough))
    obtain ⟨char, later⟩ := terminated_next string
    obtain ⟨⟨cs, spans, between⟩, inside⟩ := ih fuel (n + 1) later (Nat.lt_of_succ_lt_succ enough)
    by_cases here : mem n = slash
    · refine ⟨⟨cs, spans_skip here spans, ?_⟩, ?_⟩
      · intro s i name
        rw [scan, if_neg char, if_neg (not_not.mpr here)]
        exact between s i name
      · intro name before clear
        refine ⟨(name, n - name) :: cs, spans_first before clear here spans, ?_⟩
        intro s i
        rw [scan, if_pos (.inr here), walk]
        simp only [if_neg char, between]
    · have started : ∀ name, name ≤ n → (∀ x, name ≤ x → x < n → mem x ≠ slash) →
          ∃ cs, Spans mem slash name (n - name + (k + 1)) cs ∧
            ∀ s i, scan v mem fuel s i name (n + 1) .inside = walk v s i cs := by
        intro name before clear
        have longer : n + 1 - name + k = n - name + (k + 1) := by omega
        rw [← longer]
        refine inside name (Nat.lt_succ_of_le before) ?_
        intro x low high
        by_cases last : x = n
        · rw [last]
          exact here
        · exact clear x low (by omega)
      refine ⟨?_, ?_⟩
      · obtain ⟨cs, spans, run⟩ := started n (Nat.le_refl n) fun x low high => by omega
        rw [Nat.sub_self, Nat.zero_add] at spans
        refine ⟨cs, spans, ?_⟩
        intro s i name
        rw [scan, if_neg char, if_pos here]
        exact run s i
      · intro name before clear
        obtain ⟨cs, spans, run⟩ := started name (Nat.le_of_lt before) clear
        refine ⟨cs, spans, ?_⟩
        intro s i
        rw [scan, if_neg (by simp [char, here])]
        exact run s i

theorem iput_counted (counted : Counted v) {s' : State I R} (held : s.count i ≠ 0)
    (found : v.lookup s i a n = (some j, s')) (fits : s.count j + 1 < 2 ^ 32) :
    ∃ s'', iput v s' i = some s'' ∧ s''.count j ≠ 0 := by
  obtain ⟨more, others⟩ := counted.found s i a n j s' found
  replace more := more fits
  have still : s'.count i ≠ 0 := by
    by_cases same : i = j
    · rw [same, more]
      omega
    · exact others i same held
  have left : ∀ s'' : State I R, s''.count = update s'.count i (s'.count i - 1) →
      s''.count j ≠ 0 := by
    intro s'' eq
    rw [eq]
    by_cases same : j = i
    · subst same
      rw [update_self]
      omega
    · rw [update_of_ne same]
      omega
  refine ⟨_, if_neg still, ?_⟩
  refine left _ ?_
  split
  · rw [counted.freed]
  · rfl

theorem walk_returns {find : I → Nat → Nat → Option I} (finds : Finds v find) (counted : Counted v)
    (cs : List (Nat × Nat)) (held : s.count i ≠ 0) (fits : Fits v s i cs) :
    ∃ s', walk v s i cs = some (cs.foldlM (fun i c => find i c.1 c.2) i, s') := by
  induction cs generalizing s i with
  | nil => exact ⟨s, rfl⟩
  | cons c cs ih =>
    rw [walk, List.foldlM_cons, ← finds s i c.1 c.2]
    cases looked : v.lookup s i c.1 c.2 with
    | mk got s' =>
      cases got with
      | none => exact ⟨s', rfl⟩
      | some j =>
        obtain ⟨room, rest⟩ := fits j s' looked
        obtain ⟨s'', put, held'⟩ := iput_counted counted held looked room
        obtain ⟨last, run⟩ := ih held' (rest s'' put)
        refine ⟨last, ?_⟩
        simp only [put]
        exact run

theorem namei_eq_walk (v : Vfs I R) (mem : Nat → UInt8) (root cwd : I) {name len fuel : Nat}
    (given : name ≠ 0) (string : Terminated mem name len) (enough : len < fuel) :
    ∃ cs, Spans mem slash name len cs ∧ ∀ s, namei v mem root cwd fuel name s =
      walk v (iref s (if mem name = slash then root else cwd))
        (if mem name = slash then root else cwd) cs := by
  by_cases absolute : mem name = slash
  · obtain ⟨k, rfl⟩ : ∃ k, len = k + 1 := by
      refine Nat.exists_eq_succ_of_ne_zero ?_
      rintro rfl
      exact slash_ne_zero (absolute.symm.trans string.2)
    obtain ⟨⟨cs, spans, run⟩, -⟩ :=
      scan_walk v mem k fuel (name + 1) (terminated_next string).2 (by omega)
    refine ⟨cs, spans_skip absolute spans, fun s => ?_⟩
    rw [namei, if_neg given, if_pos absolute, if_pos absolute]
    exact run _ _ _
  · obtain ⟨⟨cs, spans, run⟩, -⟩ := scan_walk v mem len fuel name string enough
    refine ⟨cs, spans, fun s => ?_⟩
    rw [namei, if_neg given, if_neg absolute, if_neg absolute]
    exact run _ _ _

/-- Whatever the lookups do, `namei` is the walk from the root or from the working directory
through the components of the path, which are the runs between the slashes; and as long as
lookups count their references, and these can be counted, it comes back with what the walk finds. -/
theorem namei_walks (v : Vfs I R) (mem : Nat → UInt8) (root cwd : I) (name len fuel : Nat)
    (s : State I R) (given : name ≠ 0) (string : Terminated mem name len) (enough : len < fuel) :
    ∃ cs, Spans mem slash name len cs ∧
      let start := if mem name = slash then root else cwd
      namei v mem root cwd fuel name s = walk v (iref s start) start cs ∧
      ∀ find, Finds v find → Counted v → s.count start + 1 < 2 ^ 32 → Fits v (iref s start) start cs →
        ∃ s', namei v mem root cwd fuel name s =
          some (cs.foldlM (fun i c => find i c.1 c.2) start, s') := by
  obtain ⟨cs, spans, run⟩ := namei_eq_walk v mem root cwd given string enough
  refine ⟨cs, spans, run s, ?_⟩
  intro find finds counted small fits
  rw [run s]
  refine walk_returns finds counted cs ?_ fits
  rw [iref_count small]
  omega

/-- A file system as `namei` sees it: what the lookup of a name finds in a directory, with
what it does to the state of the file system, and what `inode_free` does to it. -/
structure Graph (I R : Type) where
  find : R → I → Nat → Nat → Option I × R
  free : R → I → R

/-- A lookup returns `iget` of what it finds, which counts a reference; an inode that is not
in the cache has none before. -/
def Graph.vfs (g : Graph I R) : Vfs I R where
  lookup s i a n :=
    match g.find s.rest i a n with
    | (none, r) => (none, { s with rest := r })
    | (some j, r) => (some j, { iref s j with rest := r })
  inodeFree s i := { s with rest := g.free s.rest i }

theorem lookup_none {g : Graph I R} (lost : g.find s.rest i a n = (none, r)) :
    g.vfs.lookup s i a n = (none, { s with rest := r }) := by
  simp [Graph.vfs, lost]

theorem lookup_some {g : Graph I R} (found : g.find s.rest i a n = (some j, r)) :
    g.vfs.lookup s i a n = (some j, { iref s j with rest := r }) := by
  simp [Graph.vfs, found]

theorem iput_held (g : Graph I R) {c : Nat} (held : s.count i = c + 1) :
    iput g.vfs s i = some ⟨update s.count i c, if c = 0 then g.free s.rest i else s.rest⟩ := by
  unfold iput
  rw [if_neg (by omega), held, Nat.add_sub_cancel]
  by_cases last : c = 0 <;> simp [last, Graph.vfs]

theorem graph_counted (g : Graph I R) : Counted g.vfs := by
  refine ⟨fun s i a n j s' looked => ?_, fun _ _ => rfl⟩
  cases found : g.find s.rest i a n with
  | mk got r =>
    cases got with
    | none =>
      rw [lookup_none found] at looked
      cases looked
    | some k =>
      rw [lookup_some found] at looked
      cases looked
      refine ⟨iref_count, fun k other held => ?_⟩
      simpa only [iref, update_of_ne other] using held

theorem step_other {count : I → Nat} (other : j ≠ i)
    (held : s.count = update count i (count i + 1)) :
    update (iref s j).count i (count i) =
      update count j ((count j + 1) % 2 ^ 32) := by
  simp only [iref, held, update_of_ne other]
  rw [update_comm other, update_idem, update_eq_self]

/-- Two references more than there are before the walk can be counted. -/
theorem graph_fits (g : Graph I R) (count : I → Nat) (room : ∀ k, count k + 2 < 2 ^ 32)
    (cs : List (Nat × Nat)) (held : s.count = update count i (count i + 1)) :
    Fits g.vfs s i cs := by
  have here : s.count i = count i + 1 := by rw [held, update_self]
  induction cs generalizing s i with
  | nil => trivial
  | cons c cs ih =>
    intro j s' looked
    cases found : g.find s.rest i c.1 c.2 with
    | mk got r =>
      cases got with
      | none =>
        rw [lookup_none found] at looked
        cases looked
      | some j =>
        rw [lookup_some found] at looked
        cases looked
        have fits := room j
        by_cases same : j = i
        · subst same
          have two : ({ iref s j with rest := r } : State I R).count j = (count j + 1) + 1 := by
            rw [← here]
            exact iref_count (by omega)
          refine ⟨by omega, fun s'' put => ?_⟩
          cases Option.some.inj ((iput_held g two).symm.trans put)
          refine ih ?_ (update_self _ _ _)
          simp only [iref, update_idem, held]
        · have still : ({ iref s j with rest := r } : State I R).count i = count i + 1 := by
            simp only [iref]
            rw [update_of_ne (Ne.symm same), here]
          have before : s.count j = count j := by rw [held, update_of_ne same]
          refine ⟨by omega, fun s'' put => ?_⟩
          cases Option.some.inj ((iput_held g still).symm.trans put)
          have after := step_other same held
          rw [Nat.mod_eq_of_lt (by omega)] at after
          exact ih after (congrFun after j |>.trans (update_self _ _ _))

def sampleGraph (longest : Nat) : Graph Nat Unit where
  find := fun _ i _ n => (if n ≤ longest then some (10 * i + n) else none, ())
  free := fun _ _ => ()

/-- `/a//bc/`, at 100. -/
def samplePath : Nat → UInt8
  | 100 | 102 | 103 | 106 => slash
  | 101 => 97
  | 104 => 98
  | 105 => 99
  | _ => 0

theorem samplePath_terminated : Terminated samplePath 100 7 := by
  refine ⟨?_, by decide⟩
  intro x low high
  interval_cases x <;> decide

theorem namei_walks_sample :
    (∃ cs, Spans samplePath slash 100 7 cs ∧ ∃ s',
      namei (sampleGraph 2).vfs samplePath 2 3 8 100 ⟨fun _ => 1, ()⟩ =
        some (cs.foldlM (fun i c => if c.2 ≤ 2 then some (10 * i + c.2) else none) 2, s')) ∧
    (namei (sampleGraph 2).vfs samplePath 2 3 8 100 ⟨fun _ => 1, ()⟩).map (·.1) = some (some 212) := by
  have finds : Finds (sampleGraph 2).vfs fun i _ n => if n ≤ 2 then some (10 * i + n) else none := by
    intro s i a n
    by_cases short : n ≤ 2 <;> simp [sampleGraph, Graph.vfs, short]
  obtain ⟨cs, spans, -, found⟩ := namei_walks (sampleGraph 2).vfs samplePath 2 3 100 7 8
    ⟨fun _ => 1, ()⟩ (by decide) samplePath_terminated (by decide)
  have fits : Fits (sampleGraph 2).vfs (iref ⟨fun _ => 1, ()⟩ 2) 2 cs :=
    graph_fits (sampleGraph 2) (fun _ => 1) (fun _ => by decide) cs rfl
  exact ⟨⟨cs, spans, found _ finds (graph_counted _) (by decide) fits⟩, by decide⟩

end ScaraOS.Namei
