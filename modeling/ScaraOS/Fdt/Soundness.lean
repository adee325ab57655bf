import ScaraOS.Fdt.Represents

/-! When the descriptor table is the finite map it stands for. -/
namespace ScaraOS.Fdt

open Function

/-- The tables a process can have, each with the map it should stand for, when every
call meets its condition. The words behind the table are another object's. The second entry, when
there is one, has handle 0: no third is added, and only handle 1 can then be deleted. -/
inductive Reached : Table → (Nat → Nat) → Prop
  | init (memory : Table) (fdAlloc : Nat) : pageOffset ≤ fdAlloc →
      Reached (fdTableInit memory fdAlloc) fun _ => 0
  | behind {t : Table} {m : Nat → Nat} (file refcount : Nat) : Reached t m →
      Reached { t with
        file := update t.file .fds file
        refcount := update t.refcount .fds refcount } m
  | add {t t' : Table} {m : Nat → Nat} {n file a h : Nat} {result : Int} : Reached t m →
      file ≠ 0 → Fresh t a → AddOk t m → LeastFree m h →
      fdtEntryAdd n t file (some a) = some (t', result) → Reached t' (update m h file)
  | del {t t' : Table} {m : Nat → Nat} {n h : Nat} {out : Option Nat} : Reached t m →
      Visible t h → fdtEntryDel n t h = some (t', out) → Reached t' (update m h 0)

variable {m : Nat → Nat} {g h : Nat} {t : Table} {es : List Nat}

theorem leastFree_unique (left : LeastFree m g) (right : LeastFree m h) : g = h := by
  rcases Nat.lt_trichotomy g h with below | same | above
  · exact absurd left.1 (right.2 g below)
  · exact same
  · exact absurd right.1 (left.2 h above)

/-- The handles of a table whose calls have met their conditions, newest first. -/
def Few (hs : List Nat) : Prop := hs = [] ∨ hs = [0] ∨ hs = [1, 0]

theorem second_pair (rep : Represents t es m) (two : handles t es = [g, h]) :
    second t ≠ .fds ∧ t.handle (second t) = h := by
  match es, rep with
  | [], _ => simp [handles] at two
  | [e], _ => simp [handles] at two
  | e :: x :: rest, rep =>
    simp only [handles, List.map_cons, List.cons.injEq] at two
    rw [second_many rep.ring]
    exact ⟨Cell.noConfusion, two.2.1⟩

theorem few_add {r : Nat} (rep : Represents t es m) (few : Few (handles t es)) (allowed : AddOk t m)
    (least : LeastFree m r) : Few (r :: handles t es) := by
  have taken : ∀ k, k < r → k ∈ handles t es := fun k below =>
    (open_iff_mem rep k).mp (least.2 k below)
  have free : r ∉ handles t es := fun member => (open_iff_mem rep r).mpr member least.1
  rcases few with none | one | two
  · rw [none] at taken ⊢
    obtain rfl : r = 0 := by
      by_contra later
      cases taken 0 (by omega)
    exact .inr (.inl rfl)
  · rw [one] at taken free ⊢
    obtain rfl : r = 1 := by
      simp only [List.mem_singleton] at taken free
      by_contra other
      exact absurd (taken 1 (by omega)) (by omega)
    exact .inr (.inr rfl)
  · obtain ⟨many, zero⟩ := second_pair rep two
    obtain ⟨k, below, -⟩ := allowed many
    omega

theorem few_del (rep : Represents t es m) (few : Few (handles t es)) (visible : Visible t h) :
    Few ((handles t es).erase h) := by
  rcases few with none | one | two
  · exact .inl (by rw [none, List.erase_nil])
  · rw [one]
    by_cases zero : h = 0
    · exact .inl (by rw [zero, List.erase_cons_head])
    · exact .inr (.inl (List.erase_of_not_mem (by simpa using zero)))
  · obtain ⟨many, last⟩ := second_pair rep two
    have nonzero : h ≠ 0 := last ▸ (visible many).1
    rw [two]
    by_cases one : h = 1
    · exact .inr (.inl (by rw [one, List.erase_cons_head]))
    · exact .inr (.inr (List.erase_of_not_mem (by simp [one, nonzero])))

theorem reached_represents (reached : Reached t m) :
    ∃ es, Represents t es m ∧ Few (handles t es) := by
  induction reached with
  | init memory fdAlloc kernel =>
    refine ⟨[], ⟨Links.initListHead_ring _ _, by simp, ?_, List.nodup_nil, by simp, by simp⟩, .inl rfl⟩
    simpa [fdTableInit] using kernel
  | behind file refcount _ ih =>
    obtain ⟨es, rep, few⟩ := ih
    refine ⟨es, ⟨rep.ring, rep.kernel, rep.fdAlloc, rep.distinct, ?_, rep.closed⟩, few⟩
    intro a member
    simpa using rep.opened a member
  | @add t t' m n file a h result _ nonnull fresh allowed least called ih =>
    obtain ⟨es, rep, few⟩ := ih
    obtain ⟨r, free, returns, next⟩ := fdtEntryAdd_spec rep nonnull fresh
    obtain rfl := leastFree_unique (free.mpr allowed) least
    have longer := fdtEntryAdd_more called (Nat.le_add_right n (es.length + 2))
    have ended := returns (n + (es.length + 2)) (by omega)
    cases longer.symm.trans ended
    exact ⟨a :: es, next least, handles_added (fresh.not_mem rep) r file ▸
      few_add rep few allowed least⟩
  | @del t t' m n h out _ visible called ih =>
    obtain ⟨es, rep, few⟩ := ih
    obtain ⟨u, released, returns, es', next, fewer⟩ := fdtEntryDel_spec rep visible
    have longer := fdtEntryDel_more called (Nat.le_add_right n (es.length + 1))
    have ended := returns (n + (es.length + 1)) (by omega)
    cases longer.symm.trans ended
    exact ⟨es', next, fewer ▸ few_del rep few visible⟩

structure Refines (t : Table) (m : Nat → Nat) : Prop where
  /-- The entries on the list are the open handles, each once, and there are at most two. -/
  table : ∃ es, Represents t es m ∧ Few (handles t es)
  retr : ∀ h, Visible t h → ∃ N, ∀ n ≥ N, fdtEntryRetr n t h = some (m h)
  /-- The handle returned is the least free one exactly under the condition; the
  other handles then keep their files. -/
  add : ∀ file a, file ≠ 0 → Fresh t a → ∃ (N : Nat) (t' : Table) (h : Nat),
    (∀ n ≥ N, fdtEntryAdd n t file (some a) = some (t', (h : Int))) ∧
      (LeastFree m h ↔ AddOk t m) ∧
      (AddOk t m → ∃ es, Represents t' es (update m h file))
  del : ∀ h, Visible t h → ∃ N t' out, (∀ n ≥ N, fdtEntryDel n t h = some (t', out)) ∧
    ∃ es, Represents t' es (update m h 0)

/-- In every run whose calls meet the conditions the table is the map. -/
theorem fd_table_refines (t : Table) (m : Nat → Nat) (reached : Reached t m) : Refines t m := by
  obtain ⟨es, rep, few⟩ := reached_represents reached
  constructor
  · exact ⟨es, rep, few⟩
  · intro h visible
    exact ⟨es.length + 1, fun n enough => fdtEntryRetr_spec rep visible enough⟩
  · intro file a nonnull fresh
    obtain ⟨h, free, returns, next⟩ := fdtEntryAdd_spec rep nonnull fresh
    exact ⟨es.length + 2, _, h, fun n enough => returns n enough, free,
      fun allowed => ⟨a :: es, next (free.mpr allowed)⟩⟩
  · intro h visible
    obtain ⟨t', out, returns, es', next, -⟩ := fdtEntryDel_spec rep visible
    exact ⟨es.length + 1, t', out, fun n enough => returns n enough, es', next⟩

/-- A table in a memory of zeros, its `fd_alloc` at the start of the kernel's addresses. -/
def blank : Table :=
  fdTableInit ⟨⟨id, id⟩, fun _ => 0, fun _ => 0, fun _ => 0⟩ pageOffset

theorem blank_ring : Links.Ring blank.links .fds [] := Links.initListHead_ring _ _

theorem fresh_of_ring {l : List Cell} {a : Nat} (ring : Links.Ring t.links .fds l)
    (kernel : pageOffset ≤ a ∧ a < wordSize) (absent : Cell.entry a ∉ l) : Fresh t a :=
  ⟨kernel.1, kernel.2, fun _ other => Links.ring_unique ring other ▸ absent⟩

/-- Two files are opened, and the second is closed again. -/
theorem fd_table_refines_two : ∃ t u v, fdtEntryAdd 9 blank 7 (some 0xc0001000) = some (t, 0) ∧
    fdtEntryAdd 9 t 8 (some 0xc0002000) = some (u, 1) ∧ fdtEntryDel 9 u 1 = some (v, some 8) ∧
    Refines u (update (update (fun _ => 0) 0 7) 1 8) ∧
    Refines v (update (update (update (fun _ => 0) 0 7) 1 8) 1 0) := by
  have start : Reached blank fun _ => 0 := Reached.init _ _ (Nat.le_refl _)
  have one : Reached (added blank 0xc0001000 0 7) (update (fun _ => 0) 0 7) :=
    Reached.add (n := 9) (a := 0xc0001000) start (by decide)
      (fresh_of_ring blank_ring (by decide) (by simp)) (fun two => absurd (by decide) two)
      ⟨rfl, by simp⟩ rfl
  have ring : Links.Ring (added blank 0xc0001000 0 7).links .fds [.entry 0xc0001000] :=
    Links.ring_listAdd blank_ring (by simp)
  have two : Reached (added (added blank 0xc0001000 0 7) 0xc0002000 1 8)
      (update (update (fun _ => 0) 0 7) 1 8) :=
    Reached.add (n := 9) (a := 0xc0002000) one (by decide)
      (fresh_of_ring ring (by decide) (by simp)) (fun two => absurd (by decide) two)
      ⟨rfl, by simp⟩ rfl
  have back := Reached.del two (h := 1) (n := 9) (fun _ => by decide) rfl
  exact ⟨_, _, _, rfl, rfl, rfl, fd_table_refines _ _ two, fd_table_refines _ _ back⟩

/- With two entries the older one is the second on the list: its handle is not found,
and the next add takes it again. -/
theorem third_add_shares_handle : ∃ t u v,
    fdtEntryAdd 9 blank 7 (some 0xc0001000) = some (t, 0) ∧
    fdtEntryAdd 9 t 8 (some 0xc0002000) = some (u, 1) ∧
    fdtEntryRetr 9 u 0 = some 0 ∧
    fdtEntryAdd 9 u 9 (some 0xc0003000) = some (v, 0) ∧
    v.handle (.entry 0xc0001000) = 0 ∧ v.handle (.entry 0xc0003000) = 0 ∧
    v.links.next .fds = .entry 0xc0003000 ∧
    v.links.next (.entry 0xc0003000) = .entry 0xc0002000 ∧
    v.links.next (.entry 0xc0002000) = .entry 0xc0001000 := by
  refine ⟨_, _, _, rfl, rfl, rfl, rfl, rfl, rfl, rfl, rfl, rfl⟩

end ScaraOS.Fdt
