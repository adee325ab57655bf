import ScaraOS.Paging.Invariant

/-! A context and its clone. `clone_ctx` copies the directory, so every page table
that exists at that moment serves both; a mapping made later in one of the two is
seen by the other exactly where the table was already there. -/
namespace ScaraOS.Paging

/-- After every call of the sequence, `b` sees all user addresses as it did at the start. -/
def Undisturbed (s : System) (a b : Nat) (calls : List MapCall) : Prop :=
  ∀ pre post, calls = pre ++ post → ∀ t, mapCalls a s pre = some t →
    ∀ va < pageOffset, translate t.word b va = translate s.word b va

/-- The slot of the call is empty in `b`, or `b` has that very page there already. -/
def Harmless (m : Words) (b : Nat) (c : MapCall) : Prop :=
  m b (dir c.addr) &&& present = 0 ∨
    translate m b c.addr = some ⟨c.page, c.prot &&& protWrite ≠ 0, true⟩

instance (m : Words) (b : Nat) (c : MapCall) : Decidable (Harmless m b c) :=
  inferInstanceAs (Decidable (_ ∨ _))

structure Shared (m : Words) (t : System) (a b : Nat) : Prop where
  left : a ∈ t.ctxs
  right : b ∈ t.ctxs
  other : b ≠ a
  kept : ∀ i, t.word b i = m b i
  common : ∀ i, m b i &&& present ≠ 0 → t.word a i = m b i

variable {s t : System} {a b va : Nat} {m : Words} {c : MapCall} {slot : Nat → Nat}

theorem shared_clone (wf : Wf s slot) {old f : Nat}
    (cloned : cloneCtx s old f = some t) (pair : (a = old ∧ b = f) ∨ (a = f ∧ b = old)) :
    Shared t.word t a b := by
  unfold cloneCtx at cloned
  split at cloned
  · rename_i guard
    have free : f < nrFrames ∧ f ∉ s.used := of_decide_eq_true guard.2
    have fresh : old ≠ f := fun same => free.2 (same ▸ wf.dirs old guard.1)
    cases cloned
    have equal : ∀ i, copyFrame s.word old f old i = copyFrame s.word old f f i := by
      intro i
      unfold copyFrame
      rw [if_neg fresh, if_pos rfl]
    rcases pair with ⟨rfl, rfl⟩ | ⟨rfl, rfl⟩
    · exact ⟨List.mem_append_left _ guard.1, by simp, Ne.symm fresh, fun _ => rfl,
        fun i _ => equal i⟩
    · exact ⟨by simp, List.mem_append_left _ guard.1, fresh, fun _ => rfl,
        fun i _ => (equal i).symm⟩
  · cases cloned

theorem shared_mapCall (wf : Wf s slot) (shared : Shared m s a b)
    (ran : mapCall s a c = some t) : Shared m t a b := by
  have ctxs := (mapCall_cases ran).2.2.2.1
  refine ⟨ctxs ▸ shared.left, ctxs ▸ shared.right, shared.other, ?_, ?_⟩
  · intro i
    rw [mapCall_dirs wf ran shared.right (.inl shared.other)]
    exact shared.kept i
  · intro i there
    have same := shared.common i there
    by_cases here : i = dir c.addr
    · subst here
      rw [mapCall_dirs wf ran shared.left (.inr (.inr (same.symm ▸ there)))]
      exact same
    · rw [mapCall_dirs wf ran shared.left (.inr (.inl here))]
      exact same

theorem translate_shared (wf : Wf s slot) (shared : Shared m s a b)
    (ran : mapCall s a c = some t) (low : va < pageOffset) :
    translate t.word b va =
      if m b (dir c.addr) &&& present ≠ 0 ∧ SamePage va c.addr then
        some ⟨c.page, c.prot &&& protWrite ≠ 0, true⟩
      else translate s.word b va := by
  by_cases absent : s.word a (dir c.addr) &&& present = 0
  · have empty : ¬ (m b (dir c.addr) &&& present ≠ 0) := by
      intro there
      rw [shared.common _ there] at absent
      exact there absent
    rw [translate_mapCall_absent wf ran shared.right low absent (.inl shared.other),
      if_neg fun both => empty both.1]
  · rw [translate_mapCall wf ran shared.right low absent, shared.kept]
    by_cases there : m b (dir c.addr) &&& present ≠ 0
    · simp only [there, shared.common _ there, ne_eq, not_false_eq_true, true_and, and_true]
    · have apart : ¬ m b (dir c.addr) = s.word a (dir c.addr) := by
        intro same
        rw [same] at there
        exact there absent
      rw [if_neg fun both => apart both.2, if_neg fun both => there both.1]

theorem call_harmless_iff (wf : Wf s slot) (shared : Shared m s a b)
    (ran : mapCall s a c = some t)
    (same : ∀ va < pageOffset, translate s.word b va = translate m b va) :
    (∀ va < pageOffset, translate t.word b va = translate s.word b va) ↔ Harmless m b c := by
  have callLow := (mapCall_cases ran).2.1
  constructor
  · intro still
    by_cases there : m b (dir c.addr) &&& present = 0
    · exact .inl there
    · have seen := translate_shared wf shared ran callLow
      rw [if_pos ⟨there, rfl, rfl⟩] at seen
      exact .inr ((same c.addr callLow).symm.trans ((still c.addr callLow).symm.trans seen))
  · intro harmless va low
    rw [translate_shared wf shared ran low]
    split
    · rename_i hit
      rcases harmless with absent | already
      · exact absurd absent hit.1
      · rw [same va low, translate_same_page hit.2, already]
    · rfl

theorem undisturbed_iff {calls : List MapCall} {u : System} (wf : ∃ slot, Wf s slot)
    (shared : Shared m s a b) (same : ∀ va < pageOffset, translate s.word b va = translate m b va)
    (ran : mapCalls a s calls = some u) :
    Undisturbed s a b calls ↔ ∀ c ∈ calls, Harmless m b c := by
  induction calls generalizing s with
  | nil =>
    constructor
    · intro _ c member
      cases member
    · intro _ pre post split t ended va low
      obtain ⟨rfl, _⟩ := List.append_eq_nil_iff.mp split.symm
      cases ended
      rfl
  | cons c rest ih =>
    obtain ⟨slot, wf⟩ := wf
    obtain ⟨t, called, later⟩ := Option.bind_eq_some_iff.mp ran
    have first : mapCalls a s [c] = some t := by
      simp only [mapCalls, called, Option.bind_some]
    have one := call_harmless_iff wf shared called same
    have next := fun still : ∀ va < pageOffset, translate t.word b va = translate s.word b va =>
      ih (wf_mapCall wf called) (shared_mapCall wf shared called)
        (fun va low => (still va low).trans (same va low)) later
    constructor
    · intro quiet
      have still := quiet [c] rest rfl t first
      have quietRest : Undisturbed t a b rest := by
        intro pre post split v ended va low
        have whole : mapCalls a s (c :: pre) = some v := by
          simp only [mapCalls, called, Option.bind_some]
          exact ended
        rw [quiet (c :: pre) post (by rw [split]; rfl) v whole va low]
        exact (still va low).symm
      intro d member
      rcases List.mem_cons.mp member with rfl | inRest
      · exact one.mp still
      · exact (next still).mp quietRest d inRest
    · intro harmless
      have still := one.mpr (harmless c List.mem_cons_self)
      have quietRest := (next still).mpr fun d member => harmless d (List.mem_cons_of_mem c member)
      intro pre post split v ended va low
      cases pre with
      | nil =>
        cases ended
        rfl
      | cons d pre =>
        obtain ⟨rfl, tail⟩ := List.cons.inj split
        simp only [mapCalls, called, Option.bind_some] at ended
        exact (quietRest pre post tail v ended va low).trans (still va low)

/-- For any context, its clone, and any calls on one of the two. -/
theorem clone_undisturbed_iff (memory : Words) (initPgd : Nat) (ops : List Op) (s t u : System)
    (reached : Run.exec step (boot memory initPgd) ops = some s) (old f a b : Nat)
    (cloned : cloneCtx s old f = some t) (pair : (a = old ∧ b = f) ∨ (a = f ∧ b = old))
    (calls : List MapCall) (ran : mapCalls a t calls = some u) :
    Undisturbed t a b calls ↔ ∀ c ∈ calls, Harmless t.word b c := by
  obtain ⟨slot, wf⟩ := run_wf reached
  exact undisturbed_iff ⟨slot, wf_cloneCtx wf cloned⟩ (shared_clone wf cloned pair)
    (fun _ _ => rfl) ran

def family : Option System :=
  (Run.exec step (boot (fun _ _ => 0) 1)
    [.clone 1 2, .map 2 ⟨10, 0x400000, protRead, some 3⟩]).bind fun s => cloneCtx s 2 4

theorem clone_undisturbed_iff_apart : ∃ t u,
    mapCalls 4 t [⟨11, 0x800000, protWrite, some 5⟩] = some u ∧
    Undisturbed t 4 2 [⟨11, 0x800000, protWrite, some 5⟩] := by
  have evaluated : ((family.bind fun t =>
      mapCalls 4 t [⟨11, 0x800000, protWrite, some 5⟩]).isSome) = true := by decide
  obtain ⟨u, whole⟩ := Option.isSome_iff_exists.mp evaluated
  obtain ⟨t, cloned, ran⟩ := Option.bind_eq_some_iff.mp whole
  obtain ⟨s, reached, copy⟩ := Option.bind_eq_some_iff.mp cloned
  have empty : (family.map fun t => decide (t.word 2 (dir 0x800000) &&& present = 0))
      = some true := by decide
  rw [cloned] at empty
  have absent := of_decide_eq_true (Option.some.inj empty)
  have iff := clone_undisturbed_iff _ 1 _ s t u reached 2 4 4 2 copy (.inr ⟨rfl, rfl⟩) _ ran
  refine ⟨t, u, ran, iff.mpr ?_⟩
  intro c member
  rw [List.mem_singleton.mp member]
  exact .inl absent

/- The clone maps a page next to the one of the parent, in the table they share. -/
theorem clone_map_seen_by_parent : ∃ t u, family = some t ∧
    mapCalls 4 t [⟨12, 0x401000, protWrite, none⟩] = some u ∧
    translate t.word 2 0x401000 = none ∧
    translate u.word 2 0x401000 = some ⟨12, true, true⟩ :=
  ⟨_, _, rfl, rfl, by decide, by decide⟩

end ScaraOS.Paging
