import Mathlib.Data.Finset.Insert
import ScaraOS.Lib.Run
import ScaraOS.Paging.Model

/-! What holds of all address spaces at any time. A page table serves one directory
slot: contexts may share it, but only in the same slot, and no two slots of a
context do. `slot` is a ghost that says which one. -/
namespace ScaraOS.Paging

open Function

theorem dir_eq (x : Nat) : dir x = x / 2 ^ 22 % 2 ^ 10 := Bits.field_eq x 22 10

theorem tbl_eq (x : Nat) : tbl x = x / 2 ^ 12 % 2 ^ 10 := Bits.field_eq x 12 10

theorem tableOf_eq (x : Nat) : tableOf x = x / 2 ^ 12 % 2 ^ 20 := Bits.field_eq x 12 20

theorem present_eq (x : Nat) : x &&& present = x % 2 := Nat.and_one_is_mod x

theorem readWrite_eq (x : Nat) : x &&& readWrite = x / 2 % 2 * 2 := Bits.and_bit x 1

theorem user_eq (x : Nat) : x &&& user = x / 4 % 2 * 4 := Bits.and_bit x 2

theorem dir_user {va : Nat} (low : va < pageOffset) : dir va < userSlots := by
  rw [dir_eq]
  unfold pageOffset at low
  unfold userSlots
  omega

theorem pdeWord_eq (f : Nat) : pdeWord f = f * 2 ^ 12 + 7 := by
  unfold pdeWord
  rw [Nat.or_assoc, Nat.or_assoc]
  exact Bits.or_low (by decide) f

theorem pteWord_eq (page prot : Nat) :
    pteWord page prot = page * 2 ^ 12 + (if prot &&& protWrite ≠ 0 then 7 else 5) := by
  unfold pteWord
  split
  · rw [Nat.or_assoc, Nat.or_assoc]
    exact Bits.or_low (by decide) page
  · rw [Nat.or_assoc]
    exact Bits.or_low (by decide) page

variable {f prot pgd i g j a b va : Nat} {m : Words} {s t : System} {c : MapCall} {slot : Nat → Nat}

theorem tableOf_pdeWord (frame : f < nrFrames) : tableOf (pdeWord f) = f := by
  unfold nrFrames at frame
  rw [tableOf_eq, pdeWord_eq]
  omega

theorem pdeWord_present (f : Nat) : pdeWord f &&& present ≠ 0 := by
  rw [present_eq, pdeWord_eq]
  omega

theorem pdeWord_readWrite (f : Nat) : pdeWord f &&& readWrite ≠ 0 := by
  rw [readWrite_eq, pdeWord_eq]
  omega

theorem pdeWord_user (f : Nat) : pdeWord f &&& user ≠ 0 := by
  rw [user_eq, pdeWord_eq]
  omega

def entry (pte : Nat) : Option Mapping :=
  if pte &&& present = 0 then none
  else some {
    frame := tableOf pte
    rw := pte &&& readWrite ≠ 0
    user := pte &&& user ≠ 0 }

theorem entry_zero : entry 0 = none := rfl

theorem entry_pteWord {page : Nat} (frame : page < nrFrames) :
    entry (pteWord page prot) = some ⟨page, prot &&& protWrite ≠ 0, true⟩ := by
  unfold nrFrames at frame
  unfold entry
  rw [present_eq, readWrite_eq, user_eq, tableOf_eq, pteWord_eq]
  by_cases writes : prot &&& protWrite ≠ 0
  · simp only [if_pos writes]
    rw [if_neg (by omega)]
    simp only [Option.some.injEq, Mapping.mk.injEq, decide_eq_decide, decide_eq_true_eq]
    exact ⟨by omega, ⟨fun _ => writes, fun _ => by omega⟩, by omega⟩
  · simp only [if_neg writes]
    rw [if_neg (by omega)]
    simp only [Option.some.injEq, Mapping.mk.injEq, decide_eq_decide, decide_eq_true_eq]
    exact ⟨by omega, ⟨fun set => absurd (by omega) set, fun is => absurd is writes⟩, by omega⟩

theorem translate_table (frame : f < nrFrames) (table : m pgd (dir va) = pdeWord f) :
    translate m pgd va = entry (m f (tbl va)) := by
  unfold translate entry
  simp only [table, if_neg (pdeWord_present f), tableOf_pdeWord frame, ne_eq,
    pdeWord_readWrite f, pdeWord_user f, not_false_eq_true, true_and]

theorem translate_absent (absent : m pgd (dir va) &&& present = 0) :
    translate m pgd va = none := if_pos absent

theorem mapPageToCtx_cases {m' : Words} {page addr : Nat} {alloc : Option Nat} {r : Int}
    (ran : mapPageToCtx m pgd page addr prot alloc = some (m', r)) : addr < pageOffset ∧
      ((m pgd (dir addr) &&& present = 0 ∧ alloc = none ∧ m' = m) ∨
      (∃ f, m pgd (dir addr) &&& present = 0 ∧ alloc = some f ∧
        m' = setWord (setWord (clearFrame m f) pgd (dir addr) (pdeWord f)) f (tbl addr)
          (pteWord page prot)) ∨
      (m pgd (dir addr) &&& present ≠ 0 ∧
        m' = setWord m (tableOf (m pgd (dir addr))) (tbl addr) (pteWord page prot))) := by
  unfold mapPageToCtx at ran
  split at ran
  · cases ran
  · rename_i low
    refine ⟨Nat.lt_of_not_ge low, ?_⟩
    split at ran
    · rename_i absent
      cases alloc with
      | none =>
        cases ran
        exact .inl ⟨absent, rfl, rfl⟩
      | some f =>
        cases ran
        exact .inr (.inl ⟨f, absent, rfl, rfl⟩)
    · rename_i there
      cases ran
      exact .inr (.inr ⟨there, rfl⟩)

theorem mapCall_cases (ran : mapCall s pgd c = some t) :
    pgd ∈ s.ctxs ∧ c.addr < pageOffset ∧ c.page < nrFrames ∧ t.ctxs = s.ctxs ∧
      ((s.word pgd (dir c.addr) &&& present = 0 ∧ c.alloc = none ∧ t = s) ∨
      (∃ f, f < nrFrames ∧ f ∉ s.used ∧ s.word pgd (dir c.addr) &&& present = 0 ∧
        t.used = insert f s.used ∧
        t.word = setWord (setWord (clearFrame s.word f) pgd (dir c.addr) (pdeWord f)) f
          (tbl c.addr) (pteWord c.page c.prot)) ∨
      (s.word pgd (dir c.addr) &&& present ≠ 0 ∧ t.used = s.used ∧
        t.word = setWord s.word (tableOf (s.word pgd (dir c.addr))) (tbl c.addr)
          (pteWord c.page c.prot))) := by
  unfold mapCall at ran
  split at ran
  · rename_i guard
    obtain ⟨member, free, frame⟩ := guard
    obtain ⟨⟨m', r⟩, called, rfl⟩ := Option.map_eq_some_iff.mp ran
    obtain ⟨low, cases⟩ := mapPageToCtx_cases called
    refine ⟨member, low, frame, rfl, ?_⟩
    rcases cases with ⟨absent, none, rfl⟩ | ⟨f, absent, given, rfl⟩ | ⟨there, rfl⟩
    · have same : usedAfter s pgd c = s.used := by
        simp only [usedAfter, if_pos absent, none]
      exact .inl ⟨absent, none, by rw [same]⟩
    · rw [given] at free
      have open' : f < nrFrames ∧ f ∉ s.used := of_decide_eq_true free
      refine .inr (.inl ⟨f, open'.1, open'.2, absent, ?_, rfl⟩)
      simp only [usedAfter, if_pos absent, given]
    · exact .inr (.inr ⟨there, by simp only [usedAfter, if_neg there], rfl⟩)
  · cases ran

structure Wf (s : System) (slot : Nat → Nat) : Prop where
  dirs : ∀ g ∈ s.ctxs, g ∈ s.used
  nodup : s.ctxs.Nodup
  tables : ∀ g ∈ s.ctxs, ∀ i < userSlots, s.word g i &&& present ≠ 0 →
    ∃ f < nrFrames, s.word g i = pdeWord f ∧ f ∈ s.used ∧ f ∉ s.ctxs ∧ slot f = i

theorem setWord_ne {v : Nat} (other : g ≠ f ∨ j ≠ i) : setWord m f i v g j = m g j := by
  unfold setWord
  rw [if_neg]
  rintro ⟨rfl, rfl⟩
  rcases other with h | h <;> exact h rfl

theorem setWord_self (m : Words) (f i v : Nat) : setWord m f i v f i = v :=
  if_pos ⟨rfl, rfl⟩

theorem clearFrame_ne (other : g ≠ f) : clearFrame m f g j = m g j :=
  if_neg other

theorem clearFrame_used {s : System} (free : f ∉ s.used) :
    ∀ g ∈ s.used, clearFrame s.word f g = s.word g := by
  intro g inUse
  have away : g ≠ f := fun is => free (is ▸ inUse)
  exact funext fun j => clearFrame_ne away

theorem wf_boot (memory : Words) (initPgd : Nat) : Wf (boot memory initPgd) id where
  dirs := by simp [boot]
  nodup := List.nodup_singleton initPgd
  tables := by
    intro g member i low there
    have same : g = initPgd := List.mem_singleton.mp member
    have empty : (boot memory initPgd).word g i = 0 := if_pos ⟨same, low⟩
    rw [empty] at there
    exact absurd rfl there

theorem wf_outside (wf : Wf s slot) (same : ∀ g ∈ s.used, m g = s.word g) :
    Wf { s with word := m } slot := by
  refine ⟨wf.dirs, wf.nodup, ?_⟩
  intro g member i user there
  simp only [same g (wf.dirs g member)] at there ⊢
  exact wf.tables g member i user there

theorem translate_outside (wf : Wf s slot) (same : ∀ g ∈ s.used, m g = s.word g)
    (member : g ∈ s.ctxs) (low : va < pageOffset) :
    translate m g va = translate s.word g va := by
  have dirs : m g (dir va) = s.word g (dir va) := by rw [same g (wf.dirs g member)]
  by_cases set : s.word g (dir va) &&& present = 0
  · rw [translate_absent set, translate_absent (dirs ▸ set)]
  · obtain ⟨f, inside, table, inUse, _⟩ := wf.tables g member _ (dir_user low) set
    rw [translate_table inside (dirs.trans table), translate_table inside table, same f inUse]

theorem mapCall_dirs (wf : Wf s slot) (ran : mapCall s pgd c = some t)
    (member : g ∈ s.ctxs)
    (other : g ≠ pgd ∨ i ≠ dir c.addr ∨ s.word pgd (dir c.addr) &&& present ≠ 0) :
    t.word g i = s.word g i := by
  obtain ⟨here, low, _, _, cases⟩ := mapCall_cases ran
  rcases cases with ⟨_, _, rfl⟩ | ⟨f, _, free, absent, _, words⟩ | ⟨there, _, words⟩
  · rfl
  · have away : g ≠ f := fun same => free (same ▸ wf.dirs g member)
    have apart : g ≠ pgd ∨ i ≠ dir c.addr := by
      rcases other with ne | ne | there
      · exact .inl ne
      · exact .inr ne
      · exact absurd absent there
    rw [words, setWord_ne (.inl away), setWord_ne apart, clearFrame_ne away]
  · obtain ⟨f, frame, table, _, notDir, _⟩ := wf.tables pgd here _ (dir_user low) there
    have away : g ≠ tableOf (s.word pgd (dir c.addr)) := by
      rw [table, tableOf_pdeWord frame]
      exact fun same => notDir (same ▸ member)
    rw [words, setWord_ne (.inl away)]

theorem wf_mapCall (wf : Wf s slot) (ran : mapCall s pgd c = some t) :
    ∃ slot', Wf t slot' := by
  obtain ⟨here, low, frame, ctxs, cases⟩ := mapCall_cases ran
  rcases cases with ⟨_, _, rfl⟩ | ⟨f, inside, free, absent, used, words⟩ | ⟨there, used, words⟩
  · exact ⟨slot, wf⟩
  · have notDir : f ∉ s.ctxs := fun member => free (wf.dirs f member)
    refine ⟨update slot f (dir c.addr), ?_, ctxs ▸ wf.nodup, ?_⟩
    · rw [ctxs, used]
      exact fun g member => Finset.mem_insert_of_mem (wf.dirs g member)
    · rw [ctxs, used]
      intro g member i user there
      by_cases changed : g = pgd ∧ i = dir c.addr
      · obtain ⟨rfl, rfl⟩ := changed
        have away : g ≠ f := fun same => notDir (same ▸ member)
        refine ⟨f, inside, ?_, Finset.mem_insert_self f s.used, notDir, update_self ..⟩
        rw [words, setWord_ne (.inl away), setWord_self]
      · have apart : g ≠ pgd ∨ i ≠ dir c.addr := by tauto
        have same := mapCall_dirs wf ran member (apart.imp_right .inl)
        rw [same] at there ⊢
        obtain ⟨h, bound, table, inUse, notCtx, index⟩ := wf.tables g member i user there
        have other : h ≠ f := fun is => free (is ▸ inUse)
        refine ⟨h, bound, table, Finset.mem_insert_of_mem inUse, notCtx, ?_⟩
        rw [update_of_ne other]
        exact index
  · refine ⟨slot, ?_, ctxs ▸ wf.nodup, ?_⟩
    · rw [ctxs, used]
      exact wf.dirs
    · rw [ctxs, used]
      intro g member i user set
      rw [mapCall_dirs wf ran member (.inr (.inr there))] at set ⊢
      exact wf.tables g member i user set

theorem wf_cloneCtx (wf : Wf s slot) {old : Nat}
    (ran : cloneCtx s old f = some t) : Wf t slot := by
  unfold cloneCtx at ran
  split at ran
  · rename_i guard
    have free : f < nrFrames ∧ f ∉ s.used := of_decide_eq_true guard.2
    have fresh : f ∉ s.ctxs := fun member => free.2 (wf.dirs f member)
    cases ran
    refine ⟨?_, ?_, ?_⟩
    · intro g member
      rcases List.mem_append.mp member with before | last
      · exact Finset.mem_insert_of_mem (wf.dirs g before)
      · exact List.mem_singleton.mp last ▸ Finset.mem_insert_self f s.used
    · exact List.nodup_append.mpr ⟨wf.nodup, List.nodup_singleton f, fun a left b right same =>
        fresh (List.mem_singleton.mp right ▸ same ▸ left)⟩
    · intro g member i user there
      -- The copy has the entries of `old`, every other directory its own.
      have source : ∃ x ∈ s.ctxs, copyFrame s.word old f g i = s.word x i := by
        by_cases copy : g = f
        · exact ⟨old, guard.1, if_pos copy⟩
        · have before : g ∈ s.ctxs := by
            rcases List.mem_append.mp member with before | last
            · exact before
            · exact absurd (List.mem_singleton.mp last) copy
          exact ⟨g, before, if_neg copy⟩
      obtain ⟨x, known, same⟩ := source
      simp only [same] at there ⊢
      obtain ⟨h, bound, table, inUse, notCtx, index⟩ := wf.tables x known i user there
      refine ⟨h, bound, table, Finset.mem_insert_of_mem inUse, ?_, index⟩
      intro ctx
      rcases List.mem_append.mp ctx with before | last
      · exact notCtx before
      · exact free.2 (List.mem_singleton.mp last ▸ inUse)
  · cases ran

theorem step_wf {op : Op} (inv : ∃ slot, Wf s slot) (ran : step s op = some t) :
    ∃ slot, Wf t slot := by
  obtain ⟨slot, wf⟩ := inv
  cases op with
  | clone old f => exact ⟨slot, wf_cloneCtx wf ran⟩
  | map pgd c => exact wf_mapCall wf ran
  | destroy pgd =>
    simp only [step, destroyCtx] at ran
    split at ran
    · cases ran
      refine ⟨slot, ?_, wf.nodup.erase pgd, ?_⟩
      · intro g member
        obtain ⟨other, before⟩ := (wf.nodup.mem_erase_iff).mp member
        exact Finset.mem_erase.mpr ⟨other, wf.dirs g before⟩
      · intro g member i user there
        have before := List.mem_of_mem_erase member
        obtain ⟨h, bound, table, inUse, notCtx, index⟩ := wf.tables g before i user there
        have other : h ≠ pgd := fun same => notCtx (same ▸ ‹pgd ∈ s.ctxs›)
        exact ⟨h, bound, table, Finset.mem_erase.mpr ⟨other, inUse⟩,
          fun ctx => notCtx (List.mem_of_mem_erase ctx), index⟩
    · cases ran
  | other f i v =>
    simp only [step] at ran
    split at ran
    · cases ran
    · rename_i free
      cases ran
      refine ⟨slot, wf_outside wf ?_⟩
      intro g inUse
      have away : g ≠ f := fun same => free (same ▸ inUse)
      exact funext fun j => setWord_ne (.inl away)

theorem run_wf {memory : Words} {initPgd : Nat} {ops : List Op}
    (ran : Run.exec step (boot memory initPgd) ops = some s) : ∃ slot, Wf s slot :=
  Run.exec_invariant (fun s => ∃ slot, Wf s slot) (fun _ => True)
    (fun _ _ _ _ inv stepped => step_wf inv stepped) (fun _ _ => trivial)
    ⟨id, wf_boot memory initPgd⟩ ran

def SamePage (a b : Nat) : Prop := dir a = dir b ∧ tbl a = tbl b

instance (a b : Nat) : Decidable (SamePage a b) := inferInstanceAs (Decidable (_ ∧ _))

theorem samePage_words (left : a < 2 ^ 32) (right : b < 2 ^ 32) :
    SamePage a b ↔ a / 4096 = b / 4096 := by
  unfold SamePage
  rw [dir_eq, dir_eq, tbl_eq, tbl_eq]
  omega

theorem translate_same_page (same : SamePage a b) : translate m pgd a = translate m pgd b := by
  unfold translate
  rw [same.1, same.2]

theorem translate_mapCall (wf : Wf s slot) (ran : mapCall s pgd c = some t)
    (member : g ∈ s.ctxs) (low : va < pageOffset)
    (there : s.word pgd (dir c.addr) &&& present ≠ 0) :
    translate t.word g va =
      if SamePage va c.addr ∧ s.word g (dir c.addr) = s.word pgd (dir c.addr) then
        some ⟨c.page, c.prot &&& protWrite ≠ 0, true⟩
      else translate s.word g va := by
  obtain ⟨here, callLow, frame, _, cases⟩ := mapCall_cases ran
  rcases cases with ⟨absent, _⟩ | ⟨_, _, _, absent, _⟩ | ⟨_, _, words⟩
  · exact absurd absent there
  · exact absurd absent there
  · obtain ⟨f, inside, table, _, notDir, index⟩ := wf.tables pgd here _ (dir_user callLow) there
    have dirs : t.word g (dir va) = s.word g (dir va) :=
      mapCall_dirs wf ran member (.inr (.inr there))
    rw [table, tableOf_pdeWord inside] at words
    rw [table]
    by_cases set : s.word g (dir va) &&& present = 0
    · -- An empty slot of `g` stays empty and is not the one of the call's table.
      have apart : ¬ (SamePage va c.addr ∧ s.word g (dir c.addr) = pdeWord f) := by
        intro ⟨same, is⟩
        rw [same.1, is] at set
        exact pdeWord_present f set
      rw [if_neg apart, translate_absent set, translate_absent (dirs ▸ set)]
    · obtain ⟨h, bound, mine, _, _, myIndex⟩ := wf.tables g member _ (dir_user low) set
      rw [translate_table bound (dirs.trans mine), translate_table bound mine, words]
      split
      · rename_i hit
        have sameTable : h = f := by
          have is : pdeWord h = pdeWord f := by rw [← mine, hit.1.1, hit.2]
          rw [pdeWord_eq, pdeWord_eq] at is
          omega
        rw [sameTable, hit.1.2, setWord_self, entry_pteWord frame]
      · rename_i miss
        rw [setWord_ne]
        by_contra both
        have sameTable : h = f := by
          by_contra ne
          exact both (.inl ne)
        have sameEntry : tbl va = tbl c.addr := by
          by_contra ne
          exact both (.inr ne)
        have sameDir : dir va = dir c.addr := by rw [← myIndex, sameTable, index]
        exact miss ⟨⟨sameDir, sameEntry⟩, by rw [← sameDir, mine, sameTable]⟩

theorem translate_mapCall_absent (wf : Wf s slot)
    (ran : mapCall s pgd c = some t) (member : g ∈ s.ctxs) (low : va < pageOffset)
    (absent : s.word pgd (dir c.addr) &&& present = 0) (other : g ≠ pgd ∨ dir va ≠ dir c.addr) :
    translate t.word g va = translate s.word g va := by
  have dirs : t.word g (dir va) = s.word g (dir va) :=
    mapCall_dirs wf ran member (other.imp_right .inl)
  obtain ⟨here, callLow, frame, _, cases⟩ := mapCall_cases ran
  rcases cases with ⟨_, _, rfl⟩ | ⟨f, _, free, _, _, words⟩ | ⟨there, _⟩
  · rfl
  · by_cases set : s.word g (dir va) &&& present = 0
    · rw [translate_absent set, translate_absent (dirs ▸ set)]
    · obtain ⟨h, bound, mine, inUse, notDir, _⟩ := wf.tables g member _ (dir_user low) set
      have away : h ≠ f := fun same => free (same ▸ inUse)
      have notPgd : h ≠ pgd := fun same => notDir (same ▸ here)
      rw [translate_table bound (dirs.trans mine), translate_table bound mine, words,
        setWord_ne (.inl away), setWord_ne (.inl notPgd), clearFrame_ne away]
  · exact absurd absent there

theorem translate_mapCall_own (wf : Wf s slot) (ran : mapCall s pgd c = some t)
    (given : c.alloc = none → s.word pgd (dir c.addr) &&& present ≠ 0)
    (low : va < pageOffset) :
    translate t.word pgd va =
      if SamePage va c.addr then some ⟨c.page, c.prot &&& protWrite ≠ 0, true⟩
      else translate s.word pgd va := by
  obtain ⟨here, _, frame, _, cases⟩ := mapCall_cases ran
  rcases cases with ⟨absent, empty, _⟩ | ⟨f, inside, free, absent, _, words⟩ | ⟨there, _⟩
  · exact absurd absent (given empty)
  · by_cases slots : dir va = dir c.addr
    · -- The table is new, so it has this one entry.
      have away : pgd ≠ f := fun same => free (same ▸ wf.dirs pgd here)
      have table : t.word pgd (dir va) = pdeWord f := by
        rw [slots, words, setWord_ne (.inl away), setWord_self]
      have before : translate s.word pgd va = none := translate_absent (slots ▸ absent)
      rw [translate_table inside table, before, words]
      by_cases entries : tbl va = tbl c.addr
      · rw [entries, setWord_self, entry_pteWord frame, if_pos ⟨slots, entries⟩]
      · have clear : clearFrame s.word f f (tbl va) = 0 := if_pos rfl
        rw [setWord_ne (.inr entries), setWord_ne (.inl away.symm), clear, entry_zero,
          if_neg fun same => entries same.2]
    · rw [translate_mapCall_absent wf ran here low absent (.inr slots),
        if_neg fun same => slots same.1]
  · rw [translate_mapCall wf ran here low there]
    simp only [and_true]

end ScaraOS.Paging
