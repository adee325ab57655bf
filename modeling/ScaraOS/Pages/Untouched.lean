import ScaraOS.Pages.Ownership

/-! What a step leaves of the page caches: a frame that is handed on is in no tree, so the
trees stay as they are, but for the one a page is added to. -/
namespace ScaraOS.Pages

open Function RbTree

structure Untouched (s s' : State) (i : Nat) : Prop where
  root : s'.root i = s.root i
  member : ∀ f, s'.owner f = .cached i ↔ s.owner f = .cached i
  words : ∀ f, s.owner f = .cached i → nodes s'.u f = nodes s.u f ∧ pcOff s'.u f = pcOff s.u f

theorem Untouched.refl (s : State) (i : Nat) : Untouched s s i :=
  ⟨rfl, fun _ => Iff.rfl, fun _ _ => ⟨rfl, rfl⟩⟩

variable {s s' : State} {i f : Nat} {rest : List Nat}

theorem Untouched.trans {s'' : State} (first : Untouched s s' i) (second : Untouched s' s'' i) :
    Untouched s s'' i where
  root := second.root.trans first.root
  member := fun f => (second.member f).trans (first.member f)
  words := by
    intro f owner
    obtain ⟨node, off⟩ := first.words f owner
    obtain ⟨node', off'⟩ := second.words f ((first.member f).mpr owner)
    exact ⟨node'.trans node, off'.trans off⟩

theorem Untouched.woken {reading : Nat → Option Read}
    (same : Untouched { s with reading := reading } s' i) : Untouched s s' i :=
  ⟨same.root, same.member, same.words⟩

theorem member_update {owner : Nat → Owner} {o : Owner} (before : owner f ≠ .cached i)
    (after : o ≠ .cached i) (g : Nat) :
    update owner f o g = .cached i ↔ owner g = .cached i := by
  by_cases same : g = f
  · simp [same, before, after]
  · simp [same]

section Steps

variable {m : Machine} {known : Nat → Prop} {s : State} {free : List Nat} {tree : Nat → Shape}

theorem taken_untouched (inv : Inv m known s free tree) (first : free = f :: rest) (i : Nat) :
    Untouched s (taken s f) i where
  root := rfl
  member := by
    have owner : s.owner f = .free := (inv.onList f).mp (first ▸ List.mem_cons_self)
    exact member_update (by simp [owner]) (by simp)
  words := by
    intro g owner
    have off := inv.off_list (f := g) (by simp [owner]) (by simp [owner])
    have listed : f ∈ free := first ▸ List.mem_cons_self
    exact ⟨nodes_withLinks (Links.listDel_frame inv.ring listed off), rfl⟩

theorem freed_untouched (inv : Inv m known s free tree) (owner : ∀ i, s.owner f ≠ .cached i)
    (i : Nat) : Untouched s (freed m s f) i where
  root := rfl
  member := member_update (owner i) (by simp)
  words := by
    intro g cached
    have off := inv.off_list (f := g) (by simp [cached]) (by simp [cached])
    have apart : g ≠ f := by
      rintro rfl
      exact owner i cached
    exact ⟨nodes_withLinks (Links.listAddTail_frame inv.ring apart off), rfl⟩

theorem stored_words {words : Union} (before : s.owner f ≠ .cached i) :
    ∀ g, s.owner g = .cached i → nodes (update s.u f words) g = nodes s.u g ∧
      pcOff (update s.u f words) g = pcOff s.u g := by
  intro g cached
  have apart : g ≠ f := by
    rintro rfl
    exact before cached
  simp [nodes, pcOff, apart]

theorem started_untouched (inv : Inv m known s free tree) {r : Read} (first : free = r.page :: rest)
    (ino i : Nat) : Untouched s (started s ino r) i := by
  obtain ⟨root, member, words⟩ := taken_untouched inv first i
  refine ⟨root, fun f => ?_, words⟩
  exact (member_update (by simp) (by simp) f).trans (member f)

theorem inserted_untouched (inv : Inv m known s free tree) {ino page off : Nat} {t : Tree}
    (owner : s.owner page = .reading ino)
    (frame : ∀ g, g ≠ page → g ∉ (tree ino).inorder → t.rb g = nodes s.u g) (other : i ≠ ino) :
    Untouched s (inserted s ino page off t) i where
  root := update_of_ne other _ _
  member := member_update (by simp [owner]) (by simpa using fun eq : ino = i => other eq.symm)
  words := by
    intro g cached
    have apart : g ≠ page := by
      rintro rfl
      simp [owner] at cached
    have outside : g ∉ (tree ino).inorder := by
      intro member
      have mine := (inv.inTree ino g).mp member
      rw [cached] at mine
      exact other (Owner.cached.inj mine)
    refine ⟨frame g apart outside, ?_⟩
    simp [inserted, pcOff, withNodes, setPcOff, apart]

def releases (s : State) : Label → Bool
  | .freePage f =>
    match s.owner f with
    | .cached _ => true
    | _ => false
  | _ => false

structure Quiet (s s' : State) : Prop where
  untouched : ∀ i, Untouched s s' i
  counts : ∀ f i, s.owner f = .cached i → s'.count f = s.count f
  reading : s'.reading = s.reading

def Label.reads : Label → Bool
  | .readpage _ _ => true
  | .readDone _ _ => true
  | _ => false

theorem gaveBack_quiet (inv : Inv m known s free tree)
    (owner : s.owner f = .caller ∨ s.owner f = .slab) : Quiet s (freed m s f) where
  untouched := freed_untouched inv fun i => by
    rcases owner with owner | owner
    · simp [owner]
    · simp [owner]
  counts := by
    intro g i cached
    have apart : g ≠ f := by
      rintro rfl
      rcases owner with owner | owner
      · simp [owner] at cached
      · simp [owner] at cached
    exact update_of_ne apart _ _
  reading := rfl

theorem took_quiet (inv : Inv m known s free tree) (first : free = f :: rest) :
    Quiet s (taken s f) where
  untouched := taken_untouched inv first
  counts := by
    intro g i cached
    have owner : s.owner f = .free := (inv.onList f).mp (first ▸ List.mem_cons_self)
    have apart : g ≠ f := by
      rintro rfl
      simp [owner] at cached
    exact update_of_ne apart _ _
  reading := rfl

theorem other_quiet {l : Label} (inv : Inv m known s free tree) (kept : releases s l = false)
    (other : l.reads = false) (stepped : step m s l = some s') :
    ∃ free', Inv m known s' free' tree ∧ Quiet s s' := by
  cases l with
  | allocPage =>
    simp only [step, Option.map_eq_some_iff] at stepped
    obtain ⟨⟨s₁, page⟩, ran, rfl⟩ := stepped
    rcases allocPage_inv inv with ⟨-, none⟩ | ⟨f, rest, first, some, inv'⟩
    · rw [none] at ran
      cases ran
      exact ⟨free, inv, Untouched.refl s, fun _ _ _ => rfl, rfl⟩
    · rw [some] at ran
      cases ran
      exact ⟨rest, inv', took_quiet inv first⟩
  | freePage f =>
    simp only [step] at stepped
    split at stepped
    · rename_i held
      have owner : s.owner f = .caller := by
        cases owner : s.owner f with
        | caller => rfl
        | cached ino => simp [releases, owner] at kept
        | reserved | free | slab | reading ino => simp [heldOnce, owner] at held
      obtain ⟨rfl, inv'⟩ := giveBack_inv inv (.inl owner) stepped
      exact ⟨_, inv', gaveBack_quiet inv (.inl owner)⟩
    · cases stepped
  | memchunkGet =>
    obtain ⟨f, rest, first, rfl, inv'⟩ := memchunkGet_inv inv stepped
    have took := took_quiet inv first
    refine ⟨rest, inv', fun i => (took.untouched i).trans ?_, took.counts, took.reading⟩
    exact ⟨rfl, member_update (by simp) (by simp), stored_words (by simp)⟩
  | slabStore f words =>
    simp only [step] at stepped
    split at stepped
    · rename_i owner
      cases stepped
      refine ⟨free, slabStore_inv inv words owner, fun i => ?_, fun _ _ _ => rfl, rfl⟩
      exact ⟨rfl, fun _ => Iff.rfl, stored_words (by simp [owner])⟩
    · cases stepped
  | memchunkPut f =>
    simp only [step] at stepped
    split at stepped
    · rename_i owner
      obtain ⟨rfl, inv'⟩ := giveBack_inv inv (.inr owner) stepped
      exact ⟨_, inv', gaveBack_quiet inv (.inr owner)⟩
    · cases stepped
  | readpage ino off | readDone ino ret => cases other

end Steps

end ScaraOS.Pages
