import ScaraOS.Lib.RbSearch
import ScaraOS.Pages.Soundness
import ScaraOS.Pages.Untouched

/-! The page cache over whole runs: what the calls of `pagecache_file_readpage` have
returned, and what those leave that return nothing. A call holds the `i_sem` of its inode,
so it starts when no other call for the inode is in its `pread`; calls for other inodes,
and every other use of the page allocator, come in between. -/
namespace ScaraOS.Pages

open Function RbTree

structure Done where
  ino : Nat
  off : Nat
  page : Nat
  deriving DecidableEq, Repr

/-- `calls` is history, the last call first. -/
structure Traced where
  state : State
  calls : List Done

def returned (m : Machine) (s : State) : Label → Option Done
  | .readpage ino off =>
    match search m s ino off with
    | some (.node a) => some ⟨ino, off, a⟩
    | _ => none
  | .readDone ino ret => if ret ≤ 0 then none else (s.reading ino).map fun r => ⟨ino, r.off, r.page⟩
  | _ => none

def called (m : Machine) (t : Traced) (l : Label) : Option Traced :=
  if releases t.state l then none
  else (step m t.state l).map fun s => ⟨s, (returned m t.state l).toList ++ t.calls⟩

structure Coherent (t : Traced) : Prop where
  tree : ∀ ino, ∃ shape, RbTree.Rep (nodes t.state.u) (t.state.root ino) 0 shape ∧
    RedBlack (nodes t.state.u) shape ∧ Sorted (pcOff t.state.u) shape.inorder ∧
    ∀ a ∈ shape.inorder, pcOff t.state.u a % 4096 = 0
  found : ∀ c ∈ t.calls, InTree t.state c.ino c.page ∧ pcOff t.state.u c.page = c.off
  same : ∀ c ∈ t.calls, ∀ d ∈ t.calls, c.ino = d.ino → c.off = d.off → c.page = d.page
  counts : ∀ c ∈ t.calls, t.state.count c.page = t.calls.countP fun d => d.page = c.page

def SameTree (s s' : State) (ino : Nat) : Prop :=
  s'.root ino = s.root ino ∧
    ∀ f, InTree s ino f → nodes s'.u f = nodes s.u f ∧ pcOff s'.u f = pcOff s.u f

structure Spared (m : Machine) (s s' : State) (page : Nat) : Prop where
  counts : ∀ f, f ≠ page → s'.count f = s.count f
  free : ∀ f, f ≠ page → (OnFreeList m s' f ↔ OnFreeList m s f)
  trees : ∀ ino, SameTree s s' ino

/-- A call that starts with the step from `s₀` to `s₁` and fails with the step from `s₂` to
`s₃`. Other tasks run in between. Its own two steps change one frame, which is in the end as
it was, and the tree of the inode is as it was. -/
structure Undone (m : Machine) (s₀ s₁ s₂ s₃ : State) (ino : Nat) : Prop where
  frame : ∃ page, Spared m s₀ s₁ page ∧ Spared m s₂ s₃ page ∧ s₃.count page = s₀.count page ∧
    (OnFreeList m s₃ page ↔ OnFreeList m s₀ page)
  tree : SameTree s₀ s₃ ino

structure Coherence (m : Machine) (t : Traced) (ls : List Label) : Prop where
  states : ∀ pre post u, ls = pre ++ post → Run.exec (called m) t pre = some u → Coherent u
  noPage : ∀ pre ino off post u u', ls = pre ++ .readpage ino off :: post →
    Run.exec (called m) t pre = some u → called m u (.readpage ino off) = some u' →
    returned m u.state (.readpage ino off) = none → u'.state.reading ino = none → u' = u
  failed : ∀ pre ino off mid ret post u₀ u₁ u₂ u₃,
    ls = pre ++ .readpage ino off :: (mid ++ .readDone ino ret :: post) →
    Run.exec (called m) t pre = some u₀ → called m u₀ (.readpage ino off) = some u₁ →
    u₁.state.reading ino ≠ none → (∀ ret', Label.readDone ino ret' ∉ mid) →
    Run.exec (called m) u₁ mid = some u₂ → called m u₂ (.readDone ino ret) = some u₃ → ret ≤ 0 →
    Undone m u₀.state u₁.state u₂.state u₃.state ino

/-- Over the ownership of the frames: the trees are sorted, a read that waits has its place
between its neighbours, and every count is the number of calls. -/
structure Cache (m : Machine) (t : Traced) (free : List Nat) (tree : Nat → Shape) : Prop where
  inv : Inv m (managed m) t.state free tree
  sorted : ∀ ino, Sorted (pcOff t.state.u) (tree ino).inorder
  aligned : ∀ f ino, t.state.owner f = .cached ino → pcOff t.state.u f % 4096 = 0
  waiting : ∀ ino r, t.state.reading ino = some r → r.off % 4096 = 0 ∧
    ∃ p : Path, Path.plug .leaf p = tree ino ∧ r.slot = p.slot ∧ p.Between (pcOff t.state.u) r.off
  returns : ∀ c ∈ t.calls, t.state.owner c.page = .cached c.ino ∧ pcOff t.state.u c.page = c.off
  counted : ∀ f ino, t.state.owner f = .cached ino →
    t.state.count f = t.calls.countP fun d => d.page = f

variable {s' s : State} {i off ino a f : Nat} {p : Path} {free' free : List Nat} {r : Read}
  {shape : Shape} {t' t : Traced} {l : Label} {known : Nat → Prop} {ls : List Label} {m : Machine}

section Cache

variable {m : Machine} {t : Traced} {free : List Nat} {tree : Nat → Shape}

section

variable (cache : Cache m t free tree)
include cache

theorem Cache.offs (same : Untouched t.state s' i) :
    ∀ a ∈ (tree i).inorder, pcOff s'.u a = pcOff t.state.u a :=
  fun a member => (same.words a ((cache.inv.inTree i a).mp member)).2

theorem Cache.waiting_untouched (same : Untouched t.state s' i) (place : Path.plug .leaf p = tree i)
    (between : p.Between (pcOff t.state.u) off) : p.Between (pcOff s'.u) off := by
  apply Path.between_congr _ between
  rw [← Path.inorder_hole place]
  exact cache.offs same

theorem Cache.untouched (inv' : Inv m (managed m) s' free' tree)
    (same : ∀ i, Untouched t.state s' i)
    (counts : ∀ f i, t.state.owner f = .cached i → s'.count f = t.state.count f)
    (reads : ∀ ino r, s'.reading ino = some r → r.off % 4096 = 0 ∧
      ∃ p : Path, Path.plug .leaf p = tree ino ∧ r.slot = p.slot ∧
        p.Between (pcOff t.state.u) r.off) : Cache m ⟨s', t.calls⟩ free' tree where
  inv := inv'
  sorted := fun ino => sorted_congr (cache.offs (same ino)) (cache.sorted ino)
  aligned := by
    intro f ino owner
    have before := ((same ino).member f).mp owner
    exact (congrArg (· % 4096) ((same ino).words f before).2).trans (cache.aligned f ino before)
  waiting := by
    intro ino r reading
    obtain ⟨aligned, p, place, slot, between⟩ := reads ino r reading
    exact ⟨aligned, p, place, slot, cache.waiting_untouched (same ino) place between⟩
  returns := by
    intro c member
    obtain ⟨owner, off⟩ := cache.returns c member
    exact ⟨((same c.ino).member c.page).mpr owner, ((same c.ino).words c.page owner).2.trans off⟩
  counted := by
    intro f ino owner
    have before := ((same ino).member f).mp owner
    exact (counts f ino before).trans (cache.counted f ino before)

theorem Cache.hit (owner : t.state.owner a = .cached ino) (here : pcOff t.state.u a = off)
    (room : t.state.count a < 2 ^ 32 - 1) :
    Cache m ⟨{ t.state with count := update t.state.count a ((t.state.count a + 1) % 2 ^ 32) },
      ⟨ino, off, a⟩ :: t.calls⟩ free tree := by
  refine { cache with inv := cache.inv.referenced owner room, returns := ?_, counted := ?_ }
  · intro c member
    rcases List.mem_cons.mp member with rfl | old
    · exact ⟨owner, here⟩
    · exact cache.returns c old
  · intro f i cached
    by_cases same : f = a
    · subst same
      have more : (t.state.count f + 1) % 2 ^ 32 = t.state.count f + 1 := Nat.mod_eq_of_lt (by omega)
      rw [List.countP_cons_of_pos (by simp)]
      simp only [update_self, more]
      exact congrArg (· + 1) (cache.counted f i cached)
    · have other : a ≠ f := fun eq => same eq.symm
      rw [List.countP_cons_of_neg (by simpa using other)]
      simp only [update_of_ne same]
      exact cache.counted f i cached

theorem Cache.read {tr : Tree} (waiting : t.state.reading ino = some r)
    (place : Path.plug .leaf p = tree ino) (between : p.Between (pcOff t.state.u) r.off)
    (aligned : r.off % 4096 = 0) (order : shape.inorder = p.before ++ r.page :: p.after)
    (frame : ∀ g, g ≠ r.page → g ∉ (tree ino).inorder → tr.rb g = nodes t.state.u g)
    (after : s' = inserted
      { t.state with reading := update t.state.reading ino none } ino r.page r.off tr)
    (inv' : Inv m (managed m) s' free (update tree ino shape)) :
    Cache m ⟨s', ⟨ino, r.off, r.page⟩ :: t.calls⟩ free (update tree ino shape) := by
  have owner := (cache.inv.pending ino r waiting).1
  have count : t.state.count r.page = 1 :=
    cache.inv.oneCount r.page (by simp [owner, Owner.isPrivate])
  have offs : ∀ f, pcOff s'.u f = if f = r.page then r.off else pcOff t.state.u f := by
    intro f
    subst after
    by_cases same : f = r.page
    · simp [same, inserted, pcOff, withNodes, setPcOff]
    · simp [same, inserted, pcOff, withNodes, setPcOff]
  have owners : ∀ f i, s'.owner f = .cached i ↔
      if f = r.page then i = ino else t.state.owner f = .cached i := by
    intro f i
    subst after
    by_cases same : f = r.page
    · simp [same, inserted, eq_comm]
    · simp [same, inserted]
  have counts : s'.count = t.state.count := by rw [after]; rfl
  -- no call has returned the page before
  have fresh : ∀ c ∈ t.calls, c.page ≠ r.page := by
    intro c member same
    have cached := (cache.returns c member).1
    rw [same, owner] at cached
    cases cached
  have apart : ∀ i, ∀ f ∈ (tree i).inorder, f ≠ r.page := by
    rintro i f member rfl
    have cached := (cache.inv.inTree i _).mp member
    rw [owner] at cached
    cases cached
  have old : ∀ i, ∀ f ∈ (tree i).inorder, pcOff s'.u f = pcOff t.state.u f := by
    intro i f member
    rw [offs, if_neg (apart i f member)]
  have here : pcOff s'.u r.page = r.off := by rw [offs, if_pos rfl]
  constructor
  case inv => exact inv'
  case sorted =>
    intro i
    by_cases mine : i = ino
    · subst mine
      rw [update_self, order]
      apply Path.between_sorted place (sorted_congr (old i) (cache.sorted i))
      rw [here]
      apply Path.between_congr _ between
      rw [← Path.inorder_hole place]
      exact old i
    · rw [update_of_ne mine]
      exact sorted_congr (old i) (cache.sorted i)
  case aligned =>
    intro f i cached
    rw [owners] at cached
    rw [offs]
    split at cached
    · rw [if_pos ‹_›]
      exact aligned
    · rw [if_neg ‹_›]
      exact cache.aligned f i cached
  case waiting =>
    intro i r' reading
    have other : i ≠ ino := by
      rintro rfl
      simp [after, inserted] at reading
    have before : t.state.reading i = some r' := by
      simpa [after, inserted, other] using reading
    obtain ⟨aligned', q, place', slot, between'⟩ := cache.waiting i r' before
    refine ⟨aligned', q, by rw [update_of_ne other]; exact place', slot, ?_⟩
    apply Path.between_congr _ between'
    rw [← Path.inorder_hole place']
    exact old i
  case returns =>
    intro c member
    rcases List.mem_cons.mp member with rfl | earlier
    · exact ⟨by rw [owners, if_pos rfl], here⟩
    · obtain ⟨cached, off⟩ := cache.returns c earlier
      have other := fresh c earlier
      exact ⟨by rw [owners, if_neg other]; exact cached, by rw [offs, if_neg other]; exact off⟩
  case counted =>
    intro f i cached
    rw [owners] at cached
    simp only [counts]
    split at cached
    · rename_i same
      subst same
      have none : t.calls.countP (fun d => d.page = r.page) = 0 :=
        List.countP_eq_zero.mpr fun c member => by simpa using fresh c member
      rw [count, List.countP_cons_of_pos (by simp), none]
    · rename_i other
      have skip : r.page ≠ f := fun eq => other eq.symm
      rw [List.countP_cons_of_neg (by simpa using skip)]
      exact cache.counted f i cached

theorem readpage_cache
    (room : ∀ a, search m t.state ino off = some (.node a) → t.state.count a < 2 ^ 32 - 1)
    (stepped : readpage m t.state ino off = some s') : ∃ free',
      Cache m ⟨s', (returned m t.state (.readpage ino off)).toList ++ t.calls⟩ free' tree := by
  obtain ⟨aligned, -, hit | ⟨p, place, turns, found, miss⟩⟩ := readpage_cases cache.inv stepped
  · obtain ⟨a, owner, here, found, rfl⟩ := hit
    simp only [returned, found, Option.toList_some, List.singleton_append]
    exact ⟨free, cache.hit owner here (room a found)⟩
  · simp only [returned, found, Option.toList_none, List.nil_append]
    rcases miss with rfl | ⟨f, rest, first, inv₁, rfl⟩
    · exact ⟨free, cache⟩
    · have took := took_quiet cache.inv first
      refine ⟨rest, cache.untouched (started_inv inv₁ place)
        (started_untouched cache.inv first ino) took.counts ?_⟩
      intro i r reading
      by_cases mine : i = ino
      · subst mine
        cases (update_self (β := fun _ => Option Read) i _ t.state.reading).symm.trans reading
        exact ⟨aligned, p, place, rfl, Path.between_of_turns place (cache.sorted i) turns⟩
      · exact cache.waiting i r ((update_of_ne mine _ _).symm.trans reading)

theorem readDone_cache {ret : Int} (stepped : readDone m t.state ino ret = some s') : ∃ free' tree',
      Cache m ⟨s', (returned m t.state (.readDone ino ret)).toList ++ t.calls⟩ free' tree' := by
  obtain ⟨r, waiting, -⟩ := Option.bind_eq_some_iff.mp stepped
  obtain ⟨aligned, p, place, slot, between⟩ := cache.waiting ino r waiting
  have owner := (cache.inv.pending ino r waiting).1
  rcases readDone_cases cache.inv waiting place slot stepped with
    ⟨failed, rfl, inv'⟩ | ⟨read, tr, shape, order, frame, after, inv'⟩
  · simp only [returned, if_pos failed, Option.toList_none, List.nil_append]
    have same := freed_untouched (f := r.page) (cache.inv.endRead ino) (by simp [owner])
    refine ⟨_, tree, cache.untouched inv' (fun i => (same i).woken) ?_ ?_⟩
    · intro f i cached
      have apart : f ≠ r.page := by
        rintro rfl
        simp [owner] at cached
      exact update_of_ne apart _ _
    · intro i r' reading
      by_cases mine : i = ino
      · subst mine
        simp [freed] at reading
      · exact cache.waiting i r' ((update_of_ne mine _ _).symm.trans reading)
  · simp only [returned, if_neg (Int.not_le.mpr read), waiting, Option.map_some,
      Option.toList_some, List.singleton_append]
    exact ⟨free, _, cache.read waiting place between aligned order frame after inv'⟩

end

theorem called_cases (stepped : called m t l = some t') :
    releases t.state l = false ∧ step m t.state l = some t'.state ∧
      t'.calls = (returned m t.state l).toList ++ t.calls := by
  unfold called at stepped
  split at stepped
  · cases stepped
  · rename_i kept
    obtain ⟨s', ran, rfl⟩ := Option.map_eq_some_iff.mp stepped
    exact ⟨by simpa using kept, ran, rfl⟩

theorem called_cache (cache : Cache m t free tree) (ok : careful m t.state l = true)
    (stepped : called m t l = some t') : ∃ free' tree', Cache m t' free' tree' := by
  obtain ⟨kept, ran, calls⟩ := called_cases stepped
  have quiet : l.reads = false → ∃ free', Cache m ⟨t'.state, t.calls⟩ free' tree := by
    intro other
    obtain ⟨free', inv', quiet⟩ := other_quiet cache.inv kept other ran
    refine ⟨free', cache.untouched inv' quiet.untouched quiet.counts ?_⟩
    intro ino r reading
    rw [quiet.reading] at reading
    exact cache.waiting ino r reading
  cases t' with
  | mk s' calls' =>
    subst calls
    cases l with
    | readpage ino off =>
      obtain ⟨free', cache'⟩ := readpage_cache cache
        (fun a found => by simpa [careful, found] using ok) ran
      exact ⟨free', tree, cache'⟩
    | readDone ino ret => exact readDone_cache cache ran
    | allocPage | freePage f | memchunkGet | slabStore f words | memchunkPut f =>
      obtain ⟨free', cache'⟩ := quiet rfl
      exact ⟨free', tree, cache'⟩

theorem mem_reaches {rb : Nat → RbNode} {root parent : Nat} (rep : RbTree.Rep rb root parent shape)
    (member : f ∈ shape.inorder) : Reaches rb root f := by
  induction shape generalizing root parent with
  | leaf => cases member
  | node a l r left right =>
    obtain ⟨rfl, nonzero, -, repL, repR⟩ := rep
    rcases List.mem_append.mp member with below | here
    · exact Reaches.down .left nonzero (left repL below)
    · rcases List.mem_cons.mp here with rfl | below
      · exact Reaches.here nonzero
      · exact Reaches.down .right nonzero (right repR below)

section

variable (inv : Inv m known s free tree)
include inv

theorem Inv.inTree_iff : InTree s ino f ↔ s.owner f = .cached ino := by
  rw [← inv.inTree ino f]
  exact ⟨fun reaches => reaches_mem reaches (inv.rep ino), mem_reaches (inv.rep ino)⟩

theorem Inv.onFreeList_iff : OnFreeList m s f ↔ s.owner f = .free := by
  rw [← inv.onList f]
  constructor
  · rintro ⟨free', ring, member⟩
    rwa [Links.ring_unique ring inv.ring] at member
  · exact fun member => ⟨free, inv.ring, member⟩

theorem Untouched.sameTree (same : Untouched s s' ino) : SameTree s s' ino :=
  ⟨same.root, fun f reaches => same.words f (inv.inTree_iff.mp reaches)⟩

theorem spared_of_untouched (inv' : Inv m known s' free' tree) (same : ∀ i, Untouched s s' i)
    {page : Nat} (counts : ∀ f, f ≠ page → s'.count f = s.count f)
    (owners : ∀ f, f ≠ page → s'.owner f = s.owner f) : Spared m s s' page where
  counts := counts
  free := by
    intro f other
    rw [inv'.onFreeList_iff, inv.onFreeList_iff, owners f other]
  trees := fun i => (same i).sameTree inv

end

theorem called_waits (cache : Cache m t free tree) (reading : t.state.reading ino = some r)
    (other : ∀ ret, l ≠ .readDone ino ret) (stepped : called m t l = some t') :
    t'.state.reading ino = some r ∧ Untouched t.state t'.state ino := by
  obtain ⟨kept, ran, -⟩ := called_cases stepped
  cases reads : l.reads with
  | false =>
    obtain ⟨free', inv', quiet⟩ := other_quiet cache.inv kept reads ran
    exact ⟨quiet.reading ▸ reading, quiet.untouched ino⟩
  | true =>
    cases l with
    | readpage i off =>
      obtain ⟨-, idle, hit | ⟨p, place, turns, found, miss⟩⟩ := readpage_cases cache.inv ran
      · obtain ⟨a, owner, here, found, after⟩ := hit
        rw [after]
        exact ⟨reading, rfl, fun _ => Iff.rfl, fun _ _ => ⟨rfl, rfl⟩⟩
      · rcases miss with same | ⟨f, rest, first, inv₁, after⟩
        · rw [same]
          exact ⟨reading, Untouched.refl _ ino⟩
        · have apart : ino ≠ i := by
            rintro rfl
            simp [idle] at reading
          rw [after]
          exact ⟨(update_of_ne apart _ _).trans reading,
            started_untouched cache.inv first i ino⟩
    | readDone i ret =>
      have apart : ino ≠ i := by
        rintro rfl
        exact other ret rfl
      obtain ⟨r', waiting, -⟩ := Option.bind_eq_some_iff.mp ran
      obtain ⟨-, p, place, slot, -⟩ := cache.waiting i r' waiting
      have owner := (cache.inv.pending i r' waiting).1
      rcases readDone_cases cache.inv waiting place slot ran with
        ⟨-, after, -⟩ | ⟨-, tr, shape, -, frame, after, -⟩
      · rw [after]
        exact ⟨(update_of_ne apart _ _).trans reading,
          (freed_untouched (cache.inv.endRead i) (by simp [owner]) ino).woken⟩
      · rw [after]
        exact ⟨(update_of_ne apart _ _).trans reading,
          (inserted_untouched (cache.inv.endRead i) owner frame apart).woken⟩
    | allocPage | freePage f | memchunkGet | slabStore f words | memchunkPut f => cases reads

theorem run_waits (cache : ∃ free tree, Cache m t free tree)
    (reading : t.state.reading ino = some r) (other : ∀ ret, Label.readDone ino ret ∉ ls)
    (ok : Run.Along (called m) (fun t l => careful m t.state l = true) t ls)
    (ran : Run.exec (called m) t ls = some t') :
    (∃ free tree, Cache m t' free tree) ∧ t'.state.reading ino = some r ∧
      Untouched t.state t'.state ino := by
  induction ls generalizing t with
  | nil => exact Option.some.inj ran ▸ ⟨cache, reading, Untouched.refl _ ino⟩
  | cons l rest ih =>
    obtain ⟨u, first, later⟩ := (Run.exec_cons ..).mp ran
    obtain ⟨free, tree, cache⟩ := cache
    have notMine : ∀ ret, l ≠ .readDone ino ret := by
      rintro ret rfl
      exact other ret List.mem_cons_self
    obtain ⟨reading', same⟩ := called_waits cache reading notMine first
    obtain ⟨cache', waits, same'⟩ := ih (called_cache cache ok.1 first) reading'
      (fun ret member => other ret (List.mem_cons_of_mem l member)) (ok.2 u first) later
    exact ⟨cache', waits, same.trans same'⟩

theorem start_spared (cache : Cache m t free tree) (stepped : readpage m t.state ino off = some s')
    (waits : s'.reading ino ≠ none) :
    ∃ r, s'.reading ino = some r ∧ t.state.owner r.page = .free ∧ Spared m t.state s' r.page ∧
      Untouched t.state s' ino := by
  obtain ⟨-, idle, hit | ⟨p, place, turns, found, miss⟩⟩ := readpage_cases cache.inv stepped
  · obtain ⟨a, owner, here, found, rfl⟩ := hit
    exact absurd idle waits
  · rcases miss with rfl | ⟨f, rest, first, inv₁, rfl⟩
    · exact absurd idle waits
    · have same := started_untouched (r := ⟨f, off, p.slot⟩) cache.inv first ino
      refine ⟨⟨f, off, p.slot⟩, update_self .., ?_, ?_, same ino⟩
      · exact (cache.inv.onList f).mp (first ▸ List.mem_cons_self)
      · apply spared_of_untouched cache.inv (started_inv inv₁ place) same
        · exact fun g other => update_of_ne other _ _
        · intro g other
          exact (update_of_ne other _ _).trans (update_of_ne other _ _)

theorem fail_spared (cache : Cache m t free tree) {ret : Int}
    (waiting : t.state.reading ino = some r) (failed : ret ≤ 0)
    (stepped : readDone m t.state ino ret = some s') :
    s'.count r.page = 0 ∧ OnFreeList m s' r.page ∧ Spared m t.state s' r.page ∧
      Untouched t.state s' ino := by
  obtain ⟨-, p, place, slot, -⟩ := cache.waiting ino r waiting
  have owner := (cache.inv.pending ino r waiting).1
  rcases readDone_cases cache.inv waiting place slot stepped with ⟨-, rfl, inv'⟩ | ⟨read, -⟩
  · have same := fun i => (freed_untouched (f := r.page) (cache.inv.endRead ino)
      (by simp [owner]) i).woken
    refine ⟨update_self .., ?_, ?_, same ino⟩
    · exact inv'.onFreeList_iff.mpr (update_self ..)
    · apply spared_of_untouched cache.inv inv' same
      · exact fun g other => update_of_ne other _ _
      · exact fun g other => update_of_ne other _ _
  · omega

end Cache

theorem Cache.coherent {tree : Nat → Shape} (cache : Cache m t free tree) : Coherent t where
  tree := fun ino => ⟨tree ino, cache.inv.rep ino, cache.inv.redBlack ino, cache.sorted ino,
    fun a member => cache.aligned a ino ((cache.inv.inTree ino a).mp member)⟩
  found := by
    intro c member
    obtain ⟨owner, off⟩ := cache.returns c member
    exact ⟨cache.inv.inTree_iff.mpr owner, off⟩
  same := by
    intro c inC d inD ino off
    obtain ⟨ownerC, offC⟩ := cache.returns c inC
    obtain ⟨ownerD, offD⟩ := cache.returns d inD
    rw [← ino] at ownerD
    exact sorted_inj (cache.sorted c.ino) ((cache.inv.inTree _ _).mpr ownerC)
      ((cache.inv.inTree _ _).mpr ownerD) (by rw [offC, offD, off])
  counts := fun c member => cache.counted c.page c.ino (cache.returns c member).1

theorem careful_of_coherent {tree : Nat → Shape} (cache : Cache m t free tree)
    (stepped : called m t l = some t') (coherent : Coherent t') : careful m t.state l = true := by
  obtain ⟨kept, ran, calls⟩ := called_cases stepped
  cases l with
  | readpage ino off =>
    obtain ⟨-, -, hit | ⟨p, -, -, found, -⟩⟩ := readpage_cases cache.inv ran
    · obtain ⟨a, owner, here, found, after⟩ := hit
      have returns : t'.calls = ⟨ino, off, a⟩ :: t.calls := by
        simpa [returned, found] using calls
      have count := coherent.counts ⟨ino, off, a⟩ (returns ▸ List.mem_cons_self)
      rw [returns, List.countP_cons_of_pos (by simp), ← cache.counted a ino owner, after] at count
      simp only [update_self] at count
      have below : (t.state.count a + 1) % 2 ^ 32 < 2 ^ 32 := Nat.mod_lt _ (by decide)
      simp only [careful, found, decide_eq_true_eq]
      omega
    · simp [careful, found]
  | freePage f =>
    simp only [careful]
    cases owner : t.state.owner f with
    | cached ino => simp [releases, owner] at kept
    | reserved | free | caller | slab | reading ino => rfl
  | allocPage | memchunkGet | slabStore f words | memchunkPut f | readDone ino ret => rfl

theorem run_careful (cache : ∃ free tree, Cache m t free tree)
    (ran : Run.exec (called m) t ls = some t')
    (coherent : ∀ pre post u, ls = pre ++ post → Run.exec (called m) t pre = some u → Coherent u) :
    Run.Along (called m) (fun t l => careful m t.state l = true) t ls := by
  induction ls generalizing t with
  | nil => trivial
  | cons l rest ih =>
    obtain ⟨u, first, later⟩ := (Run.exec_cons ..).mp ran
    obtain ⟨free, tree, cache⟩ := cache
    have one : Run.exec (called m) t [l] = some u := by simp [Run.exec, first]
    have ok := careful_of_coherent cache first (coherent [l] rest u rfl one)
    refine ⟨ok, ?_⟩
    intro u' again
    cases first.symm.trans again
    apply ih (called_cache cache ok first) later
    intro pre post v split reached
    apply coherent (l :: pre) post v (by rw [split]; rfl)
    exact (Run.exec_cons ..).mpr ⟨u, first, reached⟩

theorem run_cache {pre post : List Label} {u : Traced} (cache : ∃ free tree, Cache m t free tree)
    (ok : Run.Along (called m) (fun t l => careful m t.state l = true) t (pre ++ post))
    (ran : Run.exec (called m) t pre = some u) : ∃ free tree, Cache m u free tree := by
  refine Run.along_invariant (fun u => ∃ free tree, Cache m u free tree) ?_
    (Run.along_append ok ran).1 cache ran
  rintro v l v' careful ⟨free, tree, cache⟩ stepped
  exact called_cache cache careful stepped

theorem boot_cache {s₀ : State} (booted : boot m = some s₀) :
    ∃ free tree, Cache m ⟨s₀, []⟩ free tree := by
  obtain ⟨s, free, up, quiet, inv⟩ := boot_inv m
  rw [booted] at up
  cases up
  have empty : ∀ f ino, s₀.owner f ≠ .cached ino := by
    intro f ino cached
    have member := (inv.inTree ino f).mpr cached
    cases member
  refine ⟨free, _, inv, fun _ => List.Pairwise.nil, ?_, ?_, ?_, ?_⟩
  · exact fun f ino cached => absurd cached (empty f ino)
  · exact fun ino r reading => absurd ((quiet ino).symm.trans reading) (by simp)
  · exact fun c member => absurd member (by simp)
  · exact fun f ino cached => absurd cached (empty f ino)

/-- Every call for a page leaves the page cache in order, if and only if no call finds a page
whose count is at its greatest value. -/
theorem pagecache_coherent_iff {m : Machine} {s₀ : State} {ls : List Label} {t : Traced}
    (booted : boot m = some s₀) (ran : Run.exec (called m) ⟨s₀, []⟩ ls = some t) :
    Coherence m ⟨s₀, []⟩ ls ↔
      Run.Along (called m) (fun t l => careful m t.state l = true) ⟨s₀, []⟩ ls := by
  have start := boot_cache booted
  constructor
  · exact fun coherence => run_careful start ran coherence.states
  · intro ok
    constructor
    · rintro pre post u rfl reached
      obtain ⟨free, tree, cache⟩ := run_cache start ok reached
      exact cache.coherent
    · rintro pre ino off post u u' rfl reached stepped silent idle
      obtain ⟨free, tree, cache⟩ := run_cache start ok reached
      obtain ⟨-, stepped', calls⟩ := called_cases stepped
      obtain ⟨-, -, hit | ⟨p, -, -, -, miss⟩⟩ := readpage_cases cache.inv stepped'
      · obtain ⟨a, -, -, found, -⟩ := hit
        simp [returned, found] at silent
      · rcases miss with same | ⟨f, rest, -, -, after⟩
        · rw [silent] at calls
          cases u'
          cases u
          simp_all
        · rw [after] at idle
          simp [started] at idle
    · rintro pre ino off mid ret post u₀ u₁ u₂ u₃ rfl reached begins waits others between ends failed
      obtain ⟨free₀, tree₀, cache₀⟩ := run_cache start ok reached
      have rest := (Run.along_append ok reached).2
      obtain ⟨-, began, -⟩ := called_cases begins
      obtain ⟨-, ended, -⟩ := called_cases ends
      obtain ⟨r, reading, wasFree, spared, same⟩ := start_spared cache₀ began waits
      have along := (Run.along_append (rest.2 u₁ begins) between).1
      obtain ⟨⟨free₂, tree₂, cache₂⟩, still, same'⟩ :=
        run_waits (called_cache cache₀ rest.1 begins) reading others along between
      obtain ⟨zero, back, spared', same''⟩ := fail_spared cache₂ still failed ended
      refine ⟨⟨r.page, spared, spared', ?_, ?_⟩, ?_⟩
      · rw [zero, cache₀.inv.freeCount r.page wasFree]
      · exact ⟨fun _ => cache₀.inv.onFreeList_iff.mpr wasFree, fun _ => back⟩
      · exact ((same.trans same').trans same'').sameTree cache₀.inv

def sharedRun : List Label :=
  [.readpage 9 4096, .readpage 5 0, .readDone 9 4096, .readpage 9 0, .allocPage, .readDone 5 100,
    .readDone 9 0, .readpage 9 4096, .readpage 5 0, .readpage 9 4096]

theorem pagecache_coherent_shared : ∃ s₀ t, boot sample = some s₀ ∧
    Run.exec (called sample) ⟨s₀, []⟩ sharedRun = some t ∧ Coherence sample ⟨s₀, []⟩ sharedRun := by
  have ok : Run.Along (called sample) (fun t l => careful sample t.state l = true) ⟨booted, []⟩
      sharedRun := by
    decide +kernel
  obtain ⟨t, ran⟩ : ∃ t, Run.exec (called sample) ⟨booted, []⟩ sharedRun = some t :=
    Option.isSome_iff_exists.mp (by decide +kernel)
  exact ⟨booted, t, boot_sample, ran, (pagecache_coherent_iff boot_sample ran).mpr ok⟩

theorem called_asked (aligned : off % 4096 = 0) (unlocked : s.reading ino = none)
    (type : s.type a = .pagecache) (found : search m s ino off = some (.node a)) (n : Nat) :
    called m ⟨asked s a n, List.replicate (n + 1) ⟨ino, off, a⟩⟩ (.readpage ino off) =
      some ⟨asked s a (n + 1), List.replicate (n + 2) ⟨ino, off, a⟩⟩ := by
  have again : search m (asked s a n) ino off = some (.node a) := found
  simp [called, releases, step_asked aligned unlocked type found, returned, again, List.replicate_succ]

theorem firstRead_called (n : Nat) : ∃ t,
    Run.exec (called sample) ⟨booted, []⟩ (firstRead ++ List.replicate n (.readpage 9 0)) = some t ∧
    t.state.count 56 = (n + 1) % 2 ^ 32 ∧ t.calls = List.replicate (n + 1) ⟨9, 0, 56⟩ := by
  obtain ⟨⟨s, _⟩, ran, count, rfl, unlocked, type, found⟩ :=
    Run.decided (Run.exec (called sample) ⟨booted, []⟩ firstRead)
      (fun t => t.state.count 56 = 1 ∧ t.calls = [⟨9, 0, 56⟩] ∧ t.state.reading 9 = none ∧
        t.state.type 56 = .pagecache ∧ search sample t.state 9 0 = some (.node 56))
      (by decide +kernel)
  dsimp only at count
  have again := Run.exec_replicate
    (fun n => (⟨asked s 56 n, List.replicate (n + 1) ⟨9, 0, 56⟩⟩ : Traced))
    (called_asked (by decide) unlocked type found) n
  rw [asked_zero (by rw [count]; decide)] at again
  refine ⟨_, by rw [Run.exec_append, ran]; exact again, ?_, rfl⟩
  simp [asked, count]

theorem coherent_few {c : Done} {n : Nat} (coherent : Coherent t)
    (calls : t.calls = List.replicate (n + 1) c) : t.state.count c.page = n + 1 := by
  have member : c ∈ t.calls := by simp [calls]
  rw [coherent.counts c member, calls, List.countP_replicate]
  simp

/-- A page is asked for more often than a word can count, and its count is zero. -/
theorem pagecache_count_wraps : ∃ s₀ t, boot sample = some s₀ ∧
    Run.exec (called sample) ⟨s₀, []⟩
      (firstRead ++ List.replicate (2 ^ 32 - 1) (.readpage 9 0)) = some t ∧
    t.state.count 56 = 0 ∧
    ¬ Coherence sample ⟨s₀, []⟩ (firstRead ++ List.replicate (2 ^ 32 - 1) (.readpage 9 0)) := by
  obtain ⟨t, ran, count, calls⟩ := firstRead_called (2 ^ 32 - 1)
  have zero : t.state.count 56 = 0 := count.trans (by decide)
  refine ⟨booted, t, boot_sample, ran, zero, ?_⟩
  intro coherence
  have coherent := coherence.states _ [] t (List.append_nil _).symm ran
  have counted : t.state.count 56 = 2 ^ 32 - 1 + 1 := coherent_few coherent calls
  omega

end ScaraOS.Pages
