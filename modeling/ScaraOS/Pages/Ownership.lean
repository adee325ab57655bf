import Mathlib.Data.List.Perm.Subperm
import ScaraOS.Lib.RbForest
import ScaraOS.Pages.Model

/-! The invariant of the page frames: every frame the allocator manages has one owner,
and the owner says where its words are linked and what its count is. Every operation
hands one frame to a new owner, so one lemma, `Inv.reown`, carries all of them. -/
namespace ScaraOS.Pages

open Function RbTree

variable {u : Nat → Union} {a f ino off : Nat} {s' : State} {o : Owner} {r : Read} {p : Path}

theorem nodes_withLinks {σ : Links Nat}
    (same : σ.next a = (links u).next a ∧ σ.prev a = (links u).prev a) :
    nodes (withLinks u σ) a = nodes u a := by
  simp only [nodes, withLinks, same.1, same.2, links]

theorem nodes_setPcOff (u : Nat → Union) (a off : Nat) : nodes (setPcOff u a off) = nodes u := by
  funext b
  by_cases same : b = a
  · subst same
    simp [nodes, setPcOff]
  · simp [nodes, setPcOff, same]

/-- Owners whose frame is in no structure of this module. -/
def Owner.isPrivate : Owner → Bool
  | .caller => true
  | .slab => true
  | .reading _ => true
  | _ => false

/-- The free list has the members `free`, the page cache of each inode the shape
`tree`, and every frame handed to the allocator, `known`, has one owner. -/
structure Inv (m : Machine) (known : Nat → Prop) (s : State) (free : List Nat)
    (tree : Nat → Shape) : Prop where
  ring : Links.Ring (links s.u) m.freeList free
  onList : ∀ f, f ∈ free ↔ s.owner f = .free
  owned : ∀ f, s.owner f ≠ .reserved ↔ known f
  inMemory : ∀ f, known f → f ∈ m.frames
  number : s.nrFreepages = free.length
  freeCount : ∀ f, s.owner f = .free → s.count f = 0
  oneCount : ∀ f, (s.owner f).isPrivate = true → s.count f = 1
  someCount : ∀ f ino, s.owner f = .cached ino → 0 < s.count f ∧ s.count f < 2 ^ 32
  rep : ∀ ino, Rep (nodes s.u) (s.root ino) 0 (tree ino)
  redBlack : ∀ ino, RedBlack (nodes s.u) (tree ino)
  distinct : ∀ ino, (tree ino).inorder.Nodup
  inTree : ∀ ino f, f ∈ (tree ino).inorder ↔ s.owner f = .cached ino
  pending : ∀ ino r, s.reading ino = some r → s.owner r.page = .reading ino ∧
    ∃ p : Path, Path.plug .leaf p = tree ino ∧ r.slot = p.slot

section Facts

variable {m : Machine} {known : Nat → Prop} {s : State} {free : List Nat} {tree : Nat → Shape}

section

variable (inv : Inv m known s free tree)
include inv

theorem Inv.frame_of_owner (owner : s.owner f ≠ .reserved) :
    f ∈ m.frames := inv.inMemory f ((inv.owned f).mp owner)

theorem Inv.off_list (owner : s.owner f ≠ .free) (owned : s.owner f ≠ .reserved) :
    f ∉ m.freeList :: free := by
  intro member
  rcases List.mem_cons.mp member with head | member
  · exact m.apart (head ▸ inv.frame_of_owner owned)
  · exact owner ((inv.onList f).mp member)

theorem Inv.tree_off_list (member : f ∈ (tree ino).inorder) : f ∉ m.freeList :: free := by
  have owner := (inv.inTree ino f).mp member
  exact inv.off_list (by simp [owner]) (by simp [owner])

theorem Inv.list_in_frames (member : f ∈ free) : f ∈ m.frames := by
  have owner := (inv.onList f).mp member
  exact inv.frame_of_owner (by simp [owner])

theorem Inv.free_few : free.length < 2 ^ 32 := by
  have distinct : free.Nodup := (List.nodup_cons.mp inv.ring.2).2
  have le := (distinct.subperm fun f member => inv.list_in_frames member).length_le
  exact Nat.lt_of_le_of_lt le m.few

theorem Inv.tree_few (ino : Nat) : (tree ino).inorder.length ≤ m.frames.length := by
  apply ((inv.distinct ino).subperm _).length_le
  intro f member
  exact inv.frame_of_owner (by simp [(inv.inTree ino f).mp member])

theorem Inv.tree_aligned (ino : Nat) : ∀ f ∈ (tree ino).inorder, f % 4 = 0 := fun f member =>
  m.aligned f (inv.frame_of_owner (by simp [(inv.inTree ino f).mp member]))

theorem Inv.forest : Forest (nodes s.u) s.root tree where
  __ := inv
  aligned := inv.tree_aligned
  apart := by
    intro i j f one two
    have owner := (inv.inTree i f).mp one
    rw [(inv.inTree j f).mp two] at owner
    exact (Owner.cached.inj owner).symm

end

end Facts

section Allocator

variable {m : Machine} {known : Nat → Prop} {s : State} {free : List Nat} {tree : Nat → Shape}

theorem Inv.trees_congr (inv : Inv m known s free tree)
    (same : ∀ ino, ∀ f ∈ (tree ino).inorder, nodes u f = nodes s.u f) :
    (∀ ino, Rep (nodes u) (s.root ino) 0 (tree ino)) ∧ ∀ ino, RedBlack (nodes u) (tree ino) := by
  have forest := inv.forest.congr same
  exact ⟨forest.rep, forest.redBlack⟩

theorem Inv.reown (inv : Inv m known s free tree) {c : Nat} {free' : List Nat} {tree' : Nat → Shape}
    (inFrames : f ∈ m.frames) (owner : s'.owner = update s.owner f o)
    (managed : o ≠ .reserved) (count : s'.count = update s.count f c)
    (counted : (o = .free → c = 0) ∧ (o.isPrivate = true → c = 1) ∧
      ∀ ino, o = .cached ino → 0 < c ∧ c < 2 ^ 32) (ring : Links.Ring (links s'.u) m.freeList free')
    (onList : ∀ g, g ∈ free' ↔ if g = f then o = .free else g ∈ free)
    (number : s'.nrFreepages = free'.length)
    (rep : ∀ ino, Rep (nodes s'.u) (s'.root ino) 0 (tree' ino))
    (redBlack : ∀ ino, RedBlack (nodes s'.u) (tree' ino))
    (distinct : ∀ ino, (tree' ino).inorder.Nodup) (inTree : ∀ ino g, g ∈ (tree' ino).inorder ↔
      if g = f then o = .cached ino else g ∈ (tree ino).inorder)
    (pending : ∀ ino r, s'.reading ino = some r → s'.owner r.page = .reading ino ∧
      ∃ p : Path, Path.plug .leaf p = tree' ino ∧ r.slot = p.slot) :
    Inv m (fun g => g = f ∨ known g) s' free' tree' := by
  have own : s'.owner f = o := by rw [owner, update_self]
  have others : ∀ g, g ≠ f → s'.owner g = s.owner g ∧ s'.count g = s.count g := fun g apart =>
    ⟨by rw [owner, update_of_ne apart], by rw [count, update_of_ne apart]⟩
  have split : ∀ P : Owner → Nat → Prop, P o c → (∀ g, P (s.owner g) (s.count g)) →
      ∀ g, P (s'.owner g) (s'.count g) := by
    intro P here before g
    by_cases same : g = f
    · rw [same, own, count, update_self]
      exact here
    · rw [(others g same).1, (others g same).2]
      exact before g
  constructor
  case ring => exact ring
  case onList =>
    intro g
    rw [onList g]
    by_cases same : g = f
    · rw [if_pos same, same, own]
    · rw [if_neg same, inv.onList g, (others g same).1]
  case owned =>
    intro g
    by_cases same : g = f
    · simp [same, own, managed]
    · simpa [same, (others g same).1] using inv.owned g
  case inMemory =>
    rintro g (rfl | old)
    · exact inFrames
    · exact inv.inMemory g old
  case number => exact number
  case freeCount => exact split (fun o c => o = .free → c = 0) counted.1 inv.freeCount
  case oneCount => exact split (fun o c => o.isPrivate = true → c = 1) counted.2.1 inv.oneCount
  case someCount =>
    exact split (fun o c => ∀ ino, o = .cached ino → 0 < c ∧ c < 2 ^ 32) counted.2.2 inv.someCount
  case rep => exact rep
  case redBlack => exact redBlack
  case distinct => exact distinct
  case inTree =>
    intro ino g
    rw [inTree ino g]
    by_cases same : g = f
    · rw [if_pos same, same, own]
    · rw [if_neg same, inv.inTree ino g, (others g same).1]
  case pending => exact pending

theorem Inv.known_again (inv : Inv m (fun g => g = f ∨ known g) s free tree) (old : known f) :
    Inv m known s free tree := by
  have same : (fun g => g = f ∨ known g) = known := by
    funext g
    simp only [eq_iff_iff, or_iff_right_iff_imp]
    rintro rfl
    exact old
  rwa [same] at inv

def freed (m : Machine) (s : State) (f : Nat) : State :=
  { s with
    u := withLinks s.u ((links s.u).listAddTail f m.freeList)
    count := update s.count f 0
    type := update s.type f .free
    nrFreepages := (s.nrFreepages + 1) % 2 ^ 32
    owner := update s.owner f .free }

theorem freePage_inv (inv : Inv m known s free tree) (inFrames : f ∈ m.frames)
    (count : s.count f = 1) (notFree : s.owner f ≠ .free)
    (notCached : ∀ ino, s.owner f ≠ .cached ino)
    (idle : ∀ ino r, s.reading ino = some r → r.page ≠ f) :
    freePage m s f = some (freed m s f) ∧
      Inv m (fun g => g = f ∨ known g) (freed m s f) (free ++ [f]) tree := by
  have absent : f ∉ free := fun member => notFree ((inv.onList f).mp member)
  have fresh : f ∉ m.freeList :: free := by
    intro member
    rcases List.mem_cons.mp member with head | member
    · exact m.apart (head ▸ inFrames)
    · exact absent member
  have apart : ∀ ino, ∀ g ∈ (tree ino).inorder, g ≠ f := fun ino g member eq =>
    notCached ino (eq ▸ (inv.inTree ino g).mp member)
  have trees := inv.trees_congr (u := withLinks s.u ((links s.u).listAddTail f m.freeList))
    fun ino g member => nodes_withLinks
      (Links.listAddTail_frame inv.ring (apart ino g member) (inv.tree_off_list member))
  have few : free.length + 1 < 2 ^ 32 := by
    have nodup : (f :: free).Nodup :=
      List.nodup_cons.mpr ⟨absent, (List.nodup_cons.mp inv.ring.2).2⟩
    have inside : ∀ g ∈ f :: free, g ∈ m.frames :=
      List.forall_mem_cons.mpr ⟨inFrames, fun g member => inv.list_in_frames member⟩
    exact Nat.lt_of_le_of_lt (nodup.subperm inside).length_le m.few
  refine ⟨by simp only [freePage, count]; rfl, ?_⟩
  apply inv.reown (f := f) (c := 0) (o := .free) inFrames rfl (by simp)
  case count => rfl
  case counted => simp [Owner.isPrivate]
  case ring => exact Links.ring_listAddTail inv.ring fresh
  case onList =>
    intro g
    by_cases same : g = f
    · simp [same]
    · simp [same]
  case number =>
    rw [List.length_append, List.length_singleton, ← inv.number]
    rw [← inv.number] at few
    exact Nat.mod_eq_of_lt few
  case rep => exact trees.1
  case redBlack => exact trees.2
  case distinct => exact inv.distinct
  case inTree =>
    intro ino g
    by_cases same : g = f
    · simpa [same] using fun member => apart ino f member rfl
    · simp [same]
  case pending =>
    intro ino r waiting
    obtain ⟨owner, place⟩ := inv.pending ino r waiting
    exact ⟨by simpa [freed, idle ino r waiting] using owner, place⟩

def taken (s : State) (f : Nat) : State :=
  { s with
    u := withLinks s.u ((links s.u).listDel f)
    count := update s.count f 1
    nrFreepages := (s.nrFreepages + 2 ^ 32 - 1) % 2 ^ 32
    owner := update s.owner f .caller }

@[simp] theorem taken_owner (s : State) (f : Nat) : (taken s f).owner f = .caller :=
  update_self ..

theorem allocPage_inv (inv : Inv m known s free tree) :
    (free = [] ∧ allocPage m s = some (s, none)) ∨
      ∃ f rest, free = f :: rest ∧ allocPage m s = some (taken s f, some f) ∧
        Inv m known (taken s f) rest tree := by
  cases free with
  | nil =>
    left
    refine ⟨rfl, ?_⟩
    simp only [allocPage, (Links.ring_empty_iff inv.ring).mpr rfl, if_true]
  | cons f rest =>
    right
    have nonempty : (links s.u).listEmpty m.freeList = false := by
      rw [← Bool.not_eq_true]
      intro empty
      exact List.cons_ne_nil f rest ((Links.ring_empty_iff inv.ring).mp empty)
    have first : (links s.u).next m.freeList = f := inv.ring.1.1.1
    have owner : s.owner f = .free := (inv.onList f).mp List.mem_cons_self
    have count : s.count f = 0 := inv.freeCount f owner
    have trees := inv.trees_congr (u := withLinks s.u ((links s.u).listDel f))
      fun ino g member => nodes_withLinks
        (Links.listDel_frame inv.ring List.mem_cons_self (inv.tree_off_list member))
    have took : allocPage m s = some (taken s f, some f) := by
      simp only [allocPage, nonempty, first, count]
      rfl
    refine ⟨f, rest, rfl, took, ?_⟩
    apply Inv.known_again (f := f) _ ((inv.owned f).mp (by simp [owner]))
    apply inv.reown (f := f) (c := 1) (o := .caller) (inv.list_in_frames List.mem_cons_self) rfl
      (by simp)
    case count => rfl
    case counted => simp
    case ring => exact Links.ring_listDel (l := []) inv.ring
    case onList =>
      intro g
      have distinct : (f :: rest).Nodup := (List.nodup_cons.mp inv.ring.2).2
      by_cases same : g = f
      · simpa [same] using (List.nodup_cons.mp distinct).1
      · simp [same]
    case number =>
      have few := inv.free_few
      rw [List.length_cons] at few
      simp only [taken, inv.number, List.length_cons]
      omega
    case rep => exact trees.1
    case redBlack => exact trees.2
    case distinct => exact inv.distinct
    case inTree =>
      intro ino g
      by_cases same : g = f
      · simp [same, inv.inTree, owner]
      · simp [same]
    case pending =>
      intro ino r waiting
      obtain ⟨reader, place⟩ := inv.pending ino r waiting
      have other : r.page ≠ f := fun eq => by simp [eq, owner] at reader
      exact ⟨by simpa [taken, other] using reader, place⟩

theorem Inv.handOn (inv : Inv m known s free tree) (words : Union) (type : Nat → PageType)
    (before : (s.owner f).isPrivate = true) (after : o.isPrivate = true)
    (idle : ∀ ino r, s.reading ino = some r → r.page ≠ f) :
    Inv m known { s with
      u := update s.u f words
      type := type
      owner := update s.owner f o } free tree := by
  have owned : s.owner f ≠ .reserved := fun eq => by simp [eq, Owner.isPrivate] at before
  have notFree : s.owner f ≠ .free := fun eq => by simp [eq, Owner.isPrivate] at before
  have notCached : ∀ ino, s.owner f ≠ .cached ino := fun ino eq => by
    simp [eq, Owner.isPrivate] at before
  have apart : ∀ ino, ∀ g ∈ (tree ino).inorder, g ≠ f := fun ino g member eq =>
    notCached ino (eq ▸ (inv.inTree ino g).mp member)
  have trees := inv.trees_congr (u := update s.u f words) fun ino g member => by
    simp only [nodes, update_of_ne (apart ino g member)]
  have off := inv.off_list notFree owned
  apply Inv.known_again (f := f) _ ((inv.owned f).mp owned)
  apply inv.reown (f := f) (c := s.count f) (o := o) (inv.frame_of_owner owned) rfl
  case managed =>
    rintro rfl
    simp [Owner.isPrivate] at after
  case count => exact (update_eq_self f s.count).symm
  case counted =>
    refine ⟨?_, fun _ => inv.oneCount f before, ?_⟩
    · rintro rfl
      simp [Owner.isPrivate] at after
    · rintro ino rfl
      simp [Owner.isPrivate] at after
  case ring =>
    have same : ∀ g ∈ m.freeList :: free, update s.u f words g = s.u g := fun g member =>
      update_of_ne (fun eq : g = f => off (eq ▸ member)) _ _
    apply Links.ring_congr _ _ inv.ring
    · intro g member
      simp only [links, same g member]
    · intro g member
      simp only [links, same g member]
  case onList =>
    intro g
    by_cases same : g = f
    · subst same
      have out : o ≠ .free := by
        rintro rfl
        simp [Owner.isPrivate] at after
      simpa [out] using fun member => off (List.mem_cons_of_mem _ member)
    · simp [same]
  case number => exact inv.number
  case rep => exact trees.1
  case redBlack => exact trees.2
  case distinct => exact inv.distinct
  case inTree =>
    intro ino g
    by_cases same : g = f
    · subst same
      have out : o ≠ .cached ino := by
        rintro rfl
        simp [Owner.isPrivate] at after
      simpa [out] using fun member => apart ino g member rfl
    · simp [same]
  case pending =>
    intro ino r waiting
    obtain ⟨reader, place⟩ := inv.pending ino r waiting
    exact ⟨by simpa [idle ino r waiting] using reader, place⟩

end Allocator

section PageCache

variable {m : Machine} {known : Nat → Prop} {s : State} {free : List Nat} {tree : Nat → Shape}

theorem offDir_none (stops : offDir u off a = none) : pcOff u a = off := by
  unfold offDir at stops
  split at stops
  · cases stops
  split at stops
  · cases stops
  · omega

section

variable (inv : Inv m known s free tree)
include inv

theorem search_total (ino off : Nat) :
    (∃ a, s.owner a = .cached ino ∧ pcOff s.u a = off ∧ search m s ino off = some (.node a)) ∨
      ∃ p : Path, Path.plug .leaf p = tree ino ∧ (∀ f ∈ p, offDir s.u off f.addr = some f.side) ∧
        search m s ino off = some (.slot p.slot) := by
  have enough : (tree ino).height < m.frames.length + 1 :=
    Nat.lt_succ_of_le (Nat.le_trans (height_le _) (inv.tree_few ino))
  rcases Tree.descend_total (offDir s.u off) (t := ⟨nodes s.u, s.root ino⟩) (p := [])
    (inv.rep ino) enough (by simp) with ⟨a, member, stops, found⟩ | ⟨p, shape, turns, found⟩
  · exact .inl ⟨a, (inv.inTree ino a).mp member, offDir_none stops, found⟩
  · exact .inr ⟨p, shape, turns, found⟩

theorem Inv.referenced (owner : s.owner a = .cached ino) (room : s.count a < 2 ^ 32 - 1) :
    Inv m known { s with count := update s.count a ((s.count a + 1) % 2 ^ 32) }
      free tree := by
  have more : (s.count a + 1) % 2 ^ 32 = s.count a + 1 := Nat.mod_eq_of_lt (by omega)
  have owned : s.owner a ≠ .reserved := by simp [owner]
  apply Inv.known_again (f := a) _ ((inv.owned a).mp owned)
  apply inv.reown (f := a) (c := s.count a + 1) (o := .cached ino) (inv.frame_of_owner owned)
  case owner => rw [← owner, update_eq_self]
  case managed => simp
  case count => simp only [more]
  case counted =>
    refine ⟨by simp, by simp [Owner.isPrivate], fun _ _ => ⟨Nat.succ_pos _, ?_⟩⟩
    omega
  case ring => exact inv.ring
  case onList =>
    intro g
    by_cases same : g = a
    · simp [same, inv.onList, owner]
    · simp [same]
  case number => exact inv.number
  case rep => exact inv.rep
  case redBlack => exact inv.redBlack
  case distinct => exact inv.distinct
  case inTree =>
    intro ino' g
    by_cases same : g = a
    · simp [same, inv.inTree, owner]
    · simp [same]
  case pending => exact inv.pending

theorem Inv.startRead (owner : s.owner r.page = .reading ino)
    (place : ∃ p : Path, Path.plug .leaf p = tree ino ∧ r.slot = p.slot) :
    Inv m known { s with reading := update s.reading ino (some r) } free tree := by
  refine { inv with pending := ?_ }
  intro ino' r' waiting
  by_cases same : ino' = ino
  · subst same
    simp only [update_self, Option.some.injEq] at waiting
    exact waiting ▸ ⟨owner, place⟩
  · simp only [update_of_ne same] at waiting
    exact inv.pending ino' r' waiting

theorem Inv.endRead (ino : Nat) :
    Inv m known { s with reading := update s.reading ino none } free tree := by
  refine { inv with pending := ?_ }
  intro ino' r' waiting
  by_cases same : ino' = ino
  · simp [same] at waiting
  · simp only [update_of_ne same] at waiting
    exact inv.pending ino' r' waiting

theorem Inv.other_page {page i : Nat} (owner : s.owner page = .reading ino)
    (done : s.reading ino = none) (waiting : s.reading i = some r) : r.page ≠ page := by
  rintro rfl
  have reader := (inv.pending i r waiting).1
  rw [owner] at reader
  rw [Owner.reading.inj reader] at done
  simp [done] at waiting

end

def inserted (s : State) (ino page off : Nat) (t : Tree) : State :=
  { s with
    u := withNodes (setPcOff s.u page off) t.rb
    type := update s.type page .pagecache
    root := update s.root ino t.root
    owner := update s.owner page (.cached ino) }

theorem insert_inv (inv : Inv m known s free tree) {page : Nat} (off : Nat)
    (owner : s.owner page = .reading ino) (done : s.reading ino = none)
    (place : Path.plug .leaf p = tree ino) :
    ∃ t shape, Tree.insertColor (m.frames.length + 1)
        (Tree.linkNode ⟨nodes (setPcOff s.u page off), s.root ino⟩ page p.slot) page = some t ∧
      shape.inorder = p.before ++ page :: p.after ∧
      (∀ g, g ≠ page → g ∉ (tree ino).inorder → t.rb g = nodes s.u g) ∧
      Inv m known (inserted s ino page off t) free (update tree ino shape) := by
  have owned : s.owner page ≠ .reserved := by simp [owner]
  have inFrames := inv.frame_of_owner owned
  have count : s.count page = 1 := inv.oneCount page (by simp [owner, Owner.isPrivate])
  have absent : ∀ i, page ∉ (tree i).inorder := fun i member => by
    simpa [owner] using (inv.inTree i page).mp member
  obtain ⟨t, shape, ran, order, frame, forest⟩ := inv.forest.insert place (m.nonzero page inFrames)
    (m.aligned page inFrames) absent (Nat.lt_succ_of_le (inv.tree_few ino))
  have members : ∀ g, g ∈ shape.inorder ↔ g = page ∨ g ∈ (tree ino).inorder := by
    intro g
    rw [(Path.perm_hole place order).mem_iff, List.mem_cons]
  refine ⟨t, shape, by rw [nodes_setPcOff]; exact ran, order, frame, ?_⟩
  apply Inv.known_again (f := page) _ ((inv.owned page).mp owned)
  apply inv.reown (f := page) (c := 1) (o := .cached ino) inFrames rfl (by simp)
  case count => exact (count ▸ update_eq_self page s.count).symm
  case counted => simp [Owner.isPrivate]
  case ring =>
    have off := inv.off_list (f := page) (by simp [owner]) owned
    have kept : ∀ g ∈ m.freeList :: free, t.rb g = nodes s.u g := by
      intro g member
      apply frame g
      · rintro rfl
        exact off member
      · intro inTree
        exact inv.tree_off_list inTree member
    apply Links.ring_congr _ _ inv.ring
    · intro g member
      simp only [inserted, links, withNodes, kept g member, nodes]
    · intro g member
      simp only [inserted, links, withNodes, kept g member, nodes]
  case onList =>
    intro g
    by_cases same : g = page
    · simp [same, inv.onList, owner]
    · simp [same]
  case number => exact inv.number
  case rep => exact forest.rep
  case redBlack => exact forest.redBlack
  case distinct => exact forest.distinct
  case inTree =>
    intro i g
    by_cases same : i = ino
    · subst same
      rw [update_self, members]
      by_cases new : g = page
      · simp [new]
      · simp [new]
    · rw [update_of_ne same]
      by_cases new : g = page
      · have differ : ino ≠ i := fun eq => same eq.symm
        simp [new, absent, differ]
      · simp [new]
  case pending =>
    intro i r waiting
    obtain ⟨reader, other⟩ := inv.pending i r waiting
    have differ : i ≠ ino := by
      rintro rfl
      simp [inserted, done] at waiting
    refine ⟨by simpa [inserted, inv.other_page owner done waiting] using reader, ?_⟩
    rw [update_of_ne differ]
    exact other

def started (s : State) (ino : Nat) (r : Read) : State :=
  { taken s r.page with
    reading := update s.reading ino (some r)
    owner := update (taken s r.page).owner r.page (.reading ino) }

theorem readpage_cases (inv : Inv m known s free tree) (stepped : readpage m s ino off = some s') :
    off % 4096 = 0 ∧ s.reading ino = none ∧
      ((∃ a, s.owner a = .cached ino ∧ pcOff s.u a = off ∧ search m s ino off = some (.node a) ∧
        s' = { s with count := update s.count a ((s.count a + 1) % 2 ^ 32) }) ∨
      ∃ p : Path, Path.plug .leaf p = tree ino ∧ (∀ f ∈ p, offDir s.u off f.addr = some f.side) ∧
        search m s ino off = some (.slot p.slot) ∧ (s' = s ∨
          ∃ f rest, free = f :: rest ∧ Inv m known (taken s f) rest tree ∧
            s' = started s ino ⟨f, off, p.slot⟩)) := by
  simp only [readpage] at stepped
  split at stepped
  · cases stepped
  rename_i aligned
  split at stepped
  · cases stepped
  rename_i notReading
  refine ⟨not_not.mp aligned, by simpa using notReading, ?_⟩
  rcases search_total inv ino off with ⟨a, owner, here, found⟩ | ⟨p, place, turns, found⟩
  · simp only [found, Option.bind_eq_bind, Option.bind_some] at stepped
    split at stepped
    · cases stepped
    · cases stepped
      exact .inl ⟨a, owner, here, found, rfl⟩
  · simp only [found, Option.bind_eq_bind, Option.bind_some] at stepped
    refine .inr ⟨p, place, turns, found, ?_⟩
    rcases allocPage_inv inv with ⟨-, none⟩ | ⟨f, rest, first, took, inv₁⟩
    · simp only [none, Option.bind_some] at stepped
      cases stepped
      exact .inl rfl
    · simp only [took, Option.bind_some] at stepped
      cases stepped
      exact .inr ⟨f, rest, first, inv₁, rfl⟩

theorem started_inv (inv : Inv m known (taken s f) free tree) (place : Path.plug .leaf p = tree ino) :
    Inv m known (started s ino ⟨f, off, p.slot⟩) free tree := by
  have idle : ∀ i r, (taken s f).reading i = some r → r.page ≠ f := by
    rintro i r waiting rfl
    simpa using (inv.pending i r waiting).1
  have handed := inv.handOn (o := .reading ino) ((taken s f).u f) (taken s f).type
    (by rw [taken_owner]; rfl) rfl idle
  rw [update_eq_self] at handed
  exact handed.startRead (r := ⟨f, off, p.slot⟩) (update_self ..) ⟨p, place, rfl⟩

theorem readpage_inv (inv : Inv m known s free tree)
    (room : ∀ a, search m s ino off = some (.node a) → s.count a < 2 ^ 32 - 1)
    (stepped : readpage m s ino off = some s') : ∃ free', Inv m known s' free' tree := by
  obtain ⟨-, -, ⟨a, owner, -, found, rfl⟩ | ⟨p, place, -, -, rfl | ⟨f, rest, -, inv₁, rfl⟩⟩⟩ :=
    readpage_cases inv stepped
  · exact ⟨free, inv.referenced owner (room a found)⟩
  · exact ⟨free, inv⟩
  · exact ⟨rest, started_inv inv₁ place⟩

theorem readDone_cases (inv : Inv m known s free tree) {ret : Int}
    (waiting : s.reading ino = some r) (place : Path.plug .leaf p = tree ino)
    (slot : r.slot = p.slot) (stepped : readDone m s ino ret = some s') :
    (ret ≤ 0 ∧ s' = freed m { s with reading := update s.reading ino none } r.page ∧
      Inv m known s' (free ++ [r.page]) tree) ∨
    0 < ret ∧ ∃ t shape, shape.inorder = p.before ++ r.page :: p.after ∧
      (∀ g, g ≠ r.page → g ∉ (tree ino).inorder → t.rb g = nodes s.u g) ∧
      s' = inserted { s with reading := update s.reading ino none } ino r.page r.off t ∧
      Inv m known s' free (update tree ino shape) := by
  simp only [readDone, waiting, Option.bind_eq_bind, Option.bind_some] at stepped
  have owner := (inv.pending ino r waiting).1
  have ended := inv.endRead ino
  have owned : s.owner r.page ≠ .reserved := by simp [owner]
  split at stepped
  · rename_i failed
    have count : s.count r.page = 1 := inv.oneCount r.page (by simp [owner, Owner.isPrivate])
    obtain ⟨ran, inv₁⟩ := freePage_inv ended (inv.frame_of_owner owned) count
      (by simp [owner]) (by simp [owner])
      (fun i r' => ended.other_page owner (update_self ..))
    rw [ran] at stepped
    cases stepped
    exact .inl ⟨failed, rfl, inv₁.known_again ((inv.owned r.page).mp owned)⟩
  · rename_i read
    obtain ⟨t, shape, ran, order, frame, inv'⟩ :=
      insert_inv ended r.off owner (update_self ..) place
    rw [slot, ran] at stepped
    cases stepped
    exact .inr ⟨Int.not_le.mp read, t, shape, order, frame, rfl, inv'⟩

theorem readDone_inv (inv : Inv m known s free tree) {ret : Int}
    (stepped : readDone m s ino ret = some s') : ∃ free' tree', Inv m known s' free' tree' := by
  obtain ⟨r, waiting, -⟩ := Option.bind_eq_some_iff.mp stepped
  obtain ⟨-, p, place, slot⟩ := inv.pending ino r waiting
  rcases readDone_cases inv waiting place slot stepped with
    ⟨-, -, inv'⟩ | ⟨-, t, shape, -, -, -, inv'⟩
  · exact ⟨_, _, inv'⟩
  · exact ⟨_, _, inv'⟩

end PageCache

/-- No page of a page cache is freed, and no count of one runs over. -/
def careful (m : Machine) (s : State) : Label → Bool
  | .freePage f =>
    match s.owner f with
    | .cached _ => false
    | _ => true
  | .readpage ino off =>
    match search m s ino off with
    | some (.node a) => s.count a < 2 ^ 32 - 1
    | _ => true
  | _ => true

section Steps

variable {m : Machine} {known : Nat → Prop} {s : State} {free : List Nat} {tree : Nat → Shape}

theorem Inv.not_read (inv : Inv m known s free tree) (owner : ∀ ino, s.owner f ≠ .reading ino) :
    ∀ ino r, s.reading ino = some r → r.page ≠ f := by
  rintro ino r waiting rfl
  exact owner ino (inv.pending ino r waiting).1

theorem giveBack_inv (inv : Inv m known s free tree)
    (owner : s.owner f = .caller ∨ s.owner f = .slab) (gave : freePage m s f = some s') :
    s' = freed m s f ∧ Inv m known s' (free ++ [f]) tree := by
  have isPrivate : (s.owner f).isPrivate = true := by
    rcases owner with owner | owner <;> rw [owner] <;> rfl
  have owned : s.owner f ≠ .reserved := by rcases owner with owner | owner <;> simp [owner]
  obtain ⟨ran, inv₁⟩ := freePage_inv inv (inv.frame_of_owner owned) (inv.oneCount f isPrivate)
    (by rcases owner with owner | owner <;> simp [owner])
    (fun ino => by rcases owner with owner | owner <;> simp [owner])
    (inv.not_read fun ino => by rcases owner with owner | owner <;> simp [owner])
  rw [ran] at gave
  cases gave
  exact ⟨rfl, inv₁.known_again ((inv.owned f).mp owned)⟩

def chunk (m : Machine) (s : State) (f : Nat) : State :=
  { taken s f with
    u := update (taken s f).u f { (taken s f).u f with w1 := m.pageAddress f }
    type := update s.type f .slab
    owner := update (taken s f).owner f .slab }

theorem memchunkGet_inv (inv : Inv m known s free tree) (stepped : memchunkGet m s = some s') :
    ∃ f rest, free = f :: rest ∧ s' = chunk m s f ∧ Inv m known s' rest tree := by
  simp only [memchunkGet, Option.bind_eq_bind] at stepped
  rcases allocPage_inv inv with ⟨-, none⟩ | ⟨f, rest, first, took, inv₁⟩
  · simp [none] at stepped
  · have count : (taken s f).count f = 1 := update_self ..
    simp only [took, Option.bind_some, count, ne_eq, not_true_eq_false, if_false] at stepped
    cases stepped
    exact ⟨f, rest, first, rfl, inv₁.handOn _ _ (by rw [taken_owner]; rfl) rfl
      (inv₁.not_read (by simp))⟩

theorem slabStore_inv (inv : Inv m known s free tree) (words : Union) (owner : s.owner f = .slab) :
    Inv m known { s with u := update s.u f words } free tree := by
  have stored := inv.handOn (o := .slab) words s.type (by rw [owner]; rfl) rfl
    (inv.not_read (by simp [owner]))
  rwa [← owner, update_eq_self] at stored

theorem step_inv {l : Label} (ok : careful m s l = true) (inv : Inv m known s free tree)
    (stepped : step m s l = some s') : ∃ free' tree', Inv m known s' free' tree' := by
  cases l with
  | allocPage =>
    simp only [step, Option.map_eq_some_iff] at stepped
    obtain ⟨⟨s₁, page⟩, taken, rfl⟩ := stepped
    rcases allocPage_inv inv with ⟨-, none⟩ | ⟨f, rest, -, some, inv₂⟩
    · rw [none] at taken
      cases taken
      exact ⟨free, tree, inv⟩
    · rw [some] at taken
      cases taken
      exact ⟨rest, tree, inv₂⟩
  | freePage f =>
    simp only [step] at stepped
    split at stepped
    · rename_i held
      refine ⟨_, tree, (giveBack_inv inv (.inl ?_) stepped).2⟩
      cases owner : s.owner f with
      | caller => rfl
      | cached ino => simp [careful, owner] at ok
      | reserved | free | slab | reading ino => simp [heldOnce, owner] at held
    · cases stepped
  | memchunkGet =>
    obtain ⟨f, rest, -, -, inv'⟩ := memchunkGet_inv inv stepped
    exact ⟨rest, tree, inv'⟩
  | slabStore f words =>
    simp only [step] at stepped
    split at stepped
    · rename_i owner
      cases stepped
      exact ⟨free, tree, slabStore_inv inv words owner⟩
    · cases stepped
  | memchunkPut f =>
    simp only [step] at stepped
    split at stepped
    · rename_i owner
      exact ⟨_, tree, (giveBack_inv inv (.inr owner) stepped).2⟩
    · cases stepped
  | readpage ino off =>
    have room : ∀ a, search m s ino off = some (.node a) → s.count a < 2 ^ 32 - 1 := by
      intro a found
      simpa [careful, found] using ok
    obtain ⟨free', inv'⟩ := readpage_inv inv room stepped
    exact ⟨free', tree, inv'⟩
  | readDone ino ret => exact readDone_inv inv stepped

end Steps

end ScaraOS.Pages
