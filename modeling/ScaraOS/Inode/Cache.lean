import Mathlib.Data.Finset.Card
import ScaraOS.Lib.Links
import ScaraOS.Lib.RbForest
import ScaraOS.Lib.Run

/-! The inode cache, `fs/inode.c`, with `iref` and `iput` of `vfs.h`, for one task at a
time, so that no semaphore is waited for. An inode is known by the address of its
`i_cache`. `none` is a `BUG_ON`, or a call that no caller makes. -/
namespace ScaraOS.InodeCache

open Function RbTree

/-- `root` is the `s_inode_cache` of a super block. The cell `none` of `links` is the list
head `slack_inodes`, the cell `some i` the `i_list` of an inode. `live` are the inode
objects that are allocated; `refs`, the references callers hold, the kernel does not record. -/
structure State where
  rb : Nat → RbNode
  root : Nat → Nat
  links : Links (Option Nat)
  ino : Nat → Nat
  sb : Nat → Nat
  count : Nat → Nat
  live : Finset Nat
  refs : Nat → Nat

def init : State where
  rb := fun _ => ⟨0, 0, 0⟩
  root := fun _ => 0
  links := ⟨fun a => a, fun a => a⟩
  ino := fun _ => 0
  sb := fun _ => 0
  count := fun _ => 0
  live := ∅
  refs := fun _ => 0

def tree (s : State) (sb : Nat) : Tree := ⟨s.rb, s.root sb⟩

def withTree (s : State) (sb : Nat) (t : Tree) : State :=
  { s with rb := t.rb, root := update s.root sb t.root }

def walk (s : State) : Nat := s.live.card + 1

/-- The loop of `iget`. -/
def search (s : State) (sb ino : Nat) : Option Found :=
  Tree.descend (keyDir s.ino ino) (tree s sb) (walk s) .root

structure Got where
  inode : Option Nat
  read : Bool
  deriving DecidableEq, Repr

def addRef (s : State) (i : Nat) : State :=
  { s with
    count := update s.count i ((s.count i + 1) % 2 ^ 32)
    refs := update s.refs i (s.refs i + 1) }

/-- `objcache_alloc0` has given the object `i`, and what `read_inode` needs is filled in. -/
def newInode (s : State) (i sb ino : Nat) : State :=
  { s with
    rb := update s.rb i ⟨0, 0, 0⟩
    links := s.links.initListHead (some i)
    ino := update s.ino i ino
    sb := update s.sb i sb
    count := update s.count i 0
    live := insert i s.live }

def objcacheFree2 (s : State) (i : Nat) : State := { s with live := s.live.erase i }

/-- `alloc` is what `objcache_alloc0` gives, `ok` that `read_inode` returns 0. An allocator
gives the address of no other object. -/
def iget (s : State) (sb ino : Nat) (alloc : Option Nat) (ok : Bool) : Option (State × Got) := do
  match ← search s sb ino with
  | .node i => some ({ addRef s i with links := s.links.listDel (some i) }, ⟨some i, false⟩)
  | .slot slot =>
    match alloc with
    | none => some (s, ⟨none, false⟩)
    | some i =>
      if i = 0 ∨ i % 4 ≠ 0 ∨ i ∈ s.live then none
      else
        let s := newInode s i sb ino
        if ok then do
          let s := addRef s i
          let t ← Tree.insertColor (walk s) (Tree.linkNode (tree s sb) i slot) i
          some (withTree s sb t, ⟨some i, true⟩)
        else some (objcacheFree2 s i, ⟨none, true⟩)

def iref (s : State) (i : Nat) : State := addRef s i

def inodeFree (s : State) (i : Nat) : Option State :=
  if s.count i ≠ 0 then none else some { s with links := s.links.listAddTail (some i) none }

def dropRef (s : State) (i : Nat) : State :=
  { s with
    count := update s.count i (s.count i - 1)
    refs := update s.refs i (s.refs i - 1) }

def iput (s : State) (i : Nat) : Option State :=
  if s.count i = 0 then none
  else
    let s := dropRef s i
    if s.count i = 0 then inodeFree s i else some s

/-- `__inode_free`, of an inode that is not `NULL`. -/
def kill (s : State) (i : Nat) : Option State := do
  let t ← Tree.erase (walk s) (tree s (s.sb i)) i
  let s := withTree s (s.sb i) t
  some (objcacheFree2 { s with links := s.links.listDel (some i) } i)

/-- `list_for_each_entry_safe`; `tmp` is read ahead. -/
def killLoop : Nat → State → Option Nat → Option Nat → Option State
  | 0, _, _, _ => none
  | n + 1, s, pos, tmp =>
    match pos with
    | none => some s
    | some i => (kill s i).bind fun s => killLoop n s tmp (s.links.next tmp)

def squeezeInodeCache (s : State) : Option State :=
  let first := s.links.next none
  killLoop (walk s) s first (s.links.next first)

inductive Op where
  | iget (sb ino : Nat) (alloc : Option Nat) (ok : Bool)
  | iref (i : Nat)
  | iput (i : Nat)
  | squeeze
  deriving DecidableEq, Repr

/-- References are copied and given back by those who have them. -/
def step (s : State) : Op → Option State
  | .iget sb ino alloc ok => (iget s sb ino alloc ok).map Prod.fst
  | .iref i => if 0 < s.refs i then some (iref s i) else none
  | .iput i => if 0 < s.refs i then iput s i else none
  | .squeeze => squeezeInodeCache s

def Cached (s : State) (sb i : Nat) : Prop :=
  ∃ shape, RbTree.Rep s.rb (s.root sb) 0 shape ∧ i ∈ shape.inorder

def Slack (s : State) (l : List Nat) : Prop := s.links.Ring none (l.map some)

structure Orderly (s : State) : Prop where
  trees : ∀ sb, ∃ shape, RbTree.Rep s.rb (s.root sb) 0 shape ∧ RedBlack s.rb shape ∧
    Sorted s.ino shape.inorder
  slack : ∃ l, Slack s l ∧ ∀ i, i ∈ l ↔ (∃ sb, Cached s sb i) ∧ s.count i = 0

/-- The trees with their nodes, the list and the objects are the same. -/
structure Unchanged (s s' : State) : Prop where
  trees : ∀ sb, s'.root sb = s.root sb ∧
    ∀ i, Cached s sb i → s'.rb i = s.rb i ∧ s'.ino i = s.ino i ∧ s'.count i = s.count i
  slack : ∀ l, Slack s' l ↔ Slack s l
  live : s'.live = s.live

/-- What should hold of a step, whether or not the caller comes back from it. -/
structure Right (s : State) (op : Op) : Prop where
  orderly : ∀ s', step s op = some s' → Orderly s'
  /-- A cached number. -/
  hit : ∀ sb ino alloc ok i, op = .iget sb ino alloc ok → Cached s sb i → s.ino i = ino →
    ∃ s', iget s sb ino alloc ok = some (s', ⟨some i, false⟩) ∧ s'.count i = s.count i + 1
  /-- `read_inode` has failed. -/
  failed : ∀ sb ino alloc s', op = .iget sb ino alloc false →
    iget s sb ino alloc false = some (s', ⟨none, true⟩) → Unchanged s s'
  /-- Those with a count of zero go, and only those. -/
  squeezed : op = .squeeze → ∃ s', squeezeInodeCache s = some s' ∧
    (∀ sb i, Cached s' sb i ↔ Cached s sb i ∧ s.count i ≠ 0) ∧
    ∀ i, i ∈ s'.live ↔ i ∈ s.live ∧ ¬ ((∃ sb, Cached s sb i) ∧ s.count i = 0)

structure Inv (s : State) (shape : Nat → Shape) (slack : List Nat) : Prop where
  forest : Forest s.rb s.root shape
  sorted : ∀ sb, Sorted s.ino (shape sb).inorder
  members : ∀ sb i, i ∈ (shape sb).inorder ↔ i ∈ s.live ∧ s.sb i = sb
  ring : s.links.Ring none (slack.map some)
  slack : ∀ i, i ∈ slack ↔ i ∈ s.live ∧ s.count i = 0
  /-- An inode that is in use is on no list, so that `list_del` does nothing to it. -/
  alone : ∀ i ∈ s.live, s.count i ≠ 0 → s.links.next (some i) = some i ∧ s.links.prev (some i) = some i
  counted : ∀ i, s.refs i = if i ∈ s.live then s.count i else 0
  small : ∀ i ∈ s.live, s.count i < 2 ^ 32

theorem init_inv : Inv init (fun _ => .leaf) [] where
  forest := by
    constructor
    · exact fun _ => rfl
    · exact fun _ => ⟨rfl, rfl⟩
    · exact fun _ => List.nodup_nil
    · exact fun _ _ member => by cases member
    · exact fun _ _ _ member => by cases member
  sorted := fun _ => List.Pairwise.nil
  members := by simp [init, Shape.inorder]
  ring := by simp [init, Links.Ring, Links.Seg]
  slack := by simp [init]
  alone := by simp [init]
  counted := by simp [init]
  small := by simp [init]

section Facts

variable {s : State} {shape : Nat → Shape} {slack : List Nat}

section

variable (inv : Inv s shape slack)
include inv

theorem Inv.cached_iff {sb i : Nat} : Cached s sb i ↔ i ∈ s.live ∧ s.sb i = sb := by
  rw [← inv.members sb i]
  constructor
  · rintro ⟨other, rep, member⟩
    rwa [rep_unique rep (inv.forest.rep sb)] at member
  · exact fun member => ⟨shape sb, inv.forest.rep sb, member⟩

theorem Inv.cached_live {i : Nat} : (∃ sb, Cached s sb i) ↔ i ∈ s.live := by
  constructor
  · rintro ⟨sb, cached⟩
    exact (inv.cached_iff.mp cached).1
  · exact fun live => ⟨s.sb i, inv.cached_iff.mpr ⟨live, rfl⟩⟩

theorem Inv.slack_iff {l : List Nat} : Slack s l ↔ l = slack := by
  constructor
  · intro ring
    exact List.map_injective_iff.mpr (Option.some_injective _) (Links.ring_unique ring inv.ring)
  · rintro rfl
    exact inv.ring

theorem Inv.orderly : Orderly s where
  trees := fun sb => ⟨shape sb, inv.forest.rep sb, inv.forest.redBlack sb, inv.sorted sb⟩
  slack := by
    refine ⟨slack, inv.ring, fun i => ?_⟩
    rw [inv.cached_live]
    exact inv.slack i

theorem Inv.few (sb : Nat) : (shape sb).inorder.length < walk s := by
  have within : (shape sb).inorder.toFinset ⊆ s.live := by
    intro i member
    exact ((inv.members sb i).mp (List.mem_toFinset.mp member)).1
  have card := Finset.card_le_card within
  rw [List.toFinset_card_of_nodup (inv.forest.distinct sb)] at card
  exact Nat.lt_succ_of_le card

theorem Inv.slack_few : slack.length < walk s := by
  have distinct : slack.Nodup := List.Nodup.of_map _ (List.nodup_cons.mp inv.ring.2).2
  have within : slack.toFinset ⊆ s.live := by
    intro i member
    exact ((inv.slack i).mp (List.mem_toFinset.mp member)).1
  have card := Finset.card_le_card within
  rw [List.toFinset_card_of_nodup distinct] at card
  exact Nat.lt_succ_of_le card

theorem Inv.search_cases (sb ino : Nat) :
    (∃ i, Cached s sb i ∧ s.ino i = ino ∧ search s sb ino = some (.node i)) ∨
    ∃ p : Path, Path.plug .leaf p = shape sb ∧ p.Between s.ino ino ∧
      search s sb ino = some (.slot p.slot) := by
  rcases inv.forest.search ino (inv.sorted sb) (inv.few sb) with ⟨i, member, key, found⟩ | miss
  · exact .inl ⟨i, inv.cached_iff.mpr ((inv.members sb i).mp member), key, found⟩
  · exact .inr miss

theorem Inv.search_hit {sb i : Nat} (cached : Cached s sb i) :
    search s sb (s.ino i) = some (.node i) := by
  have member := (inv.members sb i).mpr (inv.cached_iff.mp cached)
  rcases inv.search_cases sb (s.ino i) with ⟨j, cached', key, found⟩ | ⟨p, place, between, -⟩
  · have member' := (inv.members sb j).mpr (inv.cached_iff.mp cached')
    rwa [sorted_inj (inv.sorted sb) member' member key] at found
  · exact absurd rfl (Path.between_absent place between i member)

end

end Facts

end ScaraOS.InodeCache
