import Mathlib.Algebra.BigOperators.Group.Finset.Basic
import ScaraOS.Fdt.Represents
import ScaraOS.Proc.Housed
import ScaraOS.Proc.Teardown

/-! The references to inodes: what is held to an inode against its `i_count`. -/
namespace ScaraOS.Proc

open Function RbTree Paging Mm

variable {R : Type}

/-- The files in the table of the task; `es` has the entries of the tables. -/
def filesOf (s : Kernel R) (es : Nat → List Nat) (t : Nat) : List Nat :=
  let a := (s.task t).fdTable
  if a = 0 then [] else (es a).map fun e => (s.table a).file (.entry e)

def areaRefs (w : World) (shape : Nat → Shape) (i : Nat) : Nat :=
  ∑ c ∈ w.memctx, areasOf w (shape c) i

/-- The references that are held to the inode: as the root and as the working directory of a
live task, by the files that live tasks reach, and by areas. -/
def refs (s : Kernel R) (es : Nat → List Nat) (shape : Nat → Shape) (i : Nat) : Nat :=
  s.live.countP (fun t => (s.task t).root = i) + s.live.countP (fun t => (s.task t).cwd = i) +
    (s.live.flatMap (filesOf s es)).dedup.countP (fun f => (s.file f).inode = i) +
    areaRefs s.world shape i

/-- The entries and the areas are those that can be reached. -/
structure Ledger (s : Kernel R) (es : Nat → List Nat) (shape : Nat → Shape) : Prop where
  entries : ∀ t ∈ s.live, (s.task t).fdTable ≠ 0 →
    Links.Ring (s.table (s.task t).fdTable).links .fds ((es (s.task t).fdTable).map .entry)
  areas : ∀ c ∈ s.world.memctx, Areas s.world c (shape c)

def Balanced (s : Kernel R) : Prop :=
  ∃ es shape, Ledger s es shape ∧ ∀ i ≠ 0, s.world.iCount i = refs s es shape i

/-- A call of a task that can make it. The allocators hand out what is not in use, the names
are strings, and the bounds on the walks are high enough. -/
def Proper (s : Kernel R) (op : Op) : Prop :=
  Enabled s op ∧
    match op with
    | .kernelThread _ g => (∀ f, g.page = some f → f ∉ s.world.frames) ∧
        ∀ a, g.table = some a → a ≠ 0 ∧ a ∉ s.tables
    | .fork t a g => a.refused = false →
        (a.flags &&& forkMem ≠ 0 → ∀ tree, Areas s.world (s.task t).ctx tree →
          Supplied s.world g.clone tree.inorder.length) ∧
        ∀ f, g.page = some f → f ∉ s.world.frames ∧ (a.flags &&& forkMem ≠ 0 → g.clone.pgd ≠ some f)
    | .openFile t c => c.copied = true →
        (c.name ≠ 0 ∧ ∃ len, Namei.Terminated c.mem c.name len ∧ len < c.fuel) ∧
        (∀ f, c.file = some f → f ≠ 0 ∧ f ∉ s.files) ∧
        ∀ e, c.entry = some e → Fdt.Fresh (s.table (s.task t).fdTable) e
    | .closeFile t walks _ => ∀ l, Links.Ring (s.table (s.task t).fdTable).links .fds l →
        l.length < walks
    | _ => True

def Countable (s : Kernel R) (t : Nat) : Prop :=
  ∀ i ≠ 0, s.world.iCount i + (s.task t).holds i < 2 ^ 32

/-- No clone is begun and no child, or the clone succeeds and there are no areas of files. -/
def Cloneable (s : Kernel R) (g : ForkGrants) (tree : Shape) : Prop :=
  (g.clone.ctx = none ∨ g.clone.pgd = none) ∧ g.page = none ∨
    ¬ g.clone.FailsFor tree.inorder.length ∧ ∀ i ≠ 0, areasOf s.world tree i = 0

def Found (sys : System R) (s : Kernel R) (t : Nat) (c : OpenCall) : Prop :=
  ∀ len cs, Namei.Terminated c.mem c.name len → Separated.Spans c.mem Namei.slash c.name len cs →
    Namei.Resolves sys.graph s.world.iCount s.rest
      (if c.mem c.name = Namei.slash then (s.task t).root else (s.task t).cwd) cs

/-- The calls that give back, or leave to be found, every reference they take. -/
def Settled (sys : System R) (s : Kernel R) : Op → Prop
  | .kernelThread t g => g.page.isSome → Countable s t
  | .fork t a g => a.refused = false →
      (a.flags &&& forkMem ≠ 0 → ∀ tree, Areas s.world (s.task t).ctx tree → Cloneable s g tree) ∧
      (g.page.isSome → Countable s t)
  | .exec _ c => c.copied = false
  | .exit t => (s.task t).root = 0 ∧ (s.task t).cwd = 0 ∧ ((s.task t).fdTable ≠ 0 →
      Links.Ring (s.table (s.task t).fdTable).links .fds [])
  | .reap _ => True
  | .openFile t c => c.copied = true → Found sys s t c ∧ c.file.isSome ∧ c.entry.isSome
  | .closeFile t _ handle => ∀ l, Links.Ring (s.table (s.task t).fdTable).links .fds l →
      ∀ x ∈ Fdt.examined l, (s.table (s.task t).fdTable).handle x ≠ handle
  | .readFile _ _ => True

/-- A file system has been mounted: inode `r` is the root and the working directory of task
`t`, and no other inode is referred to. -/
structure Mounted (s : Kernel R) (t r : Nat) : Prop where
  housed : Housed s fun _ => .leaf
  kthreadCtx : s.kthreadCtx ∈ s.world.memctx
  task : t ∈ s.live ∧ (s.task t).root = r ∧ (s.task t).cwd = r
  others : ∀ u ∈ s.live, u ≠ t → (s.task u).root = 0 ∧ (s.task u).cwd = 0
  tables : ∀ u ∈ s.live, (s.task u).fdTable ≠ 0 → (s.task u).fdTable ∈ s.tables ∧
    Links.Ring (s.table (s.task u).fdTable).links .fds []
  own : ∀ u ∈ s.live, ∀ v ∈ s.live, (s.task u).fdTable ≠ 0 →
    (s.task u).fdTable = (s.task v).fdTable → u = v
  count : r ≠ 0 ∧ s.world.iCount r = 2 ∧ ∀ i ≠ 0, i ≠ r → s.world.iCount i = 0

structure Tidy (s : Kernel R) (es : Nat → List Nat) (shape : Nat → Shape) : Prop where
  housed : Housed s shape
  kthreadCtx : s.kthreadCtx ∈ s.world.memctx
  entries : ∀ t ∈ s.live, (s.task t).fdTable ≠ 0 →
    Links.Ring (s.table (s.task t).fdTable).links .fds ((es (s.task t).fdTable).map .entry)
  tables : ∀ t ∈ s.live, (s.task t).fdTable ≠ 0 → (s.task t).fdTable ∈ s.tables
  own : ∀ t ∈ s.live, ∀ u ∈ s.live, (s.task t).fdTable ≠ 0 →
    (s.task t).fdTable = (s.task u).fdTable → t = u
  opened : ∀ t ∈ s.live, ∀ f ∈ filesOf s es t, f ∈ s.files
  once : (s.live.flatMap (filesOf s es)).Nodup
  count : ∀ i ≠ 0, s.world.iCount i = refs s es shape i

variable {s : Kernel R} {es : Nat → List Nat} {shape : Nat → Shape} {w w' : World} {t u : Nat}
  {r : Int} {sys : System R} {a : ForkArgs} {g : ForkGrants}

theorem Tidy.balanced (tidy : Tidy s es shape) : Balanced s :=
  ⟨es, shape, ⟨tidy.entries, tidy.housed.spaces.areas⟩, tidy.count⟩

def taskRefs (s : Kernel R) (es : Nat → List Nat) (i t : Nat) : Nat :=
  (s.task t).holds i + (filesOf s es t).countP fun f => (s.file f).inode = i

theorem sum_taskRefs (s : Kernel R) (es : Nat → List Nat) (i : Nat) (l : List Nat) :
    l.countP (fun t => (s.task t).root = i) + l.countP (fun t => (s.task t).cwd = i) +
      (l.flatMap (filesOf s es)).countP (fun f => (s.file f).inode = i) =
    (l.map (taskRefs s es i)).sum := by
  induction l with
  | nil => rfl
  | cons t l ih =>
    simp only [List.countP_cons, List.flatMap_cons, List.countP_append, List.map_cons, List.sum_cons,
      taskRefs, Task.holds, decide_eq_true_eq] at ih ⊢
    omega

theorem refs_eq (once : (s.live.flatMap (filesOf s es)).Nodup) (shape : Nat → Shape) (i : Nat) :
    refs s es shape i = (s.live.map (taskRefs s es i)).sum + areaRefs s.world shape i := by
  rw [refs, List.dedup_eq_self.mpr once, sum_taskRefs]

theorem areaRefs_congr (memctx : w'.memctx = w.memctx)
    (vma : ∀ c ∈ w.memctx, ∀ n ∈ (shape c).inorder, w'.vma n = w.vma n) (i : Nat) :
    areaRefs w' shape i = areaRefs w shape i := by
  rw [areaRefs, memctx]
  exact Finset.sum_congr rfl fun c here => areasOf_congr (vma c here) i

theorem areaRefs_add {c f : Nat} (spaces : Spaces w shape) (added : Added w w' c f .leaf) (i : Nat) :
    areaRefs w' (update shape c .leaf) i = areaRefs w shape i := by
  have none : areasOf w' (update shape c .leaf c) i = 0 := by
    rw [update_self]
    rfl
  rw [areaRefs, added.memctx, Finset.sum_insert added.unused, none, Nat.zero_add]
  refine Finset.sum_congr rfl fun d here => ?_
  have other : d ≠ c := by
    rintro rfl
    exact added.unused here
  rw [update_of_ne other]
  exact areasOf_congr (fun n member => added.vma n ((spaces.areas d here).live n member)) i

section Steps

variable {s s' : Kernel R} {es : Nat → List Nat} {shape : Nat → Shape}

theorem Tidy.world {shape' : Nat → Shape} (tidy : Tidy s es shape)
    (housed : Housed { s with world := w } shape') (kthreadCtx : s.kthreadCtx ∈ w.memctx)
    (iCount : ∀ i ≠ 0, w.iCount i = s.world.iCount i)
    (areas : ∀ i, areaRefs w shape' i = areaRefs s.world shape i) :
    Tidy { s with world := w } es shape' :=
  { tidy with
    housed := housed
    kthreadCtx := kthreadCtx
    count := fun i inode => by
      have before := tidy.count i inode
      rw [refs, ← areas i, ← iCount i inode] at before
      exact before }

theorem irefFs_iCount {parent : Task} {i : Nat} (inode : i ≠ 0)
    (room : w.iCount i + parent.holds i < 2 ^ 32) :
    (irefFs w parent).iCount i = w.iCount i + parent.holds i := by
  have once (count : Nat → Nat) (j : Nat) (small : count i + (if j = i then 1 else 0) < 2 ^ 32) :
      (if j ≠ 0 then iref count j else count) i = count i + if j = i then 1 else 0 := by
    by_cases here : j = i
    · subst here
      rw [if_pos rfl] at small
      rw [if_pos inode, if_pos rfl, iref, update_self, Nat.mod_eq_of_lt small]
    · rw [if_neg here, Nat.add_zero]
      split
      · rw [iref, update_of_ne (Ne.symm here)]
      · rfl
  unfold Task.holds at room ⊢
  have first := once w.iCount parent.root (by omega)
  simp only [irefFs]
  rw [once _ parent.cwd (by rw [first]; omega), first, Nat.add_assoc]

section Spawn

variable {w : World} {parent task : Task} {f : Nat} (tidy : Tidy { s with world := w } es shape)

include tidy

theorem Tidy.newTable (tabled : Tabled s s' task.fdTable) (member : t ∈ s.live)
    (nonzero : (s.task t).fdTable ≠ 0) : (s.task t).fdTable ≠ task.fdTable := by
  intro equal
  exact (tabled.empty (equal ▸ nonzero)).1 (equal ▸ tidy.tables t member nonzero)

theorem filesOf_spawned (tabled : Tabled s s' task.fdTable) (member : t ∈ s.live)
    (same : s'.task t = s.task t) :
    filesOf s' (update es task.fdTable []) t = filesOf s es t := by
  rw [filesOf, filesOf, same]
  by_cases none : (s.task t).fdTable = 0
  · simp only [if_pos none]
  · have older := (tabled.older _ (tidy.tables t member none)).2
    simp only [if_neg none, older, update_of_ne (tidy.newTable tabled member none)]

omit tidy in
theorem filesOf_child (mine : s'.task f = task) :
    filesOf s' (update es task.fdTable []) f = [] := by
  rw [filesOf, mine, update_self]
  simp

section

variable (unused : f ∉ w.frames) (spawned : Spawned s s' w parent f task)
  (tabled : Tabled s s' task.fdTable)
include unused spawned tabled

theorem reached_spawned :
    s'.live.flatMap (filesOf s' (update es task.fdTable [])) =
      s.live.flatMap (filesOf s es) := by
  obtain ⟨-, same⟩ := spawned.fresh tidy.housed unused
  have mine : s'.task f = task := by rw [spawned.task, update_self]
  rw [spawned.live, List.flatMap_cons, filesOf_child mine, List.nil_append]
  exact List.flatMap_congr fun t member => filesOf_spawned tidy tabled member (same t member)

theorem refs_spawned (dirs : task.root = parent.root ∧ task.cwd = parent.cwd) (i : Nat) :
    refs s' (update es task.fdTable []) shape i =
      refs { s with world := w } es shape i + parent.holds i := by
  obtain ⟨-, same⟩ := spawned.fresh tidy.housed unused
  have mine : s'.task f = task := by rw [spawned.task, update_self]
  have reached := reached_spawned tidy unused spawned tabled
  have held : ∀ t ∈ s.live, taskRefs s' (update es task.fdTable []) i t = taskRefs s es i t := by
    intro t member
    rw [taskRefs, taskRefs, filesOf_spawned tidy tabled member (same t member), same t member,
      tabled.file]
  have child : taskRefs s' (update es task.fdTable []) i f = parent.holds i := by
    rw [taskRefs, filesOf_child mine, mine, Task.holds, Task.holds, dirs.1, dirs.2]
    rfl
  have areas : areaRefs s'.world shape i = areaRefs w shape i :=
    areaRefs_congr spawned.memctx (fun _ _ _ _ => by rw [spawned.world]; rfl) i
  have before : refs { s with world := w } es shape i =
      (s.live.map (taskRefs s es i)).sum + areaRefs w shape i := refs_eq tidy.once shape i
  rw [refs_eq (by rw [reached]; exact tidy.once), areas, spawned.live, List.map_cons,
    List.sum_cons, child, List.map_congr_left held, before]
  omega

theorem Tidy.spawn (here : task.ctx ∈ w.memctx)
    (dirs : task.root = parent.root ∧ task.cwd = parent.cwd)
    (room : ∀ i ≠ 0, w.iCount i + parent.holds i < 2 ^ 32) :
    Tidy s' (update es task.fdTable []) shape := by
  obtain ⟨-, same⟩ := spawned.fresh tidy.housed unused
  have mine : s'.task f = task := by rw [spawned.task, update_self]
  have either {t : Nat} (member : t ∈ s'.live) : t = f ∨ t ∈ s.live := by
    rw [spawned.live] at member
    exact List.mem_cons.mp member
  constructor
  case housed => exact tidy.housed.spawn unused spawned here
  case kthreadCtx =>
    rw [spawned.kthreadCtx, spawned.memctx]
    exact tidy.kthreadCtx
  case entries =>
    intro t member nonzero
    rcases either member with rfl | old
    · rw [mine] at nonzero ⊢
      rw [update_self]
      exact (tabled.empty nonzero).2.2
    · rw [same t old] at nonzero ⊢
      rw [(tabled.older _ (tidy.tables t old nonzero)).2,
        update_of_ne (tidy.newTable tabled old nonzero)]
      exact tidy.entries t old nonzero
  case tables =>
    intro t member nonzero
    rcases either member with rfl | old
    · rw [mine] at nonzero ⊢
      exact (tabled.empty nonzero).2.1
    · rw [same t old] at nonzero ⊢
      exact (tabled.older _ (tidy.tables t old nonzero)).1
  case own =>
    intro t member u member' nonzero equal
    rcases either member with rfl | old
    · rcases either member' with rfl | old'
      · rfl
      · rw [mine] at nonzero
        rw [mine, same u old'] at equal
        exact absurd equal.symm (tidy.newTable tabled old' (equal ▸ nonzero))
    · rw [same t old] at nonzero
      rcases either member' with rfl | old'
      · rw [mine, same t old] at equal
        exact absurd equal (tidy.newTable tabled old nonzero)
      · rw [same t old, same u old'] at equal
        exact tidy.own t old u old' nonzero equal
  case opened =>
    intro t member g inside
    rw [tabled.files]
    rcases either member with rfl | old
    · rw [filesOf_child mine] at inside
      cases inside
    · rw [filesOf_spawned tidy tabled old (same t old)] at inside
      exact tidy.opened t old g inside
  case once =>
    rw [reached_spawned tidy unused spawned tabled]
    exact tidy.once
  case count =>
    intro i inode
    have counted : s'.world.iCount i = w.iCount i + parent.holds i := by
      rw [spawned.world]
      exact irefFs_iCount (w := { w with frames := insert f w.frames }) inode (room i inode)
    rw [refs_spawned tidy unused spawned tabled dirs, ← tidy.count i inode]
    exact counted

end

end Spawn

theorem Tidy.nextPid (tidy : Tidy s es shape) (n : Nat) : Tidy { s with nextPid := n } es shape :=
  { tidy with housed := { tidy.housed with } }

theorem Tidy.exit (tidy : Tidy s es shape) (running : t ∈ s.live)
    (dirs : (s.task t).root = 0 ∧ (s.task t).cwd = 0)
    (closed : (s.task t).fdTable ≠ 0 → Links.Ring (s.table (s.task t).fdTable).links .fds []) :
    Tidy (doExit s t) es shape := by
  have older : ∀ u ∈ s.live.erase t, u ∈ s.live := fun u member => List.mem_of_mem_erase member
  have noFiles : filesOf s es t = [] := by
    rw [filesOf]
    by_cases none : (s.task t).fdTable = 0
    · simp only [if_pos none]
    · have empty := Links.ring_unique (tidy.entries t running none) (closed none)
      simp only [if_neg none, List.map_eq_nil_iff.mp empty, List.map_nil]
  have reached : (s.live.flatMap (filesOf s es)).Perm ((s.live.erase t).flatMap (filesOf s es)) := by
    have split := (List.perm_cons_erase running).flatMap_right (filesOf s es)
    rw [List.flatMap_cons, noFiles, List.nil_append] at split
    exact split
  have once := reached.nodup_iff.mp tidy.once
  constructor
  case housed => exact tidy.housed.exit running
  case kthreadCtx => exact tidy.kthreadCtx
  case entries => exact fun u member => tidy.entries u (older u member)
  case tables => exact fun u member => tidy.tables u (older u member)
  case own => exact fun u member v member' => tidy.own u (older u member) v (older v member')
  case opened => exact fun u member => tidy.opened u (older u member)
  case once => exact once
  case count =>
    intro i inode
    have before := tidy.count i inode
    have none : taskRefs s es i t = 0 := by
      rw [taskRefs, noFiles, Task.holds, dirs.1, dirs.2, if_neg (Ne.symm inode)]
      rfl
    have split := ((List.perm_cons_erase running).map (taskRefs s es i)).sum_eq
    rw [List.map_cons, List.sum_cons, none, Nat.zero_add] at split
    rw [refs_eq tidy.once, split] at before
    rw [refs_eq (s := doExit s t) once]
    exact before

theorem Tidy.reap (tidy : Tidy s es shape) (dead : t ∈ s.zombies) (ran : reap s t = .ok s') :
    Tidy s' es shape := by
  obtain ⟨u, freed, housed, rfl⟩ := tidy.housed.reap dead
  cases freed.symm.trans ran
  exact { tidy with housed := housed }

theorem Tidy.file {file : Nat → File} (tidy : Tidy s es shape)
    (inodes : ∀ f, (file f).inode = (s.file f).inode) : Tidy { s with file := file } es shape :=
  { tidy with
    housed := { tidy.housed with }
    count := fun i inode => by
      have before := tidy.count i inode
      simp only [refs] at before ⊢
      simp only [inodes]
      exact before }

def withFile (s : Kernel R) (t inode mode f e handle : Nat) (count : Nat → Nat) (rest : R) : Kernel R :=
  let a := (s.task t).fdTable
  { s with
    world := { s.world with iCount := count }
    rest := rest
    files := insert f s.files
    file := update s.file f ⟨inode, mode, 0, 1⟩
    table := update s.table a (Fdt.added (s.table a) e handle f) }

def withEntry (s : Kernel R) (es : Nat → List Nat) (t e : Nat) : Nat → List Nat :=
  update es (s.task t).fdTable (e :: es (s.task t).fdTable)

section Open

variable {t inode mode f e handle : Nat} {count : Nat → Nat} {rest : R} (tidy : Tidy s es shape)

include tidy

theorem Tidy.newFile (unused : f ∉ s.files) : f ∉ s.live.flatMap (filesOf s es) := by
  intro member
  obtain ⟨u, live, inside⟩ := List.mem_flatMap.mp member
  exact unused (tidy.opened u live f inside)

variable (running : t ∈ s.live)

include running

theorem Tidy.otherTable (member : u ∈ s.live) (apart : u ≠ t) (nonzero : (s.task u).fdTable ≠ 0) :
    (s.task u).fdTable ≠ (s.task t).fdTable :=
  fun same => apart (tidy.own u member t running nonzero same)

theorem filesOf_withFile_other (member : u ∈ s.live) (apart : u ≠ t) :
    filesOf (withFile s t inode mode f e handle count rest) (withEntry s es t e) u =
      filesOf s es u := by
  by_cases none : (s.task u).fdTable = 0
  · rw [filesOf, filesOf]
    exact (if_pos none).trans (if_pos none).symm
  · have other := tidy.otherTable running member apart none
    simp only [filesOf, withFile, withEntry, if_neg none, update_of_ne other]

variable (table : (s.task t).fdTable ≠ 0) (fresh : Fdt.Fresh (s.table (s.task t).fdTable) e)

include table fresh

theorem Tidy.newEntry : Fdt.Cell.entry e ∉ (es (s.task t).fdTable).map .entry :=
  fresh.2.2 _ (tidy.entries t running table)

theorem filesOf_withFile :
    filesOf (withFile s t inode mode f e handle count rest) (withEntry s es t e) t =
      f :: filesOf s es t := by
  have absent := tidy.newEntry running table fresh
  simp only [filesOf, withFile, withEntry, if_neg table, update_self, List.map_cons, Fdt.added]
  congr 1
  refine List.map_congr_left fun x member => update_of_ne ?_ _ _
  intro same
  exact absent (same ▸ List.mem_map_of_mem member)

theorem reached_withFile : (s.live.flatMap (filesOf (withFile s t inode mode f e handle count rest)
    (withEntry s es t e))).Perm (f :: s.live.flatMap (filesOf s es)) := by
  have nodup : s.live.Nodup := (List.nodup_append.mp tidy.housed.nodup).1
  have theirs : ∀ u ∈ s.live.erase t, filesOf (withFile s t inode mode f e handle count rest)
      (withEntry s es t e) u = filesOf s es u := fun u member =>
    filesOf_withFile_other tidy running (List.mem_of_mem_erase member)
      ((List.Nodup.mem_erase_iff nodup).mp member).1
  have after := (List.perm_cons_erase running).flatMap_right
    (filesOf (withFile s t inode mode f e handle count rest) (withEntry s es t e))
  have before := (List.perm_cons_erase running).flatMap_right (filesOf s es)
  rw [List.flatMap_cons, filesOf_withFile tidy running table fresh, List.flatMap_congr theirs] at after
  rw [List.flatMap_cons] at before
  exact after.trans (before.symm.cons f)

variable (unused : f ∉ s.files)

include unused

theorem once_withFile : (s.live.flatMap (filesOf (withFile s t inode mode f e handle count rest)
    (withEntry s es t e))).Nodup :=
  (reached_withFile tidy running table fresh).nodup_iff.mpr
    (List.nodup_cons.mpr ⟨tidy.newFile unused, tidy.once⟩)

theorem refs_withFile (i : Nat) :
    refs (withFile s t inode mode f e handle count rest) (withEntry s es t e) shape i =
      refs s es shape i + if inode = i then 1 else 0 := by
  have older : (s.live.flatMap (filesOf s es)).countP
      (fun g => ((withFile s t inode mode f e handle count rest).file g).inode = i) =
      (s.live.flatMap (filesOf s es)).countP fun g => (s.file g).inode = i := by
    refine List.countP_congr fun g member => ?_
    have apart : g ≠ f := by
      rintro rfl
      exact tidy.newFile unused member
    simp only [withFile, update_of_ne apart]
  have new : ((withFile s t inode mode f e handle count rest).file f).inode = inode := by
    simp only [withFile, update_self]
  show s.live.countP (fun t => (s.task t).root = i) + s.live.countP (fun t => (s.task t).cwd = i) +
    (s.live.flatMap (filesOf (withFile s t inode mode f e handle count rest)
      (withEntry s es t e))).dedup.countP
        (fun g => ((withFile s t inode mode f e handle count rest).file g).inode = i) +
    areaRefs s.world shape i = _
  rw [List.dedup_eq_self.mpr (once_withFile tidy running table fresh unused),
    (reached_withFile tidy running table fresh).countP_eq, List.countP_cons, older, new, refs,
    List.dedup_eq_self.mpr tidy.once]
  simp only [decide_eq_true_eq]
  omega

theorem Tidy.openFile (mode handle : Nat) (rest : R) (words : ∀ i, count i < 2 ^ 32)
    (counted : count = update s.world.iCount inode (s.world.iCount inode + 1)) :
    Tidy (withFile s t inode mode f e handle count rest) (withEntry s es t e) shape := by
  constructor
  case housed =>
    exact { tidy.housed with spaces := tidy.housed.spaces.pages tidy.housed.spaces.pgd words }
  case kthreadCtx => exact tidy.kthreadCtx
  case entries =>
    intro u member nonzero
    by_cases isMine : u = t
    · subst isMine
      have absent := tidy.newEntry running table fresh
      simp only [withFile, withEntry, update_self, Fdt.added, List.map_cons]
      exact Links.ring_listAdd (tidy.entries u running table) (by simpa using absent)
    · have other := tidy.otherTable running member isMine nonzero
      simp only [withFile, withEntry, update_of_ne other]
      exact tidy.entries u member nonzero
  case tables => exact tidy.tables
  case own => exact tidy.own
  case opened =>
    intro u member g inside
    refine Finset.mem_insert.mpr ?_
    by_cases isMine : u = t
    · subst isMine
      rw [filesOf_withFile tidy running table fresh] at inside
      exact (List.mem_cons.mp inside).imp id (tidy.opened u member g)
    · rw [filesOf_withFile_other tidy running member isMine] at inside
      exact .inr (tidy.opened u member g inside)
  case once => exact once_withFile tidy running table fresh unused
  case count =>
    intro i isInode
    have added : count i = s.world.iCount i + if inode = i then 1 else 0 := by
      rw [counted]
      by_cases same : inode = i
      · subst same
        rw [update_self, if_pos rfl]
      · rw [update_of_ne (Ne.symm same), if_neg same, Nat.add_zero]
    rw [refs_withFile tidy running table fresh unused, ← tidy.count i isInode]
    exact added

end Open

end Steps

section Calls

variable {s s' : Kernel R} {es : Nat → List Nat} {shape : Nat → Shape}

theorem fdtEntryAdd_added {n file a : Nat} {t t' : Fdt.Table} (given : file ≠ 0)
    (ran : Fdt.fdtEntryAdd n t file (some a) = some (t', r)) : ∃ h, t' = Fdt.added t a h file := by
  unfold Fdt.fdtEntryAdd at ran
  rw [if_neg given] at ran
  obtain ⟨h, -, ended⟩ := Option.map_eq_some_iff.mp ran
  exact ⟨h, (Prod.mk.inj ended).1.symm⟩

section

variable (tidy : Tidy s es shape)
include tidy

theorem sysOpen_tidy {c : OpenCall} (proper : Proper s (.openFile t c))
    (settled : Settled sys s (.openFile t c)) (ran : sysOpen sys.graph s t c = .ok (s', r)) :
    ∃ es', Tidy s' es' shape := by
  unfold sysOpen at ran
  cases copied : c.copied with
  | false =>
    rw [if_pos copied] at ran
    cases ran
    exact ⟨es, tidy⟩
  | true =>
    obtain ⟨⟨named, len, string, enough⟩, newFile, newEntry⟩ := proper.2 copied
    obtain ⟨found, file, entry⟩ := settled copied
    obtain ⟨f, file⟩ := Option.isSome_iff_exists.mp file
    obtain ⟨e, entry⟩ := Option.isSome_iff_exists.mp entry
    obtain ⟨nonzero, unused⟩ := newFile f file
    rw [if_neg (by rw [copied]; decide)] at ran
    obtain ⟨⟨s₁, got⟩, walked, ran⟩ := Loops.bind_ok.mp ran
    rcases taskNamei_cases sys.graph s t c.mem c.fuel c.name
      with (stop | stop) | ⟨got', n, looked, walked'⟩
    · cases stop.symm.trans walked
    · cases stop.symm.trans walked
    obtain ⟨rfl, rfl⟩ := Prod.mk.inj (Except.ok.inj (walked'.symm.trans walked))
    have words : ∀ i, n.count i < 2 ^ 32 :=
      Namei.namei_words (s := ⟨s.world.iCount, s.rest⟩) tidy.housed.spaces.words looked
    obtain ⟨cs, spans, iff⟩ := Namei.namei_neutral_iff sys.graph c.mem (s.task t).root (s.task t).cwd
      c.name len c.fuel ⟨s.world.iCount, s.rest⟩ tidy.housed.spaces.words (fun _ => string) enough
    have neutral := iff.mpr (.inr (found len cs string (spans named)))
    rw [looked] at neutral
    cases got' with
    | none =>
      cases ran
      have same : n.count = s.world.iCount := neutral
      refine ⟨es, { tidy with
        housed := { tidy.housed with
          spaces := tidy.housed.spaces.pages tidy.housed.spaces.pgd words }
        count := fun i inode => ?_ }⟩
      simp only [same]
      exact tidy.count i inode
    | some inode =>
      have counted : n.count =
          update s.world.iCount inode (s.world.iCount inode + 1) := neutral
      simp only [file, fileNew, if_neg (not_or.mpr ⟨nonzero, unused⟩), entry, fdtEntryAdd,
        if_neg nonzero, bind, Except.bind] at ran
      split at ran
      · cases ran
      · rename_i table
        split at ran
        · cases ran
        · rename_i t' ret added
          cases ran
          obtain ⟨h, rfl⟩ := fdtEntryAdd_added nonzero added
          exact ⟨_, tidy.openFile proper.1 table (newEntry e entry) unused c.mode h n.rest words
            counted⟩

theorem sysClose_tidy {walks handle : Nat} (proper : Proper s (.closeFile t walks handle))
    (settled : Settled sys s (.closeFile t walks handle))
    (ran : sysClose s t walks handle = .ok (s', r)) : Tidy s' es shape := by
  unfold sysClose at ran
  dsimp only at ran
  split at ran
  · cases ran
  · rename_i table
    have ring := tidy.entries t proper.1 table
    have missed : Fdt.fdtEntryDel walks (s.table (s.task t).fdTable) handle =
        some (s.table (s.task t).fdTable, none) := by
      rw [Fdt.fdtEntryDel, Fdt.findHandle_ring ring (proper.2 _ ring), List.find?_eq_none.mpr]
      · rfl
      · intro x met
        simp only [decide_eq_true_eq]
        exact settled _ ring x met
    rw [missed] at ran
    cases ran
    rw [update_eq_self]
    exact tidy

theorem sysRead_tidy {c : ReadCall} (ran : sysRead s t c = .ok (s', r)) : Tidy s' es shape := by
  unfold sysRead at ran
  split at ran
  · cases ran
    exact tidy
  · split at ran
    · cases ran
    · split at ran
      · cases ran
      · split at ran
        · cases ran
          exact tidy
        · rename_i f _ _
          have same : (kernelRead s f c).1 = s' := congrArg Prod.fst (Except.ok.inj ran)
          rw [← same, kernelRead]
          dsimp only
          split
          · refine tidy.file fun g => ?_
            by_cases here : g = f
            · subst here
              rw [update_self]
            · rw [update_of_ne here]
          · exact tidy

theorem kernelThread_tidy {g : ThreadGrants} (proper : Proper s (.kernelThread t g))
    (settled : Settled sys s (.kernelThread t g)) (ran : kernelThread s t g = .ok (s', r)) :
    ∃ es', Tidy s' es' shape := by
  obtain ⟨pages, tables⟩ := proper.2
  cases page : g.page with
  | none =>
    simp only [kernelThread, page, allocPage, bind, Except.bind] at ran
    cases ran
    exact ⟨es, tidy⟩
  | some f =>
    have unused := pages f page
    obtain ⟨u, r', pid, fdTable, started, spawned, tabled⟩ :=
      thread_spawned (t := t) page unused tables
    cases started.symm.trans ran
    have shared : Tidy { s with world := memCtxGet s.world s.kthreadCtx } es shape :=
      tidy.world (tidy.housed.get _) tidy.kthreadCtx (fun _ _ => rfl) fun _ => rfl
    exact ⟨_, shared.spawn unused spawned tabled tidy.kthreadCtx ⟨rfl, rfl⟩
      (settled (by rw [page]; rfl))⟩

theorem forkCtx_tidy (running : t ∈ s.live)
    (supplied : a.flags &&& forkMem ≠ 0 → Supplied s.world g.clone (shape (s.task t).ctx).inorder.length)
    (cloneable : a.flags &&& forkMem ≠ 0 → Cloneable s g (shape (s.task t).ctx)) :
    ∃ w mm shape', forkCtx s.world (s.task t).ctx a.flags g.clone = .ok (w, mm) ∧
      Tidy { s with world := w } es shape' ∧ (∀ i ≠ 0, w.iCount i = s.world.iCount i) ∧
      (g.page ≠ none → mm ∈ w.memctx) ∧
      ∀ f, f ∈ w.frames → f ∈ s.world.frames ∨ a.flags &&& forkMem ≠ 0 ∧ g.clone.pgd = some f := by
  have spaces := tidy.housed.spaces
  have here := tidy.housed.inUse t running
  by_cases mem : a.flags &&& forkMem = 0
  · refine ⟨_, _, shape, if_neg (not_not.mpr mem), ?_, fun _ _ => rfl, fun _ => here, fun _ => .inl⟩
    exact tidy.world (tidy.housed.get _) tidy.kthreadCtx (fun _ _ => rfl) fun _ => rfl
  · have nonzero : (s.task t).ctx ≠ 0 := fun zero => spaces.nonzero (zero ▸ here)
    obtain ⟨w, mm, ctx, outcome⟩ := forkCtx_cases (a := a)
      ⟨nonzero, spaces.areas _ here, spaces.counts _ here⟩ (supplied mem)
    cases outcome with
    | shared none => exact absurd none mem
    | failed _ fails null left =>
      rcases cloneable mem with ⟨early, noPage⟩ | ⟨works, -⟩
      · rcases left with ⟨-, rfl⟩ | ⟨f, given, pgd, -⟩
        · refine ⟨_, mm, shape, ctx, ?_, fun _ _ => rfl, fun page => absurd noPage page, fun _ => .inl⟩
          exact tidy.world tidy.housed tidy.kthreadCtx (fun _ _ => rfl) fun _ => rfl
        · rcases early with none | none
          · exact absurd none given
          · cases pgd.symm.trans none
      · exact absurd fails works
    | cloned _ works f cloned =>
      have noAreas : ∀ i ≠ 0, areasOf s.world (shape (s.task t).ctx) i = 0 := by
        rcases cloneable mem with ⟨early, -⟩ | ⟨-, noAreas⟩
        · rcases early with none | none
          · cases none.symm.trans cloned.given.1
          · cases none.symm.trans cloned.given.2
        · exact noAreas
      have added := cloned_added cloned
      have counts : ∀ i ≠ 0, w.iCount i = s.world.iCount i := by
        intro i inode
        have refs := cloned.refs i inode
        rw [Nat.mod_eq_of_lt (cloned.words spaces.words i)] at refs
        rw [refs, noAreas i inode, Nat.add_zero, Nat.mod_eq_of_lt (spaces.words i)]
      refine ⟨w, mm, update shape mm .leaf, ctx, ?_, counts, fun _ => added.areas.here, ?_⟩
      · refine tidy.world (tidy.housed.add added (cloned.words spaces.words)) ?_ counts
          (areaRefs_add spaces added)
        rw [added.memctx]
        exact Finset.mem_insert_of_mem tidy.kthreadCtx
      · intro x member
        rw [cloned.frames] at member
        rcases Finset.mem_insert.mp member with rfl | old
        · exact .inr ⟨mem, cloned.given.2⟩
        · exact .inl old

theorem sysFork_tidy (proper : Proper s (.fork t a g)) (settled : Settled sys s (.fork t a g))
    (ran : sysFork s t a g = .ok (s', r)) : ∃ es' shape', Tidy s' es' shape' := by
  cases accepted : a.refused with
  | true =>
    simp only [sysFork, accepted, if_true] at ran
    cases ran
    exact ⟨es, shape, tidy⟩
  | false =>
    obtain ⟨supplied, pages⟩ := proper.2 accepted
    obtain ⟨cloneable, countable⟩ := settled accepted
    have here := tidy.housed.inUse t proper.1
    have areas := tidy.housed.spaces.areas _ here
    obtain ⟨w, mm, shape', ctx, tidy', counts, inUse, frames⟩ := forkCtx_tidy tidy proper.1
      (fun mem => supplied mem _ areas) fun mem => cloneable mem _ areas
    cases page : g.page with
    | none =>
      obtain ⟨n, lost⟩ := sysFork_lost accepted ctx page
      cases lost.symm.trans ran
      exact ⟨es, shape', tidy'.nextPid n⟩
    | some f =>
      obtain ⟨unused, differ⟩ := pages f page
      have free : f ∉ w.frames := by
        intro member
        rcases frames f member with old | ⟨mem, same⟩
        · exact unused old
        · exact differ mem same
      have there := inUse (by rw [page]; simp)
      have nonzero : mm ≠ 0 := by
        rintro rfl
        exact tidy'.housed.spaces.nonzero there
      obtain ⟨u, pid, started, spawned, tabled⟩ := fork_spawned accepted ctx nonzero page free
      cases started.symm.trans ran
      refine ⟨_, shape', tidy'.spawn free spawned tabled there ⟨rfl, rfl⟩ ?_⟩
      intro i inode
      rw [counts i inode]
      exact countable (by rw [page]; rfl) i inode

end

end Calls

theorem perform_tidy {s' : Kernel R} {op : Op} (tidy : Tidy s es shape) (proper : Proper s op)
    (settled : Settled sys s op) (ran : perform sys s op = .ok s') :
    ∃ es' shape', Tidy s' es' shape' := by
  have returned {run : Except Halt (Kernel R × Int)} (ended : run.map Prod.fst = .ok s') :
      ∃ r, run = .ok (s', r) := by
    cases run with
    | error e => cases ended
    | ok result => exact ⟨result.2, by rw [← Except.ok.inj ended]⟩
  cases op with
  | kernelThread t g =>
    obtain ⟨r, ran⟩ := returned ran
    exact (kernelThread_tidy tidy proper settled ran).imp fun _ tidy' => ⟨shape, tidy'⟩
  | fork t a g =>
    obtain ⟨r, ran⟩ := returned ran
    exact sysFork_tidy tidy proper settled ran
  | exec t c =>
    have copied : c.copied = false := settled
    obtain ⟨r, ran⟩ := returned ran
    rw [doExec, if_pos copied] at ran
    cases ran
    exact ⟨es, shape, tidy⟩
  | exit t =>
    cases ran
    obtain ⟨root, cwd, closed⟩ := settled
    exact ⟨es, shape, tidy.exit proper.1.1 ⟨root, cwd⟩ closed⟩
  | reap t => exact ⟨es, shape, tidy.reap proper.1 ran⟩
  | openFile t c =>
    obtain ⟨r, ran⟩ := returned ran
    exact (sysOpen_tidy tidy proper settled ran).imp fun _ tidy' => ⟨shape, tidy'⟩
  | closeFile t walks handle =>
    obtain ⟨r, ran⟩ := returned ran
    exact ⟨es, shape, sysClose_tidy tidy proper settled ran⟩
  | readFile t c =>
    obtain ⟨r, ran⟩ := returned ran
    exact ⟨es, shape, sysRead_tidy tidy ran⟩

theorem mounted_tidy {r : Nat} (mounted : Mounted s t r) : Tidy s (fun _ => []) fun _ => .leaf := by
  have noFiles : ∀ u, filesOf s (fun _ => []) u = [] := by
    intro u
    rw [filesOf]
    simp
  have nodup : s.live.Nodup := (List.nodup_append.mp mounted.housed.nodup).1
  have once : (s.live.flatMap (filesOf s fun _ => [])).Nodup := by
    rw [List.flatMap_eq_nil_iff.mpr fun u _ => noFiles u]
    exact List.nodup_nil
  constructor
  case housed => exact mounted.housed
  case kthreadCtx => exact mounted.kthreadCtx
  case entries => exact fun u member nonzero => (mounted.tables u member nonzero).2
  case tables => exact fun u member nonzero => (mounted.tables u member nonzero).1
  case own => exact mounted.own
  case opened =>
    intro u _ f inside
    rw [noFiles] at inside
    cases inside
  case once => exact once
  case count =>
    intro i inode
    obtain ⟨running, root, cwd⟩ := mounted.task
    have held : ∀ u, taskRefs s (fun _ => []) i u = (s.task u).holds i := by
      intro u
      rw [taskRefs, noFiles]
      rfl
    have none : ((s.live.erase t).map (taskRefs s (fun _ => []) i)).sum = 0 := by
      refine List.sum_eq_zero fun n member => ?_
      obtain ⟨u, inside, rfl⟩ := List.mem_map.mp member
      obtain ⟨apart, live⟩ := (List.Nodup.mem_erase_iff nodup).mp inside
      obtain ⟨noRoot, noCwd⟩ := mounted.others u live apart
      rw [held, Task.holds, noRoot, noCwd, if_neg (Ne.symm inode)]
      rfl
    have areas : areaRefs s.world (fun _ => .leaf) i = 0 := Finset.sum_eq_zero fun _ _ => rfl
    have split := ((List.perm_cons_erase running).map (taskRefs s (fun _ => []) i)).sum_eq
    rw [refs_eq once, split, List.map_cons, List.sum_cons, none, areas, held, Task.holds, root, cwd]
    by_cases here : r = i
    · subst here
      rw [if_pos rfl]
      exact mounted.count.2.1
    · rw [if_neg here]
      exact mounted.count.2.2 i inode (Ne.symm here)

/-- From a mounted root on, every run of calls that settle their references keeps the counts
of all inodes equal to the references that are held. -/
theorem balance_kept (sys : System R) (s₀ s : Kernel R) (t r : Nat) (ops : List Op)
    (mounted : Mounted s₀ t r)
    (settled : Run.Along (step sys) (fun s op => Proper s op ∧ Settled sys s op) s₀ ops)
    (ran : Run.exec (step sys) s₀ ops = some s) : Balanced s := by
  obtain ⟨es, shape, tidy⟩ : ∃ es shape, Tidy s es shape := by
    refine Run.along_invariant (fun s => ∃ es shape, Tidy s es shape) ?_ settled
      ⟨_, _, mounted_tidy mounted⟩ ran
    rintro s₁ op s₂ ⟨proper, settled⟩ ⟨es, shape, tidy⟩ made
    exact perform_tidy tidy proper settled (step_some.mp made).2
  exact tidy.balanced

def mountedKernel : Kernel Unit where
  world := { sample 0 with
    ctx := fun _ => ⟨0, 2, 2⟩
    vmas := ∅
    memctx := {96}
    frames := {2, 8, 9}
    iCount := fun i => if i = 2 then 2 else 0 }
  task := fun t => if t = 9 then ⟨1, 96, 2, 2, 0⟩ else ⟨0, 96, 0, 0, 0⟩
  live := [9, 8]
  zombies := []
  idle := 8
  kthreadCtx := 96
  nextPid := 1
  table := forking.table
  tables := ∅
  file := forking.file
  files := ∅
  rest := ()

theorem mountedKernel_mounted : Mounted mountedKernel 9 2 where
  housed := by
    refine ⟨⟨by decide, ?_, ?_, by decide, by decide, by decide, ?_⟩, by decide, by decide, by decide⟩
    · intro c here
      exact ⟨here, rfl, by simp [Shape.inorder], by simp [Shape.inorder]⟩
    · intro c _ d _ _ n inside
      cases inside
    · intro i
      simp only [mountedKernel]
      split
      · decide
      · decide
  kthreadCtx := by decide
  task := by decide
  others := by decide
  tables := by
    intro u member nonzero
    have none : ∀ u ∈ mountedKernel.live, (mountedKernel.task u).fdTable = 0 := by decide
    exact absurd (none u member) nonzero
  own := by decide
  count := by
    refine ⟨by decide, rfl, ?_⟩
    intro i _ other
    exact if_neg other

def missingPath : Nat → UInt8
  | 100 => 47
  | 101 => 97
  | _ => 0

def execMissing : Op :=
  .exec 9 ⟨true, missingPath, 100, 4, fun _ => ⟨fun _ _ => (0, fun _ => 0)⟩, ⟨true, none, none, []⟩⟩

theorem refs_mounted {s : Kernel Unit} (ledger : Ledger s es shape) (live : s.live = [9, 8])
    (task : s.task = mountedKernel.task) (memctx : s.world.memctx = {96})
    (empty : (s.world.ctx 96).rbNode = 0) : refs s es shape 2 = 2 := by
  have here : 96 ∈ s.world.memctx := by
    rw [memctx]
    decide
  have leaf : shape 96 = .leaf := by
    have rep := (ledger.areas 96 here).rep
    rw [empty] at rep
    cases tree : shape 96 with
    | leaf => rfl
    | node a l r =>
      rw [tree] at rep
      exact absurd rep.1.symm rep.2.1
  have areas : areaRefs s.world shape 2 = 0 := by
    rw [areaRefs, memctx, Finset.sum_singleton, leaf]
    rfl
  rw [refs, areas, live, List.flatMap_cons, List.flatMap_cons, List.flatMap_nil, filesOf, filesOf, task]
  rfl

/-- The reference to the directory in which `/a` was looked for is kept. -/
theorem exec_pins_directory : Mounted mountedKernel 9 2 ∧
    Run.Along (step noFiles) Proper mountedKernel [execMissing] ∧
    ∃ s, Run.exec (step noFiles) mountedKernel [execMissing] = some s ∧ ¬ Balanced s := by
  refine ⟨mountedKernel_mounted, ⟨⟨by decide, trivial⟩, fun _ _ => trivial⟩, _, rfl, ?_⟩
  rintro ⟨es, shape, ledger, count⟩
  have held := refs_mounted ledger rfl rfl rfl rfl
  have three := count 2 (by decide)
  rw [held] at three
  exact absurd three (by decide)

def forkShared : Op := .fork 9 ⟨0, 0, 0⟩ ⟨⟨none, none, []⟩, some 6, none⟩

theorem balance_kept_fork : ∃ s, Run.exec (step noFiles) mountedKernel [forkShared] = some s ∧
    s.live = [6, 9, 8] ∧ s.world.iCount 2 = 4 ∧ Balanced s := by
  refine ⟨_, rfl, rfl, rfl, ?_⟩
  have alone : ¬ (0 &&& forkMem ≠ 0) := by decide
  have proper : Proper mountedKernel forkShared := by
    refine ⟨by decide, fun _ => ⟨fun mem => absurd mem alone, ?_⟩⟩
    rintro f is
    cases is
    exact ⟨by decide, fun mem => absurd mem alone⟩
  have settled : Settled noFiles mountedKernel forkShared := by
    refine fun _ => ⟨fun mem => absurd mem alone, ?_⟩
    intro _ i _
    have holds : (mountedKernel.task 9).holds i ≤ 2 := by
      unfold Task.holds
      split <;> split <;> decide
    have count : mountedKernel.world.iCount i ≤ 2 := by
      simp only [mountedKernel]
      split <;> decide
    exact Nat.lt_of_le_of_lt (Nat.add_le_add count holds) (by decide)
  exact balance_kept noFiles mountedKernel _ 9 2 [forkShared] mountedKernel_mounted
    ⟨⟨proper, settled⟩, fun _ _ => trivial⟩ rfl

end ScaraOS.Proc
