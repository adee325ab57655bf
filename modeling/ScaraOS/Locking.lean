import Mathlib.Algebra.Order.Group.Nat
import ScaraOS.Lib.LockOrder

/-! Which semaphores the allocators, the block layer, the inode cache and the page
cache take, and in which order. An operation is the list of its `sem_P`, `sem_V` and
`INIT_SEMAPHORE` calls on one path through the code; the type beside each function
lists the paths it has, so a task may take any of them. A path that ends in a
`BUG_ON` stops the kernel and is a part of one that does not. -/
namespace ScaraOS.Locking

open LockOrder (Act State)

/-- There is one `s_sem` for each super block, one `i_sem` for each inode and one
`blksem` for each device. -/
inductive Sem where
  | slacksem
  | sSem (sb : Nat)
  | iSem (ino : Nat)
  | blksem (dev : Nat)
  | memsem
  | pagesem
  deriving DecidableEq, Repr

abbrev Trace := List (Act Sem)

def semP (s : Sem) : Act Sem := .acquire s
def semV (s : Sem) : Act Sem := .release s
def initSemaphore (s : Sem) : Act Sem := .reset s

/-- With a page on the free list or without, `alloc_pages` gives `pagesem` back. -/
def allocPage : Trace := [semP .pagesem, semV .pagesem]

/-- `free_pages` returns at once for a null pointer. -/
def freePage (null : Bool) : Trace := if null then [] else [semP .pagesem, semV .pagesem]

inductive AllocPath where
  | noCache | fromPartial | fast | slow
  deriving DecidableEq, Repr

/-- `do_alloc`, which is `objcache_alloc`; the slow path gets a page in `memchunk_get`. -/
def doAlloc : AllocPath → Trace
  | .noCache => []
  | .fromPartial => [semP .memsem, semV .memsem]
  | .fast => [semP .memsem, semV .memsem]
  | .slow => semP .memsem :: allocPage ++ [semV .memsem]

/-- `objcache_free`, `objcache_free2` and `kfree`: the object may be null, one of
several of its slab, or the last one, whose page `memchunk_put` frees. -/
inductive FreePath where
  | null | kept | lastOne
  deriving DecidableEq, Repr

def objcacheFree : FreePath → Trace
  | .null => []
  | .kept => [semP .memsem, semV .memsem]
  | .lastOne => semP .memsem :: freePage false ++ [semV .memsem]

/-- No general cache is large enough, or the first that is serves the request. -/
def kmalloc : Option AllocPath → Trace
  | none => []
  | some path => doAlloc path

def kfree (path : FreePath) : Trace := objcacheFree path

inductive BlkReadPath where
  | noHeader (bh : AllocPath)
  | noBuffer (bh : AllocPath) (buf : Option AllocPath) (freed : FreePath)
  | ioError (bh : AllocPath) (buf : Option AllocPath) (freedBuf freedBh : FreePath)
  | done (bh : AllocPath) (buf : Option AllocPath)
  deriving DecidableEq, Repr

/-- `blk_read`; the drivers behind `ll_rw_blk` take no semaphore. -/
def blkRead (dev : Nat) : BlkReadPath → Trace
  | .noHeader bh => doAlloc bh
  | .noBuffer bh buf freed => doAlloc bh ++ kmalloc buf ++ kfree freed
  | .ioError bh buf freedBuf freedBh =>
    doAlloc bh ++ kmalloc buf ++ [semP (.blksem dev), semV (.blksem dev)] ++
      kfree freedBuf ++ objcacheFree freedBh
  | .done bh buf => doAlloc bh ++ kmalloc buf ++ [semP (.blksem dev), semV (.blksem dev)]

def blkFree (freedBuf freedBh : FreePath) : Trace := kfree freedBuf ++ objcacheFree freedBh

/-- `ext2_read_inode`: a bad inode number, a block that cannot be read, or a block
that is freed again, of a file of a supported type or not. -/
inductive ReadInodePath where
  | badInode
  | unread (block : BlkReadPath)
  | copied (block : BlkReadPath) (freedBuf freedBh : FreePath)
  deriving DecidableEq, Repr

def readInode (dev : Nat) : ReadInodePath → Trace
  | .badInode => []
  | .unread block => blkRead dev block
  | .copied block freedBuf freedBh => blkRead dev block ++ blkFree freedBuf freedBh

inductive IgetPath where
  | hit
  | noObject (object : AllocPath)
  | unreadable (object : AllocPath) (new : Nat) (read : ReadInodePath) (freed : FreePath)
  | filled (object : AllocPath) (new : Nat) (read : ReadInodePath)
  deriving DecidableEq, Repr

def igetLocked (dev : Nat) : IgetPath → Trace
  | .hit => []
  | .noObject object => doAlloc object
  | .unreadable object new read freed =>
    doAlloc object ++ [initSemaphore (.iSem new)] ++ readInode dev read ++ objcacheFree freed
  | .filled object new read =>
    doAlloc object ++ [initSemaphore (.iSem new)] ++ readInode dev read

/-- On every path `slacksem` is given back before `s_sem`. -/
def iget (sb dev : Nat) (path : IgetPath) : Trace :=
  semP .slacksem :: semP (.sSem sb) :: igetLocked dev path ++
    [semV .slacksem, semV (.sSem sb)]

/-- `iput`: the count may fall to zero, and then `inode_free` queues the inode. -/
def iput (last : Bool) : Trace := if last then [semP .slacksem, semV .slacksem] else []

/-- `__inode_free` of an inode of this super block. -/
def inodeFree (inode : Nat × FreePath) : Trace :=
  [semP (.sSem inode.1), semV (.sSem inode.1)] ++ objcacheFree inode.2

def squeezeInodeCache (slack : List (Nat × FreePath)) : Trace :=
  semP .slacksem :: slack.flatMap inodeFree ++ [semV .slacksem]

/-- `ext2_pread` reads and frees block after block, until it is through or `blk_read`
fails. `nul_inode_pread` reads none. -/
def pread (dev : Nat) (blocks : List (BlkReadPath × FreePath × FreePath))
    (failed : Option BlkReadPath) : Trace :=
  (blocks.flatMap fun b => blkRead dev b.1 ++ blkFree b.2.1 b.2.2) ++
    (failed.map (blkRead dev)).getD []

inductive ReadpagePath where
  | hit
  | noPage
  | unread (blocks : List (BlkReadPath × FreePath × FreePath)) (failed : Option BlkReadPath)
  | filled (blocks : List (BlkReadPath × FreePath × FreePath)) (failed : Option BlkReadPath)
  deriving DecidableEq, Repr

def readpageLocked (dev : Nat) : ReadpagePath → Trace
  | .hit => []
  | .noPage => allocPage
  | .unread blocks failed => allocPage ++ pread dev blocks failed ++ freePage false
  | .filled blocks failed => allocPage ++ pread dev blocks failed

def readpage (ino dev : Nat) (path : ReadpagePath) : Trace :=
  semP (.iSem ino) :: readpageLocked dev path ++ [semV (.iSem ino)]

inductive Op where
  | iget (sb dev : Nat) (path : IgetPath)
  | iput (last : Bool)
  | squeezeInodeCache (slack : List (Nat × FreePath))
  | readpage (ino dev : Nat) (path : ReadpagePath)
  | blkRead (dev : Nat) (path : BlkReadPath)
  | blkFree (freedBuf freedBh : FreePath)
  | kmalloc (path : Option AllocPath)
  | kfree (path : FreePath)
  | objcacheAlloc (path : AllocPath)
  | objcacheFree (path : FreePath)
  | allocPage
  | freePage (null : Bool)
  deriving DecidableEq, Repr

def trace : Op → Trace
  | .iget sb dev path => iget sb dev path
  | .iput last => iput last
  | .squeezeInodeCache slack => squeezeInodeCache slack
  | .readpage ino dev path => readpage ino dev path
  | .blkRead dev path => blkRead dev path
  | .blkFree freedBuf freedBh => blkFree freedBuf freedBh
  | .kmalloc path => kmalloc path
  | .kfree path => kfree path
  | .objcacheAlloc path => doAlloc path
  | .objcacheFree path => objcacheFree path
  | .allocPage => allocPage
  | .freePage null => freePage null

inductive Label (T : Type) where
  | call (t : T) (op : Op)
  | advance (t : T)
  deriving DecidableEq, Repr

section Tasks

variable {T : Type} [DecidableEq T]

def step (s : State T Sem) : Label T → Option (State T Sem)
  | .call t op => LockOrder.begin s t (trace op)
  | .advance t => LockOrder.advance s t

end Tasks

/-- `s_sem` and `i_sem` are never held together, nor are `memsem` and `blksem`. -/
def rank : Sem → Nat
  | .slacksem => 0
  | .sSem _ => 1
  | .iSem _ => 1
  | .blksem _ => 2
  | .memsem => 2
  | .pagesem => 3

abbrev Above (low : Nat) (p : Trace) : Prop := LockOrder.Block rank low p

theorem above_pair {low : Nat} (s : Sem) (le : low ≤ rank s) : Above low [semP s, semV s] :=
  LockOrder.block_mono (LockOrder.block_around s (LockOrder.block_nil _)) le

theorem allocPage_above : Above 3 allocPage := above_pair .pagesem (by decide)

theorem freePage_above (null : Bool) : Above 3 (freePage null) := by
  cases null with
  | true => exact LockOrder.block_nil 3
  | false => exact above_pair .pagesem (by decide)

theorem doAlloc_above (path : AllocPath) : Above 2 (doAlloc path) := by
  cases path with
  | noCache => exact LockOrder.block_nil 2
  | fromPartial | fast => exact above_pair .memsem (by decide)
  | slow => exact LockOrder.block_around Sem.memsem allocPage_above

theorem objcacheFree_above (path : FreePath) : Above 2 (objcacheFree path) := by
  cases path with
  | null => exact LockOrder.block_nil 2
  | kept => exact above_pair .memsem (by decide)
  | lastOne => exact LockOrder.block_around Sem.memsem (freePage_above false)

theorem kmalloc_above (path : Option AllocPath) : Above 2 (kmalloc path) := by
  cases path with
  | none => exact LockOrder.block_nil 2
  | some path => exact doAlloc_above path

theorem blkRead_above (dev : Nat) (path : BlkReadPath) : Above 2 (blkRead dev path) := by
  have disk : Above 2 [semP (.blksem dev), semV (.blksem dev)] := above_pair _ (Nat.le_refl 2)
  have buffers : ∀ bh buf, Above 2 (doAlloc bh ++ kmalloc buf) := fun bh buf =>
    LockOrder.block_append (doAlloc_above bh) (kmalloc_above buf)
  cases path with
  | noHeader bh => exact doAlloc_above bh
  | noBuffer bh buf freed => exact LockOrder.block_append (buffers bh buf) (objcacheFree_above freed)
  | ioError bh buf freedBuf freedBh =>
    apply LockOrder.block_append
    · apply LockOrder.block_append
      · exact LockOrder.block_append (buffers bh buf) disk
      · exact objcacheFree_above freedBuf
    · exact objcacheFree_above freedBh
  | done bh buf => exact LockOrder.block_append (buffers bh buf) disk

theorem blkFree_above (freedBuf freedBh : FreePath) : Above 2 (blkFree freedBuf freedBh) :=
  LockOrder.block_append (objcacheFree_above freedBuf) (objcacheFree_above freedBh)

theorem readInode_above (dev : Nat) (path : ReadInodePath) : Above 2 (readInode dev path) := by
  cases path with
  | badInode => exact LockOrder.block_nil 2
  | unread block => exact blkRead_above dev block
  | copied block freedBuf freedBh =>
    exact LockOrder.block_append (blkRead_above dev block) (blkFree_above freedBuf freedBh)

theorem igetLocked_above (dev : Nat) (path : IgetPath) : Above 2 (igetLocked dev path) := by
  have filled : ∀ object new read,
      Above 2 (doAlloc object ++ [initSemaphore (.iSem new)] ++ readInode dev read) := by
    intro object new read
    apply LockOrder.block_append
    · exact LockOrder.block_append (doAlloc_above object) (LockOrder.block_reset _)
    · exact readInode_above dev read
  cases path with
  | hit => exact LockOrder.block_nil 2
  | noObject object => exact doAlloc_above object
  | unreadable object new read freed =>
    exact LockOrder.block_append (filled object new read) (objcacheFree_above freed)
  | filled object new read => exact filled object new read

theorem iget_above (sb dev : Nat) (path : IgetPath) : Above 0 (iget sb dev path) :=
  LockOrder.block_crossed Sem.slacksem (Sem.sSem sb) Nat.zero_lt_one
    (igetLocked_above dev path)

theorem iput_above (last : Bool) : Above 0 (iput last) := by
  cases last with
  | true => exact above_pair .slacksem (by decide)
  | false => exact LockOrder.block_nil 0

theorem inodeFree_above (inode : Nat × FreePath) : Above 1 (inodeFree inode) := by
  apply LockOrder.block_append
  · exact above_pair _ (Nat.le_refl 1)
  · exact LockOrder.block_mono (objcacheFree_above inode.2) (by decide)

theorem squeezeInodeCache_above (slack : List (Nat × FreePath)) :
    Above 0 (squeezeInodeCache slack) :=
  LockOrder.block_around Sem.slacksem (LockOrder.block_flatMap _ _ inodeFree_above)

theorem pread_above (dev : Nat) (blocks : List (BlkReadPath × FreePath × FreePath))
    (failed : Option BlkReadPath) : Above 2 (pread dev blocks failed) := by
  apply LockOrder.block_append
  · apply LockOrder.block_flatMap
    intro b
    exact LockOrder.block_append (blkRead_above dev b.1) (blkFree_above b.2.1 b.2.2)
  · cases failed with
    | none => exact LockOrder.block_nil 2
    | some path => exact blkRead_above dev path

theorem readpage_above (ino dev : Nat) (path : ReadpagePath) : Above 1 (readpage ino dev path) := by
  have page : Above 2 allocPage := LockOrder.block_mono allocPage_above (by decide)
  refine LockOrder.block_around (Sem.iSem ino) ?_
  cases path with
  | hit => exact LockOrder.block_nil 2
  | noPage => exact page
  | unread blocks failed =>
    apply LockOrder.block_append
    · exact LockOrder.block_append page (pread_above dev blocks failed)
    · exact LockOrder.block_mono (freePage_above false) (Nat.le_succ 2)
  | filled blocks failed => exact LockOrder.block_append page (pread_above dev blocks failed)

theorem trace_ordered (op : Op) : LockOrder.Ordered rank [] (trace op) := by
  cases op with
  | iget sb dev path => exact LockOrder.ordered_of_block (iget_above sb dev path)
  | iput last => exact LockOrder.ordered_of_block (iput_above last)
  | squeezeInodeCache slack => exact LockOrder.ordered_of_block (squeezeInodeCache_above slack)
  | readpage ino dev path => exact LockOrder.ordered_of_block (readpage_above ino dev path)
  | blkRead dev path => exact LockOrder.ordered_of_block (blkRead_above dev path)
  | blkFree freedBuf freedBh => exact LockOrder.ordered_of_block (blkFree_above freedBuf freedBh)
  | kmalloc path => exact LockOrder.ordered_of_block (kmalloc_above path)
  | kfree path => exact LockOrder.ordered_of_block (objcacheFree_above path)
  | objcacheAlloc path => exact LockOrder.ordered_of_block (doAlloc_above path)
  | objcacheFree path => exact LockOrder.ordered_of_block (objcacheFree_above path)
  | allocPage => exact LockOrder.ordered_of_block allocPage_above
  | freePage null => exact LockOrder.ordered_of_block (freePage_above null)

theorem rank_le (s : Sem) : rank s ≤ 3 := by
  cases s <;> simp [rank]

theorem step_inv {T : Type} [DecidableEq T] (s : State T Sem) (l : Label T) (s' : State T Sem)
    (inv : LockOrder.Inv rank s) (stepped : step s l = some s') : LockOrder.Inv rank s' := by
  cases l with
  | call t op => exact LockOrder.begin_inv inv (trace_ordered op) stepped
  | advance t => exact LockOrder.advance_inv inv stepped

/-- No set of tasks ever waits in `sem_P` for semaphores held within the set. -/
theorem semaphores_never_deadlock {T : Type} [DecidableEq T] (ls : List (Label T))
    (s : State T Sem) (ran : Run.exec step LockOrder.idle ls = some s) (tasks : Set T) :
    ¬ LockOrder.Deadlocked s tasks := by
  have inv : LockOrder.Inv rank s :=
    Run.exec_invariant (LockOrder.Inv rank) (fun _ => True)
      (fun s l s' _ inv stepped => step_inv s l s' inv stepped) (fun _ _ => trivial)
      LockOrder.idle_inv ran
  exact LockOrder.inv_not_deadlocked inv rank_le tasks

/-- Task 0 is in `iget` with both semaphores and waits for nothing; task 1 squeezes
the cache and waits for `slacksem`, which task 0 holds. -/
def contended : List (Label Nat) :=
  [.call 0 (.iget 7 2 (.filled .slow 5 .badInode)), .advance 0, .advance 0,
    .call 1 (.squeezeInodeCache [(7, .lastOne)])]

theorem semaphores_never_deadlock_contended :
    ∃ s, Run.exec step LockOrder.idle contended = some s ∧ LockOrder.Waits s 1 .slacksem ∧
      Sem.slacksem ∈ s.held 0 ∧ ∀ tasks : Set Nat, ¬ LockOrder.Deadlocked s tasks :=
  ⟨_, rfl, rfl, by decide, fun tasks => semaphores_never_deadlock contended _ rfl tasks⟩

end ScaraOS.Locking
