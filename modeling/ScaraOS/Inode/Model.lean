import Mathlib.Algebra.Group.Nat.Defs
import ScaraOS.Lib.Links
import ScaraOS.Lib.Run

/-! The inode cache, `fs/inode.c`, with `iref` and `iput` of `vfs.h`, step by step: a
task can lose the processor wherever it is, and sleeps in `sem_P`. An inode is known
by the address of its object. `none` is a `BUG_ON`, which stops the kernel, a task
that has to wait, or a call that no caller makes. -/
namespace ScaraOS.Inode

open Function

/-- Where a task is. `igetP` and `squeezeP` wait for `slacksem`, `igetP2` and `killP`
for `s_sem`; `freeTest` is before the `BUG_ON` of `inode_free`, `freeP` in the `sem_P`
after it; the `kill` states are in `__inode_free`, called by the squeeze, which has
read the next entry ahead. -/
inductive Pc where
  | idle
  | igetP (sb ino : Nat)
  | igetP2 (sb ino : Nat)
  | igetLook (sb ino : Nat)
  | igetRead (sb ino new : Nat)
  | igetV (sb : Nat)
  | igetV2 (sb : Nat)
  | freeTest (i : Nat)
  | freeP (i : Nat)
  | freeAdd (i : Nat)
  | freeV
  | squeezeP
  | squeezeLoop (pos tmp : Option Nat)
  | killP (i : Nat) (tmp : Option Nat)
  | killErase (i : Nat) (tmp : Option Nat)
  | killV (i : Nat) (tmp : Option Nat)
  | killFree (i : Nat) (tmp : Option Nat)
  | squeezeV
  deriving DecidableEq, Repr

/-- A mutex is the task that has it. The cell `none` of `links` is the list head
`slack_inodes`, the cell `some i` the `i_list` of an inode. `cache` is the
`s_inode_cache` of each super block, by inode number, `key` the `i_sb` and `i_ino` of
an inode. `live` says which objects are allocated and `refs` how many references to
an inode callers have; the kernel records neither. -/
structure State (T : Type) where
  pc : T → Pc
  slacksem : Option T
  sSem : Nat → Option T
  links : Links (Option Nat)
  count : Nat → Nat
  key : Nat → Nat × Nat
  cache : Nat × Nat → Option Nat
  live : Nat → Bool
  refs : Nat → Nat

variable {T : Type} [DecidableEq T]

def init : State T where
  pc := fun _ => .idle
  slacksem := none
  sSem := fun _ => none
  links := ⟨fun a => a, fun a => a⟩
  count := fun _ => 0
  key := fun _ => (0, 0)
  cache := fun _ => none
  live := fun _ => false
  refs := fun _ => 0

def State.goto (s : State T) (t : T) (pc : Pc) : State T :=
  { s with pc := update s.pc t pc }

/-- `sem_P(&slacksem)`, then on to `pc`. -/
def takeSlack (s : State T) (t : T) (pc : Pc) : Option (State T) :=
  match s.slacksem with
  | none => some { s.goto t pc with slacksem := some t }
  | some _ => none

def takeSuper (s : State T) (t : T) (sb : Nat) (pc : Pc) : Option (State T) :=
  match s.sSem sb with
  | none => some { s.goto t pc with sSem := update s.sSem sb (some t) }
  | some _ => none

def addRef (s : State T) (i : Nat) : State T :=
  { s with
    count := update s.count i ((s.count i + 1) % 2 ^ 32)
    refs := update s.refs i (s.refs i + 1) }

/-- The search of `iget`. On a hit the count and the list are written with both
semaphores held; `new` is what `objcache_alloc0` gives on a miss. -/
def look (s : State T) (t : T) (sb ino : Nat) (new : Option Nat) : Option (State T) :=
  match s.cache (sb, ino) with
  | some i => some { (addRef s i).goto t (.igetV sb) with links := s.links.listDel (some i) }
  | none =>
    match new with
    | none => some (s.goto t (.igetV sb))
    | some i =>
      if s.live i then none
      else
        some
          { s.goto t (.igetRead sb ino i) with
            live := update s.live i true
            count := update s.count i 0
            key := update s.key i (sb, ino)
            links := s.links.initListHead (some i) }

/-- After `read_inode`, which may fail. -/
def fill (s : State T) (t : T) (sb ino i : Nat) (ok : Bool) : State T :=
  if ok then
    { s.goto t (.igetV sb) with
      count := update s.count i 1
      refs := update s.refs i 1
      cache := update s.cache (sb, ino) (some i) }
  else { s.goto t (.igetV sb) with live := update s.live i false }

/-- `iput`: a count that falls to zero is followed by a call of `inode_free`. -/
def iput (s : State T) (t : T) (i : Nat) : Option (State T) :=
  if s.count i = 0 then none
  else
    let s := { s with
      count := update s.count i (s.count i - 1)
      refs := update s.refs i (s.refs i - 1) }
    some (if s.count i = 0 then s.goto t (.freeTest i) else s)

def advance (s : State T) (t : T) (new : Option Nat) (ok : Bool) : Option (State T) :=
  match s.pc t with
  | .idle => none
  | .igetP sb ino => takeSlack s t (.igetP2 sb ino)
  | .igetP2 sb ino => takeSuper s t sb (.igetLook sb ino)
  | .igetLook sb ino => look s t sb ino new
  | .igetRead sb ino i => some (fill s t sb ino i ok)
  | .igetV sb => some { s.goto t (.igetV2 sb) with slacksem := none }
  | .igetV2 sb => some { s.goto t .idle with sSem := update s.sSem sb none }
  | .freeTest i => if s.count i = 0 then some (s.goto t (.freeP i)) else none
  | .freeP i => takeSlack s t (.freeAdd i)
  | .freeAdd i => some { s.goto t .freeV with links := s.links.listAddTail (some i) none }
  | .freeV => some { s.goto t .idle with slacksem := none }
  | .squeezeP =>
    takeSlack s t (.squeezeLoop (s.links.next none) (s.links.next (s.links.next none)))
  | .squeezeLoop pos tmp =>
    match pos with
    | none => some (s.goto t .squeezeV)
    | some i => some (s.goto t (.killP i tmp))
  | .killP i tmp => takeSuper s t (s.key i).1 (.killErase i tmp)
  | .killErase i tmp =>
    some
      { s.goto t (.killV i tmp) with
        cache := update s.cache (s.key i) none
        links := s.links.listDel (some i) }
  | .killV i tmp =>
    some { s.goto t (.killFree i tmp) with sSem := update s.sSem (s.key i).1 none }
  | .killFree i tmp =>
    some
      { s.goto t (.squeezeLoop tmp (s.links.next tmp)) with
        live := update s.live i false }
  | .squeezeV => some { s.goto t .idle with slacksem := none }

/-- A task that is in none of the functions calls one; `iref` and `iput` are called
with a reference that someone has. -/
inductive Label (T : Type) where
  | iget (t : T) (sb ino : Nat)
  | iref (t : T) (i : Nat)
  | iput (t : T) (i : Nat)
  | squeeze (t : T)
  | advance (t : T) (new : Option Nat) (ok : Bool)
  deriving DecidableEq, Repr

def step (s : State T) : Label T → Option (State T)
  | .iget t sb ino => if s.pc t = .idle then some (s.goto t (.igetP sb ino)) else none
  | .iref t i => if s.pc t = .idle ∧ 0 < s.refs i then some (addRef s i) else none
  | .iput t i => if s.pc t = .idle ∧ 0 < s.refs i then iput s t i else none
  | .squeeze t => if s.pc t = .idle then some (s.goto t .squeezeP) else none
  | .advance t new ok => advance s t new ok

end ScaraOS.Inode
