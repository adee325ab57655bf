import ScaraOS.Exec.Validate

/-! What an exec that fails gives back: `_sys_exec`, `_kernel_exec` and `do_exec` with the
copy of the path, the buffer for the program headers and the reads into it. -/
namespace ScaraOS.Exec

open RbTree Paging Mm Ext2

/-- `heap` are the objects of `kmalloc` in use and `ctx` is the context of the task. `reads`
is history: the length of the buffer a read was given, and the copies it made. -/
structure Caller where
  world : World
  heap : Finset Nat
  ctx : Nat
  reads : List (Nat × List Copy)

/-- What a call meets: the results of its allocations, in their order, what the device and
the page tables do during the two reads, and what the two buffers hold before. -/
structure Grants where
  path : Option Nat
  phbuf : Option Nat
  ctx : Option Nat
  pgd : Option Nat
  vmas : List (Option Nat)
  header : Nat → Event
  table : Nat → Event
  stack : Bytes.Mem
  junk : Bytes.Mem

def Grants.supply (g : Grants) : Supply := ⟨g.phbuf.isSome, g.ctx, g.pgd, g.vmas⟩

inductive Halt where
  | stop (s : Stop)
  | pread
  deriving DecidableEq, Repr

def lift {α : Type} : Except Stop α → Except Halt α
  | .error e => .error (.stop e)
  | .ok a => .ok a

/-- The caches of `kmalloc` go up to a page. -/
def kmalloc (s : Caller) (sz : Nat) (alloc : Option Nat) : Except Halt (Caller × Nat) :=
  if sz > 4096 then .ok (s, 0)
  else
    match objcacheAlloc s.heap alloc with
    | none => .error (.stop .stuck)
    | some (heap, p) => .ok ({ s with heap := heap }, p)

def kfree (s : Caller) (p : Nat) : Except Halt Caller :=
  if p = 0 then .ok s
  else
    match objcacheFree2 s.heap p with
    | none => .error (.stop .stuck)
    | some heap => .ok { s with heap := heap }

inductive Target where
  | absent
  | directory
  | regular (ino : Nat)
  deriving DecidableEq, Repr

def answer (d : Disk) (ino : Nat) (env : Nat → Event) (buf : Bytes.Mem) (len off : Nat) : Image where
  pread _ _ :=
    let out := ext2Pread env (d.inode ino) len off
    (out.ret.getD (-1), out.copies.foldl (poke d) buf)

def pread (d : Disk) (s : Caller) (ino : Nat) (env : Nat → Event) (buf : Bytes.Mem)
    (len off : Nat) : Except Halt (Caller × Image) :=
  let out := ext2Pread env (d.inode ino) len off
  if out.ret = none then .error .pread
  else .ok ({ s with reads := s.reads ++ [(len, out.copies)] }, answer d ino env buf len off)

def errFree (s : Caller) (phbuf : Nat) : Except Halt (Caller × Int) := do
  let s ← kfree s phbuf
  .ok (s, -1)

/-- `do_exec` from the call of `mem_ctx_new` on. -/
def execLoad (k : Kernel) (s : Caller) (ino : Nat) (ps : List Phdr) (phbuf : Nat) (g : Grants) :
    Except Halt (Caller × Int) := do
  let (w, ctx) ← lift (memCtxNew k.initPgd s.world g.ctx g.pgd)
  if ctx = 0 then errFree { s with world := w } phbuf
  else do
    let (w, done) ← lift (setupAll w ctx (requests ino ps) g.vmas)
    if done then do
      let s ← kfree { s with world := w } phbuf
      let w ← lift (memCtxPut s.world s.ctx)
      .ok ({ s with world := w, ctx := ctx }, 0)
    else do
      let w ← lift (memCtxPut w ctx)
      errFree { s with world := w } phbuf

/-- `do_exec` from the call of `kmalloc` on. -/
def execTable (k : Kernel) (d : Disk) (s : Caller) (ino : Nat) (hdr : Ehdr) (g : Grants) :
    Except Halt (Caller × Int) := do
  let (s, phbuf) ← kmalloc s (phbufsz hdr) g.phbuf
  if phbuf = 0 then .ok (s, -1)
  else do
    let (s, image) ← pread d s ino g.table g.junk (phbufsz hdr) hdr.ePhoff
    match readPhdrs image hdr with
    | none => errFree s phbuf
    | some ps => execLoad k s ino ps phbuf g

def doExec (k : Kernel) (d : Disk) (s : Caller) (path : Nat) (g : Grants) :
    Target → Except Halt (Caller × Int)
  | .absent => do
    let s ← kfree s path
    .ok (s, -1)
  | .directory => do
    -- `nul_inode_pread` reads nothing.
    let s ← kfree s path
    .ok (s, -1)
  | .regular ino => do
    let s ← kfree s path
    let (s, image) ← pread d s ino g.header g.stack ehdrSize 0
    match readHeader k image with
    | none => .ok (s, -1)
    | some hdr => execTable k d s ino hdr g

/-- A string of a user: what `strlen_from_user` and `copy_from_user` return for it, and the
last character that is copied. Or a string of the kernel, by its length. -/
inductive ExecPath where
  | user (len copied : Int) (last : UInt8)
  | kernel (len : Option Nat)
  deriving DecidableEq, Repr

def copyPath (s : Caller) (alloc : Option Nat) : ExecPath → Except Halt (Caller × Nat)
  | .user len copied last =>
    if len ≤ 0 then .ok (s, 0)
    else do
      let (s, ret) ← kmalloc s (len + 1).toNat alloc
      if ret = 0 then .ok (s, 0)
      else if copied ≠ len + 1 ∨ last ≠ 0 then do
        let s ← kfree s ret
        .ok (s, 0)
      else .ok (s, ret)
  | .kernel none => .ok (s, 0)
  | .kernel (some len) => kmalloc s (len + 1) alloc

/-- `_sys_exec` and `_kernel_exec`. -/
def exec (k : Kernel) (d : Disk) (s : Caller) (path : ExecPath) (target : Target) (g : Grants) :
    Except Halt (Caller × Int) := do
  let (s, kpath) ← copyPath s g.path path
  if kpath = 0 then .ok (s, -1) else doExec k d s kpath g target

/-- The task is as it was, and so is all memory that was in use; nothing else is in use, and
no read went out of its buffer. -/
structure Released (s s' : Caller) : Prop where
  ctx : s'.ctx = s.ctx
  heap : s'.heap = s.heap
  world : Restored s.world s'.world
  reads : ∃ new, s'.reads = s.reads ++ new ∧ ∀ r ∈ new, Safe r.1 r.2

/-- The allocators hand out what is not in use; each allocation may fail. -/
structure Allocates (k : Kernel) (d : Disk) (s : Caller) (target : Target) (g : Grants) : Prop where
  path : ∀ p, g.path = some p → p ≠ 0 ∧ p ∉ s.heap
  phbuf : ∀ p, g.phbuf = some p → p ≠ 0 ∧ p ∉ s.heap
  world : ∀ ino hdr ps, target = .regular ino →
    readHeader k (answer d ino g.header g.stack ehdrSize 0) = some hdr →
    readPhdrs (answer d ino g.table g.junk (phbufsz hdr) hdr.ePhoff) hdr = some ps →
    Provided s.world g.supply (requests ino ps).length

def ExecPath.Fits : ExecPath → Prop
  | .user len copied last => 0 < len ∧ len + 1 ≤ 4096 ∧ copied = len + 1 ∧ last = 0
  | .kernel len => ∃ n, len = some n ∧ n + 1 ≤ 4096

def movedBack (i : Inode) (len off : Nat) (fault : Option Nat) : Nat :=
  (copyToUser (wordSize - off + readEnd i len off) fault).1

/-- Such a read, which stays in one direct block, and copies out of it or past the buffer. -/
def BadCopy (env : Nat → Event) (i : Inode) (len off : Nat) : Prop :=
  readEnd i len off < off ∧ readEnd i len off / 1024 = off / 1024 ∧ off / 1024 < 12 ∧
    ∃ fault, env (off / 1024) = .copies fault ∧
      (len < movedBack i len off fault ∨ 1024 < off % 1024 + movedBack i len off fault)

/-- The file passes the checks of its header, and the program headers are looked for
behind its end, in its last block. -/
structure Spills (k : Kernel) (d : Disk) (path : ExecPath) (ino : Nat) (g : Grants) : Prop where
  path : path.Fits ∧ g.path.isSome
  header : HeaderGood d ino ∧ ¬ SameIdent k d ino ∧ g.header 0 = .copies none
  phbuf : phbufsz (fileHeader d ino) ≤ 4096 ∧ g.phbuf.isSome
  read : BadCopy g.table (d.inode ino) (phbufsz (fileHeader d ino)) (fileHeader d ino).ePhoff

theorem kmalloc_fresh {s : Caller} {sz p : Nat} (small : sz ≤ 4096) (nonzero : p ≠ 0)
    (unused : p ∉ s.heap) :
    kmalloc s sz (some p) = .ok ({ s with heap := insert p s.heap }, p) := by
  rw [kmalloc, if_neg (by omega), objcacheAlloc_fresh nonzero unused]

theorem kmalloc_cases {s : Caller} (sz : Nat) {alloc : Option Nat}
    (given : ∀ p, alloc = some p → p ≠ 0 ∧ p ∉ s.heap) :
    ((sz ≤ 4096 → alloc = none) ∧ kmalloc s sz alloc = .ok (s, 0)) ∨
      ∃ p, sz ≤ 4096 ∧ alloc = some p ∧
        kmalloc s sz alloc = .ok ({ s with heap := insert p s.heap }, p) := by
  by_cases large : sz > 4096
  · exact .inl ⟨fun small => by omega, if_pos large⟩
  · cases alloc with
    | none => exact .inl ⟨fun _ => rfl, by rw [kmalloc, if_neg large]; rfl⟩
    | some p =>
      obtain ⟨nonzero, unused⟩ := given p rfl
      have small := Nat.le_of_not_lt large
      exact .inr ⟨p, small, rfl, kmalloc_fresh small nonzero unused⟩

variable {s s' : Caller} {p len off : Nat} {d : Disk} {i : Inode} {ps : List Phdr} {shape : Shape}
  {hdr : Ehdr}

theorem kfree_insert (nonzero : p ≠ 0) (unused : p ∉ s.heap) :
    kfree { s with heap := insert p s.heap } p = .ok s := by
  rw [kfree, if_neg nonzero, objcacheFree2, if_pos (Finset.mem_insert_self p s.heap)]
  simp only [Finset.erase_insert unused]

theorem copyPath_cases (path : ExecPath) {alloc : Option Nat}
    (given : ∀ p, alloc = some p → p ≠ 0 ∧ p ∉ s.heap) :
    (¬ (path.Fits ∧ alloc.isSome) ∧ copyPath s alloc path = .ok (s, 0)) ∨
      ∃ p, path.Fits ∧ alloc = some p ∧
        copyPath s alloc path = .ok ({ s with heap := insert p s.heap }, p) := by
  cases path with
  | user len copied last =>
    simp only [copyPath, ExecPath.Fits]
    by_cases empty : len ≤ 0
    · exact .inl ⟨fun right => by omega, if_pos empty⟩
    rw [if_neg empty]
    rcases kmalloc_cases _ given with ⟨failed, ran⟩ | ⟨p, small, rfl, ran⟩
    · refine .inl ⟨?_, by rw [ran]; rfl⟩
      rintro ⟨⟨-, small, -⟩, there⟩
      rw [failed (by omega)] at there
      cases there
    · obtain ⟨nonzero, unused⟩ := given p rfl
      simp only [ran, bind, Except.bind, if_neg nonzero]
      by_cases torn : copied ≠ len + 1 ∨ last ≠ 0
      · rw [if_pos torn, kfree_insert nonzero unused]
        refine .inl ⟨?_, rfl⟩
        rintro ⟨⟨-, -, whole, ended⟩, -⟩
        exact torn.elim (fun short => short whole) fun other => other ended
      · rw [if_neg torn]
        rw [not_or, not_not, not_not] at torn
        exact .inr ⟨p, ⟨by omega, by omega, torn.1, torn.2⟩, rfl, rfl⟩
  | kernel len =>
    cases len with
    | none =>
      refine .inl ⟨?_, rfl⟩
      rintro ⟨⟨n, given, -⟩, -⟩
      cases given
    | some n =>
      simp only [copyPath, ExecPath.Fits, Option.some.injEq, exists_eq_left']
      rcases kmalloc_cases _ given with ⟨failed, ran⟩ | ⟨p, small, rfl, ran⟩
      · refine .inl ⟨?_, ran⟩
        rintro ⟨small, there⟩
        rw [failed small] at there
        cases there
      · exact .inr ⟨p, small, rfl, ran⟩

theorem pread_some {ino : Nat} {env : Nat → Event} {buf : Bytes.Mem} {ret : Int}
    (came : (ext2Pread env (d.inode ino) len off).ret = some ret) :
    pread d s ino env buf len off = .ok ({ s with
      reads := s.reads ++ [(len, (ext2Pread env (d.inode ino) len off).copies)] },
      answer d ino env buf len off) := by
  simp only [pread, came]
  rfl

variable (env : Nat → Event)

theorem preadLoop_returns (i : Inode) (n x len off copied : Nat) :
    ∃ ret, (preadLoop env i n x len off copied).ret = some ret := by
  induction n generalizing x len off copied with
  | zero => exact ⟨_, rfl⟩
  | succ n ih =>
    simp only [preadLoop]
    generalize (if ((off &&& (sBlocksize - 1)) + len) % wordSize > sBlocksize then
      sBlocksize - (off &&& (sBlocksize - 1)) else len) = clen
    split
    · exact ⟨_, rfl⟩
    · cases env x with
      | readFails => exact ⟨_, rfl⟩
      | copies fault =>
        dsimp only
        split
        · exact ⟨_, rfl⟩
        · exact ih _ _ _ _

theorem preadLoop_one (i : Inode) (x : Nat) (some : len ≠ 0)
    (whole : ¬ (off % 1024 + len) % wordSize > sBlocksize) :
    preadLoop env i 1 x len off 0 =
      match env x with
      | .readFails => ⟨[], .some 0⟩
      | .copies fault => ⟨[⟨i.block x, off % 1024, 0, len, (copyToUser len fault).1⟩],
          .some (if (copyToUser len fault).2 < 0 then -1 else signed (len % wordSize))⟩ := by
  simp only [preadLoop, coff_eq, if_neg whole, if_neg some]
  cases env x with
  | readFails => rfl
  | copies fault =>
    dsimp only
    split
    · rfl
    · rw [Nat.zero_add]

theorem header_pread (sizeWord : i.iSize < wordSize) :
    ext2Pread env i ehdrSize 0 = preadLoop env i 1 0 (readEnd i ehdrSize 0) 0 0 := by
  have short : readEnd i ehdrSize 0 ≤ 52 := Nat.le_trans (readEnd_le i ehdrSize 0) (by decide)
  have blocks : readEnd i ehdrSize 0 / 1024 + 1 - 0 / 1024 = 1 := by omega
  have length : (wordSize - 0 + readEnd i ehdrSize 0) % wordSize = readEnd i ehdrSize 0 := by
    unfold wordSize
    omega
  rw [ext2Pread_eq env (by decide) (by decide) sizeWord, if_neg (by omega), blocks, length]

theorem header_cases (sizeWord : i.iSize < wordSize) :
    (∃ ret ≤ 0, (ext2Pread env i ehdrSize 0).ret = some ret ∧
      (env 0 = .copies none → i.iSize < ehdrSize)) ∨
      env 0 = .copies none ∧
        ext2Pread env i ehdrSize 0 = ext2Pread (device fun _ => false) i ehdrSize 0 := by
  have short : readEnd i ehdrSize 0 ≤ 52 := Nat.le_trans (readEnd_le i ehdrSize 0) (by decide)
  rw [header_pread env sizeWord, header_pread (device fun _ => false) sizeWord]
  by_cases empty : readEnd i ehdrSize 0 = 0
  · refine .inl ⟨0, Int.le_refl 0, ?_, fun _ => ?_⟩
    · rw [empty]
      rfl
    · unfold readEnd ehdrSize wordSize at empty
      unfold ehdrSize
      omega
  · have whole : ¬ (0 % 1024 + readEnd i ehdrSize 0) % wordSize > sBlocksize := by
      unfold wordSize sBlocksize
      omega
    rw [preadLoop_one env i 0 empty whole, preadLoop_one _ i 0 empty whole]
    cases event : env 0 with
    | readFails => exact .inl ⟨0, Int.le_refl 0, rfl, fun other => by cases other⟩
    | copies fault =>
      cases fault with
      | some n => exact .inl ⟨-1, by decide, rfl, fun other => by cases other⟩
      | none => exact .inr ⟨rfl, rfl⟩

theorem readHeader_answer (k : Kernel) (d : Disk) (ino : Nat) (env : Nat → Event) (buf : Bytes.Mem) :
    (readHeader k (answer d ino env buf ehdrSize 0) = none ∧
      ¬ (HeaderGood d ino ∧ ¬ SameIdent k d ino ∧ env 0 = .copies none)) ∨
    ∃ hdr, readHeader k (answer d ino env buf ehdrSize 0) = some hdr ∧
      (HeaderGood d ino ∧ ¬ SameIdent k d ino ∧ env 0 = .copies none) ∧
      SameTable hdr (fileHeader d ino) := by
  rcases header_cases env (d.sizes ino) with ⟨ret, nothing, came, short⟩ | ⟨good, same⟩
  · have refused : readHeader k (answer d ino env buf ehdrSize 0) = none := by
      refine if_pos (.inl ?_)
      simp only [answer, came, Option.getD_some]
      exact nothing
    refine .inl ⟨refused, fun right => ?_⟩
    exact absurd right.1.full (Nat.not_le_of_lt (short right.2.2))
  · have swap : answer d ino env buf ehdrSize 0 =
        answer d ino (device fun _ => false) buf ehdrSize 0 := by
      simp only [answer, same]
    have equal : readHeader k (answer d ino env buf ehdrSize 0) =
        readHeader k (diskImage d ino buf) := by
      rw [swap]
      rfl
    rw [equal]
    rcases readHeader_cases k d ino buf with ⟨refused, reason⟩ | ⟨hdr, accepted, header, other, table⟩
    · exact .inl ⟨refused, fun right => right.2.1 (reason right.1)⟩
    · exact .inr ⟨hdr, accepted, ⟨header, other, good⟩, table⟩

theorem backward_pread (lenWord : len < wordSize) (offWord : off < wordSize)
    (sizeWord : i.iSize < wordSize) (backward : readEnd i len off < off)
    (block : readEnd i len off / 1024 = off / 1024) (direct : off / 1024 < 12) :
    ext2Pread env i len off =
      match env (off / 1024) with
      | .readFails => ⟨[], some 0⟩
      | .copies fault => ⟨[⟨i.block (off / 1024), off % 1024, 0,
          wordSize - off + readEnd i len off, movedBack i len off fault⟩], some (-1)⟩ := by
  have huge : (wordSize - off + readEnd i len off) % wordSize =
      wordSize - off + readEnd i len off := Nat.mod_eq_of_lt (by omega)
  have whole : ¬ (off % 1024 + (wordSize - off + readEnd i len off)) % wordSize > sBlocksize := by
    unfold wordSize sBlocksize at *
    omega
  have once : readEnd i len off / 1024 + 1 - off / 1024 = 1 := by omega
  rw [ext2Pread_eq env lenWord offWord sizeWord, if_neg (by omega), once, huge,
    preadLoop_one env i _ (by omega) whole]
  cases env (off / 1024) with
  | readFails => rfl
  | copies fault =>
    have negative : (copyToUser (wordSize - off + readEnd i len off) fault).2 < 0 := by
      cases fault with
      | some n => exact Int.negSucc_lt_zero 0
      | none =>
        simp only [copyToUser, signed]
        rw [if_neg (by unfold wordSize at *; omega)]
        unfold wordSize at *
        omega
    simp only [if_pos negative, movedBack]

theorem safe_iff (lenWord : len < wordSize) (offWord : off < wordSize)
    (sizeWord : i.iSize < wordSize) :
    Safe len (ext2Pread env i len off).copies ↔ ¬ BadCopy env i len off := by
  by_cases back : readEnd i len off < off ∧ readEnd i len off / 1024 = off / 1024 ∧ off / 1024 < 12
  · obtain ⟨backward, block, direct⟩ := back
    rw [backward_pread env lenWord offWord sizeWord backward block direct]
    unfold BadCopy
    cases env (off / 1024) with
    | readFails =>
      refine iff_of_true (safe_nil len) ?_
      rintro ⟨-, -, -, fault, other, -⟩
      cases other
    | copies fault =>
      constructor
      · rintro safe ⟨-, -, -, fault', same, over'⟩
        obtain rfl := Event.copies.inj same
        have total : movedBack i len off fault + 0 ≤ len := safe.total
        have inside : off % 1024 + movedBack i len off fault ≤ 1024 :=
          safe.inside _ List.mem_cons_self
        omega
      · intro good
        have fits : ¬ (len < movedBack i len off fault ∨
            1024 < off % 1024 + movedBack i len off fault) :=
          fun bad => good ⟨backward, block, direct, fault, rfl, bad⟩
        refine ⟨?_, ?_⟩
        · have total : movedBack i len off fault + 0 ≤ len := by omega
          exact total
        · intro c member
          rw [List.mem_singleton.mp member]
          have inside : off % 1024 + movedBack i len off fault ≤ 1024 := by omega
          exact inside
  · exact iff_of_true (ext2Pread_safe lenWord offWord sizeWord back env)
      fun bad => back ⟨bad.1, bad.2.1, bad.2.2.1⟩

def ended (s : Caller) (r : World × Option Nat) : Caller × Int :=
  ({ s with world := r.1, ctx := r.2.getD s.ctx }, if r.2.isSome then 0 else -1)

section Parts

variable {k : Kernel} {d : Disk} {s : Caller} {ino : Nat} {g : Grants}

theorem execLoad_eq (nonzero : p ≠ 0) (unused : p ∉ s.heap) :
    execLoad k { s with heap := insert p s.heap } ino ps p g =
      (lift (loadImage k s.world ino s.ctx ps g.supply)).map (ended s) := by
  have back : ∀ w, kfree { s with world := w, heap := insert p s.heap } p =
      .ok { s with world := w } := fun w =>
    kfree_insert (s := { s with world := w }) nonzero unused
  simp only [execLoad, loadImage, Grants.supply, errFree, bind, Except.bind]
  rcases memCtxNew k.initPgd s.world g.ctx g.pgd with e | ⟨w, ctx⟩
  · rfl
  · by_cases zero : ctx = 0
    · simp only [lift, zero, if_true, back w]
      rfl
    · simp only [lift, if_neg zero]
      rcases setupAll w ctx (requests ino ps) g.vmas with e | ⟨w₁, done⟩
      · rfl
      · cases done with
        | true =>
          simp only [if_true, back w₁]
          rcases memCtxPut w₁ s.ctx with e | w₂
          · rfl
          · rfl
        | false =>
          simp only [Bool.false_eq_true, if_false]
          rcases memCtxPut w₁ ctx with e | w₂
          · rfl
          · simp only [Except.map, back w₂]
            rfl

theorem load_released (given : Provided s.world g.supply (requests ino ps).length)
    (failed : (lift (loadImage k s.world ino s.ctx ps g.supply)).map (ended s) = .ok (s', -1)) :
    ∃ w, Restored s.world w ∧ s' = { s with world := w } := by
  rcases loadImage_cases (k := k) s.ctx given with
    ⟨w, ran, restored, -⟩ | ⟨bug | bug, -⟩ | ⟨c, f, w₁, shape, -, -, -, ran⟩
  · rw [ran] at failed
    cases failed
    exact ⟨w, restored, rfl⟩
  · rw [bug] at failed
    cases failed
  · rw [bug] at failed
    cases failed
  · rw [ran] at failed
    cases put : memCtxPut w₁ s.ctx with
    | error e | ok w =>
      rw [put] at failed
      cases failed

theorem load_unstuck (given : Provided s.world g.supply (requests ino ps).length)
    (ready : Ready s.world s.ctx shape) :
    (lift (loadImage k s.world ino s.ctx ps g.supply)).map (ended s) ≠ .error (.stop .stuck) := by
  rcases loadImage_cases (k := k) s.ctx given with
    ⟨w, ran, -⟩ | ⟨bug | bug, -⟩ | ⟨c, f, w₁, shape', obj, -, built, ran⟩
  · rw [ran]
    nofun
  · rw [bug]
    nofun
  · rw [bug]
    nofun
  · obtain ⟨w, put, -⟩ := put_old ready (given.ctx c obj).2 built
    rw [ran, put]
    nofun

def noted (s : Caller) (len : Nat) (copies : List Copy) : Caller :=
  { s with reads := s.reads ++ [(len, copies)] }

theorem released_refl (s : Caller) : Released s s :=
  ⟨rfl, rfl, restored_refl s.world, [], by simp, by simp⟩

theorem Released.noted {copies : List Copy} (safe : Safe len copies)
    (rest : Released (noted s len copies) s') : Released s s' := by
  obtain ⟨new, grown, good⟩ := rest.reads
  refine ⟨rest.ctx, rest.heap, rest.world, (len, copies) :: new, ?_, ?_⟩
  · rw [grown]
    simp [Exec.noted]
  · intro r member
    rcases List.mem_cons.mp member with rfl | later
    · exact safe
    · exact good r later

def tabled (d : Disk) (s : Caller) (ino : Nat) (hdr : Ehdr) (g : Grants) : Caller :=
  noted s (phbufsz hdr) (ext2Pread g.table (d.inode ino) (phbufsz hdr) hdr.ePhoff).copies

theorem execTable_buffer (small : phbufsz hdr ≤ 4096) (phbuf : g.phbuf = some p) (nonzero : p ≠ 0)
    (unused : p ∉ s.heap) : execTable k d s ino hdr g =
      if (ext2Pread g.table (d.inode ino) (phbufsz hdr) hdr.ePhoff).ret = none then .error .pread
      else
        match readPhdrs (answer d ino g.table g.junk (phbufsz hdr) hdr.ePhoff) hdr with
        | none => .ok (tabled d s ino hdr g, -1)
        | some ps => (lift (loadImage k s.world ino s.ctx ps g.supply)).map
            (ended (tabled d s ino hdr g)) := by
  have back := kfree_insert (s := tabled d s ino hdr g) nonzero unused
  simp only [execTable, phbuf, kmalloc_fresh small nonzero unused, bind, Except.bind, if_neg nonzero]
  cases came : (ext2Pread g.table (d.inode ino) (phbufsz hdr) hdr.ePhoff).ret with
  | none => simp only [pread, came, if_true]
  | some ret =>
    rw [pread_some came, if_neg (Option.some_ne_none ret)]
    dsimp only
    cases readPhdrs (answer d ino g.table g.junk (phbufsz hdr) hdr.ePhoff) hdr with
    | none => exact congrArg (·.map (·, -1)) back
    | some ps => exact execLoad_eq (s := tabled d s ino hdr g) nonzero unused

section

variable (phbuf : ∀ p, g.phbuf = some p → p ≠ 0 ∧ p ∉ s.heap)
  (given : ∀ ps, readPhdrs (answer d ino g.table g.junk (phbufsz hdr) hdr.ePhoff) hdr = some ps →
    Provided s.world g.supply (requests ino ps).length)
include phbuf given

theorem execTable_released (safe : phbufsz hdr ≤ 4096 → g.phbuf.isSome →
      Safe (phbufsz hdr) (ext2Pread g.table (d.inode ino) (phbufsz hdr) hdr.ePhoff).copies)
    (failed : execTable k d s ino hdr g = .ok (s', -1)) : Released s s' := by
  rcases kmalloc_cases (phbufsz hdr) phbuf with ⟨-, ran⟩ | ⟨p, small, there, -⟩
  · simp only [execTable, ran, bind, Except.bind, if_true] at failed
    cases failed
    exact released_refl _
  · obtain ⟨nonzero, unused⟩ := phbuf p there
    rw [execTable_buffer small there nonzero unused] at failed
    split at failed
    · cases failed
    · refine Released.noted (safe small (by rw [there]; rfl)) ?_
      cases table : readPhdrs (answer d ino g.table g.junk (phbufsz hdr) hdr.ePhoff) hdr with
      | none =>
        rw [table] at failed
        cases failed
        exact released_refl _
      | some ps =>
        rw [table] at failed
        obtain ⟨w, restored, rfl⟩ := load_released (s := tabled d s ino hdr g) (given ps table) failed
        exact ⟨rfl, rfl, restored, [], by simp [tabled], by simp⟩

theorem execTable_unstuck (ready : Ready s.world s.ctx shape) :
    execTable k d s ino hdr g ≠ .error (.stop .stuck) := by
  rcases kmalloc_cases (phbufsz hdr) phbuf with ⟨-, ran⟩ | ⟨p, small, there, -⟩
  · simp only [execTable, ran]
    nofun
  · obtain ⟨nonzero, unused⟩ := phbuf p there
    rw [execTable_buffer small there nonzero unused]
    split
    · nofun
    · cases table : readPhdrs (answer d ino g.table g.junk (phbufsz hdr) hdr.ePhoff) hdr with
      | none => nofun
      | some ps => exact load_unstuck (s := tabled d s ino hdr g) (given ps table) ready

end

theorem execTable_spills (phbuf : g.phbuf = some p) (nonzero : p ≠ 0) (unused : p ∉ s.heap)
    (small : phbufsz hdr ≤ 4096) (offWord : hdr.ePhoff < wordSize)
    (bad : BadCopy g.table (d.inode ino) (phbufsz hdr) hdr.ePhoff) :
    execTable k d s ino hdr g = .ok (tabled d s ino hdr g, -1) := by
  obtain ⟨backward, block, direct, fault, event, -⟩ := bad
  have lenWord : phbufsz hdr < wordSize := Nat.lt_of_le_of_lt small (by decide)
  have came : (ext2Pread g.table (d.inode ino) (phbufsz hdr) hdr.ePhoff).ret = some (-1) := by
    rw [backward_pread g.table lenWord offWord (d.sizes ino) backward block direct, event]
  have refused : readPhdrs (answer d ino g.table g.junk (phbufsz hdr) hdr.ePhoff) hdr = none := by
    refine if_pos (.inl ?_)
    simp only [answer, came, Option.getD_some]
    decide
  rw [execTable_buffer small phbuf nonzero unused, came, refused]
  rfl

theorem doExec_regular (nonzero : p ≠ 0) (unused : p ∉ s.heap) :
    doExec k d { s with heap := insert p s.heap } p g (.regular ino) =
      match readHeader k (answer d ino g.header g.stack ehdrSize 0) with
      | none => .ok (noted s ehdrSize (ext2Pread g.header (d.inode ino) ehdrSize 0).copies, -1)
      | some hdr => execTable k d
          (noted s ehdrSize (ext2Pread g.header (d.inode ino) ehdrSize 0).copies) ino hdr g := by
  obtain ⟨ret, came⟩ : ∃ ret, (ext2Pread g.header (d.inode ino) ehdrSize 0).ret = some ret := by
    rw [header_pread g.header (d.sizes ino)]
    exact preadLoop_returns _ _ _ _ _ _ _
  simp only [doExec, kfree_insert nonzero unused, bind, Except.bind, pread_some came]
  cases readHeader k (answer d ino g.header g.stack ehdrSize 0) with
  | none | some hdr => rfl

end Parts

theorem fileHeader_words (d : Disk) (ino : Nat) :
    phbufsz (fileHeader d ino) < wordSize ∧ (fileHeader d ino).ePhoff < wordSize := by
  refine ⟨?_, Bytes.load32_lt _ _⟩
  have entry := load16_lt (fileByte d ino) 42
  have number := load16_lt (fileByte d ino) 44
  have product := Nat.mul_le_mul (Nat.le_of_lt_succ entry) (Nat.le_of_lt_succ number)
  exact Nat.lt_of_le_of_lt product (by decide)

/-- An exec by a task with a context frees only what is in use. -/
theorem exec_unstuck {k : Kernel} {target : Target} {g : Grants} (path : ExecPath)
    (allocates : Allocates k d s target g) (ready : Ready s.world s.ctx shape) :
    exec k d s path target g ≠ .error (.stop .stuck) := by
  unfold exec
  rcases copyPath_cases path allocates.path with ⟨-, ran⟩ | ⟨p, -, there, ran⟩
  · rw [ran]
    nofun
  · obtain ⟨nonzero, unused⟩ := allocates.path p there
    simp only [ran, bind, Except.bind, if_neg nonzero]
    cases target with
    | absent | directory =>
      simp only [doExec, kfree_insert nonzero unused, bind, Except.bind]
      nofun
    | regular ino =>
      rw [doExec_regular nonzero unused]
      cases accepted : readHeader k (answer d ino g.header g.stack ehdrSize 0) with
      | none => nofun
      | some hdr =>
        exact execTable_unstuck (s := noted s ehdrSize
          (ext2Pread g.header (d.inode ino) ehdrSize 0).copies) allocates.phbuf
          (fun ps table => allocates.world ino hdr ps rfl accepted table) ready

/-- An exec that fails releases what it took, and touches nothing else, exactly if the read
of the program headers does not spill; and no exec by a task with a context frees what is not in
use. -/
theorem exec_releases_iff (k : Kernel) (d : Disk) (s : Caller) (path : ExecPath) (target : Target)
    (g : Grants) (allocates : Allocates k d s target g) :
    ((∀ s', exec k d s path target g = .ok (s', -1) → Released s s') ↔
      ∀ ino, target = .regular ino → ¬ Spills k d path ino g) ∧
    ∀ shape, Ready s.world s.ctx shape → exec k d s path target g ≠ .error (.stop .stuck) := by
  refine ⟨?_, fun _ ready => exec_unstuck path allocates ready⟩
  constructor
  · rintro released ino rfl spills
    obtain ⟨p, there⟩ := Option.isSome_iff_exists.mp spills.path.2
    obtain ⟨q, phbuf⟩ := Option.isSome_iff_exists.mp spills.phbuf.2
    obtain ⟨nonzero, unused⟩ := allocates.path p there
    obtain ⟨nonzero', unused'⟩ := allocates.phbuf q phbuf
    have copied : copyPath s g.path path = .ok ({ s with heap := insert p s.heap }, p) := by
      rcases copyPath_cases path allocates.path with ⟨no, -⟩ | ⟨p', -, there', ran⟩
      · exact absurd spills.path no
      · obtain rfl := Option.some.inj (there.symm.trans there')
        exact ran
    rcases readHeader_answer k d ino g.header g.stack with ⟨-, refused⟩ | ⟨hdr, accepted, -, same⟩
    · exact refused spills.header
    have bad := spills.read
    have small := spills.phbuf.1
    rw [← same.phbufsz] at bad small
    rw [← same.ePhoff] at bad
    have ran : exec k d s path (.regular ino) g = .ok (tabled d
        (noted s ehdrSize (ext2Pread g.header (d.inode ino) ehdrSize 0).copies) ino hdr g, -1) := by
      simp only [exec, copied, bind, Except.bind, if_neg nonzero]
      rw [doExec_regular nonzero unused, accepted]
      exact execTable_spills phbuf nonzero' unused' small
        (by rw [same.ePhoff]; exact (fileHeader_words d ino).2) bad
    obtain ⟨new, grown, safe⟩ := (released _ ran).reads
    have last : (phbufsz hdr, (ext2Pread g.table (d.inode ino) (phbufsz hdr) hdr.ePhoff).copies) ∈
        new := by
      simp only [tabled, noted, List.append_assoc] at grown
      rw [← List.append_cancel_left grown]
      simp
    refine (safe_iff g.table ?_ ?_ (d.sizes ino)).mp (safe _ last) bad
    · rw [same.phbufsz]
      exact (fileHeader_words d ino).1
    · rw [same.ePhoff]
      exact (fileHeader_words d ino).2
  · intro calm s' failed
    obtain ⟨⟨s₀, q⟩, copied, failed⟩ := Loops.bind_ok.mp failed
    rcases copyPath_cases path allocates.path with ⟨-, ran⟩ | ⟨p, fits, there, ran⟩
    · rw [ran] at copied
      cases copied
      cases failed
      exact released_refl s
    · rw [ran] at copied
      obtain ⟨rfl, rfl⟩ := Prod.mk.inj (Except.ok.inj copied)
      obtain ⟨nonzero, unused⟩ := allocates.path p there
      dsimp only at failed
      rw [if_neg nonzero] at failed
      cases target with
      | absent | directory =>
        simp only [doExec, kfree_insert nonzero unused, bind, Except.bind] at failed
        cases failed
        exact released_refl s
      | regular ino =>
        rw [doExec_regular nonzero unused] at failed
        have header : Safe ehdrSize (ext2Pread g.header (d.inode ino) ehdrSize 0).copies :=
          ext2Pread_safe (by decide) (by decide) (d.sizes ino) (fun bad => by omega) g.header
        refine Released.noted header ?_
        rcases readHeader_answer k d ino g.header g.stack with
          ⟨refused, -⟩ | ⟨hdr, accepted, good, same⟩
        · rw [refused] at failed
          cases failed
          exact released_refl _
        · rw [accepted] at failed
          refine execTable_released allocates.phbuf ?_ ?_ failed
          · exact fun ps table => allocates.world ino hdr ps rfl accepted table
          · intro small given
            rw [same.phbufsz] at small
            rw [same.phbufsz, same.ePhoff]
            refine (safe_iff g.table (fileHeader_words d ino).1 (fileHeader_words d ino).2
              (d.sizes ino)).mpr fun bad => ?_
            exact calm ino rfl ⟨⟨fits, by rw [there]; rfl⟩, good, ⟨small, given⟩, bad⟩

def sampleCaller : Caller := ⟨sampleWorld, {4}, 64, []⟩

/-- There is no object for the area of the stack. -/
def sampleGrants (table : Nat → Event) : Grants where
  path := some 8
  phbuf := some 12
  ctx := some 128
  pgd := some 7
  vmas := [some 16, some 32, none]
  header := fun _ => .copies none
  table := table
  stack := fun _ => 0
  junk := fun _ => 0

def farFile : List UInt8 := (elf goodSegments).set 28 200

theorem farFile_short : farFile.length < 2 ^ 32 := by decide +kernel

/-- The file has 116 bytes. The read at 200 is to bring 64 bytes, and 5000 are copied to the
buffer before a fault ends it. -/
theorem exec_spills : ∃ s',
    exec sampleKernel (fileDisk farFile farFile_short) sampleCaller (.kernel (some 3)) (.regular 5)
      (sampleGrants fun _ => .copies (some 5000)) = .ok (s', -1) ∧ ¬ Released sampleCaller s' := by
  have ends : (exec sampleKernel (fileDisk farFile farFile_short) sampleCaller (.kernel (some 3))
      (.regular 5) (sampleGrants fun _ => .copies (some 5000))).toOption.map
        (fun r => (r.1.reads.map fun x => (x.1, (x.2.map Copy.moved).sum), r.2)) =
      some ([(52, 52), (64, 5000)], -1) := by
    decide +kernel
  obtain ⟨⟨s', ret⟩, ran, eq⟩ := Option.map_eq_some_iff.mp ends
  obtain ⟨reads, rfl⟩ := Prod.mk.inj eq
  refine ⟨s', Loops.ok_of_toOption ran, fun released => ?_⟩
  obtain ⟨new, grown, safe⟩ := released.reads
  have same : s'.reads = new := grown
  rw [same] at reads
  obtain ⟨x, member, spilt⟩ : ∃ x ∈ new, (x.1, (x.2.map Copy.moved).sum) = (64, 5000) := by
    have last : (64, 5000) ∈ new.map fun x => (x.1, (x.2.map Copy.moved).sum) := by
      rw [reads]
      decide
    exact List.mem_map.mp last
  obtain ⟨len, moved⟩ := Prod.mk.inj spilt
  have total := (safe x member).total
  rw [len, moved] at total
  exact absurd total (by decide)

theorem readPhdrs_length {image : Image} (table : readPhdrs image hdr = some ps) :
    ps.length = hdr.ePhnum := by
  simp only [readPhdrs] at table
  split at table
  · cases table
  · rw [← Option.some.inj table, List.length_map, List.length_range]

theorem sampleGrants_allocates : Allocates sampleKernel (magicDisk 0x7f) sampleCaller (.regular 5)
    (sampleGrants fun _ => .copies none) where
  path := by
    rintro p eq
    cases eq
    decide
  phbuf := by
    rintro p eq
    cases eq
    decide
  world := by
    rintro ino hdr ps eq accepted table
    obtain rfl := Target.regular.inj eq
    have two : ps.length = 2 := by
      rw [readPhdrs_length table]
      rcases readHeader_answer sampleKernel (magicDisk 0x7f) 5 (fun _ => .copies none) (fun _ => 0)
        with ⟨refused, -⟩ | ⟨hdr', accepted', -, same⟩
      · cases accepted.symm.trans refused
      · obtain rfl := Option.some.inj (accepted.symm.trans accepted')
        rw [same.ePhnum]
        decide +kernel
    have few : (requests 5 ps).length ≤ 3 := by
      have loaded := List.length_filter_le (fun p => decide (p.pType = ptLoad)) ps
      simp only [requests, List.length_append, List.length_map, List.length_singleton]
      omega
    refine ⟨?_, ?_, ⟨⟨by decide, by decide⟩, by decide⟩, few⟩
    · rintro a eq
      cases eq
      decide
    · rintro f eq
      cases eq
      decide

/-- Two areas of the good program are in the new context when the third cannot be had. -/
theorem exec_releases_areas : ∃ s',
    exec sampleKernel (magicDisk 0x7f) sampleCaller (.user 3 4 0) (.regular 5)
      (sampleGrants fun _ => .copies none) = .ok (s', -1) ∧ Released sampleCaller s' := by
  have ends : (exec sampleKernel (magicDisk 0x7f) sampleCaller (.user 3 4 0) (.regular 5)
      (sampleGrants fun _ => .copies none)).toOption.map (·.2) = some (-1) := by
    decide +kernel
  obtain ⟨⟨s', ret⟩, ran, rfl⟩ := Option.map_eq_some_iff.mp ends
  have calm : ∀ ino, Target.regular 5 = .regular ino → ¬ Spills sampleKernel (magicDisk 0x7f)
      (.user 3 4 0) ino (sampleGrants fun _ => .copies none) := by
    rintro ino eq spills
    obtain rfl := Target.regular.inj eq
    exact absurd spills.read.1 (by decide +kernel)
  have failed := Loops.ok_of_toOption ran
  exact ⟨s', failed, (exec_releases_iff sampleKernel (magicDisk 0x7f) sampleCaller (.user 3 4 0)
    (.regular 5) _ sampleGrants_allocates).1.mpr calm s' failed⟩

end ScaraOS.Exec
