import Mathlib.Logic.Function.Basic
import ScaraOS.Irq
import ScaraOS.Layout
import ScaraOS.Lib.Run
import ScaraOS.Lib.Stack

/-! The processor as the kernel uses it: the task state segments and descriptors of
`arch-ia32/task.c`, the stubs of `arch-ia32/intr.S` instruction by instruction, and the
dispatch of `arch-ia32/syscalls.c`. Between these it runs user code or compiled C code, of
which a label says what it did.

Segments are flat, so of a segment register only the selector is kept, and what is checked when
one is loaded; of the arithmetic flags nothing is said, as every return reloads them. The kernel
stacks are a memory of words, apart from the task state segments at the other end of the same
pages. -/
namespace ScaraOS.Cpu

open Function

/-- `struct ia32_desc`. -/
structure Desc where
  (limitLow baseLow baseMed access limitHigh granularity baseHigh : Nat)

def dTss : Nat := 0x0900
def dPresent : Nat := 0x8000
def dBig : Nat := 0x0040
def dBigLim : Nat := 0x0080

def stndDesc (base limit control : Nat) : Desc where
  limitLow := limit &&& 0xffff
  baseLow := base &&& 0xffff
  baseMed := base >>> 16 &&& 0xff
  access := (control ||| dPresent) >>> 8 % 2 ^ 8
  limitHigh := limit >>> 16 % 2 ^ 4
  granularity := (control &&& 0xff) >>> 4 % 2 ^ 4
  baseHigh := base >>> 24 % 2 ^ 8

-- what the processor reads out of a descriptor

def Desc.base (d : Desc) : Nat := d.baseLow + 2 ^ 16 * d.baseMed + 2 ^ 24 * d.baseHigh

def Desc.limit (d : Desc) : Nat :=
  let l := d.limitLow + 2 ^ 16 * d.limitHigh
  if d.granularity / 2 ^ 3 % 2 = 1 then 2 ^ 12 * l + (2 ^ 12 - 1) else l

/-- A task state segment that is present and not busy. -/
def Desc.available (d : Desc) : Bool := d.access / 2 ^ 7 % 2 = 1 ∧ d.access % 2 ^ 5 = 0x09

def Desc.markBusy (d : Desc) : Desc := { d with access := d.access ||| 2 }

def Desc.markFree (d : Desc) : Desc := { d with access := d.access - d.access / 2 % 2 * 2 }

theorem base_stndDesc {base : Nat} (word : base < 2 ^ 32) (limit control : Nat) :
    (stndDesc base limit control).base = base := by
  have low : base &&& 0xffff = base % 2 ^ 16 := Nat.and_two_pow_sub_one_eq_mod base 16
  have med : base / 2 ^ 16 &&& 0xff = base / 2 ^ 16 % 2 ^ 8 := Nat.and_two_pow_sub_one_eq_mod _ 8
  simp only [Desc.base, stndDesc, Nat.shiftRight_eq_div_pow, low, med]
  omega

structure Regs where
  (eax ecx edx ebx esp ebp esi edi eip eflags cs ss : Nat)
  deriving DecidableEq

structure Segs where
  (ds es fs gs : Nat)
  deriving DecidableEq

def kernelCs : Nat := 0x08
def kernelDs : Nat := 0x10
def userCs : Nat := 0x18
def userDs : Nat := 0x20
def cpl3 : Nat := 3

def tss0 : Nat := 5
def tss1 : Nat := 6

/-- The privilege of the segment a selector names. The table has a code and a data segment for
the kernel and for user code each, all of them readable. -/
def dplOf (sel : Nat) : Option Nat :=
  if sel / 4 % 2 = 1 then none
  else if sel / 8 = 1 ∨ sel / 8 = 2 then some 0
  else if sel / 8 = 3 ∨ sel / 8 = 4 then some 3
  else none

/-- What the processor asks of a selector for `ds`, `es`, `fs` or `gs`, for `cs` and for `ss`. -/
def dataSel (cpl sel : Nat) : Bool := sel < 4 ∨ (dplOf sel).any fun dpl => cpl ≤ dpl ∧ sel % 4 ≤ dpl

def codeSel (cpl sel : Nat) : Bool := sel % 4 = cpl ∧ dplOf sel = some cpl ∧ sel / 8 % 2 = 1

def stackSel (cpl sel : Nat) : Bool := sel % 4 = cpl ∧ dplOf sel = some cpl ∧ sel / 8 % 2 = 0

def Segs.fit (g : Segs) (cpl : Nat) : Bool := [g.ds, g.es, g.fs, g.gs].all (dataSel cpl)

def mapInvalid : Nat := 0xffffffff

/-- `sizeof(struct task)`, and where `t.tss` stands in it. -/
def taskSize : Nat := 148

def tssOf (tsk : Nat) : Nat := tsk + 12

def tssSize : Nat := 104

/-- The interrupt flag of a flags word. -/
def intrFlag : Nat := 2 ^ 9

def enabled (eflags : Nat) : Bool := eflags / 2 ^ 9 % 2 = 1

def withoutIntr (eflags : Nat) : Nat := eflags - eflags / 2 ^ 9 % 2 * 2 ^ 9

def withIntr (eflags : Nat) : Nat := withoutIntr eflags + intrFlag

/-- `struct ia32_tss`: what the kernel sets and the processor reads or saves. -/
structure Tss where
  (sp0 ss0 cr3 ioBitmapBase : Nat)
  regs : Regs
  segs : Segs

/-- The selectors in a segment can be loaded. -/
def Tss.loads (t : Tss) : Bool :=
  codeSel (t.regs.cs % 4) t.regs.cs ∧ stackSel (t.regs.cs % 4) t.regs.ss ∧ t.segs.fit (t.regs.cs % 4)

def Regs.zero : Regs := ⟨0, 0, 0, 0, 0, 0, 0, 0, 0, 0, 0, 0⟩

inductive Instr where
  | pushl (n : Nat)
  | pusha
  | xorlEax
  | movbAl
  | movlDs
  | movlEs
  | call
  | addlEsp
  | popa
  | iret
  deriving DecidableEq

/-- A stub behind a gate, or `ret_from_fork_in_child`. -/
inductive Stub where
  | gate (g : Irq.Gate)
  | fork
  deriving DecidableEq

/-- The exceptions for which the processor pushes an error code: double fault, invalid segments
and stacks, protection and page faults, misaligned access. -/
def errorCode : Nat → Bool
  | 8 => true
  | 10 | 11 | 12 | 13 | 14 => true
  | 17 => true
  | _ => false

/-- The bytes an instruction pushes. -/
def Instr.bytes : Instr → Nat
  | .pushl _ => 4
  | .pusha => 32
  | .call => 4
  | _ => 0

/-- The call of the C function, with the data segments around it. -/
def callC : List Instr := [.xorlEax, .movbAl, .movlDs, .movlEs, .call, .movlDs, .movlEs]

def doIntr : List Instr := [.pushl 0, .pusha] ++ callC ++ [.popa, .addlEsp, .iret]

def doExc (n : Nat) : List Instr :=
  [.pushl 0, .pusha, .pushl n] ++ callC ++ [.addlEsp, .popa, .addlEsp, .iret]

def doExcf (n : Nat) : List Instr :=
  [.pusha, .pushl n] ++ callC ++ [.addlEsp, .popa, .addlEsp, .iret]

def doIrq (n : Nat) : List Instr :=
  [.pushl 0, .pusha, .pushl n] ++ callC ++ [.addlEsp, .popa, .addlEsp, .iret]

/-- The exceptions whose stubs are made by `DO_excf`. -/
def excf : List Nat := [8, 10, 11, 12, 13, 14, 17]

def Stub.text : Stub → List Instr
  | .gate .intNull => [.iret]
  | .gate (.exc n) => if n ∈ excf then doExcf n else doExc n
  | .gate (.irq n) => doIrq n
  | .gate .panic => doIntr
  | .gate .syscall => doIntr
  | .fork => [.movlDs, .movlEs, .popa, .addlEsp, .iret]

/-- The stubs that hand their C function a number before the context. -/
def Stub.numbered : Stub → Bool
  | .gate (.exc _) => true
  | .gate (.irq _) => true
  | _ => false

/-- Where the kernel is linked: the stubs, the C functions they call, `kthread_init` and
the `scratch` segment of `task_init_exec`. The instructions of a stub are one address apart,
and `find` reads an address back. -/
structure Image where
  entry : Stub → Nat
  find : Nat → Option (Stub × Nat)
  handler : Stub → Nat
  kthreadInit : Nat
  scratch : Nat
  found : ∀ a st i, find a = some (st, i) ↔ a = entry st + i ∧ i < st.text.length
  handler_c : ∀ st, find (handler st) = none
  kthread_c : find kthreadInit = none
  scratch_word : scratch < 2 ^ 32

/-- A context that was interrupted, and by which stub. -/
structure Level where
  ctx : Regs
  stub : Stub

/-- The processor, the descriptor table, the segments by their address, the kernel stacks,
each task's `t.intr_ctx`, and the page directories `destroy_ctx` has freed. The last four fields
are history: the tasks there are, the one that runs, what each of them was doing when it was
interrupted, innermost first, and the directory `do_exec` of the running task has loaded, until
the new program begins. -/
structure State where
  regs : Regs
  segs : Segs
  (cr3 tr trBase : Nat)
  gdt : Nat → Desc
  tss : Nat → Tss
  mem : Nat → Nat
  intrCtx : Nat → Nat
  freed : List Nat
  tasks : List Nat
  cur : Nat
  levels : Nat → List Level
  window : Option Nat

def user (r : Regs) : Bool := r.cs % 4 = 3

/-- `this_task`. -/
def thisTask (esp : Nat) : Nat := esp - esp % pageSize

def State.push (s : State) (ws : List Nat) : State :=
  { s with mem := Stack.store s.mem (s.regs.esp - 4 * ws.length) ws,
           regs.esp := s.regs.esp - 4 * ws.length }

def State.next (s : State) : State := { s with regs.eip := s.regs.eip + 1 }

/-- What the processor pushes when it leaves this context. -/
def frame (c : Regs) : List Nat :=
  if user c then [c.eip, c.cs, c.eflags, c.esp, c.ss] else [c.eip, c.cs, c.eflags]

/-- The stub pushes onto the stack the processor takes from the task state segment, if it
comes from user code. -/
def State.take (im : Image) (s : State) (vec err : Nat) : State :=
  let st := Stub.gate (Irq.idtInit vec)
  let sp := if user s.regs then (s.tss s.trBase).sp0 else s.regs.esp
  let ss := if user s.regs then (s.tss s.trBase).ss0 else s.regs.ss
  let words := (if errorCode vec then [err] else []) ++ frame s.regs
  -- the gates of lines and of `panic` are interrupt gates, the others are trap gates
  let eflags := match Irq.idtInit vec with
    | .irq _ => withoutIntr s.regs.eflags
    | .panic => withoutIntr s.regs.eflags
    | _ => s.regs.eflags
  { s with
    mem := Stack.store s.mem (sp - 4 * words.length) words
    regs := { s.regs with esp := sp - 4 * words.length, ss := ss, cs := kernelCs,
                          eip := im.entry st, eflags := eflags }
    levels := update s.levels s.cur (⟨s.regs, st⟩ :: s.levels s.cur) }

/-- A data segment that user code must not have is taken away from it. -/
def outer (sel : Nat) : Nat := if sel / 8 = 3 ∨ sel / 8 = 4 then sel else 0

def State.iret (s : State) : Option State :=
  let cs := s.mem (s.regs.esp + 4)
  let ss := s.mem (s.regs.esp + 16)
  let back := { s.regs with eip := s.mem s.regs.esp, cs := cs, eflags := s.mem (s.regs.esp + 8) }
  let levels := update s.levels s.cur (s.levels s.cur).tail
  if codeSel 0 cs then
    some { s with regs := { back with esp := s.regs.esp + 12 }, levels := levels }
  else if codeSel 3 cs ∧ stackSel 3 ss then
    some { s with
      regs := { back with esp := s.mem (s.regs.esp + 12), ss := ss }
      segs := ⟨outer s.segs.ds, outer s.segs.es, outer s.segs.fs, outer s.segs.gs⟩
      levels := levels }
  else none

def State.popa (s : State) : State :=
  let sp := s.regs.esp
  { s with regs := { s.regs with
      edi := s.mem sp, esi := s.mem (sp + 4), ebp := s.mem (sp + 8), ebx := s.mem (sp + 16),
      edx := s.mem (sp + 20), ecx := s.mem (sp + 24), eax := s.mem (sp + 28), esp := sp + 32 } }

def pushaWords (r : Regs) : List Nat :=
  [r.edi, r.esi, r.ebp, r.esp, r.ebx, r.edx, r.ecx, r.eax]

def State.instr (im : Image) (s : State) (st : Stub) : Instr → Option State
  | .pushl n => some (s.push [n]).next
  | .pusha => some (s.push (pushaWords s.regs)).next
  | .xorlEax => some { s with regs.eax := 0 }.next
  | .movbAl => some { s with regs.eax := s.regs.eax - s.regs.eax % 2 ^ 8 + kernelDs }.next
  | .movlDs =>
    if dataSel 0 (s.regs.eax % 2 ^ 16) then some { s with segs.ds := s.regs.eax % 2 ^ 16 }.next
    else none
  | .movlEs =>
    if dataSel 0 (s.regs.eax % 2 ^ 16) then some { s with segs.es := s.regs.eax % 2 ^ 16 }.next
    else none
  | .call =>
    let pushed := s.push [s.regs.eip + 1]
    some { pushed with regs.eip := im.handler st }
  | .addlEsp => some { s with regs.esp := s.regs.esp + 4 }.next
  | .popa => some s.popa.next
  | .iret => s.iret

/-- `ltr`. -/
def State.loadTr (s : State) (sel : Nat) : Option State :=
  let d := s.gdt (sel / 8)
  if d.available then
    some { s with tr := sel, trBase := d.base, gdt := update s.gdt (sel / 8) d.markBusy }
  else none

/-- A far jump to a task state segment: the registers are saved where the task register
points and loaded from the new segment, `cr3` is only loaded. With a directory that was freed
there is no next instruction. -/
def State.ljmp (s : State) (sel : Nat) : Option State :=
  let d := s.gdt (sel / 8)
  let saved := update s.tss s.trBase { s.tss s.trBase with regs := s.regs, segs := s.segs }
  let new := saved d.base
  if d.available ∧ tssSize - 1 ≤ d.limit ∧ new.loads ∧ new.cr3 ∉ s.freed then
    let freed := update s.gdt (s.tr / 8) (s.gdt (s.tr / 8)).markFree
    some { s with
      tss := saved, gdt := update freed (sel / 8) d.markBusy
      regs := new.regs, segs := new.segs, cr3 := new.cr3, tr := sel, trBase := d.base }
  else none

def tssDesc (base : Nat) : Desc := stndDesc base (tssSize - 1) (dTss ||| dBig ||| dBigLim)

def otherTr (tr : Nat) : Nat := if tr = tss0 then tss1 else tss0

def State.setDesc (s : State) (i : Nat) (d : Desc) : State :=
  { s with gdt := update s.gdt i d }

def switchTask (s : State) (next : Nat) : Option State :=
  let tr := s.tr >>> 3
  if tr ≠ tss0 ∧ tr ≠ tss1 then none
  else
    let tr := otherTr tr
    (s.setDesc tr (tssDesc (tssOf next))).ljmp (tr <<< 3)

def execTss (tsk pgd ip sp : Nat) : Tss where
  sp0 := tsk + pageSize
  ss0 := kernelDs
  cr3 := pgd
  ioBitmapBase := 0x8000
  regs := { Regs.zero with eip := ip, esp := sp, eflags := 1 <<< 9, cs := userCs ||| cpl3,
                           ss := userDs ||| cpl3 }
  segs := ⟨userDs ||| cpl3, userDs ||| cpl3, userDs ||| cpl3, userDs ||| cpl3⟩

/-- `task_init_exec`; the caller's `tsk` is `__this_task`. -/
def taskInitExec (im : Image) (s : State) (pgd ip sp : Nat) : Option State :=
  let tsk := thisTask s.regs.esp
  let s := { s with regs.eflags := withoutIntr s.regs.eflags }
  let tr := s.tr >>> 3
  if tr ≠ tss0 ∧ tr ≠ tss1 then none
  else
    let scratchTr := otherTr tr
    ((s.setDesc scratchTr (tssDesc im.scratch)).loadTr (scratchTr <<< 3)).bind fun s =>
      let s := { s with tss := update s.tss (tssOf tsk) (execTss tsk pgd ip sp) }
      (s.setDesc tr (tssDesc (tssOf tsk))).ljmp (tr <<< 3)

def taskPushWord (s : State) (tsk word : Nat) : State :=
  let tss := s.tss (tssOf tsk)
  let tss := { tss with regs.esp := tss.regs.esp - 4, sp0 := tss.sp0 - 4 }
  { s with tss := update s.tss (tssOf tsk) tss,
           mem := update s.mem tss.regs.esp word }

def kthreadTss (tsk pgd : Nat) : Tss where
  sp0 := tsk + pageSize
  ss0 := kernelDs
  cr3 := pgd
  ioBitmapBase := 0x8000
  regs := { Regs.zero with esp := tsk + pageSize, eflags := 1 <<< 9, cs := kernelCs,
                           ss := kernelDs }
  segs := ⟨kernelDs, kernelDs, kernelDs, kernelDs⟩

/-- `task_init_kthread`, on a task its caller has set to zero. -/
def taskInitKthread (im : Image) (s : State) (tsk pgd : Nat) (thread : Option (Nat × Nat)) :
    State :=
  let s := { s with tss := update s.tss (tssOf tsk) (kthreadTss tsk pgd) }
  match thread with
  | none => s
  | some (func, priv) =>
    let tss := { s.tss (tssOf tsk) with regs.eip := im.kthreadInit }
    let s := { s with tss := update s.tss (tssOf tsk) tss }
    let s := taskPushWord s tsk priv
    let s := taskPushWord s tsk func
    taskPushWord s tsk 0x13371337

def ia32GdtFinalize (s : State) : Option State :=
  (s.setDesc tss0 (tssDesc (tssOf (thisTask s.regs.esp)))).loadTr (tss0 <<< 3)

def returnFromIntr (cs : Nat) : Option Nat :=
  let rpl := cs &&& cpl3
  if rpl = 0 then some kernelDs
  else if rpl ≠ cpl3 then none
  else some (userDs ||| rpl)

-- where `struct intr_ctx` has its fields
def ctxWords : Nat := 14
def ctxEax : Nat := 28
def ctxEip : Nat := 36
def ctxCs : Nat := 40
def ctxEsp3 : Nat := 48

def taskClone (im : Image) (s : State) (parent new pgd ip sp : Nat) : Option State :=
  let ptss := s.tss (tssOf parent)
  let regs := new + pageSize - 4 * ctxWords
  let mem := Stack.store s.mem regs (Stack.load s.mem (s.intrCtx parent) ctxWords)
  let mem := update mem (regs + ctxEax) 0
  (returnFromIntr (mem (regs + ctxCs))).map fun sel =>
    let mem := if ip ≠ mapInvalid then update mem (regs + ctxEip) ip else mem
    let mem := if sp ≠ mapInvalid then update mem (regs + ctxEsp3) sp else mem
    { s with
      mem := mem
      tss := update s.tss (tssOf new)
        { sp0 := new + pageSize, ss0 := kernelDs, cr3 := pgd, ioBitmapBase := 0x8000
          regs := { Regs.zero with
            eax := sel, esp := regs, eip := im.entry .fork
            eflags := withIntr ptss.regs.eflags, cs := kernelCs, ss := kernelDs }
          segs := ⟨kernelDs, kernelDs, ptss.segs.fs, ptss.segs.gs⟩ } }

/-- `none` is its `BUG_ON`. -/
def taskStackOverflowed (tss : Tss) (tsk : Nat) : Option Bool :=
  if tss.regs.cs &&& cpl3 = cpl3 then some false
  else if tss.regs.esp < pageOffset then none
  else some (tss.regs.esp ≤ tsk + 2 * taskSize)

/-- The processor pushed the frame of a level below this address. -/
def Level.above (ℓ : Level) (tsk : Nat) : Nat :=
  if user ℓ.ctx then tsk + pageSize else ℓ.ctx.esp

/-- The address of the `struct intr_ctx` the C function gets. -/
def Level.ctxAt (ℓ : Level) (tsk : Nat) : Nat := ℓ.above tsk - 4 * ((frame ℓ.ctx).length + 9)

/-- The address of the C function's return address. -/
def Level.base (ℓ : Level) (tsk : Nat) : Nat :=
  ℓ.ctxAt tsk - (if ℓ.stub.numbered then 8 else 4)

/-- C code of a task may use its stack up to here. -/
def State.floor (s : State) : Nat :=
  match s.levels s.cur with
  | [] => s.cur + pageSize
  | ℓ :: _ => ℓ.base s.cur

/-- A system call stores its result in its context. -/
def State.setEax (s : State) (v : Nat) : State :=
  match s.levels s.cur with
  | [] => s
  | ℓ :: rest =>
    { s with
      mem := update s.mem (ℓ.ctxAt s.cur + ctxEax) v
      levels := update s.levels s.cur ({ ℓ with ctx.eax := v } :: rest) }

/-- `page_fault` finds the address in its table and makes its context go on elsewhere. -/
def State.setEip (s : State) (v : Nat) : State :=
  match s.levels s.cur with
  | [] => s
  | ℓ :: rest =>
    { s with
      mem := update s.mem (ℓ.ctxAt s.cur + ctxEip) v
      levels := update s.levels s.cur ({ ℓ with ctx.eip := v } :: rest) }

/-- A step: user code, an interrupt or exception with its error code, an instruction of a
stub; or compiled C code, which changes registers and its part of the stack, dispatches a
system call or stores its result, sends a context on from a page fault, returns to its stub,
switches to another task, clones the task, starts a kernel thread, frees a task, or begins a new
program: it loads the page directory, gives up the old one, and jumps. -/
inductive Label where
  | user (r : Regs) (g : Segs)
  | take (vec err : Nat)
  | tick
  | work (r : Regs) (sp : Nat) (words : List Nat)
  | dispatch
  | result (v : Nat)
  | fixup (eip : Nat)
  | ret
  | switch (next : Nat)
  | clone (tsk pgd ip sp : Nat)
  | thread (tsk pgd func priv : Nat)
  | free (tsk : Nat)
  | useCtx (pgd : Nat)
  | putCtx
  | exec (pgd ip sp : Nat)
  deriving DecidableEq

/-- The context a child starts from. -/
def childCtx (c : Regs) (ip sp : Nat) : Regs :=
  { c with eax := 0, eip := if ip ≠ mapInvalid then ip else c.eip,
           esp := if sp ≠ mapInvalid then sp else c.esp }

/-- `syscall_exc` up to the call. -/
def syscallExc (s : State) : State :=
  match s.levels s.cur with
  | [] => s
  | ℓ :: _ =>
    if s.mem (ℓ.ctxAt s.cur + ctxEax) ≥ 7 then
      s.setEax 0xffffffff
    else { s with intrCtx := update s.intrCtx s.cur (ℓ.ctxAt s.cur) }

/-- The C function returns to its stub what `return_from_intr` says of its context. -/
def State.ret (s : State) : Option State :=
  match s.levels s.cur with
  | [] => none
  | ℓ :: _ =>
    (returnFromIntr (s.mem (ℓ.ctxAt s.cur + ctxCs))).map fun sel =>
      { s with regs := { s.regs with eax := sel, eip := s.mem s.regs.esp, esp := s.regs.esp + 4 } }

/-- The end of `sched` once it has found a task to switch to. -/
def schedTo (s : State) (next : Nat) : Option State :=
  match taskStackOverflowed (s.tss (tssOf next)) next with
  | some false => (switchTask s next).map fun s => { s with cur := next }
  | _ => none

/-- The instruction of a stub that is next. -/
def State.instrAt (im : Image) (s : State) : Option Instr :=
  (im.find s.regs.eip).bind fun place => place.1.text[place.2]?

/-- `none` is a fault of the processor or a `BUG_ON`. -/
def step (im : Image) (s : State) : Label → Option State
  | .user r g => some { s with regs := r, segs := g }
  | .take vec err =>
    if user s.regs ∧ ¬ stackSel 0 (s.tss s.trBase).ss0 then none else some (s.take im vec err)
  | .tick =>
    match im.find s.regs.eip with
    | none => none
    | some (st, i) => st.text[i]?.bind (s.instr im st)
  | .work r sp words =>
    some { s with mem := Stack.store s.mem sp words,
                  regs := { r with esp := sp, cs := s.regs.cs, ss := s.regs.ss } }
  | .dispatch => some (syscallExc s)
  | .result v => some (s.setEax v)
  | .fixup eip => some (s.setEip eip)
  | .ret => s.ret
  | .switch next => schedTo s next
  | .clone tsk pgd ip sp =>
    (taskClone im s (thisTask s.regs.esp) tsk pgd ip sp).map fun t =>
      { t with
        freed := s.freed.filter (· ≠ pgd)
        tasks := tsk :: s.tasks
        levels := update s.levels tsk
          ((s.levels s.cur).head?.toList.map fun ℓ => ⟨childCtx ℓ.ctx ip sp, .fork⟩) }
  | .thread tsk pgd func priv =>
    some { taskInitKthread im s tsk pgd (some (func, priv)) with
           freed := s.freed.filter (· ≠ pgd), tasks := tsk :: s.tasks
           levels := update s.levels tsk [] }
  | .free tsk => some { s with tasks := s.tasks.filter (· ≠ tsk) }
  -- the `cli` and the `mem_use_ctx` of `do_exec`, on a directory that was made for it
  | .useCtx pgd =>
    some { s with regs.eflags := withoutIntr s.regs.eflags, cr3 := pgd, window := some pgd
                  freed := s.freed.filter (· ≠ pgd) }
  | .putCtx => some { s with freed := (s.tss (tssOf s.cur)).cr3 :: s.freed }
  | .exec pgd ip sp =>
    (taskInitExec im s pgd ip sp).map fun t =>
      { t with levels := update s.levels s.cur [], window := none }

def InKernel (r : Regs) : Prop := r.cs = kernelCs ∧ r.ss = kernelDs

def InUser (r : Regs) : Prop := r.cs = userCs ||| cpl3 ∧ r.ss = userDs ||| cpl3

/-- C code of the kernel runs. -/
def InC (im : Image) (s : State) : Prop := InKernel s.regs ∧ im.find s.regs.eip = none

/-- The stack pointer leaves alone what `task_stack_overflowed` watches over. -/
def Room (tsk esp : Nat) : Prop := tsk + 2 * taskSize < esp

/-- A page that can hold a new task. -/
def Fresh (im : Image) (s : State) (tsk : Nat) : Prop :=
  tsk ∉ s.tasks ∧ tsk % pageSize = 0 ∧ pageOffset ≤ tsk ∧ tsk + pageSize < 2 ^ 32 ∧
    tssOf tsk ≠ im.scratch

/-- The innermost context of the running task came through this stub. -/
def State.inside (s : State) (st : Stub) : Bool := (s.levels s.cur).head?.map Level.stub = some st

/-- When a vector is taken: exceptions at any time, a system call from user code, the
vector of `panic` from C code, a line when interrupts are enabled. -/
def Raised (im : Image) (s : State) (vec : Nat) : Prop :=
  if vec < 32 then True
  else if vec = 0xff then InUser s.regs
  else if vec = 0xf0 then InC im s
  else enabled s.regs.eflags = true

/-- What the processor, user code and compiled C code keep to. User code cannot change its
privilege nor the interrupt flag. C code stays out of the stubs, uses the stack below its
own return address, never runs over what `task_stack_overflowed` watches, and returns with
the stack pointer it was called with. System calls clone, and only they and kernel threads
begin a program. Between the load of the new page directory and the jump `do_exec` does not sleep;
the old directory goes if no other task has it. -/
def Legal (im : Image) (s : State) : Label → Prop
  | .user r g => InUser s.regs ∧ InUser r ∧ enabled r.eflags = enabled s.regs.eflags ∧
      g.fit 3 = true
  | .take vec _ => vec < 256 ∧ Raised im s vec ∧ (user s.regs = true ∨ Room s.cur (s.regs.esp - 16))
  | .tick => InKernel s.regs ∧ (im.find s.regs.eip).isSome = true ∧
      Room s.cur (s.regs.esp - (s.instrAt im).elim 0 Instr.bytes)
  | .work r sp words => InC im s ∧ im.find r.eip = none ∧ Room s.cur sp ∧
      sp < s.cur + pageSize ∧ sp + 4 * words.length = s.floor
  | .dispatch => InC im s ∧ s.inside (.gate .syscall) = true
  | .result _ => InC im s ∧ s.inside (.gate .syscall) = true
  | .fixup eip => InC im s ∧ s.inside (.gate (.exc 14)) = true ∧ im.find eip = none ∧
      (s.levels s.cur).head?.all (fun ℓ => ¬ user ℓ.ctx ∧ im.find ℓ.ctx.eip = none) = true
  | .ret => InC im s ∧ s.levels s.cur ≠ [] ∧ s.regs.esp = s.floor
  | .switch next => InC im s ∧ next ∈ s.tasks ∧ next ≠ s.cur ∧ s.window = none
  | .clone tsk _ _ _ => InC im s ∧ s.inside (.gate .syscall) = true ∧ Fresh im s tsk ∧
      (s.levels s.cur).head?.all (fun ℓ => s.intrCtx s.cur = ℓ.ctxAt s.cur) = true
  | .thread tsk _ _ _ => InC im s ∧ Fresh im s tsk
  | .free tsk => InC im s ∧ tsk ≠ s.cur
  | .useCtx _ => InC im s ∧ s.window = none
  | .putCtx => InC im s ∧ s.window ≠ none ∧ s.window ≠ some (s.tss (tssOf s.cur)).cr3 ∧
      ∀ t ∈ s.tasks, t ≠ s.cur → (s.tss (tssOf t)).cr3 ≠ (s.tss (tssOf s.cur)).cr3
  | .exec pgd _ _ => InC im s ∧ s.window = some pgd ∧
      (s.levels s.cur = [] ∨ s.inside (.gate .syscall) = true)

instance (r : Regs) : Decidable (InKernel r) := instDecidableAnd

instance (r : Regs) : Decidable (InUser r) := instDecidableAnd

instance (im : Image) (s : State) : Decidable (InC im s) := instDecidableAnd

instance (tsk esp : Nat) : Decidable (Room tsk esp) := Nat.decLt _ _

instance (im : Image) (s : State) (tsk : Nat) : Decidable (Fresh im s tsk) := instDecidableAnd

instance (im : Image) (s : State) (vec : Nat) : Decidable (Raised im s vec) := by
  unfold Raised
  infer_instance

instance (im : Image) (s : State) (l : Label) : Decidable (Legal im s l) := by
  cases l <;> exact instDecidableAnd

/-- The state `setup` has made when it turns interrupts on: `sched_init` has made the
stack it runs on the idle task, and `ia32_gdt_finalize` has loaded the task register. -/
def booted (im : Image) (s : State) (pgd : Nat) : Option State :=
  let tsk := thisTask s.regs.esp
  ia32GdtFinalize { taskInitKthread im s tsk pgd none with
    freed := [], tasks := [tsk], cur := tsk, levels := fun _ => [], window := none }

/-- Where `setup` calls `sched_init`: C code on the first stack. -/
structure Setup (im : Image) (s : State) (pgd : Nat) : Prop where
  inC : InC im s
  room : Room (thisTask s.regs.esp) s.regs.esp
  low : pageOffset ≤ thisTask s.regs.esp
  high : thisTask s.regs.esp + pageSize < 2 ^ 32
  apart : tssOf (thisTask s.regs.esp) ≠ im.scratch
  space : s.cr3 = pgd
  data : s.segs.ds = kernelDs ∧ s.segs.es = kernelDs
  fit : s.segs.fit 0 = true

end ScaraOS.Cpu
