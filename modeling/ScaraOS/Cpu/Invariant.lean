import Mathlib.Tactic.IntervalCases
import ScaraOS.Cpu.Model

/-! What holds of every task at every instruction: its kernel stack is the frames of what
was interrupted, one below the other, each as far pushed as the stub that pushes it has
come. -/
namespace ScaraOS.Cpu

open Function
open Stack (Holds)

variable {im : Image} {s s' : State} {mem mem' : Nat → Nat} {st : Stub} {ins : Instr} {ℓ : Level}
  {ls rest : List Level} {r r' c : Regs} {g : Segs} {t u i x e n tsk ds es : Nat}
  {ws tail : List Nat} {q : Prop}

/-- The words on the stack below the processor's frame, counted through an instruction. -/
def Instr.effect : Instr → Nat → Nat
  | .pushl _, d => d + 1
  | .pusha, d => d + 8
  | .addlEsp, d => d - 1
  | .popa, d => d - 8
  | _, d => d

/-- The words a stub was written for: the error code, or all that its parent left it. -/
def Stub.start : Stub → Nat
  | .gate (.exc n) => if n ∈ excf then 1 else 0
  | .gate _ => 0
  | .fork => 9

def Stub.depth (st : Stub) (i : Nat) : Nat :=
  (st.text.take i).foldl (fun d ins => ins.effect d) st.start

theorem depth_succ (here : st.text[i]? = some ins) :
    st.depth (i + 1) = ins.effect (st.depth i) := by
  simp only [Stub.depth, List.take_add_one, here, Option.toList_some, List.foldl_append,
    List.foldl_cons, List.foldl_nil]

/-- The data segment that belongs to a context. -/
def dataOf (r : Regs) : Nat := if user r then userDs ||| cpl3 else kernelDs

@[simp] theorem dataOf_mod (c : Regs) : dataOf c % 65536 = dataOf c := by
  unfold dataOf
  split <;> rfl

/-- What is in `ds` and `es` when a stub returns to `c`, if it goes on from here with this
`eax`, `ds` and `es`, and calls its C function with the segments of the kernel. -/
def outcome (c : Regs) : List Instr → Nat → Nat → Nat → Option (Nat × Nat)
  | .xorlEax :: l, _, ds, es => outcome c l 0 ds es
  | .movbAl :: l, a, ds, es => outcome c l (a - a % 2 ^ 8 + kernelDs) ds es
  | .movlDs :: l, a, _, es => outcome c l a (a % 2 ^ 16) es
  | .movlEs :: l, a, ds, _ => outcome c l a ds (a % 2 ^ 16)
  | .call :: l, _, ds, es =>
    if ds = kernelDs ∧ es = kernelDs then outcome c l (dataOf c) ds es else none
  | .popa :: l, _, ds, es => outcome c l c.eax ds es
  | .iret :: _, _, ds, es => some (ds, es)
  | _ :: l, a, ds, es => outcome c l a ds es
  | [], _, _, _ => none

/-- Every selector a stub loads from here on, with this `eax`, can be loaded. -/
def loads (c : Regs) : List Instr → Nat → Bool
  | .xorlEax :: l, _ => loads c l 0
  | .movbAl :: l, a => loads c l (a - a % 2 ^ 8 + kernelDs)
  | .movlDs :: l, a => dataSel 0 (a % 2 ^ 16) && loads c l a
  | .movlEs :: l, a => dataSel 0 (a % 2 ^ 16) && loads c l a
  | .call :: l, _ => loads c l (dataOf c)
  | .popa :: l, _ => loads c l c.eax
  | _ :: l, a => loads c l a
  | [], _ => true

@[simp] theorem dataSel_dataOf (c : Regs) : dataSel 0 (dataOf c) = true := by
  unfold dataOf
  split <;> rfl

@[simp] theorem dataSel_kernelDs : dataSel 0 (kernelDs % 65536) = true := rfl

/-- What each instruction finds when the stub reaches it. -/
def Suits (st : Stub) (i : Nat) : Instr → Prop
  | .pushl _ => st.depth i = 0 ∨ st.depth i = 9
  | .pusha => st.depth i = 1
  | .call => st.depth i = (if st.numbered then 10 else 9) ∧ ∀ c,
      (∀ ds es, outcome c (st.text.drop (i + 1)) (dataOf c) ds es = some (dataOf c, dataOf c)) ∧
        loads c (st.text.drop (i + 1)) (dataOf c) = true
  | .addlEsp => st.depth i = 1 ∨ st.depth i = 10
  | .popa => st.depth i = 9
  | .iret => st.depth i = 0
  | _ => 9 ≤ st.depth i

theorem text_suits (here : st.text[i]? = some ins) :
    (ins = .iret ∨ i + 1 < st.text.length) ∧ Suits st i ins := by
  have bound := (List.getElem?_eq_some_iff.mp here).1
  rcases st with (_ | n | n | _ | _) | _
  case gate.exc =>
    by_cases code : n ∈ excf
    all_goals
      simp only [Stub.text, code, if_true, if_false, doExc, doExcf, callC,
        List.length_append, List.length_cons, List.length_nil] at bound here
      interval_cases i <;> cases here <;> simp [Suits, Stub.depth, Stub.text, Stub.start,
        Stub.numbered, code, doExc, doExcf, callC, Instr.effect, outcome, loads]
  all_goals
    simp only [Stub.text, doIntr, doIrq, callC, List.length_append, List.length_cons,
      List.length_nil] at bound here
    interval_cases i <;> cases here <;> simp [Suits, Stub.depth, Stub.text, Stub.start,
      Stub.numbered, doIntr, doIrq, callC, Instr.effect, outcome, loads]

/-- An interrupt here leaves the segments of the kernel, which does no harm unless those of a
program were loaded. -/
theorem text_spared {a : Nat} (bound : i < st.text.length)
    (ends : outcome c (st.text.drop i) a ds es = some (dataOf c, dataOf c))
    (late : dataOf c = kernelDs ∨ .movlDs ∈ st.text.drop i) :
    outcome c (st.text.drop i) a kernelDs kernelDs = some (dataOf c, dataOf c) := by
  rcases st with (_ | n | n | _ | _) | _
  case gate.exc =>
    by_cases code : n ∈ excf
    all_goals
      simp only [Stub.text, code, if_true, if_false, doExc, doExcf, callC,
        List.length_append, List.length_cons, List.length_nil] at bound ends late ⊢
      interval_cases i <;> simp [outcome] at ends late ⊢ <;> grind
  all_goals
    simp only [Stub.text, doIntr, doIrq, callC, List.length_append, List.length_cons,
      List.length_nil] at bound ends late ⊢
    interval_cases i <;> simp [outcome] at ends late ⊢ <;> grind

theorem gate_outcome {g : Irq.Gate} (expected : g ≠ .intNull) (a : Nat) :
    outcome c (Stub.gate g).text a ds es = some (dataOf c, dataOf c) := by
  cases g with
  | intNull => exact absurd rfl expected
  | exc n => simp only [Stub.text]; split <;> simp [doExc, doExcf, callC, outcome, kernelDs]
  | _ => simp [Stub.text, doIntr, doIrq, callC, outcome, kernelDs]

theorem gate_loads (g : Irq.Gate) (c : Regs) (a : Nat) : loads c (Stub.gate g).text a = true := by
  cases g with
  | intNull => rfl
  | exc n => simp only [Stub.text]; split <;> simp [doExc, doExcf, callC, loads]
  | _ => simp [Stub.text, doIntr, doIrq, callC, loads]

theorem find_next {a : Nat} (place : im.find a = some (st, i)) (bound : i + 1 < st.text.length) :
    im.find (a + 1) = some (st, i + 1) := by
  obtain ⟨rfl, -⟩ := (im.found a st i).mp place
  exact (im.found _ st (i + 1)).mpr ⟨rfl, bound⟩

/-- The words of `pusha`, where the stack pointer among them does not matter. -/
def saved (c : Regs) (x : Nat) : List Nat := [c.edi, c.esi, c.ebp, x, c.ebx, c.edx, c.ecx, c.eax]

/-- What a stub has pushed: an error code, the registers, a number. -/
def pushed (c : Regs) (x e n : Nat) : Nat → List Nat
  | 1 => [e]
  | 9 => saved c x ++ [e]
  | 10 => n :: (saved c x ++ [e])
  | _ => []

/-- The registers `pusha` saves. -/
def SameGp (r c : Regs) : Prop :=
  r.eax = c.eax ∧ r.ecx = c.ecx ∧ r.edx = c.edx ∧ r.ebx = c.ebx ∧ r.ebp = c.ebp ∧
    r.esi = c.esi ∧ r.edi = c.edi

/-- The stub of a level is at its instruction `i`. -/
structure Level.AtStub (im : Image) (mem : Nat → Nat) (tsk : Nat) (ℓ : Level) (r : Regs)
    (i x e n : Nat) : Prop where
  place : im.find r.eip = some (ℓ.stub, i)
  clean : ℓ.stub.depth i ≤ 1 → SameGp r ℓ.ctx
  sel : loads ℓ.ctx (ℓ.stub.text.drop i) r.eax = true
  holds : Holds mem r.esp (pushed ℓ.ctx x e n (ℓ.stub.depth i) ++ frame ℓ.ctx) (ℓ.above tsk)

/-- The C function of a level runs, with `locals` on its stack. -/
structure Level.Called (im : Image) (mem : Nat → Nat) (tsk : Nat) (ℓ : Level) (r : Regs)
    (i x e : Nat) (locals args : List Nat) : Prop where
  place : im.find r.eip = none
  calls : ℓ.stub.text[i]? = some .call
  number : args.length = if ℓ.stub.numbered then 1 else 0
  holds : Holds mem r.esp (locals ++ (im.entry ℓ.stub + (i + 1)) :: args) (ℓ.ctxAt tsk)
  ctx : Holds mem (ℓ.ctxAt tsk) (saved ℓ.ctx x ++ e :: frame ℓ.ctx) (ℓ.above tsk)

def Level.Now (im : Image) (mem : Nat → Nat) (tsk : Nat) (ℓ : Level) (r : Regs) : Prop :=
  (∃ i x e n, ℓ.AtStub im mem tsk r i x e n) ∨
    ∃ i x e locals args, ℓ.Called im mem tsk r i x e locals args

/-- Only user code calls the system. -/
def Level.Sane (ℓ : Level) : Prop := ℓ.stub = .gate .syscall ∨ ℓ.stub = .fork → InUser ℓ.ctx

/-- A task that runs with these registers, on a stack that has, from the stack pointer up,
what the innermost level has pushed, the frame of the context it interrupted, and then that
context's own stack. -/
def Good (im : Image) (mem : Nat → Nat) (tsk : Nat) : List Level → Regs → Prop
  | [], r => InUser r ∨ (InKernel r ∧ im.find r.eip = none ∧ r.esp < tsk + pageSize)
  | ℓ :: rest, r => InKernel r ∧ ℓ.Sane ∧ ℓ.Now im mem tsk r ∧ Good im mem tsk rest ℓ.ctx

theorem InUser.user (mode : InUser r) : user r = true := by
  simp [Cpu.user, mode.1, userCs, cpl3]

theorem InKernel.user (mode : InKernel r) : user r = false := by
  simp [Cpu.user, mode.1, kernelCs]

theorem InUser.not_kernel (mode : InUser r) : ¬ InKernel r := fun kernel =>
  Bool.false_ne_true (kernel.user.symm.trans mode.user)

theorem Good.of_user (good : Good im mem tsk ls r) (mode : user r = true) :
    InUser r ∧ ls = [] := by
  cases ls with
  | nil =>
    rcases good with good | good
    · exact ⟨good, rfl⟩
    · simp [good.1.user] at mode
  | cons ℓ rest => simp [good.1.user] at mode

theorem Good.of_kernel (good : Good im mem tsk ls r) (mode : user r = false) : InKernel r := by
  cases ls with
  | nil =>
    rcases good with good | good
    · simp [good.user] at mode
    · exact good.1
  | cons ℓ rest => exact good.1

theorem Level.Now.size (now : ℓ.Now im mem tsk r) : r.esp + 12 ≤ ℓ.above tsk := by
  have least : 3 ≤ (frame ℓ.ctx).length := by unfold frame; split <;> simp
  obtain ⟨i, x, e, n, stub⟩ | ⟨i, x, e, locals, args, called⟩ := now
  · have size := stub.holds.size
    simp only [List.length_append] at size
    omega
  · have below := called.holds.size
    have size := called.ctx.size
    simp only [List.length_append, List.length_cons] at size
    omega

/-- A stack lies below the top of its page. -/
theorem Good.below (good : Good im mem tsk ls r) (mode : InKernel r) : r.esp < tsk + pageSize := by
  induction ls generalizing r with
  | nil =>
    rcases good with inUser | good
    · exact absurd mode inUser.not_kernel
    · exact good.2.2
  | cons ℓ rest ih =>
    have size := good.2.2.1.size
    cases from_user : Cpu.user ℓ.ctx with
    | true => simp only [Level.above, from_user, if_true] at size; omega
    | false =>
      have under := ih good.2.2.2 (good.2.2.2.of_kernel from_user)
      simp only [Level.above, from_user, Bool.false_eq_true, if_false] at size
      omega

theorem Good.above_le (good : Good im mem tsk rest ℓ.ctx) : ℓ.above tsk ≤ tsk + pageSize := by
  unfold Level.above
  split
  · exact Nat.le_refl _
  · rename_i kernel
    exact (good.below (good.of_kernel (by simpa using kernel))).le

/-- Only the words from the stack pointer up to the top of the page matter. -/
theorem Good.congr (good : Good im mem tsk ls r)
    (same : ∀ a, user r = false → r.esp ≤ a → a < tsk + pageSize → mem' a = mem a) :
    Good im mem' tsk ls r := by
  induction ls generalizing r with
  | nil => exact good
  | cons ℓ rest ih =>
    obtain ⟨mode, sane, now, under⟩ := good
    have size := now.size
    have top := under.above_le
    have kept : ∀ a, r.esp ≤ a → a < ℓ.above tsk → mem' a = mem a := fun a low high =>
      same a mode.user low (by omega)
    refine ⟨mode, sane, ?_, ih under fun a kernel low high => same a mode.user ?_ high⟩
    · obtain ⟨i, x, e, n, stub⟩ | ⟨i, x, e, locals, args, called⟩ := now
      · exact .inl ⟨i, x, e, n, stub.place, stub.clean, stub.sel, stub.holds.congr kept⟩
      · have below := called.holds.size
        have above := called.ctx.size
        exact .inr ⟨i, x, e, locals, args, called.place, called.calls, called.number,
          called.holds.congr fun a low high => kept a low (by omega),
          called.ctx.congr fun a low high => kept a (by omega) high⟩
    · simp only [Level.above, kernel, Bool.false_eq_true, if_false] at size
      omega

theorem dataOf_kernel (mode : user c = false) : dataOf c = kernelDs := by simp [dataOf, mode]

/-- The data segments while a level is the innermost one. -/
def Loaded (im : Image) (c r : Regs) (ds es : Nat) : Prop :=
  match im.find r.eip with
  | some (st, i) => outcome c (st.text.drop i) r.eax ds es = some (dataOf c, dataOf c)
  | none => ds = kernelDs ∧ es = kernelDs

theorem loaded_stub (place : im.find r.eip = some (st, i)) : Loaded im c r ds es ↔
    outcome c (st.text.drop i) r.eax ds es = some (dataOf c, dataOf c) := by
  simp only [Loaded, place]

theorem loaded_c (place : im.find r.eip = none) :
    Loaded im c r ds es ↔ ds = kernelDs ∧ es = kernelDs := by
  simp only [Loaded, place]

/-- They are right now, and right for every context that is returned to. -/
def Data (im : Image) : List Level → Regs → Nat → Nat → Prop
  | [], r, ds, es => ds = dataOf r ∧ es = dataOf r
  | ℓ :: rest, r, ds, es => Loaded im ℓ.ctx r ds es ∧ Data im rest ℓ.ctx (dataOf ℓ.ctx) (dataOf ℓ.ctx)

theorem Data.again (data : Data im ls r ds es) (good : Good im mem tsk ls r)
    (late : ∀ ℓ ∈ ls.head?, ∀ st i, im.find r.eip = some (st, i) →
      user ℓ.ctx = false ∨ .movlDs ∈ st.text.drop i) : Data im ls r (dataOf r) (dataOf r) := by
  cases ls with
  | nil => exact ⟨rfl, rfl⟩
  | cons ℓ rest =>
    rw [dataOf_kernel good.1.user]
    refine ⟨?_, data.2⟩
    cases place : im.find r.eip with
    | none => exact (loaded_c place).mpr ⟨rfl, rfl⟩
    | some at_ =>
      exact (loaded_stub place).mpr (text_spared ((im.found _ _ _).mp place).2
        ((loaded_stub place).mp data.1) ((late ℓ rfl _ _ place).imp_left dataOf_kernel))

/-- C code may be anywhere outside the stubs, with any flags. -/
theorem Good.moved (good : Good im mem tsk ls r) (mode : InKernel r) (was : im.find r.eip = none)
    (mode' : InKernel r') (becomes : im.find r'.eip = none) (esp : r'.esp = r.esp) :
    Good im mem tsk ls r' := by
  cases ls with
  | nil =>
    obtain ⟨-, -, below⟩ := good.resolve_left fun inUser => inUser.not_kernel mode
    exact .inr ⟨mode', becomes, esp ▸ below⟩
  | cons ℓ rest =>
    obtain ⟨-, sane, ⟨i, x, e, n, stub⟩ | ⟨i, x, e, locals, args, called⟩, under⟩ := good
    · cases was.symm.trans stub.place
    · exact ⟨mode', sane, .inr ⟨i, x, e, locals, args, becomes, called.calls, called.number,
        esp ▸ called.holds, called.ctx⟩, under⟩

theorem Data.moved (data : Data im ls r ds es) (mode : InKernel r) (was : im.find r.eip = none)
    (mode' : InKernel r') (becomes : im.find r'.eip = none) : Data im ls r' ds es := by
  cases ls with
  | nil => rwa [Data, dataOf_kernel mode'.user, ← dataOf_kernel mode.user]
  | cons ℓ rest => exact ⟨(loaded_c becomes).mpr ((loaded_c was).mp data.1), data.2⟩

/-- The registers of the outermost context: those of the program itself. -/
def outermost : List Level → Regs → Regs
  | [], r => r
  | ℓ :: rest, _ => outermost rest ℓ.ctx

def State.regsOf (s : State) (tsk : Nat) : Regs :=
  if tsk = s.cur then s.regs else (s.tss (tssOf tsk)).regs

def State.segsOf (s : State) (tsk : Nat) : Segs :=
  if tsk = s.cur then s.segs else (s.tss (tssOf tsk)).segs

def State.program (s : State) (tsk : Nat) : Regs := outermost (s.levels tsk) (s.regsOf tsk)

/-- A page where a task can be. -/
def Place (im : Image) (tsk : Nat) : Prop :=
  tsk % pageSize = 0 ∧ pageOffset ≤ tsk ∧ tsk + pageSize < 2 ^ 32 ∧ tssOf tsk ≠ im.scratch

def TaskOk (im : Image) (q : Prop) (mem : Nat → Nat) (tsk : Nat) (ls : List Level) (r : Regs)
    (g : Segs) : Prop :=
  Good im mem tsk ls r ∧ (InKernel r → Room tsk r.esp) ∧ g.fit (r.cs % 4) = true ∧
    (q → Data im ls r g.ds g.es)

/-- No task has a page directory that was freed, save the one that is giving it up. Under the
condition `q` the data segments are in order, too. -/
structure Inv (im : Image) (q : Prop) (s : State) : Prop where
  tr : s.tr = tss0 <<< 3 ∨ s.tr = tss1 <<< 3
  base : s.trBase = tssOf s.cur
  space : s.cr3 = s.window.getD (s.tss (tssOf s.cur)).cr3
  alive : s.cr3 ∉ s.freed
  member : s.cur ∈ s.tasks
  place : ∀ t ∈ s.tasks, Place im t
  parked : ∀ t ∈ s.tasks, t ≠ s.cur →
    InKernel (s.tss (tssOf t)).regs ∧ (s.tss (tssOf t)).cr3 ∉ s.freed
  ok : ∀ t ∈ s.tasks, TaskOk im q s.mem t (s.levels t) (s.regsOf t) (s.segsOf t)
  stack0 : ∀ t ∈ s.tasks, user (s.program t) = true →
    (s.tss (tssOf t)).sp0 = t + pageSize ∧ (s.tss (tssOf t)).ss0 = kernelDs
  segments : ∀ t ∈ s.tasks, (s.tss (tssOf t)).segs.fit 0 = true

theorem TaskOk.congr (ok : TaskOk im q mem tsk ls r g)
    (same : ∀ a, tsk ≤ a → a < tsk + pageSize → mem' a = mem a) : TaskOk im q mem' tsk ls r g := by
  refine ⟨ok.1.congr fun a kernel low high => same a ?_ high, ok.2⟩
  have room : tsk + 2 * taskSize < r.esp := ok.2.1 (ok.1.of_kernel kernel)
  omega

theorem page_apart (ht : t % pageSize = 0) (hu : u % pageSize = 0) (ne : t ≠ u) :
    t + pageSize ≤ u ∨ u + pageSize ≤ t := by
  simp only [pageSize] at *
  omega

/-- Nothing changes but the registers, the segment, the stack and the levels of one task. -/
structure Only (s s' : State) (u : Nat) : Prop where
  tr : s'.tr = s.tr
  base : s'.trBase = s.trBase
  cur : s'.cur = s.cur
  stays : ∀ t ∈ s.tasks, t ∈ s'.tasks
  tasks : ∀ t ∈ s'.tasks, t ≠ u → t ∈ s.tasks
  freed : ∀ d, d ∈ s'.freed → d ∈ s.freed
  regs : u ≠ s.cur → s'.regs = s.regs ∧ s'.segs = s.segs
  tss : ∀ t ∈ s.tasks, t ≠ u → s'.tss (tssOf t) = s.tss (tssOf t)
  levels : ∀ t, t ≠ u → s'.levels t = s.levels t
  mem : ∀ a, a < u ∨ u + pageSize ≤ a → s'.mem a = s.mem a

theorem Only.regsOf (only : Only s s' u) (mem : t ∈ s.tasks) (other : t ≠ u) :
    s'.regsOf t = s.regsOf t ∧ s'.segsOf t = s.segsOf t := by
  unfold State.regsOf State.segsOf
  rw [only.cur]
  split
  · rename_i running
    exact only.regs (running ▸ other.symm)
  · rw [only.tss t mem other]
    exact ⟨rfl, rfl⟩

theorem Only.program (only : Only s s' u) (mem : t ∈ s.tasks) (other : t ≠ u) :
    s'.program t = s.program t := by
  simp only [State.program, only.levels t other, (only.regsOf mem other).1]

theorem program_cur (s : State) : s.program s.cur = outermost (s.levels s.cur) s.regs := by
  simp [State.program, State.regsOf]

theorem Only.program_cur (only : Only s s' u) :
    s'.program s.cur = outermost (s'.levels s.cur) s'.regs := by
  rw [← only.cur, Cpu.program_cur]

theorem Inv.cur_ok (inv : Inv im q s) :
    TaskOk im q s.mem s.cur (s.levels s.cur) s.regs s.segs := by
  simpa [State.regsOf, State.segsOf] using inv.ok s.cur inv.member

theorem Inv.data (inv : Inv im q s) (levels : s.levels s.cur = ls) (hq : q) :
    Data im ls s.regs s.segs.ds s.segs.es :=
  levels ▸ inv.cur_ok.2.2.2 hq

theorem Inv.fit (inv : Inv im q s) (mode : InKernel s.regs) : s.segs.fit 0 = true := by
  simpa [mode.1, kernelCs] using inv.cur_ok.2.2.1

theorem Inv.only (inv : Inv im q s) (only : Only s s' u)
    (space : s'.cr3 = s'.window.getD (s'.tss (tssOf s.cur)).cr3) (alive : s'.cr3 ∉ s'.freed)
    (place : Place im u)
    (parked : u ≠ s.cur → InKernel (s'.regsOf u) ∧ (s'.tss (tssOf u)).cr3 ∉ s'.freed)
    (ok : TaskOk im q s'.mem u (s'.levels u) (s'.regsOf u) (s'.segsOf u))
    (top : user (s'.program u) = true → (s'.tss (tssOf u)).sp0 = u + pageSize ∧
      (s'.tss (tssOf u)).ss0 = kernelDs)
    (segment : (s'.tss (tssOf u)).segs.fit 0 = true) : Inv im q s' := by
  refine ⟨only.tr ▸ inv.tr, ?_, only.cur ▸ space, alive, only.cur ▸ only.stays _ inv.member,
    ?_, ?_, ?_, ?_, ?_⟩
  · rw [only.base, only.cur, inv.base]
  all_goals
    intro t mem
    by_cases changed : t = u
  · exact changed ▸ place
  · exact inv.place t (only.tasks t mem changed)
  · subst changed
    intro other
    simpa only [State.regsOf, if_neg other] using parked (only.cur ▸ other)
  · rw [only.cur, only.tss t (only.tasks t mem changed) changed]
    intro other
    have ⟨kernel, has⟩ := inv.parked t (only.tasks t mem changed) other
    exact ⟨kernel, fun gone => has (only.freed _ gone)⟩
  · exact changed ▸ ok
  · have old := only.tasks t mem changed
    rw [only.levels t changed, (only.regsOf old changed).1, (only.regsOf old changed).2]
    refine (inv.ok t old).congr fun a low high => only.mem a ?_
    have apart := page_apart (inv.place t old).1 place.1 changed
    omega
  · exact changed ▸ top
  · have old := only.tasks t mem changed
    rw [only.program old changed, only.tss t old changed]
    exact inv.stack0 t old
  · exact changed ▸ segment
  · rw [only.tss t (only.tasks t mem changed) changed]
    exact inv.segments t (only.tasks t mem changed)

/-- The running task changes its registers, its stack and its levels. -/
structure Local (s s' : State) : Prop extends Only s s' s.cur where
  segment : s'.tss = s.tss
  space : s'.cr3 = s.cr3
  window : s'.window = s.window

theorem Local.of_levels (s : State) (r : Regs) (g : Segs) (ls : List Level)
    (out : ∀ a, a < s.cur ∨ s.cur + pageSize ≤ a → mem a = s.mem a) : Local s { s with
      regs := r, segs := g, mem := mem, levels := update s.levels s.cur ls } :=
  ⟨⟨rfl, rfl, rfl, fun _ old => old, fun _ old _ => old, fun _ old => old,
    fun other => absurd rfl other, fun _ _ _ => rfl, fun _ other => update_of_ne other .., out⟩,
    rfl, rfl, rfl⟩

theorem Local.of_mem (s : State) (r : Regs) (g : Segs)
    (out : ∀ a, a < s.cur ∨ s.cur + pageSize ≤ a → mem a = s.mem a) :
    Local s { s with regs := r, segs := g, mem := mem } := by
  have loc := Local.of_levels s r g (s.levels s.cur) out
  rwa [update_eq_self] at loc

theorem push_outside (low : s.cur ≤ s.regs.esp - 4 * ws.length)
    (room : 4 * ws.length ≤ s.regs.esp) (high : s.regs.esp ≤ s.cur + pageSize) (a : Nat)
    (out : a < s.cur ∨ s.cur + pageSize ≤ a) : (s.push ws).mem a = s.mem a :=
  Stack.store_outside s.mem (by omega)

theorem push_holds {top : Nat} (ws : List Nat) (holds : Holds s.mem s.regs.esp tail top)
    (room : 4 * ws.length ≤ s.regs.esp) :
    Holds (s.push ws).mem (s.push ws).regs.esp (ws ++ tail) top :=
  holds.push (by show s.regs.esp - 4 * ws.length + 4 * ws.length = s.regs.esp; omega)

/-- What `popa` loads is what was saved. -/
theorem popa_regs {top : Nat} (holds : Holds s.mem s.regs.esp (saved c x ++ tail) top) :
    SameGp s.popa.regs c := by
  obtain ⟨h₀, h₁, h₂, -, h₄, h₅, h₆, h₇, -⟩ := holds
  exact ⟨h₇, h₆, h₅, h₄, h₂, h₁, h₀⟩

/-- The words of a context begin where the C function is told. -/
theorem holds_ctx {sp : Nat} :
    Holds mem sp (ws ++ (saved ℓ.ctx x ++ e :: frame ℓ.ctx)) (ℓ.above tsk) ↔
      Holds mem sp ws (ℓ.ctxAt tsk) ∧
        Holds mem (ℓ.ctxAt tsk) (saved ℓ.ctx x ++ e :: frame ℓ.ctx) (ℓ.above tsk) := by
  have starts : ∀ a, Holds mem a (saved ℓ.ctx x ++ e :: frame ℓ.ctx) (ℓ.above tsk) →
      a = ℓ.ctxAt tsk := fun a holds => by
    have size := holds.size
    simp only [List.length_append, List.length_cons, saved, List.length_nil] at size
    simp only [Level.ctxAt]
    omega
  rw [Stack.holds_append]
  constructor
  · rintro ⟨front, back⟩
    have eq := starts _ back
    rw [eq] at front back
    exact ⟨front, back⟩
  · rintro ⟨front, back⟩
    rw [front.size]
    exact ⟨front, back⟩

section

variable (stub : ℓ.AtStub im s.mem s.cur s.regs i x e n) (here : ℓ.stub.text[i]? = some ins)
  (goes : ins ≠ .iret)
include stub here goes

/-- An instruction in the middle of a stub: it keeps to the stack of its task and leaves
what is above the stack pointer. -/
theorem instr_step (mode : InKernel s.regs) (high : s.regs.esp ≤ s.cur + pageSize)
    (room : Room s.cur s.regs.esp) (more : Room s.cur (s.regs.esp - ins.bytes)) :
    ∃ s', s.instr im ℓ.stub ins = some s' ∧ Local s s' ∧ s'.levels = s.levels ∧
      InKernel s'.regs ∧ Room s.cur s'.regs.esp ∧ ℓ.Now im s'.mem s.cur s'.regs ∧
        ∀ a, s.regs.esp ≤ a → s'.mem a = s.mem a := by
  obtain ⟨ends, suits⟩ := text_suits here
  have deeper := depth_succ here
  obtain ⟨place, clean, sel, holds⟩ := stub
  rw [List.drop_eq_getElem?_toList_append, here] at sel
  have next := find_next place (ends.resolve_left goes)
  have still : s.cur + 2 * taskSize < s.regs.esp - ins.bytes := more
  -- what a push needs of the room that is left, and what it leaves alone
  have pushes : ∀ ws : List Nat, 4 * ws.length = ins.bytes → s.cur ≤ s.regs.esp - 4 * ws.length ∧
      4 * ws.length ≤ s.regs.esp := by omega
  have above : ∀ ws : List Nat, 4 * ws.length = ins.bytes → ∀ a, s.regs.esp ≤ a →
      (s.push ws).mem a = s.mem a := fun ws len a low => Stack.store_outside s.mem (by omega)
  have stays : ∀ a, a < s.cur ∨ s.cur + pageSize ≤ a → s.mem a = s.mem a := fun _ _ => rfl
  -- an instruction that leaves the stack alone
  have quiet : ∀ r' : Regs, ins.effect (ℓ.stub.depth i) = ℓ.stub.depth i → 9 ≤ ℓ.stub.depth i →
      r'.eip = s.regs.eip + 1 → r'.esp = s.regs.esp →
      loads ℓ.ctx (ℓ.stub.text.drop (i + 1)) r'.eax = true → ℓ.Now im s.mem s.cur r' :=
    fun r' same deep eip esp sel => .inl ⟨i + 1, x, e, n, by rwa [eip], fun shallow => by omega, sel,
      by rwa [deeper, same, esp]⟩
  cases ins with
  | pushl m =>
    obtain ⟨least, fits⟩ := pushes [m] rfl
    have words := push_holds [m] holds fits
    rcases suits with depth | depth <;> rw [depth] at words clean deeper
    · exact ⟨_, rfl, Local.of_mem s _ _ (push_outside least fits high), rfl, mode, more,
        .inl ⟨i + 1, x, m, n, next, fun _ => clean (by omega), sel, deeper ▸ words⟩, above [m] rfl⟩
    · exact ⟨_, rfl, Local.of_mem s _ _ (push_outside least fits high), rfl, mode, more,
        .inl ⟨i + 1, x, e, m, next, fun shallow => by simp [deeper, Instr.effect] at shallow, sel,
          deeper ▸ words⟩, above [m] rfl⟩
  | pusha =>
    have depth : ℓ.stub.depth i = 1 := suits
    obtain ⟨hax, hcx, hdx, hbx, hbp, hsi, hdi⟩ := clean (by omega)
    obtain ⟨least, fits⟩ := pushes (pushaWords s.regs) rfl
    have words := push_holds (pushaWords s.regs) holds fits
    have same : pushaWords s.regs = saved ℓ.ctx s.regs.esp := by simp [pushaWords, saved, *]
    rw [depth] at words deeper
    refine ⟨_, rfl, Local.of_mem s _ _ (push_outside least fits high), rfl, mode, more,
      .inl ⟨i + 1, s.regs.esp, e, n, next, fun shallow => by simp [deeper, Instr.effect] at shallow,
        sel, ?_⟩, above _ rfl⟩
    rw [deeper]
    rw [same] at words ⊢
    exact words
  | xorlEax | movbAl =>
    exact ⟨_, rfl, Local.of_mem s _ _ stays, rfl, mode, room, quiet _ rfl suits rfl rfl sel,
      fun _ _ => rfl⟩
  | movlDs | movlEs =>
    obtain ⟨fits, later⟩ := Bool.and_eq_true_iff.mp sel
    exact ⟨_, if_pos fits, Local.of_mem s _ _ stays, rfl, mode, room,
      quiet _ rfl suits rfl rfl later, fun _ _ => rfl⟩
  | call =>
    obtain ⟨least, fits⟩ := pushes [s.regs.eip + 1] rfl
    have eip : s.regs.eip + 1 = im.entry ℓ.stub + (i + 1) := by
      have start := ((im.found _ _ _).mp place).1
      omega
    have split : pushed ℓ.ctx x e n (ℓ.stub.depth i) ++ frame ℓ.ctx =
        (if ℓ.stub.numbered then [n] else []) ++ (saved ℓ.ctx x ++ e :: frame ℓ.ctx) := by
      rw [show ℓ.stub.depth i = _ from suits.1]
      split <;> simp [pushed]
    rw [split] at holds
    have words := push_holds [s.regs.eip + 1] holds fits
    rw [← List.append_assoc, holds_ctx] at words
    refine ⟨_, rfl, Local.of_mem s _ _ (push_outside least fits high), rfl, mode, more,
      .inr ⟨i, x, e, [], if ℓ.stub.numbered then [n] else [], im.handler_c ℓ.stub, here, ?_, ?_,
        words.2⟩, above _ rfl⟩
    · split <;> rfl
    · rw [← eip]
      exact words.1
  | addlEsp =>
    rcases suits with depth | depth <;> rw [depth] at holds deeper
    · exact ⟨_, rfl, Local.of_mem s _ _ stays, rfl, mode, Nat.lt_add_right 4 room,
        .inl ⟨i + 1, x, e, n, next, fun _ => clean (by omega), sel, deeper ▸ Holds.pop [e] holds⟩,
        fun _ _ => rfl⟩
    · exact ⟨_, rfl, Local.of_mem s _ _ stays, rfl, mode, Nat.lt_add_right 4 room,
        .inl ⟨i + 1, x, e, n, next, fun shallow => by simp [deeper, Instr.effect] at shallow, sel,
          deeper ▸ Holds.pop [n] holds⟩, fun _ _ => rfl⟩
  | popa =>
    have depth : ℓ.stub.depth i = 9 := suits
    have words : pushed ℓ.ctx x e n 9 ++ frame ℓ.ctx = saved ℓ.ctx x ++ ([e] ++ frame ℓ.ctx) := by
      simp [pushed]
    rw [depth, words] at holds
    rw [depth] at deeper
    have gp := popa_regs holds
    exact ⟨_, rfl, Local.of_mem s _ _ stays, rfl, mode, Nat.lt_add_right 32 room,
      .inl ⟨i + 1, x, e, n, next, fun _ => gp, gp.1.symm ▸ sel, deeper ▸ holds.pop (saved ℓ.ctx x)⟩,
      fun _ _ => rfl⟩
  | iret => exact absurd rfl goes

theorem instr_loaded (ran : s.instr im ℓ.stub ins = some s')
    (loaded : Loaded im ℓ.ctx s.regs s.segs.ds s.segs.es) :
    Loaded im ℓ.ctx s'.regs s'.segs.ds s'.segs.es := by
  obtain ⟨ends, suits⟩ := text_suits here
  have next := find_next stub.place (ends.resolve_left goes)
  rw [loaded_stub stub.place, List.drop_eq_getElem?_toList_append, here] at loaded
  cases ins with
  | iret => exact absurd rfl goes
  | call =>
    cases ran
    exact (loaded_c (im.handler_c _)).mpr (Option.ite_none_right_eq_some.mp loaded).1
  | popa =>
    cases ran
    have holds := stub.holds
    rw [show ℓ.stub.depth i = 9 from suits, pushed, List.append_assoc] at holds
    have eax : s.popa.next.regs.eax = ℓ.ctx.eax := (popa_regs holds).1
    exact (loaded_stub next).mpr (eax ▸ loaded)
  | movlDs | movlEs =>
    obtain ⟨-, eq⟩ := Option.ite_none_right_eq_some.mp ran
    cases eq
    exact (loaded_stub next).mpr loaded
  | _ =>
    cases ran
    exact (loaded_stub next).mpr loaded

end

theorem instr_fit (goes : ins ≠ .iret) (ran : s.instr im st ins = some s')
    (fit : s.segs.fit 0 = true) : s'.segs.fit 0 = true := by
  cases ins with
  | iret => exact absurd rfl goes
  | movlDs | movlEs =>
    obtain ⟨fits, eq⟩ := Option.ite_none_right_eq_some.mp ran
    cases eq
    simp_all [Segs.fit, State.next]
  | _ =>
    cases ran
    exact fit

/-- The return of a stub gives back every register of the context. -/
theorem iret_step (stub : ℓ.AtStub im s.mem s.cur s.regs i x e n)
    (here : ℓ.stub.text[i]? = some .iret) (levels : s.levels s.cur = ℓ :: rest)
    (mode : InKernel s.regs) (good : Good im s.mem s.cur rest ℓ.ctx) :
    ∃ s', s.iret = some s' ∧ Local s s' ∧ s'.levels s.cur = rest ∧ s'.regs = ℓ.ctx ∧
      s'.mem = s.mem := by
  have depth : ℓ.stub.depth i = 0 := (text_suits here).2
  obtain ⟨-, clean, -, holds⟩ := stub
  obtain ⟨hax, hcx, hdx, hbx, hbp, hsi, hdi⟩ := clean (by omega)
  rw [depth] at holds
  have popped : Holds s.mem s.regs.esp (frame ℓ.ctx) (ℓ.above s.cur) := holds
  have loc := fun r g => Local.of_levels s r g (s.levels s.cur).tail fun _ _ => rfl
  cases from_user : user ℓ.ctx with
  | true =>
    simp only [frame, from_user, if_true] at popped
    obtain ⟨hip, hcs, hfl, hsp, hss, -⟩ := popped
    obtain ⟨cs, ss⟩ := (good.of_user from_user).1
    have inner : codeSel 0 (s.mem (s.regs.esp + 4)) = false := by rw [hcs, cs]; rfl
    have sels : codeSel 3 (s.mem (s.regs.esp + 4)) = true ∧
        stackSel 3 (s.mem (s.regs.esp + 16)) = true := by rw [hcs, hss, cs, ss]; exact ⟨rfl, rfl⟩
    have back : { s.regs with
        eip := s.mem s.regs.esp, cs := s.mem (s.regs.esp + 4), eflags := s.mem (s.regs.esp + 8)
        esp := s.mem (s.regs.esp + 12), ss := s.mem (s.regs.esp + 16) } = ℓ.ctx := by
      simp only [hip, hcs, hfl, hsp, hss, hax, hcx, hdx, hbx, hbp, hsi, hdi]
    simp only [State.iret, inner, Bool.false_eq_true, if_false, if_pos sels, back]
    exact ⟨_, rfl, loc _ _, by simp [levels], rfl, rfl⟩
  | false =>
    have inKernel := good.of_kernel from_user
    simp only [frame, Level.above, from_user, Bool.false_eq_true, if_false] at popped
    obtain ⟨hip, hcs, hfl, hsp⟩ := popped
    have sp : s.regs.esp + 12 = ℓ.ctx.esp := hsp
    have sel : codeSel 0 (s.mem (s.regs.esp + 4)) = true := by rw [hcs, inKernel.1]; rfl
    have back : { s.regs with
        eip := s.mem s.regs.esp, cs := s.mem (s.regs.esp + 4), eflags := s.mem (s.regs.esp + 8)
        esp := s.regs.esp + 12 } = ℓ.ctx := by
      simp only [hip, hcs, hfl, sp, hax, hcx, hdx, hbx, hbp, hsi, hdi, mode.2, ← inKernel.2]
    simp only [State.iret, if_pos sel, back]
    exact ⟨_, rfl, loc _ _, by simp [levels], rfl, rfl⟩

theorem codeSel_rpl {cpl sel : Nat} (fits : codeSel cpl sel = true) : sel % 4 = cpl :=
  (of_decide_eq_true fits).1

theorem iret_data (ran : s.iret = some s')
    (ready : s.segs.ds = dataOf s'.regs ∧ s.segs.es = dataOf s'.regs) :
    s'.segs.ds = dataOf s'.regs ∧ s'.segs.es = dataOf s'.regs := by
  simp only [State.iret] at ran
  split at ran
  · cases ran
    exact ready
  split at ran
  · rename_i sels
    cases ran
    simp only [dataOf, user, codeSel_rpl sels.1, decide_true, if_true] at ready ⊢
    rw [ready.1, ready.2]
    exact ⟨rfl, rfl⟩
  · cases ran

/-- What is left of a selector when the kernel returns can be there in user code. -/
theorem dataSel_outer {sel : Nat} (fits : dataSel 0 sel = true) : dataSel 3 (outer sel) = true := by
  unfold outer
  split
  · rename_i segment
    simp only [dataSel, dplOf] at fits ⊢
    split at fits
    · simp_all
    · have rpl : sel % 4 ≤ 3 := by omega
      have kernel : ¬ (sel / 8 = 1 ∨ sel / 8 = 2) := by omega
      simp_all
  · rfl

theorem iret_fit (ran : s.iret = some s') (fit : s.segs.fit 0 = true) :
    s'.segs.fit (s'.regs.cs % 4) = true := by
  simp only [State.iret] at ran
  split at ran
  · rename_i sel
    cases ran
    simpa only [codeSel_rpl sel] using fit
  split at ran
  · rename_i sels
    cases ran
    simp only [codeSel_rpl sels.1, Segs.fit, List.all_cons, List.all_nil, Bool.and_true,
      Bool.and_eq_true] at fit ⊢
    obtain ⟨ds, es, fs, gs⟩ := fit
    exact ⟨dataSel_outer ds, dataSel_outer es, dataSel_outer fs, dataSel_outer gs⟩
  · cases ran

end ScaraOS.Cpu
