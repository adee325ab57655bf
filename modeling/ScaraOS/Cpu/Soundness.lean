import ScaraOS.Cpu.Tasks

/-! Whole runs of the machine, from boot. -/
namespace ScaraOS.Cpu

open Function Run

variable {im : Image} {s s' : State} {a : Spec} {l : Label} {ls : List Label} {pgd : Nat} {q : Prop}

theorem booted_inv (setup : Setup im s pgd) :
    ∃ s', booted im s pgd = some s' ∧ Inv im q s' ∧ ∀ p, Follows s' ⟨s'.cur, p⟩ := by
  let tsk := thisTask s.regs.esp
  obtain ⟨inC, room, low, high, apart, space, data, fit⟩ := setup
  have aligned : tsk % pageSize = 0 := by
    simp only [tsk, thisTask, pageSize]
    omega
  have below : s.regs.esp < tsk + pageSize := by
    simp only [tsk, thisTask, pageSize]
    omega
  have word : tssOf tsk < 2 ^ 32 := by
    simp only [tssOf, pageSize] at high ⊢
    omega
  have read : (tssDesc (tssOf tsk)).base = tssOf tsk := base_stndDesc word _ _
  have runs : ∃ g, booted im s pgd = some { s with
      tss := update s.tss (tssOf tsk) (kthreadTss tsk pgd), freed := [], tasks := [tsk], cur := tsk
      levels := fun _ => [], window := none, tr := tss0 <<< 3, trBase := tssOf tsk, gdt := g } := by
    simp only [booted, ia32GdtFinalize, taskInitKthread, State.loadTr, State.setDesc,
      show tss0 <<< 3 / 8 = tss0 from rfl, update_self, tssDesc_ready, if_true]
    exact ⟨_, congrArg some (congrArg (fun b => ({ s with
      tss := update s.tss (tssOf tsk) (kthreadTss tsk pgd), freed := [], tasks := [tsk], cur := tsk
      levels := fun _ => [], window := none, tr := tss0 <<< 3, trBase := b, gdt := _ } : State)) read)⟩
  obtain ⟨g, runs⟩ := runs
  have kernel : user s.regs = false := inC.1.user
  refine ⟨_, runs, ⟨.inl rfl, rfl, ?_, List.not_mem_nil, List.mem_singleton_self _, ?_, ?_, ?_, ?_, ?_⟩,
    fun p => ⟨rfl, ?_⟩⟩
  · simp [space, kthreadTss]
  all_goals
    intro t mem
    obtain rfl := List.mem_singleton.mp mem
  · exact ⟨aligned, low, high, apart⟩
  · exact fun other => absurd rfl other
  · rw [State.regsOf, State.segsOf, if_pos rfl, if_pos rfl]
    exact ⟨.inr ⟨inC.1, inC.2, below⟩, fun _ => room, by rwa [inC.1.1],
      fun _ => by rwa [Data, dataOf_kernel kernel]⟩
  · intro mode
    rw [program_cur] at mode
    exact absurd (kernel.symm.trans mode) Bool.false_ne_true
  · have segs : (update s.tss (tssOf tsk) (kthreadTss tsk pgd) (tssOf tsk)).segs =
      ⟨kernelDs, kernelDs, kernelDs, kernelDs⟩ := by rw [update_self]; rfl
    exact segs ▸ rfl
  · intro mode
    rw [program_cur] at mode
    exact absurd (kernel.symm.trans mode) Bool.false_ne_true

theorem step_keeps (inv : Inv im q s) (legal : Legal im s l) (calm : q → Calm im s l) :
    Keeps im q s l := by
  cases l with
  | user r g => exact user_keeps inv legal calm
  | take vec err => exact take_keeps inv legal calm
  | tick => exact tick_keeps inv legal
  | work r sp words => exact work_keeps inv legal
  | dispatch => exact dispatch_keeps inv legal
  | result v => exact result_keeps inv legal
  | fixup eip => exact fixup_keeps inv legal
  | ret => exact ret_keeps inv legal
  | switch next => exact switch_keeps inv legal
  | clone tsk pgd ip sp => exact clone_keeps inv legal
  | thread tsk pgd func priv => exact thread_keeps inv legal
  | free tsk => exact free_keeps inv legal
  | useCtx pgd => exact useCtx_keeps inv legal
  | putCtx => exact putCtx_keeps inv legal
  | exec pgd ip sp => exact exec_keeps inv legal

theorem run_keeps (inv : Inv im q s) (follows : Follows s a) (legal : Along (step im) (Legal im) s ls)
    (calm : q → Along (step im) (Calm im) s ls) :
    ∃ s', exec (step im) s ls = some s' ∧ Inv im q s' ∧ Follows s' (ls.foldl Spec.step a) := by
  induction ls generalizing s a with
  | nil => exact ⟨s, rfl, inv, follows⟩
  | cons l ls ih =>
    obtain ⟨m, ran, inv', -, next⟩ := step_keeps inv legal.1 fun hq => (calm hq).1
    obtain ⟨s', later, final⟩ := ih inv' (next a follows) (legal.2 m ran) fun hq => (calm hq).2 m ran
    exact ⟨s', (exec_cons _ _ _ _ _).mpr ⟨m, ran, later⟩, final⟩

theorem run_from_boot {b : State} (setup : Setup im s pgd) (boots : booted im s pgd = some b)
    (legal : Along (step im) (Legal im) b ls) (calm : q → Along (step im) (Calm im) b ls)
    (ran : exec (step im) b ls = some s') (p : Nat → Regs) :
    Inv im q s' ∧ Follows s' (ls.foldl Spec.step ⟨b.cur, p⟩) := by
  obtain ⟨b', boots', inv, follows⟩ := booted_inv setup
  obtain rfl := Option.some.inj (boots'.symm.trans boots)
  obtain ⟨u, ran', final⟩ := run_keeps inv (follows p) legal calm
  exact Option.some.inj (ran'.symm.trans ran) ▸ final

/-- While a task does not run, its segment and its stack stay as they are. -/
theorem run_spares {t : Nat} (inv : Inv im False s) (mem : t ∈ s.tasks) (other : t ≠ s.cur)
    (legal : Along (step im) (Legal im) s ls) (away : .switch t ∉ ls) (lives : .free t ∉ ls)
    (ran : exec (step im) s ls = some s') :
    Inv im False s' ∧ t ∈ s'.tasks ∧ t ≠ s'.cur ∧ s'.tss (tssOf t) = s.tss (tssOf t) ∧
      ∀ a, t ≤ a → a < t + pageSize → s'.mem a = s.mem a := by
  induction ls generalizing s with
  | nil =>
    cases ran
    exact ⟨inv, mem, other, rfl, fun _ _ _ => rfl⟩
  | cons l ls ih =>
    obtain ⟨m, ran', inv', spares, -⟩ := step_keeps inv legal.1 False.elim
    obtain ⟨m', first, later⟩ := (exec_cons _ _ _ _ _).mp ran
    obtain rfl := Option.some.inj (ran'.symm.trans first)
    obtain ⟨now, never⟩ := not_or.mp (List.mem_cons.not.mp away)
    obtain ⟨alive, after⟩ := not_or.mp (List.mem_cons.not.mp lives)
    obtain ⟨mem', other', tss, -, stack⟩ := spares t mem other (Ne.symm now) (Ne.symm alive)
    obtain ⟨final, mem'', other'', tss', stack'⟩ :=
      ih inv' mem' other' (legal.2 m ran') never after later
    exact ⟨final, mem'', other'', tss'.trans tss, fun a low high =>
      (stack' a low high).trans (stack a low high)⟩

/-- Every stub has 16 addresses, the last of which is C code. -/
def sampleCode : Stub → Nat
  | .gate .intNull => 0
  | .gate .panic => 1
  | .gate .syscall => 2
  | .fork => 3
  | .gate (.exc n) => 2 * n + 4
  | .gate (.irq n) => 2 * n + 5

def sampleStub : Nat → Stub
  | 0 => .gate .intNull
  | 1 => .gate .panic
  | 2 => .gate .syscall
  | 3 => .fork
  | n + 4 => .gate (if n % 2 = 0 then .exc (n / 2) else .irq (n / 2))

theorem sampleStub_code (st : Stub) : sampleStub (sampleCode st) = st := by
  rcases st with (_ | n | n | _ | _) | _ <;> simp [sampleCode, sampleStub]
  omega

theorem sampleCode_stub (n : Nat) : sampleCode (sampleStub n) = n := by
  unfold sampleStub
  split <;> try rfl
  split <;> simp only [sampleCode] <;> omega

theorem text_short (st : Stub) : st.text.length < 15 := by
  unfold Stub.text
  split <;> (try split) <;> simp [doIntr, doExc, doExcf, doIrq, callC]

def sampleFind (a : Nat) : Option (Stub × Nat) :=
  let st := sampleStub (a / 16)
  if a % 16 < st.text.length then some (st, a % 16) else none

theorem sampleFind_iff (a : Nat) (st : Stub) (i : Nat) :
    sampleFind a = some (st, i) ↔ a = 16 * sampleCode st + i ∧ i < st.text.length := by
  have short := text_short st
  constructor
  · intro found
    obtain ⟨inside, eq⟩ := Option.ite_none_right_eq_some.mp found
    cases eq
    rw [sampleCode_stub]
    exact ⟨by omega, inside⟩
  · rintro ⟨rfl, bound⟩
    have stub : (16 * sampleCode st + i) / 16 = sampleCode st := by omega
    have place : (16 * sampleCode st + i) % 16 = i := by omega
    simp only [sampleFind, stub, place, sampleStub_code, if_pos bound]

def sampleImage : Image :=
  ⟨fun st => 16 * sampleCode st, sampleFind, fun _ => 15, 15, 0, sampleFind_iff, fun _ => rfl, rfl,
    Nat.two_pow_pos 32⟩

def sampleStart : State where
  regs := { Regs.zero with esp := 0xc0001ffc, eip := 15, cs := kernelCs, ss := kernelDs }
  segs := ⟨kernelDs, kernelDs, kernelDs, kernelDs⟩
  cr3 := 0
  tr := 0
  trBase := 0
  gdt _ := tssDesc 0
  tss _ := kthreadTss 0 0
  mem _ := 0
  intrCtx _ := 0
  freed := []
  tasks := []
  cur := 0
  levels _ := []
  window := none

theorem sampleStart_setup : Setup sampleImage sampleStart 0 where
  inC := ⟨⟨rfl, rfl⟩, rfl⟩
  room := show thisTask 0xc0001ffc + 2 * taskSize < 0xc0001ffc by decide
  low := by decide
  high := by decide
  apart := by decide
  space := rfl
  data := ⟨rfl, rfl⟩
  fit := rfl

/-- A kernel thread begins a program, which begins another and calls the system; a line interrupts
the call. -/
def sampleWork : List Label :=
  let begun := execTss 0xc0002000 0x5000 0x1000 0x2000
  [.useCtx 0x4000, .exec 0x4000 0x1000 0x2000, .take 0xff 0] ++ List.replicate 7 .tick ++
  [.dispatch, .useCtx 0x5000, .putCtx, .exec 0x5000 0x1000 0x2000,
    .user { begun.regs with eax := 3, ebx := 7, eip := 0x1002 } begun.segs, .take 0xff 0] ++
  List.replicate 7 .tick ++ [.dispatch, .take 0x20 0] ++ List.replicate 8 .tick ++
  .ret :: List.replicate 6 .tick

def sampleRun : List Label :=
  .thread 0xc0002000 0 0 0 :: .switch 0xc0002000 :: (sampleWork ++
    .result 42 :: .ret :: List.replicate 5 .tick)

theorem sampleRun_legal {b : State} (boots : booted sampleImage sampleStart 0 = some b) :
    Along (step sampleImage) (Legal sampleImage) b sampleRun := by
  cases boots
  decide +kernel

/-- It ends in the second program, with the result of its call. -/
theorem sampleRun_ends : ∃ b s', booted sampleImage sampleStart 0 = some b ∧
    exec (step sampleImage) b sampleRun = some s' ∧ user s'.regs = true ∧ s'.regs.eax = 42 := by
  have ends : ((booted sampleImage sampleStart 0).bind fun b =>
      exec (step sampleImage) b sampleRun).map (fun s => (user s.regs, s.regs.eax)) =
        some (true, 42) := by
    decide +kernel
  obtain ⟨s', ran, eq⟩ := Option.map_eq_some_iff.mp ends
  obtain ⟨b, boots, ran⟩ := Option.bind_eq_some_iff.mp ran
  obtain ⟨mode, eax⟩ := Prod.mk.inj eq
  exact ⟨b, s', boots, ran, mode, eax⟩

/-- The states the kernel comes to. -/
def Reached (im : Image) (s : State) : Prop :=
  ∃ s₀ pgd b ls, Setup im s₀ pgd ∧ booted im s₀ pgd = some b ∧
    Along (step im) (Legal im) b ls ∧ exec (step im) b ls = some s

theorem Reached.inv (reached : Reached im s) : Inv im False s := by
  obtain ⟨s₀, pgd, b, ls, setup, boots, legal, ran⟩ := reached
  exact (run_from_boot setup boots legal False.elim ran fun _ => Regs.zero).1

-- the switch inside the window that `mem_ctx_put` can make of `sem_P`: the task does not come back
example : ((booted sampleImage sampleStart 0).bind fun b => exec (step sampleImage) b
    [.thread 0xc0002000 0x4000 0 0, .switch 0xc0002000, .useCtx 0x5000, .putCtx,
      .switch 0xc0001000, .switch 0xc0002000]).isNone = true := by
  decide +kernel

/-- Whatever interrupts, nests and switches, a program finds in the registers what its own
code, its system calls, its start and its birth have put there. -/
theorem program_has_registers_of_its_own {b : State} (setup : Setup im s pgd)
    (boots : booted im s pgd = some b) (legal : Along (step im) (Legal im) b ls)
    (ran : exec (step im) b ls = some s') (mode : user s'.regs = true) (p : Nat → Regs) :
    (ls.foldl Spec.step ⟨b.cur, p⟩).cur = s'.cur ∧
      (ls.foldl Spec.step ⟨b.cur, p⟩).program s'.cur = s'.regs := by
  obtain ⟨inv, final⟩ := run_from_boot setup boots legal False.elim ran p
  have outside : s'.program s'.cur = s'.regs := by
    rw [program_cur, (inv.cur_ok.1.of_user mode).2, outermost]
  refine ⟨final.cur, ?_⟩
  rw [final.program _ inv.member (outside.symm ▸ mode), outside]

theorem program_has_registers_of_its_own_init : ∃ b s', booted sampleImage sampleStart 0 = some b ∧
    exec (step sampleImage) b sampleRun = some s' ∧ s'.regs.eax = 42 ∧
    (sampleRun.foldl Spec.step ⟨b.cur, fun _ => Regs.zero⟩).program s'.cur = s'.regs := by
  obtain ⟨b, s', boots, ran, mode, eax⟩ := sampleRun_ends
  exact ⟨b, s', boots, ran, eax, (program_has_registers_of_its_own sampleStart_setup boots
    (sampleRun_legal boots) ran mode _).2⟩

/-- A task that is switched out comes back to its registers and its stack, whatever the
others have done. -/
theorem switched_out_task_resumes {next : Nat} (reached : Reached im s)
    (legal : Along (step im) (Legal im) s (.switch next :: (ls ++ [.switch s.cur])))
    (away : .switch s.cur ∉ ls) (lives : .free s.cur ∉ ls) :
    ∃ s', exec (step im) s (.switch next :: (ls ++ [.switch s.cur])) = some s' ∧ s'.cur = s.cur ∧
      s'.regs = s.regs ∧ s'.segs = s.segs ∧
      ∀ a, s.cur ≤ a → a < s.cur + pageSize → s'.mem a = s.mem a := by
  have inv := reached.inv
  obtain ⟨s', ran, -⟩ := run_keeps inv (a := ⟨s.cur, s.program⟩) ⟨rfl, fun _ _ _ => rfl⟩ legal
    False.elim
  obtain ⟨-, mem, other, -⟩ := legal.1
  obtain ⟨g, first⟩ := switch_eq inv mem other
  obtain ⟨m, first', later⟩ := (exec_cons _ _ _ _ _).mp ran
  obtain ⟨m', first'', inv₁, -⟩ := step_keeps inv legal.1 False.elim
  obtain rfl := Option.some.inj (first''.symm.trans first')
  obtain rfl := Option.some.inj (first.symm.trans first')
  have front := legal.2 _ first
  rw [exec_append] at later
  obtain ⟨u, middle, last⟩ := Option.bind_eq_some_iff.mp later
  obtain ⟨inv₂, mem₂, other₂, tss, stack⟩ := run_spares inv₁ inv.member other.symm
    (along_append front middle).1 away lives middle
  obtain ⟨g', back⟩ := switch_eq inv₂ mem₂ other₂
  obtain ⟨v, last', ends⟩ := (exec_cons _ _ _ _ _).mp last
  cases ends
  obtain rfl := Option.some.inj (back.symm.trans last')
  refine ⟨_, ran, rfl, ?_, ?_, stack⟩
  · exact (congrArg Tss.regs tss).trans (congrArg Tss.regs inv.saved.1)
  · exact (congrArg Tss.segs tss).trans (congrArg Tss.segs inv.saved.1)

theorem switched_out_task_resumes_idle : ∃ b s s', booted sampleImage sampleStart 0 = some b ∧
    exec (step sampleImage) b (sampleRun.take 1) = some s ∧ exec (step sampleImage) s
      (.switch 0xc0002000 :: (sampleWork ++ [.switch s.cur])) = some s' ∧ s'.regs = s.regs := by
  have first : Along (step sampleImage) (Legal sampleImage) _ (sampleRun.take 1) :=
    ⟨(sampleRun_legal rfl).1, fun _ _ => trivial⟩
  have reached : Reached sampleImage _ :=
    ⟨sampleStart, 0, _, sampleRun.take 1, sampleStart_setup, rfl, first, rfl⟩
  obtain ⟨s', ran, -, regs, -⟩ := @switched_out_task_resumes _ _ sampleWork 0xc0002000 reached
    (by decide +kernel) (by decide +kernel) (by decide +kernel)
  exact ⟨_, _, s', rfl, rfl, ran, regs⟩

/-- Kernel code has the data segments of the kernel, and a program those of user code, if
nothing interrupts a stub once it has loaded these. -/
theorem data_segments_in_order {b : State} (setup : Setup im s pgd) (boots : booted im s pgd = some b)
    (legal : Along (step im) (Legal im) b ls) (calm : Along (step im) (Calm im) b ls)
    (ran : exec (step im) b ls = some s') :
    (user s'.regs = true → s'.segs.ds = userDs ||| cpl3 ∧ s'.segs.es = userDs ||| cpl3) ∧
      (InC im s' → s'.segs.ds = kernelDs ∧ s'.segs.es = kernelDs) := by
  obtain ⟨inv, -⟩ := run_from_boot (q := True) setup boots legal (fun _ => calm) ran fun _ => Regs.zero
  constructor
  · intro mode
    have data := inv.data (inv.cur_ok.1.of_user mode).2 trivial
    rwa [Data, dataOf, mode] at data
  · intro inC
    cases levels : s'.levels s'.cur with
    | nil => simpa only [Data, dataOf_kernel inC.1.user] using inv.data levels trivial
    | cons ℓ rest => exact (loaded_c inC.2).mp (inv.data levels trivial).1

theorem data_segments_in_order_init : ∃ b s', booted sampleImage sampleStart 0 = some b ∧
    exec (step sampleImage) b sampleRun = some s' ∧ s'.segs.ds = userDs ||| cpl3 := by
  obtain ⟨b, s', boots, ran, mode, -⟩ := sampleRun_ends
  have calm : Along (step sampleImage) (Calm sampleImage) b sampleRun := by
    cases boots
    decide +kernel
  exact ⟨b, s', boots, ran, ((data_segments_in_order sampleStart_setup boots (sampleRun_legal boots)
    calm ran).1 mode).1⟩

-- a timer interrupt as a system call returns: the program goes on without data segments
example : ((booted sampleImage sampleStart 0).bind fun b => exec (step sampleImage) b (sampleRun ++
    .take 0xff 0 :: List.replicate 7 .tick ++ .ret :: List.replicate 2 .tick ++
    .take 0x20 0 :: List.replicate 8 .tick ++ .ret :: List.replicate 9 .tick)).map
      (fun s => (user s.regs, s.segs.ds, s.segs.es)) = some (true, 0, 0) := by
  decide +kernel

end ScaraOS.Cpu
