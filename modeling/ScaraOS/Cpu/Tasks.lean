import ScaraOS.Cpu.Steps

/-! What becomes of the invariant when the kernel goes from one task to another: a switch, the
birth of a task, a new program. -/
namespace ScaraOS.Cpu

open Function
open Stack (Holds)

variable {im : Image} {s : State} {l : Label} {t tsk pgd ip sp : Nat} {q : Prop}

theorem thisTask_eq (inv : Inv im q s) (mode : InKernel s.regs) : thisTask s.regs.esp = s.cur := by
  have low : s.cur + 2 * taskSize < s.regs.esp := inv.cur_ok.2.1 mode
  have high := inv.cur_ok.1.below mode
  have place := (inv.place _ inv.member).1
  simp only [thisTask, pageSize] at *
  omega

/-- The descriptor of a segment is usable as soon as it is made. -/
theorem tssDesc_ready (base : Nat) :
    (tssDesc base).available = true ∧ tssSize - 1 ≤ (tssDesc base).limit := by
  have access : (tssDesc base).access = 0x89 := rfl
  have granular : (tssDesc base).granularity = 0xc := rfl
  have low : (tssDesc base).limitLow = 0x67 := rfl
  simp only [Desc.available, Desc.limit, access, granular, low, tssSize]
  exact ⟨rfl, by simp⟩

/-- The task segments once the processor has saved the running task in them. -/
def State.savedTss (s : State) : Nat → Tss :=
  update s.tss s.trBase { s.tss s.trBase with regs := s.regs, segs := s.segs }

theorem ljmp_made {k base : Nat} (slot : k = tss0 ∨ k = tss1) (word : base < 2 ^ 32)
    (loads : (s.savedTss base).loads = true) (alive : (s.savedTss base).cr3 ∉ s.freed) :
    ∃ g, (s.setDesc k (tssDesc base)).ljmp (k <<< 3) = some { s with
      tss := s.savedTss, regs := (s.savedTss base).regs, segs := (s.savedTss base).segs
      cr3 := (s.savedTss base).cr3, tr := k <<< 3, trBase := base, gdt := g } := by
  have index : k <<< 3 / 8 = k := by rcases slot with rfl | rfl <;> rfl
  have read : (tssDesc base).base = base := base_stndDesc word _ _
  simp only [State.ljmp, State.setDesc, index, update_self, read]
  exact ⟨_, if_pos ⟨(tssDesc_ready base).1, (tssDesc_ready base).2, loads, alive⟩⟩

theorem tssOf_ne {u : Nat} (ne : t ≠ u) : tssOf t ≠ tssOf u := by
  simp only [tssOf]
  omega

theorem otherTr_slot (tr : Nat) : otherTr tr = tss0 ∨ otherTr tr = tss1 := by
  unfold otherTr
  split <;> simp

section

variable (inv : Inv im q s)
include inv

/-- The index in the task register is one of the two. -/
theorem Inv.slot : s.tr >>> 3 = tss0 ∨ s.tr >>> 3 = tss1 := by
  rcases inv.tr with tr | tr <;> rw [tr] <;> simp [tss0, tss1]

theorem Inv.no_bug : ¬ (s.tr >>> 3 ≠ tss0 ∧ s.tr >>> 3 ≠ tss1) := fun other =>
  inv.slot.elim other.1 other.2

theorem Inv.tss_word (mem : t ∈ s.tasks) : tssOf t < 2 ^ 32 := by
  have place := (inv.place t mem).2.2.1
  simp only [tssOf, pageSize] at *
  omega

/-- A parked task passes the check `sched` makes. -/
theorem Inv.not_overflowed (mem : t ∈ s.tasks) (other : t ≠ s.cur) :
    taskStackOverflowed (s.tss (tssOf t)) t = some false := by
  have kernel := (inv.parked t mem other).1
  have ok := inv.ok t mem
  simp only [State.regsOf, if_neg other] at ok
  have room : t + 2 * taskSize < (s.tss (tssOf t)).regs.esp := ok.2.1 kernel
  have low := (inv.place t mem).2.1
  have cpl : ¬ (s.tss (tssOf t)).regs.cs &&& cpl3 = cpl3 := by rw [kernel.1]; decide
  have high : ¬ (s.tss (tssOf t)).regs.esp < pageOffset := by omega
  simp [taskStackOverflowed, cpl, high]
  omega

theorem Inv.saved :
    s.savedTss (tssOf s.cur) = { s.tss (tssOf s.cur) with regs := s.regs, segs := s.segs } ∧
      ∀ t, t ≠ s.cur → s.savedTss (tssOf t) = s.tss (tssOf t) := by
  rw [State.savedTss, inv.base]
  exact ⟨update_self .., fun t other => update_of_ne (tssOf_ne other) ..⟩

/-- A parked task has what the processor loads. -/
theorem Inv.loads (mem : t ∈ s.tasks) (other : t ≠ s.cur) : (s.tss (tssOf t)).loads = true := by
  obtain ⟨⟨cs, ss⟩, -⟩ := inv.parked t mem other
  have fit : (s.tss (tssOf t)).segs.fit 0 = true := inv.segments t mem
  simp only [Tss.loads, cs, ss, decide_eq_true_eq]
  exact ⟨rfl, rfl, fit⟩

theorem switch_eq {next : Nat} (mem : next ∈ s.tasks) (other : next ≠ s.cur) :
    ∃ g, step im s (.switch next) = some { s with
      tss := s.savedTss, regs := (s.tss (tssOf next)).regs, segs := (s.tss (tssOf next)).segs
      cr3 := (s.tss (tssOf next)).cr3, tr := otherTr (s.tr >>> 3) <<< 3, trBase := tssOf next
      gdt := g, cur := next } := by
  have kept := inv.saved.2 next other
  obtain ⟨g, jumped⟩ := ljmp_made (s := s) (otherTr_slot (s.tr >>> 3)) (inv.tss_word mem)
    (kept ▸ inv.loads mem other) (kept ▸ (inv.parked next mem other).2)
  rw [kept] at jumped
  exact ⟨g, by simp only [step, schedTo, inv.not_overflowed mem other, switchTask,
    if_neg inv.no_bug, jumped, Option.map_some]⟩

/-- Saving the running task and loading another leaves every task the registers it has. -/
theorem switch_keeps {next : Nat} (legal : Legal im s (.switch next)) :
    Keeps im q s (.switch next) := by
  obtain ⟨inC, mem, other, outside⟩ := legal
  obtain ⟨g, runs⟩ := switch_eq inv mem other
  obtain ⟨own, saved⟩ := inv.saved
  have space : s.cr3 = (s.tss (tssOf s.cur)).cr3 := by simpa [outside] using inv.space
  have regsOf : ∀ t, (if t = next then (s.tss (tssOf next)).regs else (s.savedTss (tssOf t)).regs) =
      s.regsOf t ∧ (if t = next then (s.tss (tssOf next)).segs else (s.savedTss (tssOf t)).segs) =
      s.segsOf t := by
    intro t
    unfold State.regsOf State.segsOf
    by_cases running : t = s.cur
    · simp [running, own, other.symm]
    · split <;> simp_all
  refine ⟨_, runs, ⟨?_, rfl, ?_, (inv.parked next mem other).2, mem, inv.place, ?_, ?_, ?_, ?_⟩,
    fun t member ne switched _ =>
      ⟨member, fun eq => switched (by rw [eq]), saved t ne, rfl, fun _ _ _ => rfl⟩,
    fun a follows => ⟨rfl, ?_⟩⟩
  · rcases otherTr_slot (s.tr >>> 3) with slot | slot <;> simp [slot]
  · simp [outside, saved next other]
  · intro t member ne
    by_cases running : t = s.cur
    · subst running
      simpa [own] using ⟨inC.1, space ▸ inv.alive⟩
    · simpa [saved t running] using inv.parked t member running
  · intro t member
    have ok := inv.ok t member
    rw [← (regsOf t).1, ← (regsOf t).2] at ok
    exact ok
  · intro t member mode
    simp only [State.program, State.regsOf, (regsOf _).1] at mode
    have top := inv.stack0 t member mode
    by_cases running : t = s.cur
    · subst running
      simpa [own] using top
    · simpa [saved t running] using top
  · intro t member
    by_cases running : t = s.cur
    · subst running
      simpa [own] using inv.fit inC.1
    · simpa [saved t running] using inv.segments t member
  · intro t member mode
    simp only [State.program, State.regsOf, (regsOf _).1] at mode ⊢
    exact follows.program t member mode

end

/-- A task is made in a page of its own. -/
def State.adds (s : State) (tsk : Nat) (mem : Nat → Nat) (tss : Tss) (ls : List Level) : State :=
  { s with
    mem := mem, tss := update s.tss (tssOf tsk) tss, freed := s.freed.filter (· ≠ tss.cr3)
    tasks := tsk :: s.tasks, levels := update s.levels tsk ls }

theorem mem_of_filter {d : Nat} {freed : List Nat} (mem : d ∈ freed.filter (· ≠ pgd)) : d ∈ freed :=
  (List.mem_filter.mp mem).1

theorem not_mem_filter (pgd : Nat) (freed : List Nat) : pgd ∉ freed.filter (· ≠ pgd) := by simp

theorem adds_keeps {mem : Nat → Nat} {tss : Tss} {ls : List Level} (inv : Inv im q s)
    (fresh : Fresh im s tsk) (ran : step im s l = some (s.adds tsk mem tss ls))
    (outside : ∀ a, a < tsk ∨ tsk + pageSize ≤ a → mem a = s.mem a) (kernel : InKernel tss.regs)
    (fit : tss.segs.fit 0 = true) (ok : TaskOk im q mem tsk ls tss.regs tss.segs)
    (top : user (outermost ls tss.regs) = true → tss.sp0 = tsk + pageSize ∧ tss.ss0 = kernelDs)
    (spec : ∀ a, Follows s a → ∃ r, a.Sets (a.step l) tsk r ∧
      (user (outermost ls tss.regs) = true → r = outermost ls tss.regs)) : Keeps im q s l := by
  have running : tsk ≠ s.cur := fun eq => fresh.1 (eq ▸ inv.member)
  have only : Only s (s.adds tsk mem tss ls) tsk :=
    ⟨rfl, rfl, rfl, fun _ => List.mem_cons_of_mem _,
      fun _ mem other => List.mem_of_ne_of_mem other mem, fun _ => mem_of_filter, fun _ => ⟨rfl, rfl⟩,
      fun _ _ other => update_of_ne (tssOf_ne other) ..,
      fun _ other => update_of_ne other .., outside⟩
  have segment : (s.adds tsk mem tss ls).tss (tssOf tsk) = tss := update_self ..
  have levels : (s.adds tsk mem tss ls).levels tsk = ls := update_self ..
  have regs : (s.adds tsk mem tss ls).regsOf tsk = tss.regs :=
    (if_neg running).trans (congrArg Tss.regs segment)
  have segs : (s.adds tsk mem tss ls).segsOf tsk = tss.segs :=
    (if_neg running).trans (congrArg Tss.segs segment)
  have program : (s.adds tsk mem tss ls).program tsk = outermost ls tss.regs := by
    rw [State.program, levels, regs]
  refine keeps_only inv ran only (.inr fresh.1) fresh.2 (inv.only only ?_
    (fun gone => inv.alive (mem_of_filter gone)) fresh.2 (fun _ => ⟨?_, ?_⟩) ?_ ?_ ?_) ?_
  · rw [only.tss _ inv.member running.symm]
    exact inv.space
  · rwa [regs]
  · rw [segment]
    exact not_mem_filter _ _
  · rwa [levels, regs, segs]
  · rwa [program, segment]
  · rwa [segment]
  · rwa [program]

/-- A new thread begins at `kthread_init`, with three words on its stack. -/
theorem taskInitKthread_eq (im : Image) (s : State) (tsk pgd func priv : Nat) :
    ∃ mem tss, taskInitKthread im s tsk pgd (some (func, priv)) = { s with
        mem := mem, tss := update s.tss (tssOf tsk) tss } ∧
      tss.cr3 = pgd ∧ InKernel tss.regs ∧ im.find tss.regs.eip = none ∧
      tss.regs.esp = tsk + pageSize - 12 ∧ tss.segs = ⟨kernelDs, kernelDs, kernelDs, kernelDs⟩ ∧
      ∀ a, a < tsk ∨ tsk + pageSize ≤ a → mem a = s.mem a := by
  simp only [taskInitKthread, taskPushWord, update_self, update_idem, kthreadTss]
  refine ⟨_, _, rfl, rfl, ⟨rfl, rfl⟩, im.kthread_c, rfl, rfl, fun a out => ?_⟩
  simp only [pageSize] at out ⊢
  simp (disch := omega) only [update_of_ne]

theorem thread_keeps {func priv : Nat} (inv : Inv im q s)
    (legal : Legal im s (.thread tsk pgd func priv)) : Keeps im q s (.thread tsk pgd func priv) := by
  obtain ⟨-, fresh⟩ := legal
  obtain ⟨mem, tss, made, space, kernel, place, esp, segs, outside⟩ :=
    taskInitKthread_eq im s tsk pgd func priv
  have runs : step im s (.thread tsk pgd func priv) = some (s.adds tsk mem tss []) := by
    simp only [step, made, State.adds, space]
  have silent : ∀ {p : Prop}, user (outermost [] tss.regs) = true → p := fun mode =>
    absurd (kernel.user.symm.trans mode) Bool.false_ne_true
  have fit : tss.segs.fit 0 = true := by rw [segs]; rfl
  refine adds_keeps inv fresh runs outside kernel fit ⟨.inr ⟨kernel, place, ?_⟩, fun _ => ?_,
    by rwa [kernel.1], fun _ => ?_⟩ silent fun a _ => ⟨a.program tsk, ⟨rfl, fun _ _ => rfl, rfl⟩, silent⟩
  · simp only [esp, pageSize]
    omega
  · simp only [Room, esp, pageSize, taskSize]
    omega
  · rw [segs, Data, dataOf_kernel kernel.user]
    exact ⟨rfl, rfl⟩

/-- A word of a context that is overwritten unless the caller asks to keep it. -/
theorem holds_setIf {mem : Nat → Nat} {a top w : Nat} (v : Nat) (front : List Nat) {back : List Nat}
    (holds : Holds mem a (front ++ w :: back) top) :
    Holds (if v ≠ mapInvalid then update mem (a + 4 * front.length) v else mem) a
      (front ++ (if v ≠ mapInvalid then v else w) :: back) top := by
  split
  · exact holds.set front v
  · exact holds

/-- `task_clone` leaves the child the context of its parent's system call, and enters it at
`ret_from_fork_in_child`. -/
theorem taskClone_eq (im : Image) (tsk pgd ip sp : Nat) {c : Regs} {x e top : Nat} (inUser : InUser c)
    (holds : Holds s.mem (s.intrCtx t) (saved c x ++ e :: frame c) top) :
    ∃ mem child, taskClone im s t tsk pgd ip sp = some { s with
        mem := mem, tss := update s.tss (tssOf tsk) child } ∧
      child.cr3 = pgd ∧ (child.sp0 = tsk + pageSize ∧ child.ss0 = kernelDs) ∧ InKernel child.regs ∧
      child.segs = ⟨kernelDs, kernelDs, (s.tss (tssOf t)).segs.fs, (s.tss (tssOf t)).segs.gs⟩ ∧
      child.regs.eip = im.entry .fork ∧ child.regs.eax = userDs ||| cpl3 ∧
      child.regs.esp = tsk + pageSize - 56 ∧
      Holds mem child.regs.esp (saved (childCtx c ip sp) x ++ e :: frame (childCtx c ip sp))
        (tsk + pageSize) ∧ ∀ a, a < tsk ∨ tsk + pageSize ≤ a → mem a = s.mem a := by
  have mode : ∀ d : Regs, d.cs = c.cs → frame d = [d.eip, d.cs, d.eflags, d.esp, d.ss] :=
    fun d same => by simp [frame, user, same, inUser.1, userCs, cpl3]
  rw [mode c rfl] at holds
  have loaded : Stack.load s.mem (s.intrCtx t) ctxWords = _ := holds.load_eq
  let b := tsk + pageSize - 56
  have bottom : b + 56 = tsk + pageSize := by simp only [b, pageSize]; omega
  -- the words as they are copied, with no result, and with what the caller asks for
  have copied := Stack.holds_store s.mem b (Stack.load s.mem (s.intrCtx t) ctxWords)
  rw [loaded] at copied
  have cleared := Holds.set [c.edi, c.esi, c.ebp, x, c.ebx, c.edx, c.ecx] copied 0
  have started := holds_setIf ip [c.edi, c.esi, c.ebp, x, c.ebx, c.edx, c.ecx, 0, e] cleared
  have stacked := holds_setIf sp [c.edi, c.esi, c.ebp, x, c.ebx, c.edx, c.ecx, 0, e,
    (childCtx c ip sp).eip, c.cs, c.eflags] started
  obtain ⟨-, -, -, -, -, -, -, -, -, -, cs, -⟩ := cleared
  have sel : returnFromIntr c.cs = some (userDs ||| cpl3) := by rw [inUser.1]; rfl
  rw [← cs] at sel
  simp only [taskClone, loaded]
  refine ⟨_, _, congrArg (Option.map _) sel, rfl, ⟨rfl, rfl⟩, ⟨rfl, rfl⟩, rfl, rfl, rfl, rfl, ?_,
    fun a out => ?_⟩
  · rw [mode (childCtx c ip sp) rfl, ← bottom]
    exact stacked
  · have low : a < b ∨ b + 56 ≤ a := by
      simp only [b, pageSize] at out ⊢
      omega
    have stored : Stack.store s.mem b (Stack.load s.mem (s.intrCtx t) ctxWords) a = s.mem a :=
      Stack.store_outside s.mem (by rwa [loaded])
    rw [loaded] at stored
    simp only [ctxWords, ctxEax, ctxEip, ctxEsp3]
    split_ifs <;> simp (disch := omega) only [update_of_ne] <;> exact stored

theorem clone_keeps (inv : Inv im q s) (legal : Legal im s (.clone tsk pgd ip sp)) :
    Keeps im q s (.clone tsk pgd ip sp) := by
  obtain ⟨inC, inside, fresh, recorded⟩ := legal
  obtain ⟨ℓ, i, x, e, locals, args, levels, called, inUser, was⟩ := inv.syscall inC inside
  have at_ctx : s.intrCtx s.cur = ℓ.ctxAt s.cur := by simpa [levels] using recorded
  have ctx := called.ctx
  rw [← at_ctx] at ctx
  obtain ⟨mem, child, made, space, top, kernel, segs, eip, eax, esp, holds, outside⟩ :=
    taskClone_eq im tsk pgd ip sp inUser ctx
  let c := childCtx ℓ.ctx ip sp
  have child_user : InUser c := inUser
  have runs : step im s (.clone tsk pgd ip sp) = some (s.adds tsk mem child [⟨c, .fork⟩]) := by
    simp [step, thisTask_eq inv inC.1, made, levels, c, State.adds, space]
  have place : im.find child.regs.eip = some (.fork, 0) :=
    (im.found _ .fork 0).mpr ⟨eip, by simp [Stub.text]⟩
  have fit : child.segs.fit 0 = true := by
    have parent := inv.segments _ inv.member
    simp only [Segs.fit, List.all_cons, List.all_nil, Bool.and_true, Bool.and_eq_true] at parent
    rw [segs]
    simp [Segs.fit, parent, show dataSel 0 kernelDs = true from rfl]
  refine adds_keeps inv fresh runs outside kernel fit ⟨⟨kernel, fun _ => child_user,
    .inl ⟨0, x, e, 0, place, fun shallow => ?_, by rw [eax]; rfl, ?_⟩, .inl child_user⟩, fun _ => ?_,
      by rwa [kernel.1], fun _ => ⟨(loaded_stub place).mpr ?_, rfl, rfl⟩⟩ (fun _ => top)
    fun a follows => ⟨c, ⟨rfl, fun _ other => update_of_ne other .., ?_⟩, fun _ => rfl⟩
  · simp [Stub.depth, Stub.start] at shallow
  · rw [show Level.above ⟨c, .fork⟩ tsk = tsk + pageSize from if_pos child_user.user]
    exact holds
  · rw [esp]
    simp only [Room, taskSize, pageSize]
    omega
  · rw [eax, dataOf, child_user.user]
    rfl
  · simp only [Spec.step, Spec.set, update_self, follows.cur]
    rw [follows.program _ inv.member (was ▸ inUser.user), was]

theorem free_keeps (inv : Inv im q s) (legal : Legal im s (.free tsk)) : Keeps im q s (.free tsk) := by
  obtain ⟨-, other⟩ := legal
  have old : ∀ t ∈ s.tasks.filter (· ≠ tsk), t ∈ s.tasks := fun t mem => (List.mem_filter.mp mem).1
  have stays : ∀ t ∈ s.tasks, t ≠ tsk → t ∈ s.tasks.filter (· ≠ tsk) := fun t mem ne =>
    List.mem_filter.mpr ⟨mem, by simpa using ne⟩
  exact ⟨_, rfl, ⟨inv.tr, inv.base, inv.space, inv.alive, stays _ inv.member other.symm,
    fun t mem => inv.place t (old t mem), fun t mem => inv.parked t (old t mem),
    fun t mem => inv.ok t (old t mem), fun t mem => inv.stack0 t (old t mem),
    fun t mem => inv.segments t (old t mem)⟩,
    fun t mem ne _ kept => ⟨stays t mem fun eq => kept (by rw [eq]), ne, rfl, rfl, fun _ _ _ => rfl⟩,
    fun a follows => ⟨follows.cur, fun t mem => follows.program t (old t mem)⟩⟩

theorem execTss_loads (tsk pgd ip sp : Nat) : (execTss tsk pgd ip sp).loads = true := by
  have cs : (execTss tsk pgd ip sp).regs.cs = userCs ||| cpl3 := rfl
  have ss : (execTss tsk pgd ip sp).regs.ss = userDs ||| cpl3 := rfl
  have segs : (execTss tsk pgd ip sp).segs =
    ⟨userDs ||| cpl3, userDs ||| cpl3, userDs ||| cpl3, userDs ||| cpl3⟩ := rfl
  rw [Tss.loads, cs, ss, segs]
  decide

/-- `task_init_exec` goes through the scratch segment to the new contents of its own. -/
theorem taskInitExec_eq (inv : Inv im q s) (inC : InC im s) (alive : pgd ∉ s.freed) (ip sp : Nat) :
    ∃ g tss, taskInitExec im s pgd ip sp = some { s with
        regs := (execTss s.cur pgd ip sp).regs, segs := (execTss s.cur pgd ip sp).segs
        cr3 := pgd, tr := s.tr, trBase := tssOf s.cur, gdt := g, tss := tss } ∧
      tss (tssOf s.cur) = execTss s.cur pgd ip sp ∧
      ∀ t ∈ s.tasks, t ≠ s.cur → tss (tssOf t) = s.tss (tssOf t) := by
  have index : otherTr (s.tr >>> 3) <<< 3 / 8 = otherTr (s.tr >>> 3) := by
    rcases otherTr_slot (s.tr >>> 3) with slot | slot <;> simp [slot, tss0, tss1]
  have back : s.tr >>> 3 <<< 3 = s.tr := by rcases inv.tr with tr | tr <;> simp [tr, tss0, tss1]
  have read : (tssDesc im.scratch).base = im.scratch := base_stndDesc im.scratch_word _ _
  have apart : ∀ t ∈ s.tasks, tssOf t ≠ im.scratch := fun t mem => (inv.place t mem).2.2.2
  -- the state the second jump starts from
  let u : State := { s with
    regs.eflags := withoutIntr s.regs.eflags, tr := otherTr (s.tr >>> 3) <<< 3, trBase := im.scratch
    gdt := update (update s.gdt (otherTr (s.tr >>> 3)) (tssDesc im.scratch))
      (otherTr (s.tr >>> 3)) (tssDesc im.scratch).markBusy
    tss := update s.tss (tssOf s.cur) (execTss s.cur pgd ip sp) }
  have own : u.savedTss (tssOf s.cur) = execTss s.cur pgd ip sp := by
    rw [State.savedTss, update_of_ne (apart _ inv.member)]
    exact update_self ..
  obtain ⟨g, jumped⟩ := ljmp_made (s := u) inv.slot (inv.tss_word inv.member)
    (own ▸ execTss_loads _ _ _ _) (own ▸ alive)
  refine ⟨g, u.savedTss, ?_, own, fun t mem other => ?_⟩
  · rw [own, back] at jumped
    simp only [taskInitExec, if_neg inv.no_bug, State.loadTr, index, thisTask_eq inv inC.1]
    simp only [State.setDesc, update_self, tssDesc_ready, if_true, Option.bind_some, read, back]
    exact jumped
  · rw [State.savedTss, update_of_ne (apart t mem)]
    exact update_of_ne (tssOf_ne other) ..

/-- `mem_use_ctx` takes the processor to the new directory, and the segment still has the old. -/
theorem useCtx_keeps (inv : Inv im q s) (legal : Legal im s (.useCtx pgd)) :
    Keeps im q s (.useCtx pgd) := by
  obtain ⟨inC, -⟩ := legal
  let s' : State := { s with regs.eflags := withoutIntr s.regs.eflags, cr3 := pgd, window := some pgd
                             freed := s.freed.filter (· ≠ pgd) }
  have only : Only s s' s.cur :=
    ⟨rfl, rfl, rfl, fun _ old => old, fun _ old _ => old, fun _ => mem_of_filter,
      fun other => absurd rfl other, fun _ _ _ => rfl, fun _ _ => rfl, fun _ _ => rfl⟩
  have place := inv.place _ inv.member
  have ok := inv.cur_ok
  have kernel : ∀ {p : Prop}, user s.regs = true → p := fun mode =>
    absurd (inC.1.user.symm.trans mode) Bool.false_ne_true
  have program : user (s'.program s.cur) = true → s'.program s.cur = s.program s.cur := by
    rw [only.program_cur, program_cur]
    show user (outermost (s.levels s.cur) _) = true → outermost (s.levels s.cur) _ = _
    cases s.levels s.cur with
    | nil => exact fun mode => kernel mode
    | cons => exact fun _ => rfl
  refine keeps_only inv rfl only (.inl rfl) place (inv.only only rfl (not_mem_filter _ _) place
    (fun other => absurd rfl other) ?_ (fun mode => ?_) (inv.segments _ inv.member)) fun a follows =>
      ⟨a.program s.cur, ⟨rfl, fun _ _ => rfl, rfl⟩, fun mode => ?_⟩
  · rw [State.regsOf, State.segsOf, if_pos rfl, if_pos rfl]
    exact ⟨ok.1.moved inC.1 inC.2 inC.1 inC.2 rfl, ok.2.1, ok.2.2.1, fun hq =>
      (ok.2.2.2 hq).moved inC.1 inC.2 inC.1 inC.2⟩
  · exact inv.stack0 _ inv.member (program mode ▸ mode)
  · have same := program mode
    rw [same] at mode ⊢
    exact follows.program _ inv.member mode

/-- The last `mem_ctx_put` frees a directory that is not in `cr3` and that no other task has. -/
theorem putCtx_keeps (inv : Inv im q s) (legal : Legal im s .putCtx) : Keeps im q s .putCtx := by
  obtain ⟨-, inside, left, last⟩ := legal
  obtain ⟨new, window⟩ := Option.ne_none_iff_exists'.mp inside
  have space : s.cr3 = new := by rw [inv.space, window, Option.getD_some]
  refine ⟨_, rfl, ⟨inv.tr, inv.base, inv.space, fun gone => ?_, inv.member, inv.place,
    fun t mem other => ⟨(inv.parked t mem other).1, fun gone => ?_⟩, inv.ok, inv.stack0, inv.segments⟩,
    fun t mem other _ _ => ⟨mem, other, rfl, rfl, fun _ _ _ => rfl⟩, fun a follows =>
      ⟨follows.cur, follows.program⟩⟩
  · rcases List.mem_cons.mp gone with own | gone
    · exact left (window.trans (congrArg some (space.symm.trans own)))
    · exact inv.alive gone
  · rcases List.mem_cons.mp gone with own | gone
    · exact last t mem other own
    · exact (inv.parked t mem other).2 gone

theorem exec_keeps (inv : Inv im q s) (legal : Legal im s (.exec pgd ip sp)) :
    Keeps im q s (.exec pgd ip sp) := by
  obtain ⟨inC, window, -⟩ := legal
  have alive : pgd ∉ s.freed := by
    have space : s.cr3 = pgd := by rw [inv.space, window, Option.getD_some]
    exact space ▸ inv.alive
  obtain ⟨g, tss, made, own, kept⟩ := taskInitExec_eq inv inC alive ip sp
  have begins : InUser (execTss s.cur pgd ip sp).regs := ⟨rfl, rfl⟩
  have fit : (execTss s.cur pgd ip sp).segs.fit ((execTss s.cur pgd ip sp).regs.cs % 4) = true :=
    (of_decide_eq_true (execTss_loads s.cur pgd ip sp)).2.2
  let s' : State := { s with
    regs := (execTss s.cur pgd ip sp).regs, segs := (execTss s.cur pgd ip sp).segs
    cr3 := pgd, trBase := tssOf s.cur, gdt := g, tss := tss
    levels := update s.levels s.cur [], window := none }
  have runs : step im s (.exec pgd ip sp) = some s' := by simp only [step, made, Option.map_some, s']
  have now : s'.levels s.cur = [] := update_self ..
  have program : s'.program s.cur = (execTss s.cur pgd ip sp).regs := by
    rw [show s.cur = s'.cur from rfl, program_cur, now, outermost]
  have only : Only s s' s.cur :=
    ⟨rfl, inv.base.symm, rfl, fun _ old => old, fun _ old _ => old, fun _ old => old,
      fun other => absurd rfl other, kept, fun _ other => update_of_ne other .., fun _ _ => rfl⟩
  have place := inv.place _ inv.member
  refine keeps_only inv runs only (.inl rfl) place (inv.only only (congrArg Tss.cr3 own).symm alive
    place (fun other => absurd rfl other) ?_ (fun _ => ⟨congrArg Tss.sp0 own, congrArg Tss.ss0 own⟩) ?_)
    fun a follows => ⟨_, follows.sets, fun _ => program.symm⟩
  · rw [now, State.regsOf, State.segsOf, if_pos rfl, if_pos rfl]
    exact ⟨.inl begins, fun kernel => absurd kernel begins.not_kernel, fit,
      fun _ => by rw [Data, dataOf, show user s'.regs = true from begins.user]; exact ⟨rfl, rfl⟩⟩
  · show (tss (tssOf s.cur)).segs.fit 0 = true
    exact own ▸ fit_zero fit

end ScaraOS.Cpu
