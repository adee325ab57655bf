import ScaraOS.Cpu.Invariant

/-! What user code, interrupts, stubs and C functions do to the invariant, and to the
registers each program has: the labels alone say what becomes of those. -/
namespace ScaraOS.Cpu

open Function
open Stack (Holds)

variable {im : Image} {s s' : State} {l : Label} {mem : Nat → Nat} {ℓ : Level} {rest : List Level}
  {r : Regs} {i x e n tsk vec err sp : Nat} {words locals args : List Nat} {q : Prop}

/-- Every program with registers of its own, and the one that runs. -/
structure Spec where
  cur : Nat
  program : Nat → Regs

def Spec.set (a : Spec) (tsk : Nat) (r : Regs) : Spec :=
  { a with program := update a.program tsk r }

/-- Only a program's own code, the results of its system calls, its start and its birth
give it new registers. -/
def Spec.step (a : Spec) : Label → Spec
  | .user r _ => a.set a.cur r
  | .dispatch =>
    if (a.program a.cur).eax ≥ 7 then a.set a.cur { a.program a.cur with eax := 0xffffffff } else a
  | .result v => a.set a.cur { a.program a.cur with eax := v }
  | .switch next => { a with cur := next }
  | .clone tsk _ ip sp => a.set tsk (childCtx (a.program a.cur) ip sp)
  | .exec pgd ip sp => a.set a.cur (execTss a.cur pgd ip sp).regs
  | _ => a

structure Follows (s : State) (a : Spec) : Prop where
  cur : a.cur = s.cur
  program : ∀ t ∈ s.tasks, user (s.program t) = true → a.program t = s.program t

/-- What a step leaves alone: the segments and the stacks of the tasks that do not run. -/
def Spares (s s' : State) (l : Label) : Prop :=
  ∀ t ∈ s.tasks, t ≠ s.cur → l ≠ .switch t → l ≠ .free t → t ∈ s'.tasks ∧ t ≠ s'.cur ∧
    s'.tss (tssOf t) = s.tss (tssOf t) ∧ s'.levels t = s.levels t ∧
    ∀ a, t ≤ a → a < t + pageSize → s'.mem a = s.mem a

/-- A step that the machine can make, and the specification with it. -/
def Keeps (im : Image) (q : Prop) (s : State) (l : Label) : Prop :=
  ∃ s', step im s l = some s' ∧ Inv im q s' ∧ Spares s s' l ∧ ∀ a, Follows s a → Follows s' (a.step l)

/-- User code leaves its data segments alone, no vector is taken that has no stub of its own,
and nothing interrupts a stub once it has loaded the segments of a program. -/
def Calm (im : Image) (s : State) : Label → Prop
  | .user _ g => g.ds = s.segs.ds ∧ g.es = s.segs.es
  | .take vec _ => Irq.idtInit vec ≠ .intNull ∧ ∀ ℓ ∈ (s.levels s.cur).head?,
      ∀ place ∈ im.find s.regs.eip, user ℓ.ctx = false ∨ .movlDs ∈ place.1.text.drop place.2
  | _ => True

instance (im : Image) (s : State) : (l : Label) → Decidable (Calm im s l)
  | .user .. | .take .. => instDecidableAnd
  | .tick | .work .. | .dispatch | .result _ | .fixup _ | .ret | .switch _ | .clone .. | .thread ..
  | .free _ | .useCtx _ | .putCtx | .exec .. => instDecidableTrue

/-- What the specification does to all programs but `u`, and to `u`. -/
def Spec.Sets (a b : Spec) (u : Nat) (r : Regs) : Prop :=
  b.cur = a.cur ∧ (∀ t, t ≠ u → b.program t = a.program t) ∧ b.program u = r

theorem Follows.own {a : Spec} (follows : Follows s a) (inv : Inv im q s)
    (mode : user (s.program s.cur) = true) : a.program a.cur = s.program s.cur := by
  rw [follows.cur, follows.program _ inv.member mode]

theorem Follows.sets {a : Spec} (follows : Follows s a) : a.Sets (a.set a.cur r) s.cur r :=
  ⟨rfl, fun _ other => update_of_ne (follows.cur ▸ other) .., by
    simp [Spec.set, follows.cur]⟩

theorem keeps_only {u : Nat} (inv : Inv im q s) (ran : step im s l = some s') (only : Only s s' u)
    (own : u = s.cur ∨ u ∉ s.tasks) (place : Place im u) (inv' : Inv im q s') (spec : ∀ a, Follows s a →
      ∃ r, a.Sets (a.step l) u r ∧ (user (s'.program u) = true → r = s'.program u)) :
    Keeps im q s l := by
  refine ⟨s', ran, inv', fun t mem other _ _ => ?_, fun a follows => ?_⟩
  · have ne : t ≠ u := by
      rintro rfl
      exact own.elim other fun new => new mem
    refine ⟨only.stays t mem, only.cur ▸ other, only.tss t mem ne, only.levels t ne,
      fun a low high => only.mem a ?_⟩
    have apart := page_apart (inv.place t mem).1 place.1 ne
    omega
  · obtain ⟨r, ⟨cur, old, new⟩, set⟩ := spec a follows
    refine ⟨by rw [cur, only.cur, follows.cur], fun t mem mode => ?_⟩
    by_cases changed : t = u
    · subst changed
      exact new.trans (set mode)
    · have there := only.tasks t mem changed
      rw [only.program there changed] at mode ⊢
      rw [old t changed]
      exact follows.program t there mode

section

variable (inv : Inv im q s) (ran : step im s l = some s') (loc : Local s s')
  (ok : TaskOk im q s'.mem s.cur (s'.levels s.cur) s'.regs s'.segs)
include inv ran loc ok

/-- A step on the stack of the running task. -/
theorem keeps_local (same : user (s'.program s.cur) = true → user (s.program s.cur) = true)
    (spec : ∀ a, Follows s a → ∃ r, a.Sets (a.step l) s.cur r ∧
      (user (s'.program s.cur) = true → r = s'.program s.cur)) : Keeps im q s l := by
  have place := inv.place _ inv.member
  refine keeps_only inv ran loc.toOnly (.inl rfl) place (inv.only loc.toOnly ?_
    (fun gone => inv.alive (loc.space ▸ loc.freed _ gone)) place
    (fun other => absurd rfl other) ?_ (fun mode => ?_) ?_) spec
  · rw [loc.space, loc.segment, loc.window, inv.space]
  · simpa only [State.regsOf, State.segsOf, loc.cur, if_true] using ok
  · rw [loc.segment]
    exact inv.stack0 _ inv.member (same mode)
  · rw [loc.segment]
    exact inv.segments _ inv.member

/-- One that does not touch the program of the task. -/
theorem keeps_silent (same : user (s'.program s.cur) = true → s'.program s.cur = s.program s.cur)
    (silent : ∀ a, Follows s a → a.step l = a) : Keeps im q s l := by
  refine keeps_local inv ran loc ok (fun mode => same mode ▸ mode) fun a follows =>
    ⟨a.program s.cur, ?_, fun mode => ?_⟩
  · rw [silent a follows]
    exact ⟨rfl, fun _ _ => rfl, rfl⟩
  · have kept := same mode
    rw [kept] at mode ⊢
    exact follows.program _ inv.member mode

end

theorem user_keeps {g : Segs} (inv : Inv im q s) (legal : Legal im s (.user r g))
    (calm : q → Calm im s (.user r g)) : Keeps im q s (.user r g) := by
  obtain ⟨was, becomes, -, fit⟩ := legal
  obtain ⟨-, none⟩ := inv.cur_ok.1.of_user was.user
  have loc : Local s { s with regs := r, segs := g } := Local.of_mem s r g fun _ _ => rfl
  have after : ({ s with regs := r, segs := g } : State).program s.cur = r := by
    rw [loc.program_cur]
    show outermost (s.levels s.cur) r = r
    rw [none, outermost]
  refine keeps_local inv rfl loc ⟨?_, fun kernel => absurd kernel becomes.not_kernel,
    by simpa [becomes.1, userCs, cpl3] using fit, fun hq => ?_⟩
    (fun _ => ?_) fun a follows => ⟨r, follows.sets, fun _ => after.symm⟩
  · show Good im _ _ (s.levels s.cur) r
    rw [none]
    exact .inl becomes
  · show Data im (s.levels s.cur) r g.ds g.es
    obtain ⟨ds, es⟩ := calm hq
    simpa [none, Data, dataOf, was.user, becomes.user, ds, es] using inv.data none hq
  · rw [program_cur, none, outermost]
    exact was.user

/-- The gates agree with the error codes the processor pushes. -/
theorem gate_start : ∀ vec : Fin 256, (Stub.gate (Irq.idtInit vec)).start =
    if errorCode vec then 1 else 0 := by
  decide +kernel

theorem gate_syscall : ∀ vec : Fin 256, Irq.idtInit vec = .syscall → vec = 0xff := by
  decide +kernel

theorem gate_begins (g : Irq.Gate) : 0 < (Stub.gate g).text.length := by
  cases g with
  | exc n => simp only [Stub.text]; split <;> simp [doExc, doExcf]
  | _ => simp [Stub.text, doIntr, doIrq]

/-- The stack an interrupt of the running task pushes onto. -/
theorem entry_stack (inv : Inv im q s) (room : user s.regs = true ∨ Room s.cur (s.regs.esp - 16)) :
    (if user s.regs then (s.tss s.trBase).sp0 else s.regs.esp) =
        (if user s.regs then s.cur + pageSize else s.regs.esp) ∧
      (if user s.regs then (s.tss s.trBase).ss0 else s.regs.ss) = kernelDs ∧
      s.cur + 2 * taskSize + 4 * (frame s.regs).length + 4 <
        (if user s.regs then s.cur + pageSize else s.regs.esp) := by
  obtain ⟨good, stack⟩ := inv.cur_ok
  cases mode : user s.regs with
  | true =>
    have top := inv.stack0 s.cur inv.member (by rw [program_cur, (good.of_user mode).2]; exact mode)
    rw [← inv.base] at top
    simp [top.1, top.2, frame, mode, taskSize, pageSize]
  | false =>
    have fits : s.cur + 2 * taskSize < s.regs.esp - 16 := room.resolve_left (by simp [mode])
    simp [(good.of_kernel mode).2, frame, mode]
    omega

theorem fit_zero {g : Segs} {cpl : Nat} (fit : g.fit cpl = true) : g.fit 0 = true := by
  simp only [Segs.fit, List.all_eq_true] at fit ⊢
  refine fun sel mem => ?_
  have fits := fit sel mem
  simp only [dataSel, Option.any_eq_true, decide_eq_true_eq] at fits ⊢
  refine fits.imp_right ?_
  rintro ⟨dpl, eq, -, rpl⟩
  exact ⟨dpl, eq, Nat.zero_le _, rpl⟩

section

variable (inv : Inv im q s)
include inv

theorem take_keeps (legal : Legal im s (.take vec err)) (calm : q → Calm im s (.take vec err)) :
    Keeps im q s (.take vec err) := by
  obtain ⟨byte, raised, room⟩ := legal
  obtain ⟨sp_eq, ss_eq, fits⟩ := entry_stack inv room
  let ℓ : Level := ⟨s.regs, .gate (Irq.idtInit vec)⟩
  have above : ℓ.above s.cur = if user s.regs then s.cur + pageSize else s.regs.esp := rfl
  have words : (if errorCode vec then [err] else []) = pushed s.regs 0 err 0 (ℓ.stub.depth 0) := by
    show _ = pushed s.regs 0 err 0 (Stub.start _)
    rw [gate_start ⟨vec, byte⟩]
    cases errorCode vec <;> simp [pushed]
  have short : (pushed s.regs 0 err 0 (ℓ.stub.depth 0)).length ≤ 1 := by rw [← words]; split <;> simp
  have top : ℓ.above s.cur ≤ s.cur + pageSize := inv.cur_ok.1.above_le
  rw [← above] at sp_eq fits
  -- nothing outside the words that are pushed is written
  have outside : ∀ a, a < s.cur ∨ ℓ.above s.cur ≤ a → (s.take im vec err).mem a = s.mem a := by
    intro a out
    simp only [State.take, sp_eq, words]
    apply Stack.store_outside
    simp only [List.length_append]
    omega
  have loc : Local s (s.take im vec err) :=
    Local.of_levels s _ _ _ fun a out => outside a (by omega)
  have levels : (s.take im vec err).levels s.cur = ℓ :: s.levels s.cur := update_self ..
  have runs : step im s (.take vec err) = some (s.take im vec err) := by
    refine if_neg ?_
    rintro ⟨mode, bad⟩
    apply bad
    rw [if_pos mode] at ss_eq
    rw [ss_eq]
    rfl
  refine keeps_silent inv runs loc ?_ (fun _ => ?_) fun _ _ => rfl
  · rw [levels]
    have fit : s.segs.fit (kernelCs % 4) = true := fit_zero inv.cur_ok.2.2.1
    have place : im.find (im.entry ℓ.stub) = some (ℓ.stub, 0) :=
      (im.found _ _ 0).mpr ⟨rfl, gate_begins _⟩
    refine ⟨⟨⟨rfl, ss_eq⟩, ?_, .inl ⟨0, 0, err, 0, place,
      fun _ => ⟨rfl, rfl, rfl, rfl, rfl, rfl, rfl⟩, gate_loads _ _ _, ?_⟩,
      inv.cur_ok.1.congr fun a kernel low _ => outside a (.inr ?_)⟩, fun _ => ?_,
      fit, fun hq => ⟨(loaded_stub place).mpr (gate_outcome (calm hq).1 _),
        (inv.cur_ok.2.2.2 hq).again inv.cur_ok.1 fun ℓ mem st i at_ => (calm hq).2 ℓ mem (st, i) at_⟩⟩
    · rintro (gate | gate)
      · have last := gate_syscall ⟨vec, byte⟩ (Stub.gate.inj gate)
        have vector : vec = 255 := congrArg Fin.val last
        simpa [Raised, vector] using raised
      · cases gate
    · simp only [State.take, sp_eq, words]
      have stored := Stack.holds_store s.mem (ℓ.above s.cur - 4 *
        (pushed s.regs 0 err 0 (ℓ.stub.depth 0) ++ frame s.regs).length)
        (pushed s.regs 0 err 0 (ℓ.stub.depth 0) ++ frame s.regs)
      rwa [Nat.sub_add_cancel (by simp only [List.length_append]; omega)] at stored
    · simpa only [above, kernel, Bool.false_eq_true, if_false] using low
    · show s.cur + 2 * taskSize < _
      simp only [State.take, sp_eq, words, List.length_append]
      omega
  · rw [loc.program_cur, levels, program_cur]
    rfl

/-- The running task at an instruction of a stub, or in a C function. -/
theorem Inv.innermost (mode : InKernel s.regs) :
    (∃ ℓ rest i x e n, s.levels s.cur = ℓ :: rest ∧ ℓ.Sane ∧ Good im s.mem s.cur rest ℓ.ctx ∧
      ℓ.AtStub im s.mem s.cur s.regs i x e n) ∨ im.find s.regs.eip = none := by
  have good := inv.cur_ok.1
  cases levels : s.levels s.cur with
  | nil =>
    rw [levels] at good
    rcases good with inUser | ⟨-, outside, -⟩
    · exact absurd mode inUser.not_kernel
    · exact .inr outside
  | cons ℓ rest =>
    rw [levels] at good
    obtain ⟨-, sane, ⟨i, x, e, n, stub⟩ | ⟨i, x, e, locals, args, called⟩, under⟩ := good
    · exact .inl ⟨ℓ, rest, i, x, e, n, rfl, sane, under, stub⟩
    · exact .inr called.place

theorem tick_keeps (legal : Legal im s .tick) : Keeps im q s .tick := by
  obtain ⟨mode, inside, more⟩ := legal
  obtain ⟨ℓ, rest, i, x, e, n, levels, sane, under, stub⟩ :=
    (inv.innermost mode).resolve_right (Option.isSome_iff_ne_none.mp inside)
  have room := inv.cur_ok.2.1 mode
  have size := stub.holds.size
  obtain ⟨ins, here⟩ : ∃ ins, ℓ.stub.text[i]? = some ins :=
    ⟨_, List.getElem?_eq_getElem ((im.found _ _ _).mp stub.place).2⟩
  have runs : step im s .tick = s.instr im ℓ.stub ins := by
    simp only [step, stub.place, here, Option.bind_some]
  have next : s.instrAt im = some ins := by simp [State.instrAt, stub.place, here]
  rw [next] at more
  by_cases last : ins = .iret
  · subst last
    obtain ⟨s', ran, loc, popped, regs, mem⟩ := iret_step stub here levels mode under
    refine keeps_silent inv (runs.trans ran) loc ?_ (fun _ => ?_) fun _ _ => rfl
    · rw [popped, regs, mem]
      refine ⟨under, fun kernel => ?_, regs ▸ iret_fit ran (inv.fit mode), fun hq => ?_⟩
      · have low : s.cur + 2 * taskSize < s.regs.esp := room
        simp only [Level.above, kernel.user, Bool.false_eq_true, if_false] at size
        exact show s.cur + 2 * taskSize < ℓ.ctx.esp by omega
      · have data := inv.data levels hq
        have loaded := (loaded_stub stub.place).mp data.1
        rw [List.drop_eq_getElem?_toList_append, here] at loaded
        obtain ⟨ds, es⟩ := Prod.mk.inj (Option.some.inj loaded)
        obtain ⟨ds', es'⟩ := iret_data ran (regs ▸ ⟨ds, es⟩)
        rw [ds', es', regs]
        exact data.2
    · rw [loc.program_cur, popped, regs, program_cur, levels]
      rfl
  · obtain ⟨s', ran, loc, same, kernel, left, now, above⟩ := instr_step stub here last mode
      (inv.cur_ok.1.below mode).le room more
    refine keeps_silent inv (runs.trans ran) loc ?_ (fun _ => ?_) fun _ _ => rfl
    · rw [same, levels]
      refine ⟨⟨kernel, sane, now, under.congr fun a user low _ => above a ?_⟩, fun _ => left,
        kernel.1 ▸ instr_fit last ran (inv.fit mode), fun hq => ?_⟩
      · simp only [Level.above, user, Bool.false_eq_true, if_false] at size
        omega
      · have data := inv.data levels hq
        exact ⟨instr_loaded stub here last ran data.1, data.2⟩
    · rw [loc.program_cur, same, program_cur, levels]
      rfl

/-- The running task in the C function of its innermost level. -/
theorem Inv.handling (inC : InC im s) (levels : s.levels s.cur = ℓ :: rest) :
    ∃ i x e locals args, ℓ.Called im s.mem s.cur s.regs i x e locals args ∧ ℓ.Sane ∧
      Good im s.mem s.cur rest ℓ.ctx ∧ s.regs.esp + 4 * locals.length = ℓ.base s.cur ∧
      ℓ.base s.cur < ℓ.ctxAt s.cur ∧ ℓ.ctxAt s.cur + 48 ≤ ℓ.above s.cur := by
  have good := inv.cur_ok.1
  rw [levels] at good
  obtain ⟨-, sane, ⟨i, x, e, n, stub⟩ | ⟨i, x, e, locals, args, called⟩, under⟩ := good
  · cases inC.2.symm.trans stub.place
  have size := called.holds.size
  have number := called.number
  have whole := called.ctx.size
  have least : 3 ≤ (frame ℓ.ctx).length := by unfold frame; split <;> simp
  refine ⟨i, x, e, locals, args, called, sane, under, ?_, ?_, ?_⟩
  all_goals
    simp only [Level.base, List.length_append, List.length_cons, saved, List.length_nil] at size whole ⊢
    split at number <;> simp_all <;> omega

theorem work_keeps (legal : Legal im s (.work r sp words)) : Keeps im q s (.work r sp words) := by
  obtain ⟨inC, outside, room, page, floor⟩ := legal
  have low : s.cur + 2 * taskSize < sp := room
  let s' : State := { s with
    mem := Stack.store s.mem sp words
    regs := { r with esp := sp, cs := s.regs.cs, ss := s.regs.ss } }
  have mode : InKernel s'.regs := inC.1
  have loc : s.floor ≤ s.cur + pageSize → Local s s' := fun top =>
    Local.of_mem s _ _ fun a out => Stack.store_outside s.mem (by omega)
  cases levels : s.levels s.cur with
  | nil =>
    have top : s.floor = s.cur + pageSize := by simp [State.floor, levels]
    refine keeps_silent inv rfl (loc top.le) ?_ (fun from_user => ?_) fun _ _ => rfl
    · show TaskOk im q _ s.cur (s.levels s.cur) _ _
      rw [levels]
      exact ⟨.inr ⟨mode, outside, page⟩, fun _ => room, inv.cur_ok.2.2.1, inv.data levels⟩
    · rw [(loc top.le).program_cur, show s'.levels s.cur = [] from levels, outermost] at from_user
      exact absurd (mode.user.symm.trans from_user) Bool.false_ne_true
  | cons ℓ rest =>
    obtain ⟨i, x, e, locals, args, called, sane, under, base, -, ctx⟩ := inv.handling inC levels
    have size := (called.holds.pop locals).size
    have at_base : sp + 4 * words.length = s.regs.esp + 4 * locals.length := by
      simp [floor, State.floor, levels, base]
    have top := under.above_le
    have stack := (loc (by omega)).mem
    refine keeps_silent inv rfl (loc (by omega)) ?_ (fun _ => ?_) fun _ _ => rfl
    · show TaskOk im q _ s.cur (s.levels s.cur) _ _
      rw [levels]
      have data := inv.data levels
      have kept : ∀ a, ℓ.ctxAt s.cur ≤ a → s'.mem a = s.mem a := fun a above =>
        Stack.store_outside s.mem (by omega)
      refine ⟨⟨mode, sane, .inr ⟨i, x, e, words, args, outside, called.calls, called.number,
        (called.holds.pop locals).push at_base, called.ctx.congr fun a above _ => kept a above⟩,
        under.congr fun a kernel above _ => kept a ?_⟩, fun _ => room, inv.cur_ok.2.2.1, fun hq =>
          ⟨(loaded_c outside).mpr ((loaded_c inC.2).mp (data hq).1), (data hq).2⟩⟩
      simp only [Level.above, kernel, Bool.false_eq_true, if_false] at ctx
      omega
    · rw [(loc (by omega)).program_cur, program_cur]
      simp [s', levels, outermost]

/-- The running task in a system call. -/
theorem Inv.syscall (inC : InC im s) (inside : s.inside (.gate .syscall) = true) :
    ∃ ℓ i x e locals args, s.levels s.cur = [ℓ] ∧ ℓ.Called im s.mem s.cur s.regs i x e locals args ∧
      InUser ℓ.ctx ∧ s.program s.cur = ℓ.ctx := by
  unfold State.inside at inside
  cases levels : s.levels s.cur with
  | nil => simp [levels] at inside
  | cons ℓ rest =>
  have stub : ℓ.stub = .gate .syscall := by simpa [levels] using inside
  obtain ⟨i, x, e, locals, args, called, sane, under, -⟩ := inv.handling inC levels
  have inUser := sane (.inl stub)
  obtain ⟨-, rfl⟩ := under.of_user inUser.user
  refine ⟨ℓ, i, x, e, locals, args, rfl, called, inUser, ?_⟩
  rw [program_cur, levels]
  rfl

/-- The result of a system call is stored in its context. -/
theorem eax_keeps {v : Nat} (inC : InC im s) (inside : s.inside (.gate .syscall) = true)
    (runs : step im s l = some (s.setEax v))
    (spec : ∀ a, Follows s a → a.step l = a.set a.cur { s.program s.cur with eax := v }) :
    Keeps im q s l := by
  obtain ⟨ℓ, i, x, e, locals, args, levels, called, inUser, was⟩ := inv.syscall inC inside
  let c : Regs := { ℓ.ctx with eax := v }
  have low : s.cur + 2 * taskSize < s.regs.esp := inv.cur_ok.2.1 inC.1
  have size := called.holds.size
  have whole := called.ctx.size
  have top : ℓ.above s.cur = s.cur + pageSize := if_pos inUser.user
  simp only [List.length_append, List.length_cons, saved, List.length_nil] at whole
  have eq : s.setEax v = { s with
      mem := update s.mem (ℓ.ctxAt s.cur + ctxEax) v
      levels := update s.levels s.cur [⟨c, ℓ.stub⟩] } := by
    simp [State.setEax, levels, c]
  have loc : Local s (s.setEax v) := by
    rw [eq]
    exact Local.of_levels s _ _ _ fun a out => update_of_ne (by simp only [ctxEax]; omega) ..
  have recorded : (s.setEax v).levels s.cur = [⟨c, ℓ.stub⟩] := by
    rw [eq]
    exact update_self ..
  have program : (s.setEax v).program s.cur = c := by
    rw [loc.program_cur, recorded]
    rfl
  refine keeps_local inv runs loc ?_ (fun _ => was ▸ inUser.user) fun a follows =>
    ⟨_, spec a follows ▸ follows.sets, fun _ => by rw [program, was]⟩
  have data := inv.data levels
  rw [recorded, eq]
  refine ⟨⟨inC.1, fun _ => inUser, .inr ⟨i, x, e, locals, args, inC.2, called.calls, called.number,
    called.holds.congr fun a _ high => update_of_ne (by omega) .., ?_⟩, .inl inUser⟩,
    inv.cur_ok.2.1, inv.cur_ok.2.2.1,
    fun hq => ⟨(loaded_c inC.2).mpr ((loaded_c inC.2).mp (data hq).1), rfl, rfl⟩⟩
  exact Holds.set [c.edi, c.esi, c.ebp, x, c.ebx, c.edx, c.ecx] called.ctx v

theorem result_keeps {v : Nat} (legal : Legal im s (.result v)) : Keeps im q s (.result v) := by
  obtain ⟨inC, inside⟩ := legal
  obtain ⟨ℓ, i, x, e, locals, args, levels, called, inUser, was⟩ := inv.syscall inC inside
  refine eax_keeps inv inC inside rfl fun a follows => ?_
  rw [← follows.own inv (was ▸ inUser.user)]
  rfl

theorem dispatch_keeps (legal : Legal im s .dispatch) : Keeps im q s .dispatch := by
  obtain ⟨inC, inside⟩ := legal
  obtain ⟨ℓ, i, x, e, locals, args, levels, called, inUser, was⟩ := inv.syscall inC inside
  obtain ⟨-, -, -, -, -, -, -, number, -⟩ := called.ctx
  have runs : step im s .dispatch = some (if ℓ.ctx.eax ≥ 7 then s.setEax 0xffffffff
      else { s with intrCtx := update s.intrCtx s.cur (ℓ.ctxAt s.cur) }) := by
    have word : s.mem (ℓ.ctxAt s.cur + ctxEax) = ℓ.ctx.eax := number
    simp only [step, syscallExc, levels, word]
  have program : ∀ a, Follows s a → a.program a.cur = ℓ.ctx := fun a follows =>
    (follows.own inv (was ▸ inUser.user)).trans was
  by_cases unknown : ℓ.ctx.eax ≥ 7
  · rw [if_pos unknown] at runs
    refine eax_keeps inv inC inside runs fun a follows => ?_
    simp [Spec.step, program a follows, was, unknown]
  · rw [if_neg unknown] at runs
    have loc : Local s { s with intrCtx := update s.intrCtx s.cur (ℓ.ctxAt s.cur) } :=
      ⟨⟨rfl, rfl, rfl, fun _ old => old, fun _ old _ => old, fun _ old => old, fun _ => ⟨rfl, rfl⟩,
        fun _ _ _ => rfl, fun _ _ => rfl, fun _ _ => rfl⟩, rfl, rfl, rfl⟩
    refine keeps_silent inv runs loc inv.cur_ok (fun _ => rfl) fun a follows => ?_
    simp [Spec.step, program a follows, unknown]

/-- The handler of page faults sends the context it has interrupted on to other C code. -/
theorem fixup_keeps {v : Nat} (legal : Legal im s (.fixup v)) : Keeps im q s (.fixup v) := by
  obtain ⟨inC, inside, becomes, faulted⟩ := legal
  cases levels : s.levels s.cur with
  | nil => simp [State.inside, levels] at inside
  | cons ℓ rest =>
  obtain ⟨i, x, e, locals, args, called, sane, under, base, below, fits⟩ := inv.handling inC levels
  obtain ⟨kernel, was⟩ : user ℓ.ctx = false ∧ im.find ℓ.ctx.eip = none := by
    simpa [levels] using faulted
  have mode := under.of_kernel kernel
  have stub : ℓ.stub = .gate (.exc 14) := by simpa [State.inside, levels] using inside
  have low : s.cur + 2 * taskSize < s.regs.esp := inv.cur_ok.2.1 inC.1
  have top := under.above_le
  have above : ℓ.above s.cur = ℓ.ctx.esp := if_neg (by simp [kernel])
  have words := called.holds.size
  let m : Level := { ℓ with ctx.eip := v }
  have mode' : user m.ctx = false := kernel
  have ctxAt : m.ctxAt s.cur = ℓ.ctxAt s.cur := by
    simp only [Level.ctxAt, frame, mode', kernel]
    rfl
  have eq : s.setEip v = { s with
      mem := update s.mem (ℓ.ctxAt s.cur + ctxEip) v
      levels := update s.levels s.cur (m :: rest) } := by
    simp [State.setEip, levels, m]
  have loc : Local s (s.setEip v) := by
    rw [eq]
    exact Local.of_levels s _ _ _ fun a out => update_of_ne (by simp only [ctxEip]; omega) ..
  have recorded : (s.setEip v).levels s.cur = m :: rest := by
    rw [eq]
    exact update_self ..
  refine keeps_silent inv rfl loc ?_ (fun from_user => ?_) fun _ _ => rfl
  · have data := inv.data levels
    have kept : ∀ a, a < ℓ.ctxAt s.cur ∨ ℓ.above s.cur ≤ a →
        update s.mem (ℓ.ctxAt s.cur + ctxEip) v a = s.mem a := fun a out =>
      update_of_ne (by simp only [ctxEip]; omega) ..
    have ctx := called.ctx
    simp only [frame, kernel, Bool.false_eq_true, if_false] at ctx
    have set := Holds.set [ℓ.ctx.edi, ℓ.ctx.esi, ℓ.ctx.ebp, x, ℓ.ctx.ebx, ℓ.ctx.edx, ℓ.ctx.ecx,
      ℓ.ctx.eax, e] ctx v
    have frame' : frame m.ctx = [v, ℓ.ctx.cs, ℓ.ctx.eflags] := if_neg (by simp [mode'])
    rw [recorded, eq]
    refine ⟨⟨inC.1, fun gate => by simp [m, stub] at gate, .inr ⟨i, x, e, locals, args, inC.2,
      called.calls, called.number, ?_, ?_⟩, (under.congr fun a _ high _ => kept a (.inr ?_)).moved
        mode was mode becomes rfl⟩, inv.cur_ok.2.1, inv.cur_ok.2.2.1, fun hq =>
          ⟨(loaded_c inC.2).mpr ((loaded_c inC.2).mp (data hq).1),
            (data hq).2.moved mode was mode becomes⟩⟩
    · rw [ctxAt]
      exact called.holds.congr fun a _ high => kept a (.inl high)
    · rw [ctxAt, frame']
      exact set
    · rwa [above]
  · rw [loc.program_cur, recorded] at from_user ⊢
    rw [program_cur, levels]
    cases rest with
    | nil => exact absurd (mode'.symm.trans from_user) Bool.false_ne_true
    | cons => rfl

end

theorem returnFromIntr_eq (good : Good im mem tsk rest ℓ.ctx) :
    returnFromIntr ℓ.ctx.cs = some (dataOf ℓ.ctx) := by
  cases mode : user ℓ.ctx with
  | true => rw [dataOf, mode, (good.of_user mode).1.1]; rfl
  | false => rw [dataOf, mode, (good.of_kernel mode).1]; rfl

theorem ctx_cs {a top : Nat} (ctx : Holds mem a (saved ℓ.ctx x ++ e :: frame ℓ.ctx) top) :
    mem (a + ctxCs) = ℓ.ctx.cs := by
  have words : ∃ back, frame ℓ.ctx = ℓ.ctx.eip :: ℓ.ctx.cs :: back := by
    unfold frame
    split <;> exact ⟨_, rfl⟩
  obtain ⟨back, eq⟩ := words
  rw [eq] at ctx
  obtain ⟨-, -, -, -, -, -, -, -, -, -, cs, -⟩ := ctx
  exact cs

theorem ret_keeps (inv : Inv im q s) (legal : Legal im s .ret) : Keeps im q s .ret := by
  obtain ⟨inC, called, floor⟩ := legal
  obtain ⟨ℓ, rest, levels⟩ := List.exists_cons_of_ne_nil called
  obtain ⟨i, x, e, locals, args, called, sane, under, base, -⟩ := inv.handling inC levels
  -- nothing of its own is left on the stack
  have own : locals = [] := by
    have at_base : s.regs.esp = ℓ.base s.cur := by simpa [State.floor, levels] using floor
    exact List.length_eq_zero_iff.mp (by omega)
  subst own
  obtain ⟨ends, suits⟩ := text_suits called.calls
  have deep : ℓ.stub.depth i = if ℓ.stub.numbered then 10 else 9 := suits.1
  have deeper : ℓ.stub.depth (i + 1) = ℓ.stub.depth i := depth_succ called.calls
  have runs : step im s .ret = some { s with regs := { s.regs with
      eax := dataOf ℓ.ctx, eip := im.entry ℓ.stub + (i + 1), esp := s.regs.esp + 4 } } := by
    simp [step, State.ret, levels, ctx_cs called.ctx, returnFromIntr_eq under, called.holds.1]
  have loc : Local s { s with regs := { s.regs with
      eax := dataOf ℓ.ctx, eip := im.entry ℓ.stub + (i + 1), esp := s.regs.esp + 4 } } :=
    Local.of_mem s _ _ fun _ _ => rfl
  refine keeps_silent inv runs loc ?_ (fun _ => ?_) fun _ _ => rfl
  · show TaskOk im q s.mem s.cur (s.levels s.cur) _ _
    rw [levels]
    have place : im.find (im.entry ℓ.stub + (i + 1)) = some (ℓ.stub, i + 1) :=
      (im.found _ _ _).mpr ⟨rfl, ends.resolve_left (by simp)⟩
    obtain ⟨n, words⟩ : ∃ n, args ++ (saved ℓ.ctx x ++ e :: frame ℓ.ctx) =
        pushed ℓ.ctx x e n (ℓ.stub.depth (i + 1)) ++ frame ℓ.ctx := by
      have number := called.number
      rw [deeper, deep]
      split at number
      · obtain ⟨n, rfl⟩ := List.length_eq_one_iff.mp number
        exact ⟨n, by simp [pushed, *]⟩
      · obtain rfl := List.length_eq_zero_iff.mp number
        exact ⟨0, by simp [pushed, *]⟩
    have back := holds_ctx.mpr ⟨called.holds.2, called.ctx⟩
    refine ⟨⟨inC.1, sane, .inl ⟨i + 1, x, e, n, place, fun shallow => ?_, (suits.2 _).2, words ▸ back⟩,
      under⟩, fun mode => Nat.lt_add_right 4 (inv.cur_ok.2.1 mode), inv.cur_ok.2.2.1, fun hq =>
        ⟨(loaded_stub place).mpr ((suits.2 _).1 _ _), (inv.data levels hq).2⟩⟩
    rw [deeper, deep] at shallow
    split at shallow <;> omega
  · rw [loc.program_cur, program_cur]
    simp [levels, outermost]

end ScaraOS.Cpu
