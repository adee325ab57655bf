import Mathlib.Algebra.Group.Nat.Defs
import Mathlib.Logic.Function.Basic
import ScaraOS.Lib.Run

/-! Interrupts from a line to its handler: the two 8259A controllers as
`arch-ia32/8259a.c` programs them, the gates of `idt_init`, and `irq_handler`. -/
namespace ScaraOS.Irq

open Function (update update_of_ne update_self)

inductive PicId where
  | master | slave
  deriving DecidableEq, Repr

/-- Where a controller is in its initialisation: what it expects at its second port. -/
inductive Phase where
  | icw2 (single needsIcw4 : Bool)
  | icw3 (needsIcw4 : Bool)
  | icw4
  | ready
  deriving DecidableEq, Repr

structure Chip where
  phase : Phase
  vector : Nat
  imr : Nat
  isr : Nat → Bool

def Chip.highest (c : Chip) : Option Nat := (List.range 8).find? c.isr

def Chip.clear (c : Chip) (pin : Nat) : Chip := { c with isr := update c.isr pin false }

/-- A byte to the first port: the start of an initialisation, or an end of interrupt, of
the line with the highest priority or of the line that is named. -/
def Chip.command (c : Chip) (v : Nat) : Chip :=
  if v / 2 ^ 4 % 2 = 1 then
    { c with phase := .icw2 (v / 2 % 2 = 1) (v % 2 = 1), imr := 0, isr := fun _ => false }
  else if v / 2 ^ 3 % 2 = 1 then c
  else
    match v / 2 ^ 5 with
    | 1 => match c.highest with
      | none => c
      | some pin => c.clear pin
    | 3 => c.clear (v % 8)
    | _ => c

def afterIcw3 (needsIcw4 : Bool) : Phase := if needsIcw4 then .icw4 else .ready

def Chip.write (c : Chip) (v : Nat) : Chip :=
  match c.phase with
  | .icw2 single needsIcw4 =>
    { c with vector := v / 8 * 8, phase := if single then afterIcw3 needsIcw4 else .icw3 needsIcw4 }
  | .icw3 needsIcw4 => { c with phase := afterIcw3 needsIcw4 }
  | .icw4 => { c with phase := .ready }
  | .ready => { c with imr := v }

abbrev Chips := PicId → Chip

def outb (chips : Chips) (port v : Nat) : Chips :=
  match port with
  | 0x20 => update chips .master ((chips .master).command v)
  | 0x21 => update chips .master ((chips .master).write v)
  | 0xa0 => update chips .slave ((chips .slave).command v)
  | 0xa1 => update chips .slave ((chips .slave).write v)
  | _ => chips

def icw1 : Nat := 0x11
def icw4 : Nat := 0x01
def ivectorM : Nat := 0x20
def ivectorS : Nat := 0x28
def eoiSpecific : Nat := 0x60
def eoi : Nat := 0x20
def numPins : Nat := 8

/-- A `struct pic` without its `imr`. `cascade` is the union: the pins that have slaves, or
the pin of the master this one is on. -/
structure Pic where
  port : Nat
  portImr : Nat
  vector : Nat
  master : Option PicId
  cascade : Nat

def pics : PicId → Pic
  | .master => ⟨0x20, 0x21, ivectorM, none, 1 <<< 2⟩
  | .slave => ⟨0xa0, 0xa1, ivectorS, some .master, 2⟩

/-- The master a controller hangs on, with the pin; no master has one of its own. -/
def above (p : PicId) : List (PicId × Nat) :=
  match (pics p).master with
  | none => []
  | some m => [(m, (pics p).cascade)]

/-- One turn of the loop of `pic_init`, for a controller with this mask. -/
def picInitOne (imr : Nat) (chips : Chips) (p : PicId) : Chips :=
  [((pics p).port, icw1), ((pics p).portImr, (pics p).vector), ((pics p).portImr, (pics p).cascade),
    ((pics p).portImr, icw4), ((pics p).portImr, imr)].foldl (fun chips w => outb chips w.1 w.2) chips

def picInit (chips : Chips) : Chips := [PicId.master, .slave].foldl (picInitOne 0xff) chips

/-- Where a gate leads: `int_null`, or the stub for an exception, for an interrupt, for
`panic` or for system calls. -/
inductive Gate where
  | intNull
  | exc (n : Nat)
  | irq (n : Nat)
  | panic
  | syscall
  deriving DecidableEq, Repr

/-- The gates `idt_init` sets after it has set all of them to `int_null`. -/
def idtGates : List (Nat × Gate) :=
  [(0, .exc 0), (1, .exc 1), (2, .exc 2), (3, .exc 3), (4, .exc 4), (5, .exc 5), (6, .exc 6),
    (7, .exc 7), (8, .exc 8), (9, .exc 9), (10, .exc 10), (11, .exc 11), (12, .exc 12),
    (13, .exc 13), (14, .exc 14), (16, .exc 16), (17, .exc 17), (18, .exc 18), (19, .exc 19),
    (0x20, .irq 0), (0x21, .irq 1), (0x22, .irq 2), (0x23, .irq 3), (0x24, .irq 4), (0x25, .irq 5),
    (0x26, .irq 6), (0x27, .irq 7), (0x28, .irq 8), (0x29, .irq 9), (0x30, .irq 10),
    (0x3a, .irq 11), (0x3b, .irq 12), (0x3c, .irq 13), (0x3d, .irq 14), (0x3e, .irq 15),
    (0xf0, .panic), (0xff, .syscall)]

def idtInit : Nat → Gate :=
  idtGates.foldl (fun idt g => update idt g.1 g.2) fun _ => .intNull

/-- `imr` is the field of the driver's records; `invoked` has the calls of handlers, the
last one first. Handlers and what they are called with are of any type. -/
structure Machine (H P : Type) where
  chips : Chips
  imr : PicId → Nat
  irqFns : Nat → H
  irqPriv : Nat → P
  invoked : List (Nat × H × P)

variable {H P : Type}

def picUnmask (imr : PicId → Nat) (p : PicId) (bit : Nat) : PicId → Nat :=
  ((p, bit) :: above p).foldl
    (fun imr b => update imr b.1 (imr b.1 &&& (0xff ^^^ 1 <<< b.2))) imr

def picMask (imr : PicId → Nat) (p : PicId) (bit : Nat) : PicId → Nat :=
  ((p, bit) :: above p).foldl
    (fun imr b => update imr b.1 ((imr b.1 ||| 1 <<< b.2) % 2 ^ 8)) imr

def picSyncImr (imr : PicId → Nat) (chips : Chips) (p : PicId) : Chips :=
  (p :: (above p).map Prod.fst).foldl (fun chips q => outb chips (pics q).portImr (imr q)) chips

def picEoi (chips : Chips) (p : PicId) : Chips :=
  outb ((above p).foldl (fun chips b => outb chips (pics b.1).port (eoiSpecific + b.2)) chips)
    (pics p).port eoi

def pinOf (irq : Nat) : PicId × Nat :=
  if irq < numPins then (.master, irq) else (.slave, irq - numPins)

def irqOn (m : Machine H P) (irq : Nat) : Machine H P :=
  let imr := picUnmask m.imr (pinOf irq).1 (pinOf irq).2
  { m with imr := imr, chips := picSyncImr imr m.chips (pinOf irq).1 }

def irqOff (m : Machine H P) (irq : Nat) : Machine H P :=
  let imr := picMask m.imr (pinOf irq).1 (pinOf irq).2
  { m with imr := imr, chips := picSyncImr imr m.chips (pinOf irq).1 }

def irqEoi (m : Machine H P) (irq : Nat) : Machine H P :=
  { m with chips := picEoi m.chips (pinOf irq).1 }

def setIrqHandler (m : Machine H P) (irq : Int) (h : H) (priv : P) : Machine H P :=
  if 0 ≤ irq ∧ irq < 16 then
    { m with
      irqFns := update m.irqFns irq.toNat h
      irqPriv := update m.irqPriv irq.toNat priv }
  else m

inductive Cmd (H P : Type) where
  | set (irq : Int) (h : H) (priv : P)
  | on (irq : Fin 16)
  | off (irq : Fin 16)
  deriving DecidableEq, Repr

def Machine.cmd (m : Machine H P) : Cmd H P → Machine H P
  | .set irq h priv => setIrqHandler m irq h priv
  | .on irq => irqOn m irq
  | .off irq => irqOff m irq

/-- `irq_handler`, up to the call of `sched`. The handler may register others and change
the masks. Interrupts are off from the gate to here. -/
def irqHandler (m : Machine H P) (irq : Nat) (handler : List (Cmd H P)) : Machine H P :=
  let m := if irq < 16 then
      handler.foldl Machine.cmd
        { m with invoked := (irq, m.irqFns irq, m.irqPriv irq) :: m.invoked }
    else m
  irqEoi m irq

/-- The line waits for its end of interrupt, or the pin its controller hangs on does. -/
def blocked (chips : Chips) (n : Nat) : Bool :=
  (pinOf n :: above (pinOf n).1).any fun b => (chips b.1).isr b.2

def masked (chips : Chips) (n : Nat) : Bool :=
  (pinOf n :: above (pinOf n).1).any fun b => (chips b.1).imr.testBit b.2

def serve (chips : Chips) (b : PicId × Nat) : Chips :=
  update chips b.1 { chips b.1 with isr := update (chips b.1).isr b.2 true }

def signal (chips : Chips) (n : Nat) : Chips :=
  (pinOf n :: above (pinOf n).1).foldl serve chips

def vectorOf (chips : Chips) (n : Nat) : Nat := (chips (pinOf n).1).vector + (pinOf n).2

inductive Op (H P : Type) where
  | cmd (c : Cmd H P)
  | irq (n : Fin 16) (handler : List (Cmd H P))
  deriving DecidableEq, Repr

def step (m : Machine H P) : Op H P → Option (Machine H P)
  | .cmd c => some (m.cmd c)
  | .irq n handler =>
    if masked m.chips n ∨ blocked m.chips n then none
    else
      let m := { m with chips := signal m.chips n }
      match idtInit (vectorOf m.chips n) with
      | .irq k => some (irqHandler m k handler)
      -- nothing but an `iret`
      | .intNull => if handler.isEmpty then some m else none
      | _ => none

def boot (irqNull : H) (null : P) (chips : Chips) : Machine H P where
  chips := picInit chips
  imr := fun _ => 0xff
  irqFns := fun _ => irqNull
  irqPriv := fun _ => null
  invoked := []

def commands : List (Op H P) → List (Cmd H P)
  | [] => []
  | .cmd c :: ops => c :: commands ops
  | .irq _ handler :: ops => handler ++ commands ops

def register (n : Nat) (last : H × P) : Cmd H P → H × P
  | .set irq h priv => if irq = n then (h, priv) else last
  | _ => last

def registered (irqNull : H) (null : P) (ops : List (Op H P)) (n : Nat) : H × P :=
  (commands ops).foldl (register n) (irqNull, null)

/-- The interrupt calls this handler once and leaves its line free to be delivered again. -/
def Dispatched (s t : Machine H P) (n : Nat) (h : H × P) : Prop :=
  t.invoked = (n, h) :: s.invoked ∧ blocked t.chips n = false

def Programmed (chips : Chips) : Prop :=
  ∀ p, (chips p).phase = .ready ∧ (chips p).vector = (pics p).vector

def Idle (chips : Chips) : Prop := ∀ p k, (chips p).isr k = false

theorem picInit_programmed (chips : Chips) : Programmed (picInit chips) := by
  intro p
  cases p <;> exact ⟨rfl, rfl⟩

theorem picInit_idle (chips : Chips) : Idle (picInit chips) := by
  intro p k
  cases p <;> rfl

variable {chips : Chips} {p : PicId} {m t : Machine H P} {n pin : Nat} {handler : List (Cmd H P)}
  {c : Chip} {op : Op H P} {ops : List (Op H P)}

theorem outb_imr (ready : (chips p).phase = .ready) (v : Nat) :
    outb chips (pics p).portImr v = update chips p { chips p with imr := v } := by
  cases p <;> simp only [pics, outb, Chip.write, ready]

theorem outb_command (chips : Chips) (p : PicId) (v : Nat) :
    outb chips (pics p).port v = update chips p ((chips p).command v) := by
  cases p <;> rfl

def SameService (chips chips' : Chips) : Prop :=
  ∀ p, (chips' p).phase = (chips p).phase ∧ (chips' p).vector = (chips p).vector ∧
    (chips' p).isr = (chips p).isr

theorem sameService_imr (programmed : Programmed chips) (imr : PicId → Nat) (qs : List PicId) :
    SameService chips (qs.foldl (fun chips q => outb chips (pics q).portImr (imr q)) chips) := by
  induction qs generalizing chips with
  | nil => exact fun _ => ⟨rfl, rfl, rfl⟩
  | cons q qs ih =>
    have written : SameService chips (outb chips (pics q).portImr (imr q)) := by
      rw [outb_imr (programmed q).1]
      intro p
      rcases eq_or_ne p q with rfl | other
      · simp
      · simp [other]
    have still : Programmed (outb chips (pics q).portImr (imr q)) := by
      intro p
      obtain ⟨phase, vector, -⟩ := written p
      rw [phase, vector]
      exact programmed p
    intro p
    obtain ⟨phase, vector, isr⟩ := written p
    obtain ⟨phase', vector', isr'⟩ := ih still p
    exact ⟨phase'.trans phase, vector'.trans vector, isr'.trans isr⟩

theorem SameService.programmed {chips' : Chips} (same : SameService chips chips')
    (programmed : Programmed chips) : Programmed chips' := by
  intro p
  obtain ⟨phase, vector, -⟩ := same p
  rw [phase, vector]
  exact programmed p

theorem cmd_service (programmed : Programmed m.chips) (c : Cmd H P) :
    SameService m.chips (m.cmd c).chips := by
  cases c with
  | set irq h priv =>
    have same : (setIrqHandler m irq h priv).chips = m.chips := by
      unfold setIrqHandler
      split <;> rfl
    intro p
    simp only [Machine.cmd, same, and_self]
  | on irq | off irq => exact sameService_imr programmed _ _

theorem cmds_service (programmed : Programmed m.chips) (cs : List (Cmd H P)) :
    SameService m.chips (cs.foldl Machine.cmd m).chips := by
  induction cs generalizing m with
  | nil => exact fun _ => ⟨rfl, rfl, rfl⟩
  | cons c cs ih =>
    have first := cmd_service programmed c
    intro p
    obtain ⟨phase, vector, isr⟩ := first p
    obtain ⟨phase', vector', isr'⟩ := ih (first.programmed programmed) p
    exact ⟨phase'.trans phase, vector'.trans vector, isr'.trans isr⟩

theorem cmd_invoked (m : Machine H P) (c : Cmd H P) : (m.cmd c).invoked = m.invoked := by
  cases c with
  | set irq h priv =>
    simp only [Machine.cmd, setIrqHandler]
    split <;> rfl
  | on irq | off irq => rfl

theorem cmds_invoked (m : Machine H P) (cs : List (Cmd H P)) :
    (cs.foldl Machine.cmd m).invoked = m.invoked := by
  induction cs generalizing m with
  | nil => rfl
  | cons c cs ih => exact (ih (m.cmd c)).trans (cmd_invoked m c)

theorem cmd_table (m : Machine H P) (c : Cmd H P) (line : n < 16) :
    ((m.cmd c).irqFns n, (m.cmd c).irqPriv n) = register n (m.irqFns n, m.irqPriv n) c := by
  cases c with
  | set irq h priv =>
    simp only [Machine.cmd, setIrqHandler, register]
    by_cases this : irq = n
    · have inside : 0 ≤ irq ∧ irq < 16 := by omega
      have index : irq.toNat = n := by omega
      simp only [if_pos inside, if_pos this, index, update_self]
    · rw [if_neg this]
      split
      · have index : n ≠ irq.toNat := by omega
        simp only [update_of_ne index]
      · rfl
  | on irq | off irq => rfl

theorem cmds_table (m : Machine H P) (cs : List (Cmd H P)) (line : n < 16) :
    ((cs.foldl Machine.cmd m).irqFns n, (cs.foldl Machine.cmd m).irqPriv n) =
      cs.foldl (register n) (m.irqFns n, m.irqPriv n) := by
  induction cs generalizing m with
  | nil => rfl
  | cons c cs ih =>
    rw [List.foldl_cons, List.foldl_cons, ih (m.cmd c), cmd_table m c line]

theorem idtInit_line (n : Fin 16) : idtInit ((pics (pinOf n).1).vector + (pinOf n).2) =
    if n.val < 10 then .irq n else .intNull := by
  revert n
  decide

theorem serve_fields (chips : Chips) (b : PicId × Nat) (p : PicId) :
    (serve chips b p).phase = (chips p).phase ∧ (serve chips b p).vector = (chips p).vector ∧
      ∀ k, (serve chips b p).isr k = (decide ((p, k) = b) || (chips p).isr k) := by
  obtain ⟨q, pin⟩ := b
  unfold serve
  rcases eq_or_ne p q with rfl | other
  · rw [update_self]
    refine ⟨rfl, rfl, ?_⟩
    intro k
    rcases eq_or_ne k pin with rfl | apart
    · simp
    · simp [apart]
  · rw [update_of_ne other]
    refine ⟨rfl, rfl, ?_⟩
    simp [other]

theorem serve_all (chips : Chips) (bs : List (PicId × Nat)) (p : PicId) :
    (bs.foldl serve chips p).phase = (chips p).phase ∧
      (bs.foldl serve chips p).vector = (chips p).vector ∧
      ∀ k, (bs.foldl serve chips p).isr k = (decide ((p, k) ∈ bs) || (chips p).isr k) := by
  induction bs generalizing chips with
  | nil => simp
  | cons b bs ih =>
    obtain ⟨phase, vector, isr⟩ := ih (serve chips b)
    obtain ⟨phase', vector', isr'⟩ := serve_fields chips b p
    refine ⟨phase.trans phase', vector.trans vector', ?_⟩
    intro k
    rw [List.foldl_cons, isr k, isr' k]
    simp only [List.mem_cons, Bool.decide_or]
    rw [← Bool.or_assoc, Bool.or_comm (decide ((p, k) ∈ bs))]

theorem signal_programmed (programmed : Programmed chips) (n : Nat) :
    Programmed (signal chips n) := by
  intro p
  obtain ⟨phase, vector, -⟩ := serve_all chips (pinOf n :: above (pinOf n).1) p
  exact ⟨phase.trans (programmed p).1, vector.trans (programmed p).2⟩

theorem vectorOf_signal (programmed : Programmed chips) (n : Nat) :
    vectorOf (signal chips n) n = (pics (pinOf n).1).vector + (pinOf n).2 := by
  unfold vectorOf
  rw [(signal_programmed programmed n _).2]

theorem step_irq {n : Fin 16} (programmed : Programmed m.chips)
    (ran : step m (.irq n handler) = some t) :
    blocked m.chips n = false ∧
      (n.val < 10 ∧ t = irqHandler { m with chips := signal m.chips n } n handler ∨
      10 ≤ n.val ∧ handler = [] ∧ t = { m with chips := signal m.chips n }) := by
  unfold step at ran
  obtain ⟨free, ran⟩ := Option.ite_none_left_eq_some.mp ran
  rw [not_or, Bool.not_eq_true, Bool.not_eq_true] at free
  refine ⟨free.2, ?_⟩
  simp only [vectorOf_signal programmed, idtInit_line] at ran
  by_cases low : n.val < 10
  · rw [if_pos low] at ran
    cases ran
    exact .inl ⟨low, rfl⟩
  · rw [if_neg low] at ran
    obtain ⟨empty, eq⟩ := Option.ite_none_right_eq_some.mp ran
    cases eq
    exact .inr ⟨Nat.le_of_not_lt low, List.isEmpty_iff.mp empty, rfl⟩

theorem command_eoi (c : Chip) : (c.command eoi).phase = c.phase ∧
    (c.command eoi).vector = c.vector ∧
    ∀ k, (c.command eoi).isr k = (decide (c.highest ≠ some k) && c.isr k) := by
  cases found : c.highest with
  | none =>
    have same : c.command eoi = c := by simp [Chip.command, eoi, found]
    simp [same]
  | some pin =>
    have cleared : c.command eoi = c.clear pin := by simp [Chip.command, eoi, found]
    rw [cleared]
    refine ⟨rfl, rfl, ?_⟩
    intro k
    rcases eq_or_ne k pin with rfl | other
    · simp [Chip.clear]
    · simp [Chip.clear, other, Ne.symm other]

theorem picEoi_programmed (programmed : Programmed chips) (p : PicId) :
    Programmed (picEoi chips p) := by
  have ends : ∀ (chips : Chips) (q : PicId), Programmed chips →
      Programmed (update chips q ((chips q).command eoi)) := by
    intro chips q programmed r
    rcases eq_or_ne r q with rfl | other
    · obtain ⟨phase, vector, -⟩ := command_eoi (chips r)
      rw [update_self, phase, vector]
      exact programmed r
    · rw [update_of_ne other]
      exact programmed r
  unfold picEoi
  rw [outb_command]
  cases p with
  | master => exact ends chips .master programmed
  | slave =>
    apply ends
    simp only [above, pics, List.foldl_cons, List.foldl_nil]
    intro r
    cases r with
    | master => exact programmed .master
    | slave => exact programmed .slave

theorem highest_only (low : pin < 8) (isr : ∀ k, c.isr k = decide (k = pin)) :
    c.highest = some pin := by
  have only : c.isr = fun k => decide (k = pin) := funext isr
  have found : ∀ k : Fin 8, (List.range 8).find? (fun j => decide (j = k.val)) = some k.val := by
    decide
  unfold Chip.highest
  rw [only]
  exact found ⟨pin, low⟩

theorem command_eoi_only (low : pin < 8) (isr : ∀ k, c.isr k = decide (k = pin)) (k : Nat) :
    (c.command eoi).isr k = false := by
  rw [(command_eoi c).2.2, highest_only low isr, isr]
  rcases eq_or_ne k pin with rfl | other
  · simp
  · simp [other]

theorem picEoi_idle (low : pin < 8)
    (isr : ∀ q k, (chips q).isr k = decide ((q, k) ∈ (p, pin) :: above p)) :
    Idle (picEoi chips p) := by
  unfold picEoi
  rw [outb_command]
  cases p with
  | master =>
    intro q k
    cases q with
    | master => exact command_eoi_only low (fun j => by simp [isr, above, pics]) k
    | slave => simp [above, pics, isr]
  | slave =>
    intro q k
    simp only [above, pics, List.foldl_cons, List.foldl_nil]
    cases q with
    | master =>
      have cleared : ((chips .master).clear 2).isr k = false := by
        rcases eq_or_ne k 2 with rfl | other
        · simp [Chip.clear]
        · simp [Chip.clear, isr, above, pics, other]
      exact cleared
    | slave => exact command_eoi_only low (fun j => by simp [outb, isr, above, pics]) k

theorem pinOf_low (n : Fin 16) : (pinOf n).2 < 8 := by
  unfold pinOf numPins
  split
  · assumption
  · have := n.isLt
    simp only
    omega

theorem step_programmed (programmed : Programmed m.chips) (ran : step m op = some t) :
    Programmed t.chips := by
  cases op with
  | cmd c =>
    cases ran
    exact (cmd_service programmed c).programmed programmed
  | irq n handler =>
    have signalled := signal_programmed programmed n
    obtain ⟨-, ⟨-, rfl⟩ | ⟨-, -, rfl⟩⟩ := step_irq programmed ran
    · simp only [irqHandler, if_pos n.isLt, irqEoi]
      apply picEoi_programmed
      exact SameService.programmed (cmds_service signalled handler) signalled
    · exact signalled

theorem run_programmed {irqNull : H} {null : P}
    (ran : Run.exec step (boot irqNull null chips) ops = some t) : Programmed t.chips :=
  Run.exec_invariant (fun m => Programmed m.chips) (fun _ => True)
    (fun _ _ _ _ programmed stepped => step_programmed programmed stepped) (fun _ _ => trivial)
    (picInit_programmed chips) ran

theorem low_irq {n : Fin 16} (programmed : Programmed m.chips) (idle : Idle m.chips)
    (low : n.val < 10) (ran : step m (.irq n handler) = some t) :
    Idle t.chips ∧ t.invoked = (n.val, m.irqFns n, m.irqPriv n) :: m.invoked := by
  obtain ⟨-, ⟨-, rfl⟩ | ⟨high, -⟩⟩ := step_irq programmed ran
  · have signalled := signal_programmed programmed n
    have service := cmds_service (m := Machine.mk (signal m.chips n) m.imr m.irqFns m.irqPriv
      ((n.val, m.irqFns n, m.irqPriv n) :: m.invoked)) signalled handler
    simp only [irqHandler, if_pos n.isLt, irqEoi]
    refine ⟨?_, cmds_invoked _ handler⟩
    apply picEoi_idle (pinOf_low n)
    intro q k
    rw [(service q).2.2]
    have isr := (serve_all m.chips (pinOf n :: above (pinOf n).1) q).2.2 k
    rw [idle q k, Bool.or_false] at isr
    exact isr
  · omega

theorem step_idle (low : ∀ n handler, op = .irq n handler → n.val < 10)
    (inv : Programmed m.chips ∧ Idle m.chips) (ran : step m op = some t) :
    Programmed t.chips ∧ Idle t.chips := by
  refine ⟨step_programmed inv.1 ran, ?_⟩
  cases op with
  | cmd c =>
    cases ran
    intro p k
    rw [(cmd_service inv.1 c p).2.2]
    exact inv.2 p k
  | irq n handler => exact (low_irq inv.1 inv.2 (low n handler rfl) ran).1

theorem step_table (programmed : Programmed m.chips) (ran : step m op = some t) (line : n < 16) :
    (t.irqFns n, t.irqPriv n) = (commands [op]).foldl (register n) (m.irqFns n, m.irqPriv n) := by
  cases op with
  | cmd c =>
    cases ran
    exact cmd_table m c line
  | irq k handler =>
    obtain ⟨-, ⟨-, rfl⟩ | ⟨-, rfl, rfl⟩⟩ := step_irq programmed ran
    · simp only [irqHandler, if_pos k.isLt, irqEoi, commands, List.append_nil]
      exact cmds_table _ handler line
    · rfl

theorem commands_cons (op : Op H P) (ops : List (Op H P)) :
    commands (op :: ops) = commands [op] ++ commands ops := by
  cases op with
  | cmd c => rfl
  | irq n handler => simp [commands]

theorem run_table (programmed : Programmed m.chips) (ran : Run.exec step m ops = some t)
    (line : n < 16) :
    (t.irqFns n, t.irqPriv n) = (commands ops).foldl (register n) (m.irqFns n, m.irqPriv n) := by
  induction ops generalizing m with
  | nil =>
    cases ran
    rfl
  | cons op ops ih =>
    obtain ⟨u, first, later⟩ := (Run.exec_cons step m t op ops).mp ran
    rw [commands_cons, List.foldl_append, ← step_table programmed first line]
    exact ih (step_programmed programmed first) later

/-- In a run of commands and delivered interrupts, every interrupt calls the handler that
was last registered for its line and leaves the line free, exactly if none of them is on
one of the last six lines. -/
theorem dispatch_iff (irqNull : H) (null : P) (chips : Chips) (ops : List (Op H P))
    (s : Machine H P) (ran : Run.exec step (boot irqNull null chips) ops = some s) :
    (∀ pre n handler post, ops = pre ++ .irq n handler :: post → ∃ t u,
        Run.exec step (boot irqNull null chips) pre = some t ∧ step t (.irq n handler) = some u ∧
        Dispatched t u n (registered irqNull null pre n)) ↔
      ∀ pre n handler post, ops = pre ++ .irq n handler :: post → n.val < 10 := by
  have parts : ∀ pre n handler post, ops = pre ++ .irq n handler :: post → ∃ t u,
      Run.exec step (boot irqNull null chips) pre = some t ∧ step t (.irq n handler) = some u := by
    rintro pre n handler post rfl
    rw [Run.exec_append] at ran
    obtain ⟨t, before, rest⟩ := Option.bind_eq_some_iff.mp ran
    obtain ⟨u, here, -⟩ := (Run.exec_cons step t s _ post).mp rest
    exact ⟨t, u, before, here⟩
  constructor
  · intro all pre n handler post split
    obtain ⟨t, u, before, here, called, -⟩ := all pre n handler post split
    obtain ⟨-, ⟨low, -⟩ | ⟨-, -, rfl⟩⟩ := step_irq (run_programmed before) here
    · exact low
    · -- through `int_null` no handler is called
      exact absurd (congrArg List.length called) (by simp)
  · intro low pre n handler post split
    obtain ⟨t, u, before, here⟩ := parts pre n handler post split
    have quiet : Programmed t.chips ∧ Idle t.chips := by
      apply Run.exec_invariant (fun m : Machine H P => Programmed m.chips ∧ Idle m.chips)
        (fun op => ∀ n handler, op = .irq n handler → n.val < 10)
        (fun _ _ _ ok inv stepped => step_idle ok inv stepped) ?_
        ⟨picInit_programmed chips, picInit_idle chips⟩ before
      rintro op member k body rfl
      obtain ⟨front, back, rfl⟩ := List.append_of_mem member
      apply low front k body (back ++ .irq n handler :: post)
      rw [split, List.append_assoc, List.cons_append]
    obtain ⟨idle, called⟩ := low_irq quiet.1 quiet.2 (low pre n handler post split) here
    refine ⟨t, u, before, here, ?_, ?_⟩
    · rw [called, run_table (picInit_programmed chips) before n.isLt]
      rfl
    · apply List.any_eq_false.mpr
      intro b _
      rw [idle b.1 b.2]
      exact Bool.false_ne_true

def unprogrammed : Chips := fun _ => ⟨.ready, 0, 0, fun _ => false⟩

def sampleOps : List (Op Nat Nat) :=
  [.cmd (.set 0 7 70), .cmd (.on 0), .cmd (.set 8 9 90), .cmd (.on 8), .irq 0 [],
    .irq 8 [.set 0 5 50], .irq 0 []]

theorem dispatch_iff_sample : ∃ s, Run.exec step (boot 0 0 unprogrammed) sampleOps = some s ∧
    ∀ pre n handler post, sampleOps = pre ++ .irq n handler :: post → ∃ t u,
      Run.exec step (boot 0 0 unprogrammed) pre = some t ∧ step t (.irq n handler) = some u ∧
      Dispatched t u n (registered 0 0 pre n) := by
  have runs : (Run.exec step (boot 0 0 unprogrammed) sampleOps).isSome = true := by decide +kernel
  obtain ⟨s, ran⟩ := Option.isSome_iff_exists.mp runs
  refine ⟨s, ran, (dispatch_iff 0 0 unprogrammed sampleOps s ran).mpr ?_⟩
  intro pre n handler post split
  have low : ∀ op ∈ sampleOps, ∀ k body, op = .irq k body → k.val < 10 := by
    intro op member k body is
    subst is
    simp only [sampleOps, List.mem_cons, Op.irq.injEq, List.not_mem_nil, or_false, reduceCtorEq,
      false_or] at member
    rcases member with ⟨rfl, -⟩ | ⟨rfl, -⟩ | ⟨rfl, -⟩ <;> decide
  apply low (.irq n handler) _ n handler rfl
  rw [split]
  exact List.mem_append_right _ List.mem_cons_self

/-- An interrupt on line 15: its handler is not called, and the line, with
all others of its controller, waits for ever. -/
theorem line_fifteen_lost : ∃ s t : Machine Nat Nat,
    Run.exec step (boot 0 0 unprogrammed) [.cmd (.set 15 7 70), .cmd (.on 15), .cmd (.on 8)] =
      some s ∧
    step s (.irq 15 []) = some t ∧ registered 0 0 [.cmd (.set 15 7 70), .cmd (.on 15),
      .cmd (.on 8)] 15 = (7, 70) ∧ t.invoked = [] ∧ blocked t.chips 15 = true ∧
    blocked t.chips 8 = true := by
  have whole : ((Run.exec step (boot 0 0 unprogrammed) [.cmd (.set 15 7 70), .cmd (.on 15),
      .cmd (.on 8)]).bind fun s : Machine Nat Nat => (step s (.irq 15 [])).map fun t =>
        decide (t.invoked = [] ∧ blocked t.chips 15 = true ∧ blocked t.chips 8 = true)) =
      some true := by
    decide +kernel
  obtain ⟨s, ran, rest⟩ := Option.bind_eq_some_iff.mp whole
  obtain ⟨t, here, values⟩ := Option.map_eq_some_iff.mp rest
  obtain ⟨none, line, others⟩ := of_decide_eq_true values
  exact ⟨s, t, ran, here, by decide, none, line, others⟩

end ScaraOS.Irq
