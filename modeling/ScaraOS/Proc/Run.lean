import ScaraOS.Lib.Run
import ScaraOS.Proc.Files

/-! The calls of all tasks, in any order. -/
namespace ScaraOS.Proc

open Paging Mm

variable {R : Type}

structure System (R : Type) where
  kernel : Exec.Kernel
  graph : Namei.Graph Nat R

/-- A call by task `t`, or the end of `t` in `flush_delq`, with what the call meets. -/
inductive Op where
  | kernelThread (t : Nat) (g : ThreadGrants)
  | fork (t : Nat) (a : ForkArgs) (g : ForkGrants)
  | exec (t : Nat) (c : ExecCall)
  | exit (t : Nat)
  | reap (t : Nat)
  | openFile (t : Nat) (c : OpenCall)
  | closeFile (t walks handle : Nat)
  | readFile (t : Nat) (c : ReadCall)

/-- The idle task neither ends nor runs a program. -/
def Enabled (s : Kernel R) : Op → Prop
  | .kernelThread t _ | .fork t _ _ | .openFile t _ | .closeFile t _ _ | .readFile t _ => t ∈ s.live
  | .exec t _ | .exit t => t ∈ s.live ∧ t ≠ s.idle
  | .reap t => t ∈ s.zombies

instance decidableEnabled (s : Kernel R) : (op : Op) → Decidable (Enabled s op)
  | .kernelThread t _ | .fork t _ _ | .openFile t _ | .closeFile t _ _ | .readFile t _ =>
    inferInstanceAs (Decidable (t ∈ s.live))
  | .exec t _ | .exit t => inferInstanceAs (Decidable (t ∈ s.live ∧ t ≠ s.idle))
  | .reap t => inferInstanceAs (Decidable (t ∈ s.zombies))

def perform (sys : System R) (s : Kernel R) : Op → Except Halt (Kernel R)
  | .kernelThread t g => (kernelThread s t g).map Prod.fst
  | .fork t a g => (sysFork s t a g).map Prod.fst
  | .exec t c => (doExec sys.kernel sys.graph s t c).map Prod.fst
  | .exit t => .ok (doExit s t)
  | .reap t => reap s t
  | .openFile t c => (sysOpen sys.graph s t c).map Prod.fst
  | .closeFile t walks handle => (sysClose s t walks handle).map Prod.fst
  | .readFile t c => (sysRead s t c).map Prod.fst

/-- A call that does not return is the end of the run. -/
def step (sys : System R) (s : Kernel R) (op : Op) : Option (Kernel R) :=
  if Enabled s op then (perform sys s op).toOption else none

theorem step_some {sys : System R} {s s' : Kernel R} {op : Op} :
    step sys s op = some s' ↔ Enabled s op ∧ perform sys s op = .ok s' := by
  unfold step
  by_cases enabled : Enabled s op
  · rw [if_pos enabled, and_iff_right enabled]
    cases perform sys s op with
    | error e | ok u => simp [Except.toOption]
  · rw [if_neg enabled]
    exact iff_of_false (by simp) fun both => enabled both.1

def noFiles : System Unit where
  kernel := ⟨0, fun _ => 0⟩
  graph := ⟨fun r _ _ _ => (none, r), fun r _ => r⟩

end ScaraOS.Proc
