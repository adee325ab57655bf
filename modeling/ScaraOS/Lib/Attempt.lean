import Mathlib.Tactic.Common

/-! Computations that record what they do and may be stopped by a fault. -/

structure Attempt (Event Fault α : Type) where
  events : List Event
  result : Except Fault α

namespace Attempt

variable {Event Fault α β : Type}

instance : Monad (Attempt Event Fault) where
  pure a := ⟨[], .ok a⟩
  bind x f :=
    match x.result with
    | .error e => ⟨x.events, .error e⟩
    | .ok a => ⟨x.events ++ (f a).events, (f a).result⟩

def emit (e : Event) : Attempt Event Fault Unit := ⟨[e], .ok ()⟩

def fault (e : Fault) : Attempt Event Fault α := ⟨[], .error e⟩

def ofExcept (r : Except Fault α) : Attempt Event Fault α := ⟨[], r⟩

@[simp] theorem pure_events (a : α) : (pure a : Attempt Event Fault α).events = [] := rfl

@[simp] theorem pure_result (a : α) : (pure a : Attempt Event Fault α).result = .ok a := rfl

@[simp] theorem emit_bind_events (e : Event) (f : Unit → Attempt Event Fault α) :
    (emit e >>= f).events = e :: (f ()).events := rfl

@[simp] theorem emit_bind_result (e : Event) (f : Unit → Attempt Event Fault α) :
    (emit e >>= f).result = (f ()).result := rfl

@[simp] theorem fault_result (e : Fault) : (fault e : Attempt Event Fault α).result = .error e := rfl

@[simp] theorem ofExcept_ok_bind (a : α) (f : α → Attempt Event Fault β) :
    (ofExcept (.ok a) >>= f) = f a := rfl

@[simp] theorem ofExcept_error_bind (e : Fault) (f : α → Attempt Event Fault β) :
    (ofExcept (.error e) >>= f) = fault e := rfl

theorem bind_of_ok {x : Attempt Event Fault α} {a : α} (ok : x.result = .ok a)
    (f : α → Attempt Event Fault β) : (x >>= f) = ⟨x.events ++ (f a).events, (f a).result⟩ := by
  change (match x.result with
    | .error e => (⟨x.events, .error e⟩ : Attempt Event Fault β)
    | .ok a => ⟨x.events ++ (f a).events, (f a).result⟩) = _
  rw [ok]

theorem bind_of_error {x : Attempt Event Fault α} {e : Fault} (stopped : x.result = .error e)
    (f : α → Attempt Event Fault β) : (x >>= f) = ⟨x.events, .error e⟩ := by
  change (match x.result with
    | .error e => (⟨x.events, .error e⟩ : Attempt Event Fault β)
    | .ok a => ⟨x.events ++ (f a).events, (f a).result⟩) = _
  rw [stopped]

end Attempt
