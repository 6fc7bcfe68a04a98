import PerfectKeys.Event

/-!
# Logs

A computation that reports events is a value together with the events on the way to it,
in order. Which of them are shown is decided afterwards, so what is computed cannot depend
on what is shown.
-/

namespace PerfectKeys

/-- A value and the events that led to it. -/
structure Logged (α : Type) where
  value : α
  /-- The events, in order. -/
  events : List Event

namespace Logged

instance : Monad Logged where
  pure a := ⟨a, []⟩
  bind x f :=
    let y := f x.value
    ⟨y.value, x.events ++ y.events⟩

instance : LawfulMonad Logged :=
  .mk' Logged (fun x => congrArg (Logged.mk x.value) (List.append_nil x.events)) (fun _ _ => rfl)
    (fun _ _ _ => congrArg (Logged.mk _) (List.append_assoc _ _ _))

/-- Records events, in order. -/
def emitAll (events : List Event) : Logged Unit := ⟨(), events⟩

/-- Records one event. -/
def emit (e : Event) : Logged Unit := emitAll [e]

@[simp] theorem value_pure {α : Type} (a : α) : (pure a : Logged α).value = a := rfl

@[simp] theorem events_pure {α : Type} (a : α) : (pure a : Logged α).events = [] := rfl

@[simp] theorem value_bind {α β : Type} (x : Logged α) (f : α → Logged β) :
    (x >>= f).value = (f x.value).value := rfl

@[simp] theorem events_bind {α β : Type} (x : Logged α) (f : α → Logged β) :
    (x >>= f).events = x.events ++ (f x.value).events := rfl

@[simp] theorem events_emitAll (events : List Event) : (emitAll events).events = events := rfl

@[simp] theorem events_emit (e : Event) : (emit e).events = [e] := rfl

end Logged

end PerfectKeys
