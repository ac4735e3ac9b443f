import LinearOpt.Event

/-!
# Computations that report events

A `Logged F α` is the outcome of a computation together with the events it reported. Events that
were reported before a failure are kept: `bind_of_ok` and `bind_of_error` say so, and the monad is
lawful.
-/

namespace LinearOpt

/-- A computation that reports events and may fail. -/
structure Logged (F α : Type) where
  events : List (Event F)
  outcome : Except Failure α

namespace Logged

variable {F α β : Type}

instance : Monad (Logged F) where
  pure a := ⟨[], .ok a⟩
  bind x f :=
    match x.outcome with
    | .ok a => let y := f a; ⟨x.events ++ y.events, y.outcome⟩
    | .error e => ⟨x.events, .error e⟩

/-- A computation that reports nothing. -/
instance : MonadLift (Except Failure) (Logged F) := ⟨fun x => ⟨[], x⟩⟩

def fail (e : Failure) : Logged F α := ⟨[], .error e⟩

/-- Reports an event. -/
def report (event : Event F) : Logged F Unit := ⟨[event], .ok ()⟩

/-! ## Laws -/

@[ext] theorem ext {x y : Logged F α} (events : x.events = y.events)
    (outcome : x.outcome = y.outcome) : x = y := by
  cases x
  cases y
  simp_all

theorem bind_of_ok {x : Logged F α} {a : α} (h : x.outcome = .ok a) (f : α → Logged F β) :
    x >>= f = ⟨x.events ++ (f a).events, (f a).outcome⟩ := by
  simp only [bind, h]

theorem bind_of_error {x : Logged F α} {e : Failure} (h : x.outcome = .error e)
    (f : α → Logged F β) : x >>= f = ⟨x.events, .error e⟩ := by
  simp only [bind, h]

instance : LawfulMonad (Logged F) := LawfulMonad.mk' (Logged F)
  (fun x => by
    cases hx : x.outcome with
    | ok a => ext1 <;> simp [Functor.map, hx]
    | error e => ext1 <;> simp [Functor.map, hx])
  (fun _ _ => by ext1 <;> simp [pure, bind])
  (fun x f g => by
    cases hx : x.outcome with
    | ok a =>
      cases hf : (f a).outcome with
      | ok b => ext1 <;> simp [bind, hx, hf]
      | error e => ext1 <;> simp [bind, hx, hf]
    | error e => ext1 <;> simp [bind, hx])

end Logged

end LinearOpt
