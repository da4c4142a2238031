import Calculator.Fault
import Calculator.Pending
import Calculator.Token
/-!
# Trace — computations that keep a record

A `Traced` computation has an outcome and the events on the way to it.  The events before a fault stay in the record.
-/
namespace Calculator

inductive Event where
  /-- A token was used up; its lexeme starts at this byte. -/
  | token (t : Token) (offset : Nat)
  /-- A pending operator takes its operands; so many values were there before. -/
  | reduce (p : Pending) (values : Nat)
  | parsed (height : Nat)
  | evaluated (source : String) (value : Float)
deriving Inhabited

/-- An event as a line of the trace: tokens at the finer level, all else at the coarser one. -/
def Event.line : Event → String
  | token t offset => "TRACE token " ++ t.traceText ++ " at " ++ toString offset
  | reduce p values => "DEBUG reduce " ++ p.traceText ++ " with " ++ toString values ++ " values"
  | parsed height => "DEBUG parsed tree of height " ++ toString height
  | evaluated source value => "DEBUG " ++ source ++ " => " ++ Binary64.text value

structure Traced (α : Type) where
  log : List Event
  outcome : Except Fault α
deriving Inhabited

namespace Traced

def fail {α : Type} (e : Fault) : Traced α := ⟨[], .error e⟩

def record (event : Event) : Traced Unit := ⟨[event], .ok ()⟩

def ofExcept {α : Type} (r : Except Fault α) : Traced α := ⟨[], r⟩

/-- The events of the first, then those of what follows from its result. -/
protected def bind {α β : Type} (x : Traced α) (f : α → Traced β) : Traced β :=
  match x with
  | ⟨log, .ok a⟩ =>
    let y := f a
    ⟨log ++ y.log, y.outcome⟩
  | ⟨log, .error e⟩ => ⟨log, .error e⟩

instance : Monad Traced where
  pure a := ⟨[], .ok a⟩
  bind := Traced.bind

theorem pure_eq {α : Type} (a : α) : (pure a : Traced α) = ⟨[], .ok a⟩ := rfl

theorem ok_bind {α β : Type} (log : List Event) (a : α) (f : α → Traced β) :
    (⟨log, .ok a⟩ : Traced α) >>= f = ⟨log ++ (f a).log, (f a).outcome⟩ := rfl

theorem error_bind {α β : Type} (log : List Event) (e : Fault) (f : α → Traced β) :
    (⟨log, .error e⟩ : Traced α) >>= f = ⟨log, .error e⟩ := rfl

instance : LawfulMonad Traced := LawfulMonad.mk' Traced
  (fun x => by obtain ⟨log, e | a⟩ := x <;> simp [Functor.map, Traced.bind])
  (fun a f => by rw [pure_eq, ok_bind]; rfl)
  (fun x f g => by
    obtain ⟨log, e | a⟩ := x
    · rfl
    · rw [ok_bind, ok_bind]
      generalize f a = y
      obtain ⟨log', e' | b⟩ := y
      · rfl
      · simp only [ok_bind, List.append_assoc])

/-- What follows, with earlier events put before its own. -/
def after {α : Type} (log : List Event) (x : Traced α) : Traced α := ⟨log ++ x.log, x.outcome⟩

theorem outcome_bind_ok {α β : Type} {x : Traced α} {f : α → Traced β} {b : β} (h : (x >>= f).outcome = .ok b) :
    ∃ a, x.outcome = .ok a ∧ (f a).outcome = .ok b := by
  obtain ⟨log, r⟩ := x
  cases r with
  | error e => cases h
  | ok a => exact ⟨a, rfl, h⟩

end Traced
end Calculator
