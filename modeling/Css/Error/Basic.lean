import Css.Error.Cause
import Css.Source.Location

/-!
# Errors

A fault is a cause and the span of the source to blame. An error is what is reported: a cause and, if
source text is to blame, the place in the file.
-/
namespace Css

structure Fault where
  cause : Cause
  span : Span
deriving DecidableEq

structure Place where
  filename : String
  location : Location
  span : Span
deriving DecidableEq

structure Error where
  cause : Cause
  place : Option Place
deriving DecidableEq

structure SourceFile where
  name : String
  index : LineIndex

namespace SourceFile

def ofText (name text : String) : SourceFile :=
  ⟨name,LineIndex.ofSource text⟩

def location (file : SourceFile) (span : Span) : Location :=
  file.index.location span.start

def size (file : SourceFile) : Nat :=
  Text.utf8Length file.index.text

def error (file : SourceFile) (fault : Fault) : Error :=
  ⟨fault.cause,some ⟨file.name,file.location fault.span,fault.span⟩⟩

end SourceFile

namespace Fault

def parse (cause : ParseCause) (span : Span) : Fault :=
  ⟨.parse cause,span⟩

def selector (problem : SelectorProblem) (span : Span) : Fault :=
  ⟨.parse (.invalidSelector problem),span⟩

def isUnclosedBlock (fault : Fault) : Bool :=
  fault.cause == .parse .unclosedBlock

end Fault

namespace Error

def message (e : Error) : String :=
  e.cause.message

def category (e : Error) : String :=
  e.cause.category

def describe (e : Error) : String :=
  match e.place with
  | none => e.message
  | some p =>
    e.message ++ " at " ++ p.filename ++ ":" ++ toString (p.location.line + 1) ++ ":" ++
      toString (p.location.column + 1)

end Error

/-! ## Results of steps that may fail -/

section

variable {ε α β γ : Type} {x : Except ε α} {y : Except ε β}

theorem ok_of_bind_ok {f : α → Except ε β} {b : β} (h : x >>= f = .ok b) :
    ∃ a, x = .ok a ∧ f a = .ok b := by
  cases x with
  | error e => cases h
  | ok a => exact ⟨a,rfl,h⟩

theorem ok_of_bind₂_ok {f : α → β → γ} {c : γ}
    (h : (x >>= fun a => y >>= fun b => pure (f a b)) = .ok c) :
    ∃ a b, x = .ok a ∧ y = .ok b ∧ f a b = c := by
  obtain ⟨a,hx,h⟩ := ok_of_bind_ok h
  obtain ⟨b,hy,h⟩ := ok_of_bind_ok h
  exact ⟨a,b,hx,hy,Except.ok.inj h⟩

theorem error_of_bind_error {f : α → Except ε β} {e : ε} (h : x >>= f = .error e) :
    x = .error e ∨ ∃ a, x = .ok a ∧ f a = .error e := by
  cases x with
  | error e' =>
    cases h
    exact Or.inl rfl
  | ok a => exact Or.inr ⟨a,rfl,h⟩

theorem error_of_bind₂_error {f : α → β → γ} {e : ε}
    (h : (x >>= fun a => y >>= fun b => pure (f a b)) = .error e) : x = .error e ∨ y = .error e := by
  rcases error_of_bind_error h with hx | ⟨_,-,h⟩
  · exact Or.inl hx
  · rcases error_of_bind_error h with hy | ⟨_,-,h⟩
    · exact Or.inr hy
    · cases h

end

end Css
