import Css.Error.Basic
import Css.Token.Basic

/-!
# Parsing with recovery

A strict parser fails at the first fault. A lenient one notes the fault, skips the part that is to
blame, and goes on.
-/
namespace Css

structure Dialect where
  file : SourceFile
  modules : Bool
  dashed : Bool
  lenient : Bool
  customMedia : Bool

abbrev ParseM := ExceptT Fault (StateM (List Fault))

namespace Dialect

def location (d : Dialect) (t : Token) : Location :=
  d.file.location t.span

def recover (d : Dialect) (fault : Fault) : ParseM Unit :=
  if d.lenient then modify fun faults => faults ++ [fault] else throw fault

def attempt {α : Type} (d : Dialect) (step : Except Fault α) : ParseM (Option α) :=
  match step with
  | .ok a => return some a
  | .error fault => do
    d.recover fault
    return none

end Dialect

end Css
