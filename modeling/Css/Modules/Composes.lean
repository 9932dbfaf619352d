import Css.Error.Basic
import Css.Value.Render

/-!
# Composition of classes

The value of `composes` lists the classes that the classes of a rule stand for as well, in groups
divided by commas.
-/
namespace Css

structure Composes where
  names : List String
  source : Option NameSource
  location : Location
  span : Span
deriving DecidableEq

namespace Composes

def readNames : List Component → Except ComposesProblem (List String)
  | [] => .ok []
  | .ident name :: rest => do return name :: (← readNames rest)
  | c :: _ => .error (.notAName (c.render false))

def readSource : List Component → Except ComposesProblem NameSource
  | [.string file] => .ok (.file file)
  | [c] => if c.isKeyword "global" then .ok .global else .error .expectedSource
  | _ => .error .expectedSource

def readGroup (items : List Component) :
    Except ComposesProblem (List String × Option NameSource) := do
  let names := items.takeWhile fun c => !c.isKeyword "from"
  let source ←
    match items.dropWhile fun c => !c.isKeyword "from" with
    | [] => pure none
    | _ :: rest => some <$> readSource rest
  if names.isEmpty then .error .expectedName
  else return (← readNames names, source)

def read (value : Value) (location : Location) (span : Span) :
    Except ComposesProblem (List Composes) :=
  (value.splitOnP Component.isComma).mapM fun group => do
    let (names, source) ← readGroup (group.filter fun c => !c.isWhitespace)
    return ⟨names,source,location,span⟩

end Composes

end Css
