import Css.Output.Writer
import Css.Value.Render

/-!
# Declarations
-/
namespace Css

structure Declaration where
  property : Property
  value : Value
  important : Bool
  location : Location

namespace Declaration

def same (a b : Declaration) : Bool :=
  a.property == b.property && a.important == b.important && a.value.same b.value

def sameAll : List Declaration → List Declaration → Bool
  | [], [] => true
  | a :: as, b :: bs => a.same b && sameAll as bs
  | _, _ => false

def render (minify : Bool) (d : Declaration) : String :=
  let space := if minify then "" else " "
  d.property.render ++ ":" ++
    (if d.value.isEmpty then "" else space ++ d.value.render minify) ++
    (if d.important then space ++ "!important" else "")

def traverseValues {m : Type → Type} [Monad m] (f : Value → m Value)
    (declarations : List Declaration) : m (List Declaration) :=
  declarations.mapM fun d => return { d with value := ← f d.value }

end Declaration

end Css
