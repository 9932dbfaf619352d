import Css.Selector.Basic

/-!
# Names in selectors

The names of classes and ids that belong to the file: all but those in a selector that belongs to no
file.
-/
namespace Css

structure Part.Visitor (m : Type → Type) where
  className : String → m String
  idName : String → m String

def Part.traverse {m : Type → Type} [Monad m] (v : Part.Visitor m) : Part → m Part
  | className name => return className (← v.className name)
  | idName name => return idName (← v.idName name)
  | pseudoClassOf name selectors => return pseudoClassOf name (← traverseLists v selectors)
  | part => return part
where
  traverseList {m : Type → Type} [Monad m] (v : Part.Visitor m) : List Part → m (List Part)
    | [] => return []
    | p :: ps => do return (← p.traverse v) :: (← traverseList v ps)
  traverseLists {m : Type → Type} [Monad m] (v : Part.Visitor m) :
      List (List Part) → m (List (List Part))
    | [] => return []
    | s :: ss => do return (← traverseList v s) :: (← traverseLists v ss)

def Selector.traverseAll {m : Type → Type} [Monad m] (v : Part.Visitor m)
    (selectors : List Selector) : m (List Selector) :=
  Part.traverse.traverseLists v selectors

end Css
