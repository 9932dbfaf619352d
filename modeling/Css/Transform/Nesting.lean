import Css.Rule.Basic

/-!
# Nested rules without nesting

A nested rule becomes a rule of its own: in its selectors, each reference to the enclosing rule is
replaced by one of the selectors of that rule.
-/
namespace Css

namespace Selector

def isCompound (selector : Selector) : Bool :=
  !selector.any Part.isCombinator

def startsWithElement : Selector → Bool
  | .element _ :: _ => true
  | .universal :: _ => true
  | _ => false

/-- The selector `parent` in the place of a reference that stands after `before`: as it is, if that
keeps the compound a compound, else as an argument. -/
def splice (parent : Selector) (before : Option Part) : List Part :=
  match before with
  | none => parent
  | some p =>
    if parent.isCompound && (p.isCombinator || !parent.startsWithElement) then parent
    else [.pseudoClassOf "is" [parent]]

end Selector

namespace Part

def resolve (parent : Selector) (before : Option Part) : Part → List Part
  | nesting => parent.splice before
  | pseudoClassOf name selectors => [pseudoClassOf name (resolveInner parent selectors)]
  | part => [part]
where
  resolveList (parent : Selector) (before : Option Part) : List Part → List Part
    | [] => []
    | p :: ps => p.resolve parent before ++ resolveList parent (some p) ps
  resolveInner (parent : Selector) : List (List Part) → List (List Part)
    | [] => []
    | s :: ss =>
      (if Selector.hasNesting s then resolveList parent none s else s) :: resolveInner parent ss

end Part

namespace Selector

/-- A nested selector with `parent` for the enclosing rule. Without a reference, it selects below. -/
def resolve (parent child : Selector) : Selector :=
  if child.hasNesting then Part.resolve.resolveList parent none child
  else parent ++ .combinator .descendant :: child

def resolveAll (parents children : List Selector) : List Selector :=
  addNew [] (parents.flatMap fun parent => children.map (resolve parent))

end Selector

namespace StyleBlock

/-- The selectors of a rule in its enclosing rule. A rule that refers to an enclosing one and has none
is in error. -/
def resolve (parents : Option (List Selector)) (b : StyleBlock) : Except Location (List Selector) :=
  match parents with
  | some parents => .ok (Selector.resolveAll parents b.selectors)
  | none => if b.selectors.any Selector.hasNesting then .error b.location else .ok b.selectors

def alone (b : StyleBlock) (selectors : List Selector) : List Rule :=
  if b.declarations.isEmpty && b.composes.isEmpty then []
  else [.style { b with selectors } []]

end StyleBlock

namespace Rule

/-- The rules without nesting that stand for a rule inside of a rule with the selectors `parents`. -/
def flatten (parents : Option (List Selector)) : Rule → Except Location (List Rule)
  | style block rules => do
    let selectors ← block.resolve parents
    return block.alone selectors ++ (← flattenAll (some selectors) rules)
  | nest block rules =>
    if parents.isSome then do
      let selectors ← block.resolve parents
      return block.alone selectors ++ (← flattenAll (some selectors) rules)
    else .error block.location
  | group g rules location => do return [group g (← flattenAll parents rules) location]
  | statement s location => .ok [statement s location]
where
  flattenAll (parents : Option (List Selector)) : List Rule → Except Location (List Rule)
    | [] => .ok []
    | r :: rs => do return (← r.flatten parents) ++ (← flattenAll parents rs)

def flattenList (rules : List Rule) : Except Location (List Rule) :=
  flatten.flattenAll none rules

def checkNesting : Rule → Except Location Unit
  | style block _ => if block.selectors.any Selector.hasNesting then .error block.location else .ok ()
  | nest block _ => .error block.location
  | group _ rules _ => checkAll rules
  | statement .. => .ok ()
where
  checkAll : List Rule → Except Location Unit
    | [] => .ok ()
    | r :: rs => do
      r.checkNesting
      checkAll rs

end Rule

end Css
