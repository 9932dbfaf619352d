import Css.Declaration.Basic
import Css.Media.Basic
import Css.Modules.Composes
import Css.Selector.Basic

/-!
# Rules

A rule holds rules, if it is a style rule or a group such as a media query, or it is a statement.
-/
namespace Css

structure StyleBlock where
  selectors : List Selector
  declarations : List Declaration
  composes : List Composes
  location : Location

inductive Group where
  | media (query : MediaList)
  | supports (condition : Value)
  | layer (name : Option String)

inductive KeyframeSelector where
  | start
  | finish
  | percentage (x : Float32)

structure Keyframe where
  selectors : List KeyframeSelector
  declarations : List Declaration
  location : Location

inductive Statement where
  | keyframes (name : String) (quoted : Bool) (vendor : Option Vendor) (frames : List Keyframe)
  | property (name : String) (declarations : List Declaration)
  | fontFace (declarations : List Declaration)
  | page (selectors : String) (declarations : List Declaration)
  | importSheet (url : String) (layer : Option (Option String)) (supports : Option Value)
    (media : MediaList)
  | namespaceOf (name : Option String) (url : String)
  | layers (names : List String)
  | customMedia (name : String) (media : MediaList)
  | unknown (name : String) (prelude : Value) (block : Option Value)

inductive Rule where
  | style (block : StyleBlock) (rules : List Rule)
  | nest (block : StyleBlock) (rules : List Rule)
  | group (group : Group) (rules : List Rule) (location : Location)
  | statement (s : Statement) (location : Location)

namespace Statement

def traverseDeclarations {m : Type → Type} [Monad m]
    (f : List Declaration → m (List Declaration)) : Statement → m Statement
  | keyframes name quoted vendor frames => do
    let frames ← frames.mapM fun frame =>
      return { frame with declarations := ← f frame.declarations }
    return keyframes name quoted vendor frames
  | property name declarations => return property name (← f declarations)
  | fontFace declarations => return fontFace (← f declarations)
  | page selectors declarations => return page selectors (← f declarations)
  | s => return s

end Statement

namespace Rule

def location : Rule → Location
  | style block _ => block.location
  | nest block _ => block.location
  | group _ _ location => location
  | statement _ location => location

@[reducible]
def children : Rule → List Rule
  | style _ rules => rules
  | nest _ rules => rules
  | group _ rules _ => rules
  | statement .. => []

theorem sizeOf_children (r : Rule) : sizeOf r.children ≤ sizeOf r := by
  cases r <;> simp [children] <;> omega

@[elab_as_elim]
theorem induct {motive : List Rule → Prop} (nil : motive [])
    (cons : ∀ r rs, motive r.children → motive rs → motive (r :: rs)) : ∀ rs, motive rs
  | [] => nil
  | r :: rs => cons r rs (induct nil cons r.children) (induct nil cons rs)
termination_by rs => sizeOf rs
decreasing_by
  · have h := r.sizeOf_children
    rw [List.cons.sizeOf_spec]
    omega
  · rw [List.cons.sizeOf_spec]
    omega

structure Visitor (m : Type → Type) where
  block : StyleBlock → m StyleBlock
  group : Group → Location → m Group
  statement : Statement → Location → m Statement

def traverse {m : Type → Type} [Monad m] (v : Visitor m) : Rule → m Rule
  | style block rules => do return style (← v.block block) (← traverseAll v rules)
  | nest block rules => do return nest (← v.block block) (← traverseAll v rules)
  | group g rules location => do
    return group (← v.group g location) (← traverseAll v rules) location
  | statement s location => do return statement (← v.statement s location) location
where
  traverseAll {m : Type → Type} [Monad m] (v : Visitor m) : List Rule → m (List Rule)
    | [] => return []
    | r :: rs => do return (← r.traverse v) :: (← traverseAll v rs)

def traverseList {m : Type → Type} [Monad m] (v : Visitor m) (rules : List Rule) : m (List Rule) :=
  traverse.traverseAll v rules

def declarationVisitor {m : Type → Type} [Monad m]
    (f : List Declaration → m (List Declaration)) : Visitor m where
  block b := return { b with declarations := ← f b.declarations }
  group g _ := return g
  statement s _ := s.traverseDeclarations f

def mapValues (f : Value → Value) (rules : List Rule) : List Rule :=
  Id.run (traverseList (declarationVisitor (Declaration.traverseValues fun v => pure (f v))) rules)

end Rule

end Css
