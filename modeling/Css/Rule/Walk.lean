import Css.Rule.Basic

/-!
# Walks

What a walk through rules meets, in order.
-/
namespace Css

inductive Event where
  | list (size : Nat)
  | style
  | selectors (selectors : List Selector)
  | keyframes (name : String)
  | block (size : Nat)
  | value (value : Value)

namespace Rule

def blockEvents (declarations : List Declaration) : List Event :=
  .block declarations.length :: declarations.map fun d => .value d.value

def statementEvents : Statement → List Event
  | .keyframes name _ _ frames =>
    .keyframes name :: frames.flatMap fun frame => blockEvents frame.declarations
  | .property _ declarations => blockEvents declarations
  | .fontFace declarations => blockEvents declarations
  | .page _ declarations => blockEvents declarations
  | _ => []

def styleEvents (b : StyleBlock) : List Event :=
  [.style,.selectors b.selectors] ++ blockEvents b.declarations

def events : Rule → List Event
  | style block rules => styleEvents block ++ .list rules.length :: eventsAll rules
  | nest block rules => styleEvents block ++ .list rules.length :: eventsAll rules
  | group _ rules _ => .list rules.length :: eventsAll rules
  | statement s _ => statementEvents s
where
  eventsAll : List Rule → List Event
    | [] => []
    | r :: rs => r.events ++ eventsAll rs

def walk (rules : List Rule) : List Event :=
  .list rules.length :: events.eventsAll rules

end Rule

end Css
