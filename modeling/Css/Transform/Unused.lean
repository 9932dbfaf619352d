import Css.Rule.Basic

/-!
# Unused names

Selectors that select only what has an unused class or id are removed, and keyframes of an unused name,
and rules that are left with nothing by that.
-/
namespace Css.Rule

def keepSelectors (unused : List String) (b : StyleBlock) : StyleBlock :=
  { b with selectors := b.selectors.filter fun s => !s.requiresAny unused }

def isEmptied (before after : List Rule) : Bool :=
  !before.isEmpty && after.isEmpty

def removeUnused? (unused : List String) : Rule → Option Rule
  | style block rules =>
    let block := keepSelectors unused block
    let rest := removeFrom unused rules
    if block.selectors.isEmpty then none
    else if isEmptied rules rest && block.declarations.isEmpty && block.composes.isEmpty then none
    else some (style block rest)
  | nest block rules =>
    let block := keepSelectors unused block
    let rest := removeFrom unused rules
    if block.selectors.isEmpty then none
    else if isEmptied rules rest && block.declarations.isEmpty then none
    else some (nest block rest)
  | group g rules location =>
    let rest := removeFrom unused rules
    if isEmptied rules rest then none else some (group g rest location)
  | statement s location =>
    match s with
    | .keyframes name .. => if unused.contains name then none else some (statement s location)
    | _ => some (statement s location)
where
  removeFrom (unused : List String) : List Rule → List Rule
    | [] => []
    | r :: rs =>
      match r.removeUnused? unused with
      | some r => r :: removeFrom unused rs
      | none => removeFrom unused rs

def removeUnused (unused : List String) (rules : List Rule) : List Rule :=
  if unused.isEmpty then rules else removeUnused?.removeFrom unused rules

end Css.Rule
