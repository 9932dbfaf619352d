import Css.Media.Range
import Css.Rule.Basic
import Css.Transform.Fallback

/-!
# Rules for older browsers

Fallbacks for declarations, media queries without signs of comparison, and keyframes under the prefix of
a vendor.
-/
namespace Css.Rule

def addFallbacks (targets : Targets) (rules : List Rule) : List Rule :=
  Id.run (traverseList
    (declarationVisitor fun block => pure (Declaration.addFallbacks targets block)) rules)

def lowerMedia (media : MediaList) : MediaList :=
  if media.hasRange then media.lowerRanges else media

def rangeVisitor : Visitor Id where
  block b := b
  group g _ :=
    match g with
    | .media query => .media (lowerMedia query)
    | g => g
  statement s _ :=
    match s with
    | .importSheet url layer supports media => .importSheet url layer supports (lowerMedia media)
    | s => s

def lowerRanges (rules : List Rule) : List Rule :=
  Id.run (traverseList rangeVisitor rules)

def hasKeyframes (vendor : Vendor) (name : String) (rules : List Rule) : Bool :=
  rules.any fun
    | statement (.keyframes other _ v _) _ => v == some vendor && other == name
    | _ => false

/-- A rule with a prefixed copy in front of it, if it is one of keyframes and there is none among the
rules that it stands with. -/
def prefixKeyframes (siblings : List Rule) : Rule → List Rule
  | statement (.keyframes name quoted none frames) location =>
    let rule := statement (.keyframes name quoted none frames) location
    if hasKeyframes .webkit name siblings then [rule]
    else [statement (.keyframes name quoted (some .webkit) frames) location,rule]
  | group g rules location => [group g (prefixAll rules rules) location]
  | r => [r]
where
  prefixAll (siblings : List Rule) : List Rule → List Rule
    | [] => []
    | r :: rs => r.prefixKeyframes siblings ++ prefixAll siblings rs

def prefixAllKeyframes (rules : List Rule) : List Rule :=
  prefixKeyframes.prefixAll rules rules

end Css.Rule
