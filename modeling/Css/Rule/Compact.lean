import Css.Declaration.Minify
import Css.Rule.Basic

/-!
# Fewer rules

Rules that say nothing are dropped, and style rules that stand next to each other are merged if they
have the same selectors or the same declarations.
-/
namespace Css

namespace StyleBlock

/-- Whether a browser that understands one rule understands a rule that it is merged with. -/
def isMergeable (b : StyleBlock) : Bool :=
  !b.selectors.any Selector.hasVendorPseudo

def isWide (b : StyleBlock) : Bool :=
  b.selectors.all Selector.isWide

def merge? (a b : StyleBlock) : Option StyleBlock :=
  if a.isMergeable && b.isMergeable then
    if a.selectors = b.selectors then
      some { a with declarations := Declaration.minify (a.declarations ++ b.declarations) }
    else if Declaration.sameAll a.declarations b.declarations && a.isWide && b.isWide then
      some { a with selectors := Selector.addNew a.selectors b.selectors }
    else none
  else none

def minify (b : StyleBlock) : StyleBlock :=
  { b with declarations := Declaration.minify b.declarations }

end StyleBlock

namespace Rule

def isVoid : Rule → Bool
  | style block rules => block.declarations.isEmpty && allVoid rules
  | nest block rules => block.declarations.isEmpty && allVoid rules
  | group _ rules _ => allVoid rules
  | statement .. => false
where
  allVoid : List Rule → Bool
    | [] => true
    | r :: rs => r.isVoid && allVoid rs

/-- A rule, and whether it can be merged with another one: if it is a style rule and no rules were
written inside of it. -/
structure Candidate where
  rule : Rule
  isLeaf : Bool

/-- Adds a rule in front of rules that stand in reverse order, and merges as long as it can. -/
def pushMerged (c : Candidate) : List Candidate → List Candidate
  | [] => [c]
  | previous :: before =>
    match previous, c with
    | ⟨style a [],true⟩, ⟨style b [],true⟩ =>
      match StyleBlock.merge? a b with
      | some merged => pushMerged ⟨style merged [],true⟩ before
      | none => c :: previous :: before
    | _, _ => c :: previous :: before

def mergeAll (candidates : List Candidate) : List Rule :=
  (candidates.foldl (fun done c => pushMerged c done) []).reverse.map Candidate.rule

def compactList (rules : List Rule) : List Rule :=
  mergeAll (candidates rules)
where
  candidates : List Rule → List Candidate
    | [] => []
    | r :: rs => if r.isVoid then candidates rs else candidate r :: candidates rs
  candidate : Rule → Candidate
    | style block rules => ⟨style block.minify (mergeAll (candidates rules)),rules.isEmpty⟩
    | nest block rules => ⟨nest block (mergeAll (candidates rules)),false⟩
    | group g rules location => ⟨group g (mergeAll (candidates rules)) location,false⟩
    | statement s location => ⟨statement s location,false⟩

end Rule

end Css
