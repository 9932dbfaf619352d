import Css.Modules.Scope
import Css.Sheet.Basic
import Css.Transform.CustomMedia
import Css.Transform.Nesting
import Css.Transform.Targets
import Css.Transform.Unused

/-!
# Transforming style sheets

The rules are changed for the targets step by step: custom media queries, nesting, fallbacks, media
queries with signs of comparison, keyframes.
-/
namespace Css.StyleSheet

def ruleError (filename : String) (cause : TransformCause) (location : Location) : Error :=
  ⟨.transform cause,some ⟨filename,location,Span.none⟩⟩

def resolveMedia (sheet : StyleSheet) (rules : List Rule) : Except Error (List Rule) :=
  if sheet.customMedia then
    (CustomMedia.resolve rules).mapError fun e => ruleError sheet.filename e.1 e.2
  else .ok rules

def resolveNesting (sheet : StyleSheet) (targets : Targets) (rules : List Rule) :
    Except Error (List Rule) :=
  Except.mapError (ruleError sheet.filename .unresolvedNesting) <|
    if Feature.nesting.isCompatible targets then do
      Rule.checkNesting.checkAll rules
      return rules
    else Rule.flattenList rules

def lower (targets : Targets) (rules : List Rule) : List Rule :=
  let rules := Rule.addFallbacks targets rules
  let rules :=
    if Feature.mediaRanges.isCompatible targets then rules else Rule.lowerRanges rules
  if (Prefixable.keyframes.vendorsFor targets).contains .webkit then Rule.prefixAllKeyframes rules
  else rules

def scopeNames (sheet : StyleSheet) : Except Error StyleSheet :=
  match sheet.modules, sheet.exports with
  | some options, none => do
    let (rules, scope) ← Modules.scopeRules sheet.filename options sheet.rules
    return {
      sheet with
      rules
      exports := some scope.exports
      references := sheet.references ++ scope.references }
  | _, _ => .ok sheet

def extractDependencies (sheet : StyleSheet) : StyleSheet :=
  let (rules, found) := Dependency.extract sheet.filename sheet.rules
  { sheet with rules, dependencies := sheet.dependencies ++ found }

def transform (sheet : StyleSheet) (options : TransformOptions) : Except Error StyleSheet := do
  let rules ← sheet.resolveMedia sheet.rules
  let rules ← sheet.resolveNesting options.targets rules
  let rules := Rule.removeUnused options.unused (lower options.targets rules)
  let sheet ← { sheet with rules }.scopeNames
  return if options.dependencies then sheet.extractDependencies else sheet

end Css.StyleSheet
