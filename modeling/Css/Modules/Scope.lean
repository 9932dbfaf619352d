import Css.Modules.Export
import Css.Options
import Css.Rule.Basic
import Css.Selector.Traverse

/-!
# Scoped names

The names of classes, ids and keyframes, and those of custom properties if that is asked for, are
replaced by generated names, so that they meet no names of other files.
-/
namespace Css.Modules

structure Target where
  name : String
  location : Location
  span : Span

structure Scope where
  exports : Exports := []
  references : References := []
  classes : List String := []
  targets : List Target := []

structure Scoping where
  filename : String
  naming : Naming
  dashed : Bool

abbrev ScopeM := StateT Scope (Except Error)

namespace Scoping

def errorAt (s : Scoping) (cause : ModuleCause) (location : Location) (span : Span) : Error :=
  ⟨.modules cause,some ⟨s.filename,location,span⟩⟩

/-- The name that stands for a name of the file, which is exported. Two names may not stand for one. -/
def scopeName (s : Scoping) (name : String) : ScopeM String := do
  let scope ← get
  match scope.exports.lookup name with
  | some e => return e.name
  | none =>
    let generated := s.naming.generate name
    match scope.exports.writer? generated with
    | some first => throw ⟨.modules (.nameCollision first name generated),none⟩
    | none =>
      set { scope with exports := scope.exports ++ [(name, Export.mk generated [] false)] }
      return generated

def updateExport (name : String) (f : Export → Export) : ScopeM Unit :=
  modify fun scope => { scope with exports := scope.exports.update name f }

def scopeUse (s : Scoping) (name : String) : ScopeM String := do
  let generated ← s.scopeName name
  updateExport name fun e => { e with isReferenced := true }
  return generated

def selectorVisitor (s : Scoping) : Part.Visitor ScopeM where
  className name := do
    modify fun scope => { scope with classes := name :: scope.classes }
    s.scopeName name
  idName name := s.scopeName name

def referenceOf (s : Scoping) (source : Option NameSource) (name : String) : Reference :=
  match source with
  | none => .here (s.naming.generate name)
  | some .global => .global name
  | some (.file specifier) => .file name specifier

def references (s : Scoping) (c : Composes) : List Reference :=
  c.names.map (s.referenceOf c.source)

def targets (c : Composes) : List Target :=
  if c.source.isNone then c.names.map fun name => ⟨name,c.location,c.span⟩ else []

/-- Adds what a rule composes to the exports of its classes. Each selector has to be one class. -/
def compose (s : Scoping) (b : StyleBlock) : ScopeM Unit :=
  match b.composes with
  | [] => return
  | first :: _ =>
    match b.selectors.mapM Selector.singleClass? with
    | none => throw (s.errorAt .composesNotAllowed first.location first.span)
    | some classes => do
      modify fun scope => { scope with targets := scope.targets ++ b.composes.flatMap targets }
      let references := b.composes.flatMap s.references
      for name in classes do
        let _ ← s.scopeName name
        updateExport name fun e => { e with composes := e.composes ++ references }

def nameKeywords : List String :=
  ["none","initial","inherit","unset","revert","revert-layer"]

def shorthandKeywords : List String :=
  ["infinite","normal","reverse","alternate","alternate-reverse","forwards","backwards",
    "both","running","paused","linear","ease","ease-in","ease-out","ease-in-out",
    "step-start","step-end"]

def animationKeywords? : Property → Option (List String)
  | .standard name _ =>
    if name == "animation" then some (nameKeywords ++ shorthandKeywords)
    else if name == "animation-name" then some nameKeywords
    else none
  | .custom _ => none

def scopeAnimations (s : Scoping) (keywords : List String) (value : Value) : ScopeM Value :=
  value.mapM fun
    | .ident name =>
      if keywords.contains (Text.lower name) then return .ident name
      else return .ident (← s.scopeUse name)
    | c => return c

def placeholder (s : Scoping) (specifier name : String) : String :=
  "--" ++ String.ofList
    ((Blake3.hexDigest (s.filename ++ ":" ++ specifier ++ ":" ++ name)).take 8)

def variableVisitor (s : Scoping) : Component.Visitor ScopeM where
  leaf c := return c
  reference name source :=
    match source with
    | none => return (← s.scopeUse name, none)
    | some .global => return (name, none)
    | some (.file specifier) => do
      let placeholder := s.placeholder specifier name
      modify fun scope =>
        { scope with references := scope.references.insert placeholder (.file name specifier) }
      return (placeholder, none)

def scopeProperty (s : Scoping) : Property → ScopeM Property
  | .custom name => if s.dashed then return .custom (← s.scopeName name) else return .custom name
  | p => return p

def scopeDeclaration (s : Scoping) (d : Declaration) : ScopeM Declaration := do
  let property ← s.scopeProperty d.property
  let value ←
    match animationKeywords? d.property with
    | some keywords => s.scopeAnimations keywords d.value
    | none => pure d.value
  let value ← if s.dashed then value.traverse s.variableVisitor else pure value
  return { d with property, value }

def scopeDeclarations (s : Scoping) (declarations : List Declaration) :
    ScopeM (List Declaration) :=
  declarations.mapM s.scopeDeclaration

def scopeDefinition (s : Scoping) : Statement → ScopeM Statement
  | .keyframes name quoted vendor frames =>
    if quoted then return .keyframes name quoted vendor frames
    else return .keyframes (← s.scopeName name) quoted vendor frames
  | .property name declarations =>
    if s.dashed then return .property (← s.scopeName name) declarations
    else return .property name declarations
  | statement => return statement

def ruleVisitor (s : Scoping) : Rule.Visitor ScopeM where
  block b := do
    s.compose b
    let selectors ← Selector.traverseAll s.selectorVisitor b.selectors
    return { b with selectors, declarations := ← s.scopeDeclarations b.declarations }
  group g _ := return g
  statement statement _ := do
    (← s.scopeDefinition statement).traverseDeclarations s.scopeDeclarations

def checkTargets (s : Scoping) (scope : Scope) : Except Error Unit :=
  match scope.targets.find? fun t => !scope.classes.contains t.name with
  | some t => .error (s.errorAt (.unknownComposesTarget t.name) t.location t.span)
  | none => .ok ()

def run (s : Scoping) (rules : List Rule) : Except Error (List Rule × Scope) := do
  let (rules, scope) ← (Rule.traverseList s.ruleVisitor rules).run {}
  s.checkTargets scope
  return (rules, scope)

end Scoping

def scopeRules (filename : String) (options : ModuleOptions) (rules : List Rule) :
    Except Error (List Rule × Scope) :=
  match Pattern.read options.pattern with
  | .error problem => .error (patternError problem)
  | .ok pattern =>
    (Scoping.mk filename (Naming.ofFile filename pattern) options.dashedIdents).run rules

end Css.Modules
