import Css.Rule.Keyframes
import Css.Selector.Parser
import Css.Token.Stream

/-!
# Parsing rules

A body is what stands between two braces, or the whole source: rules and, inside of a style rule,
declarations.
-/
namespace Css

inductive Scope where
  | top
  | group
  | style
deriving DecidableEq

def Scope.inside : Scope → Scope
  | top => group
  | group => group
  | style => style

structure Body where
  declarations : List Declaration := []
  composes : List Composes := []
  rules : List Rule := []

namespace Body

def addRules (rules : List Rule) (b : Body) : Body :=
  { b with rules := rules ++ b.rules }

def addEntry (entry : Option Declaration.Entry) (b : Body) : Body :=
  match entry with
  | some (.declaration d) => { b with declarations := d :: b.declarations }
  | some (.composes groups) => { b with composes := groups ++ b.composes }
  | none => b

def groupRules (location : Location) (b : Body) : List Rule :=
  if b.declarations.isEmpty && b.composes.isEmpty then b.rules
  else .style ⟨[[.nesting]],b.declarations,b.composes,location⟩ [] :: b.rules

end Body

namespace RuleParser

open Token Declaration

/-- A parser for the body after an opening brace. It also gives what follows the closing brace. -/
abbrev Nested := Scope → Token → List Token → ParseM (Body × List Token)

/-! ## Style rules -/

def selectorContext (d : Dialect) (scope : Scope) : Selector.Context :=
  { nesting := scope == .style, implicit := scope == .style, modules := d.modules }

def nestContext (d : Dialect) : Selector.Context :=
  { nesting := true, required := true, modules := d.modules }

def isSelectorEnd (scope : Scope) (t : Token) : Bool :=
  t.kind == .leftBrace || t.kind == .rightBrace || (t.kind == .semicolon && scope == .style)

def styleRule (d : Dialect) (nested : Nested) (scope : Scope) (first : Token)
    (rest : List Token) : ParseM (List Rule × List Token) := do
  let (prelude, after) := splitBefore (isSelectorEnd scope) 0 (first :: rest)
  match after with
  | [] => throw (.parse .unexpectedEnd (.emptyAt d.file.size))
  | t :: inner =>
    if t.kind == .leftBrace then
      match Selector.parseAll (selectorContext d scope) prelude with
      | .error fault => do
        d.recover fault
        return ([], dropGroup inner)
      | .ok selectors => do
        let (body, after) ← nested .style t inner
        let block := ⟨selectors,body.declarations,body.composes,d.location first⟩
        return ([.style block body.rules], after)
    else do
      d.recover <|
        if scope == .style then .parse .invalidDeclaration (spanOf prelude)
        else .parse (.unexpectedToken t.text) t.span
      return ([], if t.kind == .semicolon then inner else after)

/-! ## At-rules -/

structure AtRule where
  keyword : Token
  prelude : List Token
  opening : Option Token
  inner : List Token
  after : List Token

namespace AtRule

def cut (keyword : Token) (rest : List Token) : AtRule :=
  let (prelude, after) := splitBefore isPreludeEnd 0 rest
  let prelude := trimBlank prelude
  match after with
  | [] => ⟨keyword,prelude,none,[],[]⟩
  | t :: inner =>
    if t.kind == .leftBrace then ⟨keyword,prelude,some t,inner,dropGroup inner⟩
    else if t.kind == .semicolon then ⟨keyword,prelude,none,inner,inner⟩
    else ⟨keyword,prelude,none,after,after⟩

def name (a : AtRule) : String :=
  a.keyword.keyword

def invalidPrelude (a : AtRule) : Fault :=
  .parse (.invalidPrelude a.name) a.keyword.span

def notAllowed (a : AtRule) : Fault :=
  .parse (.notAllowed a.name) a.keyword.span

def requireBlock (a : AtRule) : ParseM Token :=
  match a.opening with
  | some t => return t
  | none => throw a.invalidPrelude

def refuseBlock (a : AtRule) : ParseM Unit :=
  if a.opening.isSome then throw a.invalidPrelude else return

def require (a : AtRule) (isAllowed : Bool) : ParseM Unit :=
  if isAllowed then return else throw a.notAllowed

def requirePrelude {α : Type} (a : AtRule) (found : Option α) : ParseM α :=
  match found with
  | some x => return x
  | none => throw a.invalidPrelude

end AtRule

def groupBody (d : Dialect) (nested : Nested) (scope : Scope) (opening : Token)
    (inner : List Token) : ParseM (List Rule × List Token) := do
  let (body, after) ← nested scope.inside opening inner
  return (body.groupRules (d.location opening), after)

def groupRule (d : Dialect) (nested : Nested) (scope : Scope) (a : AtRule) (opening : Token)
    (group : Group) : ParseM (List Rule × List Token) := do
  let (rules, after) ← groupBody d nested scope opening a.inner
  return ([.group group rules (d.location a.keyword)], after)

def mediaRule (d : Dialect) (nested : Nested) (scope : Scope) (a : AtRule) :
    ParseM (List Rule × List Token) := do
  let opening ← a.requireBlock
  let query ← MonadExcept.ofExcept (MediaList.parse d.file a.prelude)
  groupRule d nested scope a opening (.media query)

def supportsRule (d : Dialect) (nested : Nested) (scope : Scope) (a : AtRule) :
    ParseM (List Rule × List Token) := do
  let opening ← a.requireBlock
  let condition ← MonadExcept.ofExcept (Value.parse d.file false a.prelude)
  if condition.isEmpty then throw a.invalidPrelude
  groupRule d nested scope a opening (.supports condition)

def layerRule (d : Dialect) (nested : Nested) (scope : Scope) (a : AtRule) :
    ParseM (List Rule × List Token) := do
  match a.opening with
  | some opening =>
    if a.prelude.isEmpty then groupRule d nested scope a opening (.layer none)
    else do
      let name ← a.requirePrelude (Prelude.layerName? a.prelude)
      groupRule d nested scope a opening (.layer (some name))
  | none => do
    let names ← a.requirePrelude (Prelude.layerNames? a.prelude)
    return ([.statement (.layers names) (d.location a.keyword)], a.inner)

def nestRule (d : Dialect) (nested : Nested) (scope : Scope) (a : AtRule) :
    ParseM (List Rule × List Token) := do
  a.require (scope == .style)
  let opening ← a.requireBlock
  let selectors ← MonadExcept.ofExcept (Selector.parseAll (nestContext d) a.prelude)
  let (body, after) ← nested .style opening a.inner
  let block := ⟨selectors,body.declarations,body.composes,d.location a.keyword⟩
  return ([.nest block body.rules], after)

def keyframesRule (d : Dialect) (scope : Scope) (a : AtRule) : ParseM (Statement × List Token) := do
  a.require (scope != .style)
  let opening ← a.requireBlock
  let (name, quoted) ← a.requirePrelude (Prelude.keyframesName? a.prelude)
  let (frames, after) ← Keyframe.parseBlock d opening a.inner
  return (.keyframes name quoted (Vendor.split a.name).1 frames, after)

def fontFaceRule (d : Dialect) (scope : Scope) (a : AtRule) : ParseM (Statement × List Token) := do
  a.require (scope != .style)
  let opening ← a.requireBlock
  if !a.prelude.isEmpty then throw a.invalidPrelude
  let (declarations, after) ← Declaration.parseBlock d opening a.inner
  return (.fontFace declarations, after)

def pageRule (d : Dialect) (scope : Scope) (a : AtRule) : ParseM (Statement × List Token) := do
  a.require (scope != .style)
  let opening ← a.requireBlock
  let (declarations, after) ← Declaration.parseBlock d opening a.inner
  return (.page (plainText a.prelude) declarations, after)

def propertyRule (d : Dialect) (scope : Scope) (a : AtRule) : ParseM (Statement × List Token) := do
  a.require (scope != .style)
  let opening ← a.requireBlock
  match Prelude.dashedName? a.prelude with
  | some (name, []) => do
    let (declarations, after) ← Declaration.parseBlock d opening a.inner
    return (.property name declarations, after)
  | _ => throw a.invalidPrelude

def importRule (d : Dialect) (scope : Scope) (a : AtRule) : ParseM (Statement × List Token) := do
  a.require (scope == .top)
  a.refuseBlock
  let found ← MonadExcept.ofExcept (Prelude.importSheet? d.file a.prelude)
  return (← a.requirePrelude found, a.inner)

def namespaceRule (scope : Scope) (a : AtRule) : ParseM (Statement × List Token) := do
  a.require (scope == .top)
  a.refuseBlock
  return (← a.requirePrelude (Prelude.namespaceOf? a.prelude), a.inner)

def customMediaRule (d : Dialect) (scope : Scope) (a : AtRule) :
    ParseM (Statement × List Token) := do
  a.require (scope == .top)
  a.refuseBlock
  let (name, rest) ← a.requirePrelude (Prelude.dashedName? a.prelude)
  if (trimBlank rest).isEmpty then throw a.invalidPrelude
  let media ← MonadExcept.ofExcept (MediaList.parse d.file rest)
  return (.customMedia name media, a.inner)

def unknownRule (d : Dialect) (a : AtRule) : ParseM (Statement × List Token) := do
  let prelude ← MonadExcept.ofExcept (Value.parse d.file false a.prelude)
  match a.opening with
  | none => return (.unknown a.name prelude none, a.inner)
  | some opening =>
    match splitClosing 1 a.inner with
    | none => throw (.parse .unclosedBlock opening.span)
    | some (contents, after) => do
      let block ← MonadExcept.ofExcept (Value.parse d.file false contents)
      return (.unknown a.name prelude (some block), after)

def statementRule (d : Dialect) (scope : Scope) (a : AtRule) : ParseM (Statement × List Token) :=
  if (Vendor.split a.name).2 == "keyframes" then keyframesRule d scope a
  else if a.name == "font-face" then fontFaceRule d scope a
  else if a.name == "page" then pageRule d scope a
  else if a.name == "property" then propertyRule d scope a
  else if a.name == "import" then importRule d scope a
  else if a.name == "namespace" then namespaceRule scope a
  else if a.name == "custom-media" && d.customMedia then customMediaRule d scope a
  else unknownRule d a

def atRuleNamed (d : Dialect) (nested : Nested) (scope : Scope) (a : AtRule) :
    ParseM (List Rule × List Token) :=
  if a.name == "media" then mediaRule d nested scope a
  else if a.name == "supports" then supportsRule d nested scope a
  else if a.name == "layer" then layerRule d nested scope a
  else if a.name == "nest" then nestRule d nested scope a
  else if a.name == "charset" then return ([], a.inner)
  else do
    let (s, after) ← statementRule d scope a
    return ([.statement s (d.location a.keyword)], after)

/-- An at-rule. A fault in it is recovered from behind the rule, unless a block is never closed. -/
def atRule (d : Dialect) (nested : Nested) (scope : Scope) (keyword : Token) (rest : List Token) :
    ParseM (List Rule × List Token) :=
  let a := AtRule.cut keyword rest
  tryCatch (atRuleNamed d nested scope a) fun fault =>
    if fault.isUnclosedBlock then throw fault
    else do
      d.recover fault
      return ([], a.after)

/-! ## Bodies -/

def startsDeclaration (name : Token) (rest : List Token) : Bool :=
  match afterColon? rest with
  | none => false
  | some value =>
    Text.startsWith name.text "--" ||
      (match (splitBefore isPreludeEnd 0 value).2 with
        | t :: _ => t.kind != .leftBrace
        | [] => true)

/-- Parses what is left of a body. An opening brace calls for a closing one. Every round takes a token
at least. -/
def body (d : Dialect) : Nat → Scope → Option Token → List Token → ParseM (Body × List Token)
  | 0, _, _, _ => throw (.parse .unexpectedEnd (.emptyAt d.file.size))
  | _ + 1, _, opening, [] =>
    match opening with
    | some t => throw (.parse .unclosedBlock t.span)
    | none => return ({}, [])
  | fuel + 1, scope, opening, t :: rest =>
    let nested : Nested := fun scope opening => body d fuel scope (some opening)
    match t.kind with
    | .whitespace | .semicolon => body d fuel scope opening rest
    | .rightBrace =>
      if opening.isSome then return ({}, rest)
      else do
        d.recover (.parse (.unexpectedToken t.text) t.span)
        body d fuel scope opening rest
    | .atKeyword => do
      let (rules, rest) ← atRule d nested scope t rest
      let (b, rest) ← body d fuel scope opening rest
      return (b.addRules rules, rest)
    | _ =>
      if scope == .top && (t.kind == .cdo || t.kind == .cdc) then body d fuel scope opening rest
      else if scope == .style && t.kind == .ident && startsDeclaration t rest then do
        let parts := splitBefore isEnd 0 rest
        let entry ← d.attempt (parseEntry d t parts.1)
        let (b, rest) ← body d fuel scope opening parts.2
        return (b.addEntry entry, rest)
      else do
        let (rules, rest) ← styleRule d nested scope t rest
        let (b, rest) ← body d fuel scope opening rest
        return (b.addRules rules, rest)

end RuleParser

def Rule.parse (d : Dialect) (source : String) : ParseM (List Rule) := do
  let tokens := Token.scanRules source
  let (body, _) ← RuleParser.body d (tokens.length + 1) .top none tokens
  return body.rules

end Css
