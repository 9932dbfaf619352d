import Css.Media.Parser
import Css.Rule.Basic

/-!
# Preludes of rules

What stands between the keyword of a rule and its block or semicolon.
-/
namespace Css.Prelude

open Token

def layerName? : List Token → Option String
  | [t] => if t.kind == .ident then some t.name else none
  | t :: u :: rest =>
    if t.kind == .ident && u.isDelim '.' then (layerName? rest).map (t.name ++ "." ++ ·) else none
  | [] => none

def layerNames? (tokens : List Token) : Option (List String) :=
  match (commaParts tokens).mapM fun part => layerName? (trimBlank part) with
  | some [] => none
  | names => names

def keyframeSelector? : List Token → Option KeyframeSelector
  | [t] =>
    if t.isIdent "from" then some .start
    else if t.isIdent "to" then some .finish
    else if t.kind == .percentage && 0 ≤ t.number && t.number ≤ 100 then
      some (.percentage t.number)
    else none
  | _ => none

def keyframeSelectors? (tokens : List Token) : Option (List KeyframeSelector) :=
  (commaParts tokens).mapM fun part => keyframeSelector? (trimBlank part)

def keyframesName? : List Token → Option (String × Bool)
  | [t] =>
    if t.kind == .ident then some (t.name, false)
    else if t.kind == .string then some (t.stringValue, true)
    else none
  | _ => none

/-- The name of a custom property or query that the tokens start with, and what follows it. -/
def dashedName? : List Token → Option (String × List Token)
  | t :: rest =>
    if t.kind == .ident && Text.startsWith t.text "--" then some (t.name, rest) else none
  | [] => none

def address? : List Token → Option (String × List Token)
  | [] => none
  | t :: rest =>
    if t.kind == .string then some (t.stringValue, rest)
    else if t.kind == .url then some (t.urlValue, rest)
    else if t.isFunction "url" then
      match rest.dropWhile fun u => u.kind != .rightParen with
      | [] => none
      | _ :: after =>
        match trimBlank (rest.takeWhile fun u => u.kind != .rightParen) with
        | [u] => if u.kind == .string then some (u.stringValue, after) else none
        | _ => none
    else none

/-- The arguments of a function after its opening token, and what follows it. Of a function that is
never closed the last token is not an argument. -/
def arguments? (rest : List Token) : Option (List Token × List Token) :=
  match splitClosing 1 rest with
  | some found => some found
  | none => if rest.isEmpty then none else some (rest.dropLast, [])

def namespaceOf? (tokens : List Token) : Option Statement :=
  let (name, rest) :=
    match tokens with
    | t :: rest => if t.kind == .ident then (some t.name, trimBlank rest) else (none, tokens)
    | [] => (none, [])
  match address? rest with
  | some (url, after) =>
    if (trimBlank after).isEmpty then some (.namespaceOf name url) else none
  | none => none

def importLayer? (tokens : List Token) : Option (Option (Option String) × List Token) :=
  match tokens with
  | [] => some (none, [])
  | t :: rest =>
    if t.isIdent "layer" then some (some none, trimBlank rest)
    else if t.isFunction "layer" then do
      let (inner, after) ← arguments? rest
      let name ← layerName? (trimBlank inner)
      return (some (some name), trimBlank after)
    else some (none, tokens)

def importSupports? (file : SourceFile) (tokens : List Token) :
    Except Fault (Option (Option Value × List Token)) :=
  match tokens with
  | [] => .ok (some (none, []))
  | t :: rest =>
    if t.isFunction "supports" then
      match arguments? rest with
      | none => .ok none
      | some (inner, after) =>
        match Value.parse file false inner with
        | .error fault => .error fault
        | .ok condition => .ok (some (some condition, trimBlank after))
    else .ok (some (none, tokens))

def importSheet? (file : SourceFile) (tokens : List Token) : Except Fault (Option Statement) :=
  match address? tokens with
  | none => .ok none
  | some (url, rest) =>
    match importLayer? (trimBlank rest) with
    | none => .ok none
    | some (layer, rest) =>
      match importSupports? file rest with
      | .error fault => .error fault
      | .ok none => .ok none
      | .ok (some (supports, rest)) =>
        match MediaList.parse file rest with
        | .error fault => .error fault
        | .ok media => .ok (some (.importSheet url layer supports media))

end Css.Prelude
