import Css.Media.Basic
import Css.Value.Render

/-!
# The text of media queries

Conditions inside of a negation or of an operation stand in parentheses.
-/
namespace Css

def MediaFeature.render (minify : Bool) (feature : MediaFeature) : String :=
  let space := if minify then "" else " "
  let compare (c : Comparison) : String := space ++ c.symbol ++ space
  let text :=
    match feature with
    | plain name value => Written.identifier name ++ ":" ++ space ++ value.render minify
    | boolean name => Written.identifier name
    | range name comparison value =>
      Written.identifier name ++ compare comparison ++ value.render minify
    | interval start first name second stop =>
      start.render minify ++ compare first ++ Written.identifier name ++ compare second ++
        stop.render minify
  "(" ++ text ++ ")"

def Connective.text : Connective → String
  | and => " and "
  | or => " or "

namespace MediaCondition

def isCompound : MediaCondition → Bool
  | negation _ | operation .. => true
  | _ => false

def enclose (inside : Bool) (text : String) : String :=
  if inside then "(" ++ text ++ ")" else text

def render (minify : Bool) : MediaCondition → String
  | feature f => f.render minify
  | negation c => "not " ++ enclose c.isCompound (c.render minify)
  | operation connective cs => renderAll minify connective cs
  | unknown text => text
where
  renderAll (minify : Bool) (connective : Connective) : List MediaCondition → String
    | [] => ""
    | [c] => enclose c.isCompound (c.render minify)
    | c :: cs =>
      enclose c.isCompound (c.render minify) ++ connective.text ++ renderAll minify connective cs

def isAlternative : MediaCondition → Bool
  | operation .or _ => true
  | _ => false

end MediaCondition

def Qualifier.text : Qualifier → String
  | only => "only "
  | not => "not "

def MediaQuery.render (minify : Bool) (query : MediaQuery) : String :=
  let qualifier :=
    match query.qualifier with
    | some qualifier => qualifier.text
    | none => ""
  let rest :=
    match query.mediaType, query.condition with
    | none, none => ""
    | none, some c => c.render minify
    | some mediaType, none => Written.identifier mediaType
    | some mediaType, some c =>
      Written.identifier mediaType ++ " and " ++
        MediaCondition.enclose c.isAlternative (c.render minify)
  qualifier ++ rest

def MediaList.render (minify : Bool) (media : MediaList) : String :=
  (if minify then "," else ", ").intercalate (media.map (MediaQuery.render minify))

end Css
