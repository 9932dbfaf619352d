import Css.Media.Basic

/-!
# Ranges of media features

A comparison of a feature is the same as a feature with a name for the least or greatest value.
-/
namespace Css

def MediaFeature.ranged : List String :=
  ["width","height","aspect-ratio","resolution","device-width","device-height",
   "device-aspect-ratio","color","color-index","monochrome"]

def Value.shift? (delta : Float32) : Value → Option Value
  | [.number x] => some [.number (x + delta)]
  | [.dimension x unit] => some [.dimension (x + delta) unit]
  | _ => none

namespace MediaFeature

def lowerComparison? (name : String) (comparison : Comparison) (value : Value) :
    Option MediaFeature :=
  let name := Text.lower name
  if ranged.contains name then
    match comparison with
    | .equal => some (plain name value)
    | .greaterEqual => some (plain ("min-" ++ name) value)
    | .lessEqual => some (plain ("max-" ++ name) value)
    | .greater => (value.shift? 0.001).map (plain ("min-" ++ name))
    | .less => (value.shift? (-0.001)).map (plain ("max-" ++ name))
  else none

def lower : MediaFeature → MediaCondition
  | range name comparison value =>
    match lowerComparison? name comparison value with
    | some f => .feature f
    | none => .feature (range name comparison value)
  | interval start first name second stop =>
    match lowerComparison? name first.flip start, lowerComparison? name second stop with
    | some f, some g => .operation .and [.feature f,.feature g]
    | _, _ => .feature (interval start first name second stop)
  | f => .feature f

end MediaFeature

namespace MediaCondition

def operands (connective : Connective) : MediaCondition → List MediaCondition
  | operation inner cs => if inner = connective then cs else [operation inner cs]
  | c => [c]

def lowerRanges : MediaCondition → MediaCondition
  | feature f => f.lower
  | negation c => negation c.lowerRanges
  | operation connective cs => operation connective (lowerOperands connective cs)
  | unknown text => unknown text
where
  lowerOperands (connective : Connective) : List MediaCondition → List MediaCondition
    | [] => []
    | c :: cs => c.lowerRanges.operands connective ++ lowerOperands connective cs

end MediaCondition

def MediaList.lowerRanges (media : MediaList) : MediaList :=
  media.map fun query =>
    { query with condition := query.condition.map MediaCondition.lowerRanges }

end Css
