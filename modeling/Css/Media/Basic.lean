import Css.Value.Basic

/-!
# Media queries

A media query has a media type, a condition or both. A condition compares features of the medium with
values, and combines comparisons.
-/
namespace Css

inductive Qualifier where
  | only | not
deriving DecidableEq

inductive Comparison where
  | equal | greater | greaterEqual | less | lessEqual
deriving DecidableEq

namespace Comparison

def symbol : Comparison → String
  | equal => "="
  | greater => ">"
  | greaterEqual => ">="
  | less => "<"
  | lessEqual => "<="

def flip : Comparison → Comparison
  | equal => equal
  | greater => less
  | greaterEqual => lessEqual
  | less => greater
  | lessEqual => greaterEqual

def isAscending : Comparison → Bool
  | less | lessEqual => true
  | _ => false

end Comparison

inductive MediaFeature where
  | plain (name : String) (value : Value)
  | boolean (name : String)
  | range (name : String) (comparison : Comparison) (value : Value)
  | interval (start : Value) (first : Comparison) (name : String) (second : Comparison)
    (stop : Value)

inductive Connective where
  | and | or
deriving DecidableEq

inductive MediaCondition where
  | feature (f : MediaFeature)
  | negation (c : MediaCondition)
  | operation (connective : Connective) (conditions : List MediaCondition)
  | unknown (text : String)

structure MediaQuery where
  qualifier : Option Qualifier
  mediaType : Option String
  condition : Option MediaCondition

abbrev MediaList := List MediaQuery

def MediaFeature.isRange : MediaFeature → Bool
  | range .. | interval .. => true
  | _ => false

def MediaCondition.hasFeature (p : MediaFeature → Bool) : MediaCondition → Bool
  | feature f => p f
  | negation c => c.hasFeature p
  | operation _ cs => anyHasFeature p cs
  | unknown _ => false
where
  anyHasFeature (p : MediaFeature → Bool) : List MediaCondition → Bool
    | [] => false
    | c :: cs => c.hasFeature p || anyHasFeature p cs

/-- The operands of a condition are built up one by one. -/
theorem MediaCondition.induct {motive : MediaCondition → Prop} (feature : ∀ f, motive (feature f))
    (negation : ∀ c, motive c → motive (negation c)) (nil : ∀ con, motive (operation con []))
    (cons : ∀ con c cs, motive c → motive (operation con cs) → motive (operation con (c :: cs)))
    (unknown : ∀ text, motive (unknown text)) (c : MediaCondition) : motive c :=
  @MediaCondition.rec motive (fun cs => ∀ con, motive (operation con cs)) feature negation
    (fun con _ hcs => hcs con) unknown nil (fun c cs hc hcs con => cons con c cs hc (hcs con)) c

def MediaList.hasRange (media : MediaList) : Bool :=
  media.any fun query => query.condition.any (MediaCondition.hasFeature MediaFeature.isRange)

end Css
