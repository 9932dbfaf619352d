/-!
# What can go wrong

Every failure is one of these causes. Their wording is in one place, `Cause.message`.
-/
namespace Css

inductive SelectorProblem where
  | leadingCombinator | expectedSimple | unexpectedToken | elementNotFirst | universalNotFirst
  | invalidId | expectedClassName | expectedAttributeName | invalidAttributeOperator
  | invalidAttribute | expectedAttributeValue | invalidCaseFlag | expectedClosingBracket
  | unclosedParenthesis | expectedPseudoName | nothingToScope
deriving DecidableEq

inductive ParseCause where
  | unexpectedToken (text : String)
  | unexpectedEnd
  | unclosedBlock
  | missingValue (property : String)
  | invalidDeclaration
  | expectedSelector
  | invalidSelector (problem : SelectorProblem)
  | invalidNesting
  | missingNesting
  | invalidMediaQuery
  | invalidPrelude (rule : String)
  | notAllowed (rule : String)
  | invalidKeyframe
  | badString
  | badUrl
deriving DecidableEq

inductive PatternProblem where
  | empty
  | unclosed (pattern : String)
  | unknownPlaceholder (name : String)
deriving DecidableEq

inductive ComposesProblem where
  | expectedSource
  | expectedName
  | notAName (text : String)
deriving DecidableEq

inductive ModuleCause where
  | invalidPattern (problem : PatternProblem)
  | invalidComposes (problem : ComposesProblem)
  | composesNotAllowed
  | unknownComposesTarget (name : String)
  | invalidReference (variableName : String)
  | nameCollision (first second generated : String)
deriving DecidableEq

inductive TransformCause where
  | unresolvedNesting
  | undefinedCustomMedia (name : String)
  | circularCustomMedia (name : String)
  | invalidCustomMedia (name : String)
deriving DecidableEq

inductive TargetCause where
  | emptyEntry
  | unknownBrowser (name : String)
  | missingVersion (name : String)
  | unexpectedWord (word entry : String)
  | invalidVersion (text name : String)
deriving DecidableEq

inductive Cause where
  | parse (cause : ParseCause)
  | modules (cause : ModuleCause)
  | transform (cause : TransformCause)
  | target (cause : TargetCause)
deriving DecidableEq

def ticked (s : String) : String :=
  "`" ++ s ++ "`"

def SelectorProblem.message : SelectorProblem → String
  | leadingCombinator => "selector cannot start with a combinator"
  | expectedSimple => "expected a simple selector"
  | unexpectedToken => "unexpected token in selector"
  | elementNotFirst => "type selectors must come first"
  | universalNotFirst => "universal selectors must come first"
  | invalidId => "invalid id selector"
  | expectedClassName => "expected a class name after '.'"
  | expectedAttributeName => "expected an attribute name"
  | invalidAttributeOperator => "invalid attribute operator"
  | invalidAttribute => "invalid attribute selector"
  | expectedAttributeValue => "expected an attribute value"
  | invalidCaseFlag => "invalid attribute case flag"
  | expectedClosingBracket => "expected ']'"
  | unclosedParenthesis => "unclosed parenthesis"
  | expectedPseudoName => "expected a pseudo-class name"
  | nothingToScope => "expected a selector after :global or :local"

def ParseCause.message : ParseCause → String
  | unexpectedToken text => "unexpected token " ++ text
  | unexpectedEnd => "unexpected end of input"
  | unclosedBlock => "unclosed block"
  | missingValue property => "missing value for property " ++ ticked property
  | invalidDeclaration => "invalid declaration"
  | expectedSelector => "expected a selector"
  | invalidSelector problem => "invalid selector: " ++ problem.message
  | invalidNesting => "nesting selector used outside of a style rule"
  | missingNesting => "@nest selectors must contain " ++ ticked "&"
  | invalidMediaQuery => "invalid media query"
  | invalidPrelude rule => "invalid prelude for @" ++ rule
  | notAllowed rule => "@" ++ rule ++ " is not allowed here"
  | invalidKeyframe => "invalid keyframe selector"
  | badString => "unterminated string"
  | badUrl => "malformed url"

def PatternProblem.message : PatternProblem → String
  | empty => "the pattern is empty"
  | unclosed pattern => "unclosed " ++ ticked "[" ++ " in " ++ ticked pattern
  | unknownPlaceholder name => "unknown placeholder " ++ ticked ("[" ++ name ++ "]")

def sourceExpected : String :=
  "expected " ++ ticked "global" ++ " or a string after " ++ ticked "from"

def ComposesProblem.message : ComposesProblem → String
  | expectedSource => sourceExpected
  | expectedName => "expected a class name"
  | notAName text => "expected a class name, found " ++ ticked text

def ModuleCause.message : ModuleCause → String
  | invalidPattern problem => "invalid CSS modules pattern: " ++ problem.message
  | invalidComposes problem => "invalid composes value: " ++ problem.message
  | composesNotAllowed => "composes is only allowed in rules whose selectors are single classes"
  | unknownComposesTarget name => "composes references undefined class " ++ ticked name
  | invalidReference name =>
    "invalid cross-file reference: " ++ sourceExpected ++ " in var(" ++ name ++ ")"
  | nameCollision first second generated =>
    ticked first ++ " and " ++ ticked second ++ " both generate the local name " ++ ticked generated

def TransformCause.message : TransformCause → String
  | unresolvedNesting => "nesting selector " ++ ticked "&" ++ " has no enclosing style rule"
  | undefinedCustomMedia name => "custom media query " ++ ticked name ++ " is not defined"
  | circularCustomMedia name => "custom media query " ++ ticked name ++ " refers to itself"
  | invalidCustomMedia name =>
    "custom media query " ++ ticked name ++ " cannot be used inside a condition"

def TargetCause.message : TargetCause → String
  | emptyEntry => "empty query entry"
  | unknownBrowser name => "unknown browser " ++ ticked name
  | missingVersion name => "missing version for " ++ ticked name
  | unexpectedWord word entry => "unexpected " ++ ticked word ++ " in " ++ ticked entry
  | invalidVersion text name => "invalid version " ++ ticked text ++ " for " ++ ticked name

def Cause.message : Cause → String
  | parse cause => cause.message
  | modules cause => cause.message
  | transform cause => cause.message
  | target cause => "invalid target query: " ++ cause.message

def Cause.category : Cause → String
  | parse _ => "ParseError"
  | modules _ => "ModuleError"
  | transform _ => "TransformError"
  | target _ => "TargetResolutionError"

end Css
