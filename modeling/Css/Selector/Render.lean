import Css.Options
import Css.Selector.Basic
import Css.Token.Written

/-!
# The text of selectors

Combinators and commas have blanks around them in pretty text.
-/
namespace Css

def Combinator.symbol : Combinator → String
  | descendant => " "
  | child => ">"
  | nextSibling => "+"
  | laterSibling => "~"

def Combinator.render (minify : Bool) : Combinator → String
  | descendant => " "
  | c => if minify then c.symbol else " " ++ c.symbol ++ " "

def AttributeOperator.symbol : AttributeOperator → String
  | equals => "="
  | includes => "~="
  | dashMatch => "|="
  | startsWith => "^="
  | endsWith => "$="
  | contains => "*="

def CaseFlag.symbol : CaseFlag → String
  | ignored => "i"
  | respected => "s"

def AttributeTest.render (test : AttributeTest) : String :=
  test.operator.symbol ++
    (if Written.isPlain test.value then test.value else Written.string test.value) ++
    match test.flag with
    | some flag => " " ++ flag.symbol
    | none => ""

def Selector.comma (minify : Bool) : String :=
  if minify then "," else ", "

namespace Part

def render (options : PrintOptions) : Part → String
  | combinator c => c.render options.minify
  | universal => "*"
  | element name => Written.identifier name
  | className name => "." ++ Written.identifier name
  | idName name => "#" ++ Written.identifier name
  | attr name test =>
    "[" ++ Written.identifier name ++
      (match test with
        | some test => test.render
        | none => "") ++ "]"
  | pseudoClass name =>
    match options.pseudoClasses.lookup name with
    | some replacement => "." ++ Written.identifier replacement
    | none => ":" ++ Written.identifier name
  | pseudoClassOf name selectors =>
    ":" ++ Written.identifier name ++ "(" ++ renderAll options selectors ++ ")"
  | pseudoClassText name arguments => ":" ++ Written.identifier name ++ "(" ++ arguments ++ ")"
  | pseudoElement name => "::" ++ Written.identifier name
  | pseudoElementText name arguments => "::" ++ Written.identifier name ++ "(" ++ arguments ++ ")"
  | nesting => "&"
  | global selector => renderSelector options selector
where
  renderParts (options : PrintOptions) : List Part → String
    | [] => ""
    | part :: parts => part.render options ++ renderParts options parts
  renderSelector (options : PrintOptions) : List Part → String
    | [] => ""
    | part :: parts =>
      (match part with
        | combinator .descendant => " "
        | combinator c => if options.minify then c.symbol else c.symbol ++ " "
        | part => part.render options) ++ renderParts options parts
  renderAll (options : PrintOptions) : List (List Part) → String
    | [] => ""
    | [selector] => renderSelector options selector
    | selector :: selectors =>
      renderSelector options selector ++ Selector.comma options.minify ++
        renderAll options selectors

end Part

def Selector.render (options : PrintOptions) (selector : Selector) : String :=
  Part.render.renderSelector options selector

def Selector.renderAll (options : PrintOptions) (selectors : List Selector) : String :=
  Part.render.renderAll options selectors

end Css
