import Css.Value.Basic

/-!
# The text of values

Pretty text has a blank after a comma. Minified text also drops blanks around colons, semicolons and
slashes.
-/
namespace Css

def Bracket.opening : Bracket → String
  | paren => "("
  | square => "["
  | brace => "\x7b"

def Bracket.closing : Bracket → String
  | paren => ")"
  | square => "]"
  | brace => "\x7d"

def Written.address (address : String) : String :=
  let needsQuotes (c : Char) : Bool :=
    Text.isBlank c || Text.isControl c || ['\x22','\x27','(',')','\\'].contains c
  if address.isEmpty || address.toList.any needsQuotes then Written.string address else address

def NameSource.render : NameSource → String
  | global => " from global"
  | file name => " from " ++ Written.string name

namespace Component

def absorbsBlanks (minify : Bool) : Component → Bool
  | comma => true
  | colon => minify
  | semicolon => minify
  | delim c => minify && c == '/'
  | _ => false

def blank (minify : Bool) (before after : Option Component) : String :=
  match before, after with
  | some a, some b =>
    if a.absorbsBlanks minify || b.absorbsBlanks minify || a.isWhitespace then "" else " "
  | _, _ => ""

def commaText (minify isLast : Bool) : String :=
  if minify || isLast then "," else ", "

def render (minify : Bool) : Component → String
  | ident name => Written.identifier name
  | number x => Number.format minify x
  | percentage x => Number.format minify x ++ "%"
  | dimension x unit => Number.format minify x ++ Written.unit unit
  | color c => c.render minify
  | string s => Written.string s
  | url address _ => "url(" ++ Written.address address ++ ")"
  | hash name => "#" ++ Written.name name
  | reference name source fallback =>
    "var(" ++ Written.identifier name ++
      (match source with
        | some source => source.render
        | none => "") ++ renderFallback minify fallback ++ ")"
  | function name xs => Written.identifier name ++ "(" ++ renderList minify none xs ++ ")"
  | block bracket xs => bracket.opening ++ renderList minify none xs ++ bracket.closing
  | comma => ","
  | colon => ":"
  | semicolon => ";"
  | delim c => String.singleton c
  | atKeyword name => "@" ++ Written.identifier name
  | unicodeRange text => text
  | whitespace => " "
where
  renderList (minify : Bool) (before : Option Component) : List Component → String
    | [] => ""
    | c :: rest =>
      (match c with
        | whitespace => blank minify before rest.head?
        | comma => commaText minify rest.isEmpty
        | c => c.render minify) ++ renderList minify (some c) rest
  renderFallback (minify : Bool) : Option (List Component) → String
    | none => ""
    | some xs => commaText minify false ++ renderList minify none xs

end Component

def Value.render (minify : Bool) (value : Value) : String :=
  Component.render.renderList minify none value

end Css
