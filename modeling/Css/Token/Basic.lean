import Css.Source.Span

/-!
# Tokens

A token is a kind and the stretch of source text it covers. What a token means is read off its text.
-/
namespace Css

namespace Token

inductive Kind where
  | ident | function | atKeyword | hash | idHash
  | string | badString | url | badUrl
  | number | percentage | dimension
  | delim | colon | semicolon | comma
  | leftBracket | rightBracket | leftParen | rightParen | leftBrace | rightBrace
  | cdo | cdc | whitespace | comment | eof
deriving DecidableEq

namespace Kind

def isTrivia : Kind → Bool
  | whitespace | comment => true
  | _ => false

def isNumeric : Kind → Bool
  | number | percentage | dimension => true
  | _ => false

def closing? : Kind → Option Kind
  | leftParen | function => some rightParen
  | leftBracket => some rightBracket
  | leftBrace => some rightBrace
  | _ => none

def opens (kind : Kind) : Bool :=
  kind.closing?.isSome

def closes : Kind → Bool
  | rightParen | rightBracket | rightBrace => true
  | _ => false

end Kind

end Token

structure Token where
  kind : Token.Kind
  text : String
  span : Span
deriving DecidableEq

end Css
