import Css.Number.Text
import Css.Token.Lexer

/-!
# What tokens mean

The name, the text, the target or the number that a token stands for, read off its text.
-/
namespace Css.Token

open Text

def rawName (t : Token) : List Char :=
  match t.kind with
  | .function =>
    match t.text.toList.reverse with
    | '(' :: name => name.reverse
    | _ => t.text.toList
  | .atKeyword | .hash | .idHash => t.text.toList.drop 1
  | _ => t.text.toList

def name (t : Token) : String :=
  String.ofList (Escape.decode t.rawName)

def keyword (t : Token) : String :=
  lower t.name

def delim? (t : Token) : Option Char :=
  match t.kind with
  | .delim => t.text.toList.head?
  | _ => none

def isDelim (t : Token) (c : Char) : Bool :=
  t.delim? == some c

def isIdent (t : Token) (name : String) : Bool :=
  t.kind == .ident && sameLetters t.name name

def isFunction (t : Token) (name : String) : Bool :=
  t.kind == .function && sameLetters t.name name

def untilQuote (quote : Char) : List Char → List Char
  | [] => []
  | '\\' :: c :: s => '\\' :: c :: untilQuote quote s
  | c :: s => if c == quote then [] else c :: untilQuote quote s

def stringValue (t : Token) : String :=
  match t.text.toList with
  | [] => ""
  | quote :: body => String.ofList (Escape.decode (untilQuote quote body))

def dropClosing (s : List Char) : List Char :=
  match s.reverse with
  | ')' :: r => r.reverse
  | _ => s

def urlValue (t : Token) : String :=
  let text := t.text.toList
  let body :=
    match text.dropWhile (· != '(') with
    | _ :: body => body
    | [] => text
  String.ofList (Escape.decode (trimBy isSpace (dropClosing body)))

def numeral (t : Token) : List Char :=
  (Lexer.spanNumber t.text.toList).1

def number (t : Token) : Float32 :=
  ((Number.readNumeral? t.numeral).map Number.Numeral.value).getD 0

def isInteger (t : Token) : Bool :=
  t.numeral.all fun c => c != '.' && c != 'e' && c != 'E'

def unit (t : Token) : String :=
  match t.kind with
  | .dimension => String.ofList (Escape.decode (Lexer.spanNumber t.text.toList).2)
  | .percentage => "%"
  | _ => ""

end Css.Token
