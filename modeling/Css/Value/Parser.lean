import Css.Error.Basic
import Css.Token.Content
import Css.Value.ColorFunction

/-!
# Parsing values

The parser walks over the tokens once. What is inside an open bracket is collected apart from what
stands before it, until the closing token makes a component of it.
-/
namespace Css.Value

/-- Whether text is a plus sign with one to six hexadecimal digits, question marks among them at the
end, or with two runs of one to six digits and a hyphen between them. -/
def isRangeText (s : List Char) : Bool :=
  match s with
  | '+' :: rest =>
    let first := rest.takeWhile (· != '-')
    let digits := first.takeWhile (· != '?')
    let wildcards := first.dropWhile (· != '?')
    0 < first.length && first.length ≤ 6 && digits.all Text.isHexDigit &&
      wildcards.all (· == '?') &&
      match rest.dropWhile (· != '-') with
      | [] => true
      | _ :: last =>
        wildcards.isEmpty && 0 < last.length && last.length ≤ 6 && last.all Text.isHexDigit
  | _ => false

def isRangePart (t : Token) : Bool :=
  (t.kind == .number || t.kind == .dimension || t.kind == .ident || t.kind == .delim) &&
    t.text.toList.all fun c => Text.isHexDigit c || c == '+' || c == '-' || c == '?'

/-- The tokens from the start that follow each other without a gap from `stop` on and may be parts
of a range of code points. -/
def rangeParts (stop : Nat) : List Token → List Token
  | [] => []
  | t :: rest =>
    if t.span.start = stop && isRangePart t then t :: rangeParts t.span.stop rest else []

def range? (u : Token) (rest : List Token) : Option (List Token) :=
  if Text.lower u.text == "u" then
    let parts := rangeParts u.span.stop rest
    if isRangeText (parts.flatMap fun t => t.text.toList) then some parts else none
  else none

def endOfTokens (t : Token) (parts : List Token) : Nat :=
  (parts.getLast?.getD t).span.stop

def splitFallback : Value → Value × Option Value
  | [] => ([], none)
  | c :: rest =>
    if c.isComma then ([], some (trim rest))
    else
      let (head, fallback) := splitFallback rest
      (c :: head, fallback)

def nameSource? : List Component → Option NameSource
  | [.string file] => some (.file file)
  | [c] => if c.isKeyword "global" then some .global else none
  | _ => none

/-- A call of `var` as a reference, if it is one. With `dashed`, the name may have a source. -/
def reference? (dashed : Bool) (opening : Span) (arguments : Value) :
    Except Fault (Option Component) :=
  let (head, fallback) := splitFallback arguments
  match head.filter fun c => !c.isWhitespace with
  | .ident name :: rest =>
    if Text.startsWith name "--" then
      match rest with
      | [] => .ok (some (.reference name none fallback))
      | c :: source =>
        if dashed && c.isKeyword "from" then
          match nameSource? source with
          | some source => .ok (some (.reference name (some source) fallback))
          | none => .error ⟨.modules (.invalidReference name),opening⟩
        else .ok none
    else .ok none
  | _ => .ok none

def call (file : SourceFile) (dashed : Bool) (name : String) (opening : Span) (arguments : Value) :
    Except Fault Component :=
  if name == "url" then
    match arguments with
    | [.string address] => .ok (.url address (file.location opening))
    | _ => .ok (.function name arguments)
  else if name == "var" then
    match reference? dashed opening arguments with
    | .error fault => .error fault
    | .ok (some c) => .ok c
    | .ok none => .ok (.function name arguments)
  else
    match Color.ofFunction? name arguments with
    | some c => .ok (.color c)
    | none => .ok (.function name arguments)

structure Frame where
  opening : Token
  before : List Component

def Frame.close (file : SourceFile) (dashed : Bool) (frame : Frame) (contents : Value) :
    Except Fault Component :=
  match frame.opening.kind with
  | .function => call file dashed frame.opening.keyword frame.opening.span contents
  | .leftBracket => .ok (.block .square contents)
  | .leftBrace => .ok (.block .brace contents)
  | _ => .ok (.block .paren contents)

def pushBlank : List Component → List Component
  | .whitespace :: items => .whitespace :: items
  | items => .whitespace :: items

def separate (stop start : Nat) (items : List Component) : List Component :=
  if stop < start && !items.isEmpty then pushBlank items else items

def runsOn : Component → Bool
  | .ident _ | .number _ | .percentage _ | .dimension .. => true
  | _ => false

/-- Adds a number. Its plus sign is kept where it divides the number from what stands before. -/
def pushNumeric (stop : Nat) (t : Token) (c : Component) (items : List Component) :
    List Component :=
  if t.span.start = stop && t.text.toList.head? == some '+' && items.head?.any runsOn then
    c :: .delim '+' :: items
  else c :: items

def hashComponent (name : String) : Component :=
  match Rgba.ofHex? name.toList with
  | some c => .color (.rgba c)
  | none => .hash name

/-- Parses what is left: `skip` tokens belong to a component that is already there, `stack` holds the
open brackets, `items` the components of the innermost list, last first, and `stop` is where the
last token ended. -/
def parseFrom (file : SourceFile) (dashed : Bool) :
    Nat → List Frame → List Component → Nat → List Token → Except Fault Value
  | _, [], items, _, [] => .ok (trim items.reverse)
  | _, frame :: _, _, _, [] => .error (.parse .unclosedBlock frame.opening.span)
  | skip + 1, stack, items, stop, _ :: rest => parseFrom file dashed skip stack items stop rest
  | 0, stack, items, stop, t :: rest =>
    let items := separate stop t.span.start items
    let next (items : List Component) : Except Fault Value :=
      parseFrom file dashed 0 stack items t.span.stop rest
    match t.kind with
    | .whitespace => next (pushBlank items)
    | .comment => next items
    | .ident =>
      match range? t rest with
      | some parts =>
        let text := String.join (t.text :: parts.map Token.text)
        parseFrom file dashed parts.length stack (.unicodeRange text :: items)
          (endOfTokens t parts) rest
      | none => next (.ident t.name :: items)
    | .atKeyword => next (.atKeyword t.name :: items)
    | .hash | .idHash => next (hashComponent t.name :: items)
    | .string => next (.string t.stringValue :: items)
    | .badString => .error (.parse .badString t.span)
    | .url => next (.url t.urlValue (file.location t.span) :: items)
    | .badUrl => .error (.parse .badUrl t.span)
    | .number => next (pushNumeric stop t (.number t.number) items)
    | .percentage => next (pushNumeric stop t (.percentage t.number) items)
    | .dimension => next (pushNumeric stop t (.dimension t.number t.unit) items)
    | .delim =>
      match t.delim? with
      | some c => next (.delim c :: items)
      | none => next items
    | .colon => next (.colon :: items)
    | .semicolon => next (.semicolon :: items)
    | .comma => next (.comma :: items)
    | .function | .leftParen | .leftBracket | .leftBrace =>
      parseFrom file dashed 0 (⟨t,items⟩ :: stack) [] t.span.stop rest
    | .rightParen | .rightBracket | .rightBrace =>
      match stack with
      | [] => .error (.parse (.unexpectedToken t.text) t.span)
      | frame :: stack =>
        if frame.opening.kind.closing? == some t.kind then
          match frame.close file dashed (trim items.reverse) with
          | .error fault => .error fault
          | .ok c => parseFrom file dashed 0 stack (c :: frame.before) t.span.stop rest
        else .error (.parse (.unexpectedToken t.text) t.span)
    | .cdo | .cdc | .eof => .error (.parse (.unexpectedToken t.text) t.span)

/-- Parses the tokens of a value. With `dashed`, references to variables may name their source. -/
def parse (file : SourceFile) (dashed : Bool) (tokens : List Token) : Except Fault Value :=
  parseFrom file dashed 0 [] [] 0 tokens

end Css.Value
