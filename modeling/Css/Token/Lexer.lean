import Css.Token.Basic
import Css.Token.Escape

/-!
# Cutting text into tokens

Each function here splits the characters it takes off the front of a text, so that both halves together
are the text again.
-/
namespace Css.Lexer

open Text Token

def startsEscape : List Char → Bool
  | '\\' :: c :: _ => !isNewline c
  | '\\' :: [] => true
  | _ => false

def startsName : List Char → Bool
  | c :: _ => isNameStart c
  | [] => false

/-- Whether an identifier starts here: a name, or a hyphen before a name, a hyphen or an escape. -/
def startsIdent : List Char → Bool
  | '-' :: s => startsName s || s.head? == some '-' || startsEscape s
  | '\\' :: s => startsEscape ('\\' :: s)
  | s => startsName s

def startsDigit : List Char → Bool
  | c :: _ => c.isDigit
  | [] => false

def startsUnsigned : List Char → Bool
  | '.' :: s => startsDigit s
  | s => startsDigit s

def startsNumber : List Char → Bool
  | '+' :: s => startsUnsigned s
  | '-' :: s => startsUnsigned s
  | s => startsUnsigned s

/-- What ends the digits of an escape: a carriage return with its line feed, or one white space
character. -/
def spanEscapeEnd : List Char → List Char × List Char
  | '\r' :: '\n' :: s => (['\r','\n'], s)
  | [] => ([], [])
  | c :: s => if isSpace c then ([c], s) else ([], c :: s)

def spanEscape : List Char → List Char × List Char
  | [] => ([], [])
  | c :: s =>
    if isHexDigit c then
      let digits := Escape.spanUpTo isHexDigit 6 (c :: s)
      let blank := spanEscapeEnd digits.2
      (digits.1 ++ blank.1, blank.2)
    else ([c], s)

theorem spanEscapeEnd_append (s : List Char) : (spanEscapeEnd s).1 ++ (spanEscapeEnd s).2 = s := by
  unfold spanEscapeEnd
  split
  · rfl
  · rfl
  · split <;> rfl

theorem spanEscape_append (s : List Char) : (spanEscape s).1 ++ (spanEscape s).2 = s := by
  cases s with
  | nil => rfl
  | cons c s =>
    rw [spanEscape]
    split
    · simp only [List.append_assoc,spanEscapeEnd_append,Escape.spanUpTo_append]
    · rfl

theorem length_spanEscape_le (s : List Char) : (spanEscape s).2.length ≤ s.length := by
  have h := congrArg List.length (spanEscape_append s)
  rw [List.length_append] at h
  omega

def spanName (s : List Char) : List Char × List Char :=
  match s with
  | [] => ([], [])
  | c :: rest =>
    if isNameChar c then
      let name := spanName rest
      (c :: name.1, name.2)
    else if startsEscape (c :: rest) then
      let escape := spanEscape rest
      let name := spanName escape.2
      (c :: escape.1 ++ name.1, name.2)
    else ([], c :: rest)
termination_by s.length
decreasing_by
  all_goals simp_wf
  have h := length_spanEscape_le rest
  omega

def spanSign : List Char → List Char × List Char
  | '+' :: s => (['+'], s)
  | '-' :: s => (['-'], s)
  | s => ([], s)

def spanDigits (s : List Char) : List Char × List Char :=
  (s.takeWhile Char.isDigit, s.dropWhile Char.isDigit)

def spanFraction : List Char → List Char × List Char
  | '.' :: s =>
    if startsDigit s then ('.' :: (spanDigits s).1, (spanDigits s).2) else ([], '.' :: s)
  | s => ([], s)

def spanExponent : List Char → List Char × List Char
  | [] => ([], [])
  | c :: s =>
    let sign := spanSign s
    if (c == 'e' || c == 'E') && startsDigit sign.2 then
      (c :: sign.1 ++ (spanDigits sign.2).1, (spanDigits sign.2).2)
    else ([], c :: s)

def spanNumber (s : List Char) : List Char × List Char :=
  let sign := spanSign s
  let whole := spanDigits sign.2
  let fraction := spanFraction whole.2
  let exponent := spanExponent fraction.2
  (sign.1 ++ whole.1 ++ fraction.1 ++ exponent.1, exponent.2)

structure Lexeme where
  kind : Kind
  text : List Char
  rest : List Char

def numeric (s : List Char) : Lexeme :=
  let number := spanNumber s
  if startsIdent number.2 then
    let unit := spanName number.2
    ⟨.dimension,number.1 ++ unit.1,unit.2⟩
  else
    match number.2 with
    | '%' :: rest => ⟨.percentage,number.1 ++ ['%'],rest⟩
    | rest => ⟨.number,number.1,rest⟩

/-- The contents of a string after its opening quote: up to the closing quote, or to a line end
that no backslash precedes, or to the end of the text. -/
def quoted (quote : Char) : List Char → Lexeme
  | [] => ⟨.string,[],[]⟩
  | '\\' :: '\r' :: '\n' :: s =>
    let tail := quoted quote s
    { tail with text := '\\' :: '\r' :: '\n' :: tail.text }
  | '\\' :: c :: s =>
    let tail := quoted quote s
    { tail with text := '\\' :: c :: tail.text }
  | c :: s =>
    if c == quote then ⟨.string,[c],s⟩
    else if isNewline c then ⟨.badString,[],c :: s⟩
    else
      let tail := quoted quote s
      { tail with text := c :: tail.text }

def spanComment : List Char → List Char × List Char
  | [] => ([], [])
  | '*' :: '/' :: s => (['*','/'], s)
  | c :: s =>
    let tail := spanComment s
    (c :: tail.1, tail.2)

def spanBadUrl (s : List Char) : List Char × List Char :=
  match s with
  | [] => ([], [])
  | ')' :: rest => ([')'], rest)
  | c :: rest =>
    if startsEscape (c :: rest) then
      let escape := spanEscape rest
      let tail := spanBadUrl escape.2
      (c :: escape.1 ++ tail.1, tail.2)
    else
      let tail := spanBadUrl rest
      (c :: tail.1, tail.2)
termination_by s.length
decreasing_by
  all_goals simp_wf
  have h := length_spanEscape_le rest
  omega

/-- The target of an unquoted url after the white space that may lead it. White space may only
stand before the end; quotes, parentheses and unprintable characters make the url malformed. -/
def unquoted (s : List Char) : Lexeme :=
  match s with
  | [] => ⟨.url,[],[]⟩
  | ')' :: rest => ⟨.url,[')'],rest⟩
  | c :: rest =>
    if isSpace c then
      let blank := c :: rest.takeWhile isSpace
      match rest.dropWhile isSpace with
      | [] => ⟨.url,blank,[]⟩
      | ')' :: after => ⟨.url,blank ++ [')'],after⟩
      | after =>
        let bad := spanBadUrl after
        ⟨.badUrl,blank ++ bad.1,bad.2⟩
    else if c == '\x22' || c == '\x27' || c == '(' || isNonPrintable c then
      let bad := spanBadUrl (c :: rest)
      ⟨.badUrl,bad.1,bad.2⟩
    else if c == '\\' then
      if startsEscape (c :: rest) then
        let escape := spanEscape rest
        let tail := unquoted escape.2
        { tail with text := c :: escape.1 ++ tail.text }
      else
        let bad := spanBadUrl (c :: rest)
        ⟨.badUrl,bad.1,bad.2⟩
    else
      let tail := unquoted rest
      { tail with text := c :: tail.text }
termination_by s.length
decreasing_by
  all_goals simp_wf
  have h := length_spanEscape_le rest
  omega

def quoteAhead (s : List Char) : Bool :=
  match s.dropWhile isSpace with
  | c :: _ => c == '\x22' || c == '\x27'
  | [] => false

/-- A name with what stands directly behind it: an identifier, the start of a function, or an
unquoted url. -/
def identLike (s : List Char) : Lexeme :=
  let name := spanName s
  match name.2 with
  | '(' :: rest =>
    if sameLetters (String.ofList name.1) "url" && !quoteAhead rest then
      let target := unquoted (rest.dropWhile isSpace)
      { target with text := name.1 ++ '(' :: rest.takeWhile isSpace ++ target.text }
    else ⟨.function,name.1 ++ ['('],rest⟩
  | rest => ⟨.ident,name.1,rest⟩

def punctuation? (c : Char) : Option Kind :=
  if c == '(' then some .leftParen
  else if c == ')' then some .rightParen
  else if c == '[' then some .leftBracket
  else if c == ']' then some .rightBracket
  else if c == '\x7b' then some .leftBrace
  else if c == '\x7d' then some .rightBrace
  else if c == ',' then some .comma
  else if c == ':' then some .colon
  else if c == ';' then some .semicolon
  else none

def hashLexeme (s : List Char) : Lexeme :=
  if s.head?.any isNameChar || startsEscape s then
    let name := spanName s
    ⟨if startsIdent s then .idHash else .hash,'#' :: name.1,name.2⟩
  else ⟨.delim,['#'],s⟩

def atLexeme (s : List Char) : Lexeme :=
  if startsIdent s then
    let name := spanName s
    ⟨.atKeyword,'@' :: name.1,name.2⟩
  else ⟨.delim,['@'],s⟩

def next : List Char → Lexeme
  | [] => ⟨.eof,[],[]⟩
  | c :: s =>
    if isSpace c then ⟨.whitespace,c :: s.takeWhile isSpace,s.dropWhile isSpace⟩
    else if c == '\x22' || c == '\x27' then
      let contents := quoted c s
      { contents with text := c :: contents.text }
    else if c == '#' then hashLexeme s
    else if c == '@' then atLexeme s
    else
      match punctuation? c with
      | some kind => ⟨kind,[c],s⟩
      | none =>
        if startsNumber (c :: s) then numeric (c :: s)
        else if "-->".toList.isPrefixOf (c :: s) then ⟨.cdc,"-->".toList,s.drop 2⟩
        else if "<!--".toList.isPrefixOf (c :: s) then ⟨.cdo,"<!--".toList,s.drop 3⟩
        else if startsIdent (c :: s) then identLike (c :: s)
        else if "/*".toList.isPrefixOf (c :: s) then
          let contents := spanComment (s.drop 1)
          ⟨.comment,'/' :: '*' :: contents.1,contents.2⟩
        else ⟨.delim,[c],s⟩

end Css.Lexer
