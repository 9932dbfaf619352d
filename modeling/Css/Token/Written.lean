import Css.Text.Basic

/-!
# Writing tokens

Identifiers, names and strings as text that reads back as the same token.
-/
namespace Css.Written

open Text

def codeEscape (c : Char) : List Char :=
  '\\' :: Nat.toDigits 16 c.toNat ++ [' ']

def isEscapedControl (c : Char) : Bool :=
  c.toNat ≤ 0x1f || c.toNat == 0x7f

def nameChar (c : Char) : List Char :=
  if c.toNat = 0 then ['�']
  else if isEscapedControl c then codeEscape c
  else if isNameChar c then [c]
  else ['\\',c]

def nameChars (s : List Char) : List Char :=
  s.flatMap nameChar

def leadingName : List Char → List Char
  | [] => []
  | c :: s => if c.isDigit then codeEscape c ++ nameChars s else nameChars (c :: s)

def name (s : String) : String :=
  String.ofList (nameChars s.toList)

def identifier (s : String) : String :=
  match s.toList with
  | '-' :: [] => "\\-"
  | '-' :: '-' :: rest => String.ofList ('-' :: '-' :: nameChars rest)
  | '-' :: rest => String.ofList ('-' :: leadingName rest)
  | rest => String.ofList (leadingName rest)

def stringChar (c : Char) : List Char :=
  if c == '\x22' then ['\\','\x22']
  else if c == '\\' then ['\\','\\']
  else if c.toNat = 0 then ['�']
  else if isEscapedControl c then codeEscape c
  else [c]

def string (s : String) : String :=
  String.ofList ('\x22' :: s.toList.flatMap stringChar ++ ['\x22'])

def isPlain (s : String) : Bool :=
  !s.isEmpty && identifier s == s

def looksLikeExponent : List Char → Bool
  | [] => false
  | e :: rest =>
    (e == 'e' || e == 'E') &&
      match rest with
      | [] => false
      | c :: more => c.isDigit || ((c == '-' || c == '+') && more.head?.any Char.isDigit)

/-- A unit behind a number. One that would read as an exponent has its first letter escaped. -/
def unit (s : String) : String :=
  match s.toList with
  | e :: rest =>
    if looksLikeExponent (e :: rest) then String.ofList (codeEscape e ++ nameChars rest)
    else identifier s
  | [] => identifier s

end Css.Written
