import Css.Text.Basic
import Css.Number.Shortest

/-!
# Numbers as text

Numbers are read as the nearest number of single precision and written with the fewest digits that read
back, never with an exponent.
-/
namespace Css.Number

def positional (d : Shortest.Decimal) : String :=
  let digits := Nat.toDigits 10 d.coefficient
  if 0 ≤ d.exponent then String.ofList (digits ++ List.replicate d.exponent.toNat '0')
  else
    let places := (-d.exponent).toNat
    let padded := List.replicate (places + 1 - digits.length) '0' ++ digits
    let whole := padded.take (padded.length - places)
    let fraction := (padded.drop (padded.length - places)).reverse.dropWhile (· == '0')
    if fraction.isEmpty then String.ofList whole
    else String.ofList (whole ++ '.' :: fraction.reverse)

def text (x : Float32) : String :=
  let bits := Binary32.magnitude x
  let sign := if Binary32.isNegative x then "-" else ""
  if Binary32.infinityBits < bits then "NaN"
  else if bits = Binary32.infinityBits then sign ++ "inf"
  else if bits = 0 then sign ++ "0"
  else sign ++ positional (Shortest.decimal bits)

def largest (negative : Bool) : Float32 :=
  Binary32.ofMagnitude negative (Binary32.infinityBits - 1)

def dropLeadingZero (s : String) : String :=
  match s.toList with
  | '0' :: '.' :: rest => String.ofList ('.' :: rest)
  | '-' :: '0' :: '.' :: rest => String.ofList ('-' :: '.' :: rest)
  | _ => s

/-- A number in a style sheet: zero has no sign, and what is too large is the largest number. -/
def format (minify : Bool) (x : Float32) : String :=
  let bits := Binary32.magnitude x
  let x :=
    if bits = 0 then Binary32.ofMagnitude false 0
    else if bits = Binary32.infinityBits then largest (Binary32.isNegative x)
    else x
  if minify then dropLeadingZero (text x) else text x

structure Numeral where
  negative : Bool
  whole : List Char
  fraction : List Char
  exponent : Int

/-- The magnitude of `coefficient * 10 ^ exponent`. What is too large or too small by its number of
digits alone is not multiplied out. -/
def scaledBits (coefficient : Nat) (exponent : Int) : Nat :=
  let digits : Int := (Nat.toDigits 10 coefficient).length
  if coefficient = 0 then 0
  else if 40 < digits + exponent then Binary32.infinityBits
  else if digits + exponent < -46 then 0
  else Binary32.nearestBits (coefficient * Nat.pow 10 exponent.toNat) (Nat.pow 10 (-exponent).toNat)

def Numeral.value (n : Numeral) : Float32 :=
  Binary32.ofMagnitude n.negative
    (scaledBits (Text.decimalNumber (n.whole ++ n.fraction)) (n.exponent - n.fraction.length))

def splitSign : List Char → Bool × List Char
  | '-' :: s => (true, s)
  | '+' :: s => (false, s)
  | s => (false, s)

def readExponent? : List Char → Option Int
  | [] => some 0
  | c :: s =>
    if c == 'e' || c == 'E' then
      let (negative, digits) := splitSign s
      if digits.isEmpty || !digits.all Char.isDigit then none
      else
        let n : Int := Text.decimalNumber digits
        some (if negative then -n else n)
    else none

def readNumeral? (s : List Char) : Option Numeral :=
  let (negative, s) := splitSign s
  let whole := s.takeWhile Char.isDigit
  let (fraction, rest) :=
    match s.dropWhile Char.isDigit with
    | '.' :: rest => (rest.takeWhile Char.isDigit, rest.dropWhile Char.isDigit)
    | rest => ([], rest)
  if whole.isEmpty && fraction.isEmpty then none
  else (readExponent? rest).map fun exponent => ⟨negative,whole,fraction,exponent⟩

def read? (s : String) : Option Float32 :=
  match readNumeral? s.toList with
  | some n => some n.value
  | none =>
    let (negative, rest) := splitSign s.toList
    let name := Text.lower (String.ofList rest)
    if name == "inf" || name == "infinity" then
      some (Binary32.ofMagnitude negative Binary32.infinityBits)
    else if name == "nan" then some (Binary32.ofMagnitude negative (Binary32.infinityBits + 1))
    else none

end Css.Number
