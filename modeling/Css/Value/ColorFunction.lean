import Css.Value.Basic

/-!
# Colour functions

A call of a colour function is read as a colour if its arguments are plain literals: three channels and
an alpha, divided either by commas throughout or by blanks with a slash before the alpha.
-/
namespace Css.Color

structure Arguments where
  first : Component
  second : Component
  third : Component
  alpha : Option Component
  commas : Bool

def splitCommas : List Component → Option (List Component)
  | [] => none
  | [c] => if c.isComma then none else some [c]
  | c :: d :: rest =>
    if c.isComma || !d.isComma then none else (splitCommas rest).map (c :: ·)

def Arguments.ofValue? (arguments : Value) : Option Arguments :=
  let items := arguments.filter fun c => !c.isWhitespace
  if items.any Component.isComma then
    match splitCommas items with
    | some [a,b,c] => some ⟨a,b,c,none,true⟩
    | some [a,b,c,d] => some ⟨a,b,c,some d,true⟩
    | _ => none
  else
    match items with
    | [a,b,c] => some ⟨a,b,c,none,false⟩
    | [a,b,c,.delim '/',d] => some ⟨a,b,c,some d,false⟩
    | _ => none

def clampUnit (x : Float32) : Float32 :=
  if x < 0 then 0 else if 1 < x then 1 else x

def nonNegative (x : Float32) : Float32 :=
  if 0 < x then x else 0

def Arguments.alpha? (arguments : Arguments) : Option Float32 :=
  match arguments.alpha with
  | none => some 1
  | some (.number x) => some (clampUnit x)
  | some (.percentage x) => some (clampUnit (x / 100))
  | some c => if c.isKeyword "none" then some 0 else none

def channel? : Component → Option Float
  | .number x => some (x.toFloat / 255)
  | .percentage x => some (x.toFloat / 100)
  | c => if c.isKeyword "none" then some 0 else none

def scaled? (full : Float32) : Component → Option Float32
  | .number x => some x
  | .percentage x => some (x / 100 * full)
  | c => if c.isKeyword "none" then some 0 else none

def fraction? : Component → Option Float
  | .number x => some (limit (x.toFloat / 100))
  | .percentage x => some (limit (x.toFloat / 100))
  | c => if c.isKeyword "none" then some 0 else none
where
  limit (x : Float) : Float := if x < 0 then 0 else if 1 < x then 1 else x

def hue? : Component → Option Float32
  | .number x => some x
  | .dimension x unit =>
    let unit := Text.lower unit
    if unit == "deg" then some x
    else if unit == "rad" then some (x * 57.2957795130823208767981548141051703)
    else if unit == "grad" then some (x * 0.9)
    else if unit == "turn" then some (x * 360)
    else none
  | c => if c.isKeyword "none" then some 0 else none

def rectangular? (space : Perceptual) (lightness chroma : Float32) (a : Arguments) :
    Option Color := do
  let x ← scaled? lightness a.first
  let y ← scaled? chroma a.second
  let z ← scaled? chroma a.third
  return .perceptual space (nonNegative x) y z (← a.alpha?)

def polar? (space : Perceptual) (lightness chroma : Float32) (a : Arguments) :
    Option Color := do
  let x ← scaled? lightness a.first
  let y ← scaled? chroma a.second
  let z ← hue? a.third
  return .perceptual space (nonNegative x) (nonNegative y) z (← a.alpha?)

def ofFunction? (name : String) (arguments : Value) : Option Color := do
  let a ← Arguments.ofValue? arguments
  if name == "rgb" || name == "rgba" then
    let channels := ⟨← channel? a.first,← channel? a.second,← channel? a.third⟩
    return .rgba (Rgba.ofFractions channels (← a.alpha?))
  else if name == "hsl" || name == "hsla" then
    let hue ← hue? a.first
    let channels := ColorSpace.hslToSrgb hue.toFloat (← fraction? a.second) (← fraction? a.third)
    return .rgba (Rgba.ofFractions channels (← a.alpha?))
  else if a.commas then none
  else if name == "hwb" then
    let hue ← hue? a.first
    let channels := ColorSpace.hwbToSrgb hue.toFloat (← fraction? a.second) (← fraction? a.third)
    return .rgba (Rgba.ofFractions channels (← a.alpha?))
  else if name == "lab" then rectangular? .lab 100 125 a
  else if name == "lch" then polar? .lch 100 150 a
  else if name == "oklab" then rectangular? .oklab 1 0.4 a
  else if name == "oklch" then polar? .oklch 1 0.4 a
  else none

end Css.Color
