import Css.Number.Text
import Css.Target.Support
import Css.Value.ColorSpace

/-!
# Colours

A colour of the sRGB space is kept as four bytes. A perceptual colour keeps its own coordinates, so that
it is printed as it was written, and is converted to sRGB where a fallback is needed.
-/
namespace Css

structure Rgba where
  red : UInt8
  green : UInt8
  blue : UInt8
  alpha : UInt8
deriving DecidableEq

namespace Rgba

def byteOf (x : Float) : UInt8 :=
  let scaled := (x * 255).round
  if scaled < 0 then 0 else if 255 < scaled then 255 else scaled.toUInt8

def ofFractions (channels : ColorSpace.Triple) (alpha : Float32) : Rgba :=
  ⟨byteOf channels.x,byteOf channels.y,byteOf channels.z,byteOf alpha.toFloat⟩

/-- The alpha as a fraction of one, to two places if they give the byte back, else to three. -/
def alphaFraction (c : Rgba) : Float32 :=
  let exact : Float32 := c.alpha.toNat.toFloat32 / 255
  let short := (exact * 100).round / 100
  if byteOf short.toFloat = c.alpha then short else (exact * 1000).round / 1000

def isSolid (c : Rgba) : Bool :=
  c.alpha == 255

def ofHex? (digits : List Char) : Option Rgba :=
  if digits.all Text.isHexDigit then
    let one (a : Char) : UInt8 := UInt8.ofNat (17 * Text.hexValue a)
    let two (a b : Char) : UInt8 := UInt8.ofNat (16 * Text.hexValue a + Text.hexValue b)
    match digits with
    | [r,g,b] => some ⟨one r,one g,one b,255⟩
    | [r,g,b,a] => some ⟨one r,one g,one b,one a⟩
    | [r,r',g,g',b,b'] => some ⟨two r r',two g g',two b b',255⟩
    | [r,r',g,g',b,b',a,a'] => some ⟨two r r',two g g',two b b',two a a'⟩
    | _ => none
  else none

def hash (c : Rgba) : String :=
  let channels := [c.red,c.green,c.blue] ++ if c.isSolid then [] else [c.alpha]
  let digit (n : Nat) : Char := Nat.digitChar n
  let isShort := channels.all fun byte => byte.toNat / 16 == byte.toNat % 16
  let digits := channels.flatMap fun byte =>
    if isShort then [digit (byte.toNat % 16)]
    else [digit (byte.toNat / 16),digit (byte.toNat % 16)]
  String.ofList ('#' :: digits)

end Rgba

inductive Perceptual where
  | lab | lch | oklab | oklch
deriving DecidableEq

def Perceptual.name : Perceptual → String
  | lab => "lab"
  | lch => "lch"
  | oklab => "oklab"
  | oklch => "oklch"

inductive Color where
  | rgba (c : Rgba)
  | legacyRgba (c : Rgba)
  | perceptual (space : Perceptual) (x y z alpha : Float32)
deriving BEq

namespace Color

def feature? : Color → Option Feature
  | rgba c => if c.isSolid then none else some .hexAlphaColors
  | legacyRgba _ => none
  | perceptual .lab .. => some .labColors
  | perceptual .lch .. => some .labColors
  | perceptual .oklab .. => some .oklabColors
  | perceptual .oklch .. => some .oklabColors

def isPerceptual : Color → Bool
  | perceptual .. => true
  | _ => false

def toRgba : Color → Rgba
  | rgba c => c
  | legacyRgba c => c
  | perceptual space x y z alpha =>
    let v : ColorSpace.Triple := ⟨x.toFloat,y.toFloat,z.toFloat⟩
    let channels :=
      match space with
      | .lab => v.labToSrgb
      | .lch => v.fromPolar.labToSrgb
      | .oklab => v.oklabToSrgb
      | .oklch => v.fromPolar.oklabToSrgb
    Rgba.ofFractions channels alpha

def followed (minify : Bool) (s : String) : String :=
  if minify then s else s ++ " "

def render (minify : Bool) : Color → String
  | rgba c => c.hash
  | legacyRgba c =>
    let comma := followed minify ","
    let number (byte : UInt8) : String := toString byte.toNat
    let channels := number c.red ++ comma ++ number c.green ++ comma ++ number c.blue
    if c.isSolid then "rgb(" ++ channels ++ ")"
    else "rgba(" ++ channels ++ comma ++ Number.format minify c.alphaFraction ++ ")"
  | perceptual space x y z alpha =>
    let number := Number.format minify
    let slash := if minify then "/" else " / "
    space.name ++ "(" ++ number x ++ " " ++ number y ++ " " ++ number z ++
      (if alpha == 1 then "" else slash ++ number alpha) ++ ")"

end Color

end Css
