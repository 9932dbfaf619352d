import Css.Number.Remainder

/-!
# Conversions between colour spaces

Every conversion ends in fractions of one of the three channels of sRGB, which may lie outside of the
range from zero to one.
-/
namespace Css.ColorSpace

structure Triple where
  x : Float
  y : Float
  z : Float

/-- One channel of a colour of a hue, by the position of the channel's own hue on the circle. -/
def hueChannel (low high position : Float) : Float :=
  let h := Number.euclideanRemainder position 1
  if h * 6 < 1 then low + (high - low) * h * 6
  else if h * 2 < 1 then high
  else if h * 3 < 2 then low + (high - low) * (2 / 3 - h) * 6
  else low

def hslToSrgb (hue saturation lightness : Float) : Triple :=
  let position := Number.euclideanRemainder hue 360 / 360
  if saturation == 0 then ⟨lightness,lightness,lightness⟩
  else
    let high :=
      if lightness ≤ 0.5 then lightness * (saturation + 1)
      else lightness + saturation - lightness * saturation
    let low := lightness * 2 - high
    ⟨hueChannel low high (position + 1 / 3),hueChannel low high position,
      hueChannel low high (position - 1 / 3)⟩

def hwbToSrgb (hue whiteness blackness : Float) : Triple :=
  if whiteness + blackness ≥ 1 then
    let gray := whiteness / (whiteness + blackness)
    ⟨gray,gray,gray⟩
  else
    let pure := hslToSrgb hue 1 0.5
    let scale := 1 - whiteness - blackness
    ⟨pure.x * scale + whiteness,pure.y * scale + whiteness,pure.z * scale + whiteness⟩

def cube (x : Float) : Float :=
  x * (x * x)

def transfer (c : Float) : Float :=
  let size := c.abs
  if size > 0.0031308 then
    (if c < 0 then -1 else 1) * (1.055 * size.pow (1 / 2.4) - 0.055)
  else 12.92 * c

namespace Triple

def dot (row v : Triple) : Float :=
  row.x * v.x + row.y * v.y + row.z * v.z

def transform (v a b c : Triple) : Triple :=
  ⟨a.dot v,b.dot v,c.dot v⟩

def gamma (v : Triple) : Triple :=
  ⟨transfer v.x,transfer v.y,transfer v.z⟩

def fromPolar (v : Triple) : Triple :=
  let radians := v.z * (3.14159265358979323846264338327950288 / 180)
  ⟨v.x,v.y * radians.cos,v.y * radians.sin⟩

def labToSrgb (v : Triple) : Triple :=
  let kappa : Float := 24389 / 27
  let epsilon : Float := 216 / 24389
  let f1 := (v.x + 16) / 116
  let f0 := v.y / 500 + f1
  let f2 := f1 - v.z / 200
  let linear (f : Float) : Float := if cube f > epsilon then cube f else (116 * f - 16) / kappa
  let y := if v.x > kappa * epsilon then cube f1 else v.x / kappa
  let d50 : Triple :=
    ⟨linear f0 * (0.3457 / 0.3585),y * 1,linear f2 * ((1 - 0.3457 - 0.3585) / 0.3585)⟩
  let d65 := d50.transform
    ⟨0.9554734527042182,-0.023098536874261423,0.0632593086610217⟩
    ⟨-0.028369706963208136,1.0099954580058226,0.021041398966943008⟩
    ⟨0.012314001688319899,-0.020507696433477912,1.3303659366080753⟩
  (d65.transform
    ⟨3.2409699419045226,-1.537383177570094,-0.4986107602930034⟩
    ⟨-0.9692436362808796,1.8759675015077202,0.04155505740717559⟩
    ⟨0.05563007969699366,-0.20397695888897652,1.0569715142428786⟩).gamma

def oklabToSrgb (v : Triple) : Triple :=
  let l := cube (v.x + 0.3963377774 * v.y + 0.2158037573 * v.z)
  let m := cube (v.x - 0.1055613458 * v.y - 0.0638541728 * v.z)
  let s := cube (v.x - 0.0894841775 * v.y - 1.2914855480 * v.z)
  gamma
    ⟨4.0767416621 * l - 3.3077115913 * m + 0.2309699292 * s,
     -1.2684380046 * l + 2.6097574011 * m - 0.3413193965 * s,
     -0.0041960863 * l - 0.7034186147 * m + 1.7076147010 * s⟩

end Triple

end Css.ColorSpace
