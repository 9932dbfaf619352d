/-!
# Single precision

Finite magnitudes of single precision are `m * 2 ^ e` with `m` below `2 ^ 24` and `e` at least `-149`.
-/
namespace Css.Binary32

def infinityBits : Nat := 0x7f800000

def signBit : Nat := 0x80000000

/-- The bit above those of the fraction, which the mantissa of a normal number has as well. -/
def leadingBit : Nat := 0x800000

def roundDiv (num den : Nat) : Nat :=
  let q := num / den
  let r := num % den
  if 2 * r < den then q else if den < 2 * r then q + 1 else q + q % 2

def exponentOf (num den : Nat) : Int :=
  let e := (num.log2 : Int) - (den.log2 : Int) - 24
  let fits := num <<< (-(e + 24)).toNat < den <<< (e + 24).toNat
  max (if fits then e else e + 1) (-149)

def nearestBits (num den : Nat) : Nat :=
  if num = 0 then 0
  else
    let e := exponentOf num den
    let m := roundDiv (num <<< (-e).toNat) (den <<< e.toNat)
    min ((e + 149).toNat * leadingBit + m) infinityBits

def decode (bits : Nat) : Nat × Int :=
  let field : Nat := bits / leadingBit
  let fraction := bits % leadingBit
  if field = 0 then (fraction, -149) else (fraction + leadingBit, (field : Int) - 150)

def ofMagnitude (negative : Bool) (bits : Nat) : Float32 :=
  Float32.ofBits (UInt32.ofNat (if negative then signBit + bits else bits))

def isNegative (x : Float32) : Bool :=
  signBit ≤ x.toBits.toNat

def magnitude (x : Float32) : Nat :=
  x.toBits.toNat % signBit

end Css.Binary32
