/-!
# Exact remainders

The remainder of two doubles is a double: both are multiples of one power of two, and the remainder of
the two multiples is smaller than a significand.
-/
namespace Css.Number

def leadingBit : Nat := 0x10000000000000

def fieldsOf (x : Float) : Nat × Nat :=
  let bits := x.toBits.toNat
  let exponent := bits / leadingBit % 2048
  let fraction := bits % leadingBit
  if exponent = 0 then (fraction, 1) else (fraction + leadingBit, exponent)

def remainder (x y : Float) : Float :=
  if !x.isFinite || y.isNaN || y == 0 then 0 / 0
  else if y.isInf then x
  else
    let (m, e) := fieldsOf x
    let (n, f) := fieldsOf y
    let least := min e f
    let rest := (m <<< (e - least)) % (n <<< (f - least))
    let size := (Float.ofNat rest).scaleB (least - 1075 : Int)
    if x.toBits.toNat < 0x8000000000000000 then size else -size

def euclideanRemainder (x y : Float) : Float :=
  let r := remainder x y
  if r < 0 then r + y else r

end Css.Number
