import Css.Number.Binary32

/-!
# Shortest decimals

The decimal with the fewest digits among those that round to a given number of single precision, and of
those the nearest to it.
-/
namespace Css.Shortest

structure Decimal where
  coefficient : Nat
  exponent : Int
deriving DecidableEq

structure Interval where
  low : Nat
  value : Nat
  high : Nat
  denominator : Nat
  closed : Bool

/-- The rounding interval of a positive finite pattern. The number below a power of two is nearer
than the one above, unless both are subnormal. -/
def interval (bits : Nat) : Interval :=
  let (m, e) := Binary32.decode bits
  let below := if bits % Binary32.leadingBit = 0 && Binary32.leadingBit < bits then 1 else 2
  { low := (4 * m - below) <<< (e - 2).toNat
    value := (4 * m) <<< (e - 2).toNat
    high := (4 * m + 2) <<< (e - 2).toNat
    denominator := 1 <<< (2 - e).toNat
    closed := m % 2 = 0 }

def Interval.contains (i : Interval) (n d : Nat) : Bool :=
  let low := i.low * d
  let high := i.high * d
  let point := n * i.denominator
  if i.closed then low ≤ point && point ≤ high else low < point && point < high

/-- The point of the grid of multiples of `10 ^ p` that lies in the interval and next to the
number; of two such points the nearer one, the upper one if both are as near. -/
def gridPoint? (i : Interval) (p : Int) : Option Nat :=
  let unit := Nat.pow 10 p.toNat
  let parts := Nat.pow 10 (-p).toNat
  let n := i.value * parts
  let d := unit * i.denominator
  let down := n / d
  let up := down + 1
  match i.contains (down * unit) parts && down != 0, i.contains (up * unit) parts with
  | true, true => some (if 2 * (n % d) < d then down else up)
  | true, false => some down
  | false, true => some up
  | false, false => none

/-- The grids from the coarsest that a finite number can meet to one that meets every number. -/
def grids : List Int :=
  (List.range 96).map fun (k : Nat) => (40 : Int) - (k : Int)

def decimal (bits : Nat) : Decimal :=
  let i := interval bits
  (grids.findSome? fun p => (gridPoint? i p).map (⟨·,p⟩)).getD ⟨0,0⟩

end Css.Shortest
