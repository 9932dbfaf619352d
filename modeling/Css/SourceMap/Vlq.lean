/-!
# Variable-length quantities

Integers as base64 digits of five bits each, lowest first. Every digit but the last has the sixth bit
set, and the lowest bit of the number is the sign.
-/
namespace Css.Vlq

def alphabet : List Char :=
  "ABCDEFGHIJKLMNOPQRSTUVWXYZabcdefghijklmnopqrstuvwxyz0123456789+/".toList

def digitChar (digit : Nat) : Char :=
  alphabet.getD digit 'A'

def zigzag (value : Int) : Nat :=
  if value < 0 then 2 * value.natAbs + 1 else 2 * value.natAbs

def encodeNat (n : Nat) : List Char :=
  if n < 32 then [digitChar n] else digitChar (n % 32 + 32) :: encodeNat (n / 32)
termination_by n

def encode (value : Int) : List Char :=
  encodeNat (zigzag value)

end Css.Vlq
