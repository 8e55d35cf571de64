/-!
Binary interchange formats. A number is held as its bit pattern; `BinaryFormat.decode` reads the
pattern as a sign and a dyadic rational, and `BinaryFormat.nearest` is the pattern of the closest
number to a rational, the even one of two that are equally close.
-/
namespace GraphReduction

structure BinaryFormat where
  fractionBits : Nat
  exponentBits : Nat
  deriving DecidableEq

structure Dyadic where
  mantissa : Nat
  exponent : Int
  deriving DecidableEq, Repr

inductive BinaryNumber where
  | nan
  | infinite (negative : Bool)
  | finite (negative : Bool) (magnitude : Dyadic)
  deriving DecidableEq, Repr

namespace Dyadic

def numerator (d : Dyadic) : Nat := d.mantissa * Nat.pow 2 d.exponent.toNat

def denominator (d : Dyadic) : Nat := Nat.pow 2 (-d.exponent).toNat

def floor (d : Dyadic) : Nat := d.numerator / d.denominator

end Dyadic

namespace BinaryFormat

def single : BinaryFormat := ⟨23, 8⟩

def double : BinaryFormat := ⟨52, 11⟩

variable (f : BinaryFormat)

def topExponent : Nat := Nat.pow 2 f.exponentBits - 1

def lowestPlace : Int := 2 - (Nat.pow 2 (f.exponentBits - 1) : Nat) - f.fractionBits

def fraction (bits : Nat) : Nat := bits % Nat.pow 2 f.fractionBits

def biased (bits : Nat) : Nat := bits / Nat.pow 2 f.fractionBits % Nat.pow 2 f.exponentBits

def isNegative (bits : Nat) : Bool := bits / Nat.pow 2 (f.fractionBits + f.exponentBits) % 2 = 1

def decode (bits : Nat) : BinaryNumber :=
  if f.biased bits = f.topExponent then
    if f.fraction bits = 0 then .infinite (f.isNegative bits) else .nan
  else if f.biased bits = 0 then
    .finite (f.isNegative bits) ⟨f.fraction bits, f.lowestPlace⟩
  else
    .finite (f.isNegative bits)
      ⟨Nat.pow 2 f.fractionBits + f.fraction bits, f.lowestPlace + (f.biased bits - 1 : Nat)⟩

def sameNumber (a b : Nat) : Bool :=
  match f.decode a, f.decode b with
  | .nan, _ => false
  | _, .nan => false
  | .finite s d, .finite t e => decide (d = e) && (decide (s = t) || decide (d.mantissa = 0))
  | x, y => decide (x = y)

def roundQuotient (num den : Nat) : Nat :=
  let q := num / den
  let r := num % den
  if 2 * r < den then q
  else if den < 2 * r then q + 1
  else if q % 2 = 0 then q else q + 1

/-- The binary place at which `num / den` is rounded: no lower than that of the subnormal
numbers, and low enough that the rounded mantissa fills its field. -/
def roundingPlace (num den : Nat) : Int :=
  let guess : Int := (num.log2 : Int) - den.log2 - f.fractionBits
  let scaled := num * Nat.pow 2 (-guess).toNat / (den * Nat.pow 2 guess.toNat)
  max f.lowestPlace (if scaled < Nat.pow 2 f.fractionBits then guess - 1 else guess)

/-- The bits, sign aside, of the number closest to `num / den`. A carry out of the mantissa
moves into the exponent field, where the next power of two begins. -/
def nearest (num den : Nat) : Nat :=
  if num = 0 then 0
  else
    let place := f.roundingPlace num den
    let mantissa := roundQuotient (num * Nat.pow 2 (-place).toNat) (den * Nat.pow 2 place.toNat)
    let bits := (place - f.lowestPlace).toNat * Nat.pow 2 f.fractionBits + mantissa
    min bits (f.topExponent * Nat.pow 2 f.fractionBits)

end BinaryFormat

end GraphReduction
