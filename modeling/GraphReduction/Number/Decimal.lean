import GraphReduction.Number.Binary
/-!
Decimal texts of binary numbers. `shortest` is the decimal with the fewest digits among those that
read back as the same number, the closest of these, and the upper one of two that are equally
close; it is written positionally. `read?` is the grammar of a number with an optional exponent.
-/
namespace GraphReduction

structure Decimal where
  digits : Nat
  exponent : Int
  deriving DecidableEq, Repr

namespace Decimal

def numerator (d : Decimal) : Nat := d.digits * Nat.pow 10 d.exponent.toNat

def denominator (d : Decimal) : Nat := Nat.pow 10 (-d.exponent).toNat

def positional (d : Decimal) : String :=
  let s := Nat.repr d.digits
  let places := (-d.exponent).toNat
  if places = 0 then s ++ String.ofList (List.replicate d.exponent.toNat '0')
  else if s.length ≤ places then
    "0." ++ String.ofList (List.replicate (places - s.length) '0') ++ s
  else
    String.ofList (s.toList.take (s.length - places)) ++ "." ++
      String.ofList (s.toList.drop (s.length - places))

inductive Written where
  | nan
  | infinite (negative : Bool)
  | decimal (negative : Bool) (magnitude : Decimal)
  deriving DecidableEq, Repr

def digitsValue (cs : List Char) : Nat :=
  cs.foldl (fun n c => 10 * n + (c.toNat - '0'.toNat)) 0

def readExponent? (cs : List Char) : Option Int :=
  let value (ds : List Char) : Option Nat :=
    if ds ≠ [] ∧ ds.all Char.isDigit then some (digitsValue ds) else none
  match cs with
  | '-' :: ds => (value ds).map fun n => -(n : Int)
  | '+' :: ds => (value ds).map Int.ofNat
  | ds => (value ds).map Int.ofNat

def readMagnitude? (cs : List Char) : Option Decimal :=
  let whole := cs.takeWhile Char.isDigit
  let rest := cs.dropWhile Char.isDigit
  let (places, rest) := match rest with
    | '.' :: rest => (rest.takeWhile Char.isDigit, rest.dropWhile Char.isDigit)
    | rest => ([], rest)
  if whole ++ places = [] then none
  else
    let shifted (e : Int) : Decimal := ⟨digitsValue (whole ++ places), e - places.length⟩
    match rest with
    | [] => some (shifted 0)
    | c :: rest => if c = 'e' ∨ c = 'E' then (readExponent? rest).map shifted else none

def read? (s : String) : Option Written :=
  let body (negative : Bool) (cs : List Char) : Option Written :=
    let name := String.ofList (cs.map Char.toLower)
    if name = "nan" then some .nan
    else if name = "inf" ∨ name = "infinity" then some (.infinite negative)
    else (readMagnitude? cs).map (.decimal negative)
  match s.toList with
  | '-' :: cs => body true cs
  | '+' :: cs => body false cs
  | cs => body false cs

end Decimal

/-- The reals that round to one positive number, in multiples of `2 ^ place`. -/
structure RoundingInterval where
  low : Nat
  value : Nat
  high : Nat
  place : Int
  closed : Bool

namespace RoundingInterval

variable (r : RoundingInterval)

def scaledEnd (x : Nat) (d : Decimal) : Nat :=
  x * Nat.pow 2 r.place.toNat * d.denominator

def scaledDecimal (d : Decimal) : Nat :=
  d.numerator * Nat.pow 2 (-r.place).toNat

def contains (d : Decimal) : Bool :=
  let x := r.scaledDecimal d
  if r.closed then decide (r.scaledEnd r.low d ≤ x ∧ x ≤ r.scaledEnd r.high d)
  else decide (r.scaledEnd r.low d < x ∧ x < r.scaledEnd r.high d)

def neighbours (k : Int) : Decimal × Decimal :=
  let d := r.value * Nat.pow 2 r.place.toNat * Nat.pow 10 (-k).toNat /
    (Nat.pow 2 (-r.place).toNat * Nat.pow 10 k.toNat)
  (⟨d, k⟩, ⟨d + 1, k⟩)

def onGrid (k : Int) : Option Decimal :=
  let (below, above) := r.neighbours k
  let v := r.scaledEnd r.value below
  let nearAbove := r.scaledDecimal above - v ≤ v - r.scaledDecimal below
  if r.contains below ∧ r.contains above then some (if nearAbove then above else below)
  else if r.contains below then some below
  else if r.contains above then some above
  else none

def descend : Nat → Int → Decimal
  | 0, k => (r.neighbours k).1
  | n + 1, k => (r.onGrid k).getD (descend n (k - 1))

def topPlace : Int := (r.value.log2 + 1 + r.place) * 30103 / 100000 + 1

def shortest : Decimal := r.descend (r.topPlace - min r.place 0).toNat r.topPlace

end RoundingInterval

namespace BinaryFormat

variable (f : BinaryFormat)

def interval (bits : Nat) (d : Dyadic) : RoundingInterval :=
  let below := if f.fraction bits = 0 ∧ 1 < f.biased bits then 1 else 2
  ⟨4 * d.mantissa - below, 4 * d.mantissa, 4 * d.mantissa + 2, d.exponent - 2,
    decide (d.mantissa % 2 = 0)⟩

def text (bits : Nat) : String :=
  match f.decode bits with
  | .nan => "NaN"
  | .infinite negative => if negative then "-inf" else "inf"
  | .finite negative d =>
    let magnitude := if d.mantissa = 0 then "0" else (f.interval bits d).shortest.positional
    if negative then "-" ++ magnitude else magnitude

/-- The bits, sign aside, of the number closest to a decimal. Decimals far outside the range of
the format are settled by their size alone. -/
def ofDecimal (d : Decimal) : Nat :=
  let size : Int := (Nat.repr d.digits).length + d.exponent
  if d.digits = 0 then 0
  else if size > (Nat.pow 2 f.exponentBits : Nat) then f.topExponent * Nat.pow 2 f.fractionBits
  else if size < -(Nat.pow 2 f.exponentBits + f.fractionBits : Nat) then 0
  else f.nearest d.numerator d.denominator

end BinaryFormat

structure Binary32 where
  bits : UInt32
  deriving DecidableEq, Repr, Inhabited

structure Binary64 where
  bits : UInt64
  deriving DecidableEq, Repr, Inhabited

namespace Binary32

def text (x : Binary32) : String := BinaryFormat.single.text x.bits.toNat

def sameNumber (x y : Binary32) : Bool := BinaryFormat.single.sameNumber x.bits.toNat y.bits.toNat

end Binary32

namespace Binary64

def text (x : Binary64) : String := BinaryFormat.double.text x.bits.toNat

def sameNumber (x y : Binary64) : Bool := BinaryFormat.double.sameNumber x.bits.toNat y.bits.toNat

end Binary64

end GraphReduction
