import GraphReduction.Number.Decimal
import GraphReduction.Options.Basic

namespace GraphReduction.Options

inductive Problem where
  | unexpectedArgument (arg : String)
  | unknownLongOption (arg : String)
  | unknownOption (arg : String)
  | badOption (arg : String)
  | badValue (flag : Char) (value : String)
  deriving DecidableEq, Repr

namespace Problem

def message : Problem → String
  | unexpectedArgument arg => "unexpected RTS argument: " ++ arg
  | unknownLongOption arg => "unknown RTS options: " ++ arg
  | unknownOption arg => "unknown RTS option: " ++ arg
  | badOption arg => "bad RTS option: " ++ arg
  | badValue flag _ => "bad value for -" ++ String.singleton flag

end Problem

inductive Setting where
  | usage
  | info
  | nothing
  | traceScheduler
  | idleTimeout (milliseconds : UInt64)
  | workers (n : UInt64)
  | sparkBudget (n : UInt64)
  | stackLimit (n : UInt64)
  deriving DecidableEq, Repr

def readUnsigned? (cs : List Char) : Option UInt64 :=
  let digits := match cs with
    | '+' :: rest => rest
    | cs => cs
  if digits = [] ∨ !digits.all Char.isDigit then none
  else
    let n := Decimal.digitsValue digits
    if n < UInt64.size then some (UInt64.ofNat n) else none

def readPositive? (cs : List Char) : Option UInt64 :=
  match readUnsigned? cs with
  | some n => if n = 0 then none else some n
  | none => none

/-- A thousand times a single-precision number, rounded in single precision, then cut to a whole
number of 64 bits. -/
def milliseconds (seconds : Dyadic) : UInt64 :=
  let product := BinaryFormat.single.nearest (1000 * seconds.numerator) seconds.denominator
  match BinaryFormat.single.decode product with
  | .finite _ d => UInt64.ofNat (min d.floor (UInt64.size - 1))
  | _ => UInt64.ofNat (UInt64.size - 1)

def readSeconds? (s : String) : Option Dyadic :=
  match Decimal.read? s with
  | some (.decimal negative d) =>
    match BinaryFormat.single.decode (BinaryFormat.single.ofDecimal d) with
    | .finite _ magnitude => if negative ∧ magnitude.mantissa ≠ 0 then none else some magnitude
    | _ => none
  | _ => none

def readSetting (arg : String) : Except Problem Setting :=
  match arg.toList with
  | [] => .error (.unexpectedArgument arg)
  | '-' :: [] => .error (.unknownOption arg)
  | '-' :: flag :: value =>
    let text := String.ofList value
    match flag with
    | '?' => .ok .usage
    | '-' => if text = "info" then .ok .info else .error (.unknownLongOption arg)
    | 'D' =>
      if value = [] then .ok .nothing
      else if value.all (· = 's') then .ok .traceScheduler
      else .error (.badOption arg)
    | 'C' =>
      if value = [] then .ok (.idleTimeout 0)
      else match readSeconds? text with
        | some seconds => .ok (.idleTimeout (milliseconds seconds))
        | none => .error (.badValue 'C' text)
    | 'N' =>
      if value = [] then .ok (.workers 1)
      else match readPositive? value with
        | some n => .ok (.workers n)
        | none => .error (.badValue 'N' text)
    | 'e' =>
      if value = [] then .ok .nothing
      else match readPositive? value with
        | some n => .ok (.sparkBudget n)
        | none => .error (.badValue 'e' text)
    | 'K' =>
      match readPositive? value with
      | some n => .ok (.stackLimit n)
      | none => .error (.badValue 'K' text)
    | _ => .error (.unknownOption arg)
  | _ :: _ => .error (.unexpectedArgument arg)

end GraphReduction.Options
