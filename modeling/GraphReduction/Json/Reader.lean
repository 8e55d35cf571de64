import GraphReduction.Json.Basic

namespace GraphReduction.Json

def isBlank (c : Char) : Bool := c = ' ' ∨ c = '\n' ∨ c = '\t' ∨ c = '\r'

def skipBlanks (cs : List Char) : List Char := cs.dropWhile isBlank

def hexValue? (c : Char) : Option Nat :=
  if '0' ≤ c ∧ c ≤ '9' then some (c.toNat - '0'.toNat)
  else if 'a' ≤ c ∧ c ≤ 'f' then some (c.toNat - 'a'.toNat + 10)
  else if 'A' ≤ c ∧ c ≤ 'F' then some (c.toNat - 'A'.toNat + 10)
  else none

inductive Piece where
  | char (c : Char)
  | unit (n : Nat)
  deriving DecidableEq, Repr

def unit? (a b c d : Char) : Option Piece := do
  let a ← hexValue? a
  let b ← hexValue? b
  let c ← hexValue? c
  let d ← hexValue? d
  return .unit (((a * 16 + b) * 16 + c) * 16 + d)

def simpleEscape? : Char → Option Char
  | '"' => some '"'
  | '\\' => some '\\'
  | '/' => some '/'
  | 'b' => some '\x08'
  | 'f' => some '\x0c'
  | 'n' => some '\n'
  | 'r' => some '\r'
  | 't' => some '\t'
  | _ => none

def readPieces : List Char → Option (List Piece × List Char)
  | '"' :: rest => some ([], rest)
  | '\\' :: 'u' :: a :: b :: c :: d :: rest => do
    let piece ← unit? a b c d
    let (pieces, rest) ← readPieces rest
    return (piece :: pieces, rest)
  | '\\' :: e :: rest => do
    let c ← simpleEscape? e
    let (pieces, rest) ← readPieces rest
    return (.char c :: pieces, rest)
  | c :: rest => do
    if c.toNat < 32 ∨ c = '\\' then none
    else
      let (pieces, rest) ← readPieces rest
      return (.char c :: pieces, rest)
  | [] => none

def isHighHalf (n : Nat) : Bool := 0xd800 ≤ n ∧ n < 0xdc00

def isLowHalf (n : Nat) : Bool := 0xdc00 ≤ n ∧ n < 0xe000

/-- The characters of a string. A high half of a surrogate pair must be followed by a low one. -/
def joinPieces : List Piece → Option (List Char)
  | [] => some []
  | .char c :: rest => (joinPieces rest).map (c :: ·)
  | .unit n :: rest =>
    if isHighHalf n then
      match rest with
      | .unit m :: rest =>
        if isLowHalf m then
          (joinPieces rest).map (Char.ofNat (0x10000 + (n - 0xd800) * 0x400 + (m - 0xdc00)) :: ·)
        else none
      | _ => none
    else if isLowHalf n then none
    else (joinPieces rest).map (Char.ofNat n :: ·)

def readString (cs : List Char) : Option (Option String × List Char) := do
  let (pieces, rest) ← readPieces cs
  return ((joinPieces pieces).map String.ofList, rest)

def digitsValue (ds : List Char) : Nat := ds.foldl (fun n c => 10 * n + (c.toNat - '0'.toNat)) 0

def readDigits (cs : List Char) : Option (List Char × List Char) :=
  match cs.takeWhile Char.isDigit with
  | [] => none
  | ds => some (ds, cs.dropWhile Char.isDigit)

def readFraction (cs : List Char) : Option (List Char × List Char) :=
  match cs with
  | '.' :: rest => (readDigits rest).map fun (ds, rest) => ('.' :: ds, rest)
  | cs => some ([], cs)

def readSign (cs : List Char) : List Char × List Char :=
  match cs with
  | '+' :: rest => (['+'], rest)
  | '-' :: rest => (['-'], rest)
  | cs => ([], cs)

def readExponent (cs : List Char) : Option (List Char × List Char) :=
  match cs with
  | c :: rest =>
    if c = 'e' ∨ c = 'E' then
      let (sign, rest) := readSign rest
      (readDigits rest).map fun (ds, rest) => (c :: sign ++ ds, rest)
    else some ([], cs)
  | [] => some ([], [])

def readMagnitude (negative : Bool) (cs : List Char) : Option (JsonNumber × List Char) := do
  let (whole, rest) ← readDigits cs
  if whole.head? = some '0' ∧ whole.length ≠ 1 then none
  else
    let (fraction, rest) ← readFraction rest
    let (exponent, rest) ← readExponent rest
    return (⟨negative, digitsValue whole, String.ofList (fraction ++ exponent)⟩, rest)

def readNumber (cs : List Char) : Option (JsonNumber × List Char) :=
  match cs with
  | '-' :: rest => readMagnitude true rest
  | cs => readMagnitude false cs

def namedMembers? : List (Option String × Json) → Option (List (String × Json))
  | [] => some []
  | (some name, j) :: ms => (namedMembers? ms).map ((name, j) :: ·)
  | (none, _) :: _ => none

def ofMembers (ms : List (Option String × Json)) : Json :=
  match namedMembers? ms with
  | some ms => .object ms
  | none => .unpaired

mutual

/-- A value and what follows it. Every nested value takes two units of fuel and a character. -/
def readValue : Nat → List Char → Option (Json × List Char)
  | 0, _ => none
  | fuel + 1, cs =>
    match skipBlanks cs with
    | '\x7b' :: rest =>
      match skipBlanks rest with
      | '\x7d' :: rest => some (.object [], rest)
      | rest => (readMembers fuel rest).map fun (ms, rest) => (ofMembers ms, rest)
    | '[' :: rest =>
      match skipBlanks rest with
      | ']' :: rest => some (.array [], rest)
      | rest => (readElements fuel rest).map fun (js, rest) => (.array js, rest)
    | '"' :: rest =>
      (readString rest).map fun (s?, rest) => ((s?.map Json.string).getD .unpaired, rest)
    | 'n' :: 'u' :: 'l' :: 'l' :: rest => some (.null, rest)
    | 't' :: 'r' :: 'u' :: 'e' :: rest => some (.bool true, rest)
    | 'f' :: 'a' :: 'l' :: 's' :: 'e' :: rest => some (.bool false, rest)
    | cs => (readNumber cs).map fun (n, rest) => (.number n, rest)

def readElements : Nat → List Char → Option (List Json × List Char)
  | 0, _ => none
  | fuel + 1, cs =>
    match readValue fuel cs with
    | none => none
    | some (j, rest) =>
      match skipBlanks rest with
      | ',' :: rest => (readElements fuel rest).map fun (js, rest) => (j :: js, rest)
      | ']' :: rest => some ([j], rest)
      | _ => none

def readMembers : Nat → List Char → Option (List (Option String × Json) × List Char)
  | 0, _ => none
  | fuel + 1, cs =>
    match skipBlanks cs with
    | '"' :: rest =>
      match readString rest with
      | some (key?, rest) =>
        match skipBlanks rest with
        | ':' :: rest =>
          match readValue fuel rest with
          | none => none
          | some (j, rest) =>
            match skipBlanks rest with
            | ',' :: rest => (readMembers fuel rest).map fun (ms, rest) => ((key?, j) :: ms, rest)
            | '\x7d' :: rest => some ([(key?, j)], rest)
            | _ => none
        | _ => none
      | none => none
    | _ => none

end

def read? (s : String) : Option Json :=
  let cs := s.toList
  match readValue (2 * cs.length + 2) cs with
  | some (j, rest) => if skipBlanks rest = [] then some j else none
  | none => none

end GraphReduction.Json
