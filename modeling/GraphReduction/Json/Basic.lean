namespace GraphReduction

structure JsonNumber where
  negative : Bool
  whole : Nat
  tail : String
  deriving DecidableEq, Repr, Inhabited

namespace JsonNumber

def ofNat (n : Nat) : JsonNumber := ⟨false, n, ""⟩

def ofInt (n : Int) : JsonNumber := ⟨decide (n < 0), n.natAbs, ""⟩

def nat? (n : JsonNumber) : Option Nat :=
  if n.negative ∨ n.tail ≠ "" then none else some n.whole

def int? (n : JsonNumber) : Option Int :=
  if n.tail ≠ "" then none else some (if n.negative then -n.whole else n.whole)

def uint64? (n : JsonNumber) : Option UInt64 := do
  let n ← n.nat?
  if n < UInt64.size then some (UInt64.ofNat n) else none

theorem uint64?_ofNat (n : UInt64) : (ofNat n.toNat).uint64? = some n := by
  simp [ofNat, uint64?, nat?, n.toNat_lt_size]

def text (n : JsonNumber) : String := (if n.negative then "-" else "") ++ Nat.repr n.whole ++ n.tail

end JsonNumber

inductive Json where
  | null
  | bool (b : Bool)
  | number (n : JsonNumber)
  | string (s : String)
  /-- A string whose escapes leave a half of a surrogate pair alone, or an object with such a
  string for a name. -/
  | unpaired
  | array (elements : List Json)
  | object (members : List (String × Json))
  deriving Inhabited

namespace Json

def ofNat (n : Nat) : Json := number (.ofNat n)

def ofInt (n : Int) : Json := number (.ofInt n)

def ofUInt64 (n : UInt64) : Json := ofNat n.toNat

end Json

end GraphReduction
