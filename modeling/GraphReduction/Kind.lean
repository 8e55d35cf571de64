namespace GraphReduction

inductive Kind where
  | boxed
  | int
  | long
  | float
  | double
  | char
  | bool
  deriving DecidableEq, Repr, Inhabited

namespace Kind

def all : List Kind := [boxed, int, long, float, double, char, bool]

def bank : Kind → Nat
  | boxed => 0
  | int => 1
  | long => 2
  | float => 3
  | double => 4
  | char => 5
  | bool => 6

theorem all_getElem_bank (k : Kind) : all[k.bank]? = some k := by
  cases k <;> rfl

theorem bank_lt (k : Kind) : k.bank < all.length := by
  cases k <;> decide

theorem bank_inj {j k : Kind} : j.bank = k.bank ↔ j = k := by
  constructor
  · intro h
    have hj := j.all_getElem_bank
    rw [h, all_getElem_bank] at hj
    exact (Option.some.inj hj).symm
  · rintro rfl
    rfl

def letter : Kind → Char
  | boxed => 'O'
  | int => 'I'
  | long => 'L'
  | float => 'F'
  | double => 'D'
  | char => 'C'
  | bool => 'Z'

def ofLetter? (c : Char) : Option Kind :=
  all.find? fun k => k.letter = c

def text (k : Kind) : String := String.singleton k.letter

def boxName : Kind → String
  | boxed => "Box"
  | int => "Int"
  | long => "Long"
  | float => "Float"
  | double => "Double"
  | char => "Char"
  | bool => "Bool"

end Kind

def schemaCode (kinds : List Kind) : String := String.ofList (kinds.map Kind.letter)

end GraphReduction
