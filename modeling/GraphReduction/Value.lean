import GraphReduction.Kind
import GraphReduction.Number.Decimal
import GraphReduction.Text.Quoted

namespace GraphReduction

structure Address where
  index : Nat
  deriving DecidableEq, Repr, Inhabited

inductive Value where
  | boxed (closure : Address)
  | int (n : Int32)
  | long (n : Int64)
  | float (x : Binary32)
  | double (x : Binary64)
  | char (c : Char)
  | bool (b : Bool)
  deriving DecidableEq, Inhabited

namespace Value

def kind : Value → Kind
  | boxed _ => .boxed
  | int _ => .int
  | long _ => .long
  | float _ => .float
  | double _ => .double
  | char _ => .char
  | bool _ => .bool

def closure? : Value → Option Address
  | boxed a => some a
  | _ => none

def int? : Value → Option Int32
  | int n => some n
  | _ => none

def long? : Value → Option Int64
  | long n => some n
  | _ => none

def double? : Value → Option Binary64
  | double x => some x
  | _ => none

def bool? : Value → Option Bool
  | bool b => some b
  | _ => none

/-- Primitives are compared as the numbers, characters and truth values they are, closures by
identity. Values of different kinds differ. -/
def same : Value → Value → Bool
  | boxed a, boxed b => decide (a = b)
  | int m, int n => decide (m = n)
  | long m, long n => decide (m = n)
  | float x, float y => x.sameNumber y
  | double x, double y => x.sameNumber y
  | char c, char d => decide (c = d)
  | bool a, bool b => decide (a = b)
  | _, _ => false

def text (closureText : Address → String) : Value → String
  | boxed a => closureText a
  | int n => toString n.toInt ++ "#"
  | long n => toString n.toInt ++ "L#"
  | float x => x.text ++ "f#"
  | double x => x.text ++ "##"
  | char c => Text.quoteChar c ++ "#"
  | bool b => (if b then "true" else "false") ++ "#"

end Value

end GraphReduction
