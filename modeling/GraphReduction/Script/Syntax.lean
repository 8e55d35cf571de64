import GraphReduction.Error
import GraphReduction.Value

namespace GraphReduction.Script

inductive Arithmetic where
  | add
  | sub
  | mul
  deriving DecidableEq, Repr

inductive Expr where
  | literal (v : Value)
  | variable (name : String)
  | captured (k : Nat)
  | localValue (k : Nat)
  | register (kind : Kind) (index : Nat)
  | data (name : String) (tag : UInt32) (fields : List Expr)
  | box (e : Expr)
  | unbox (e otherwise : Expr)
  | bound (callee : Expr) (args : List Expr)
  | function (code : String) (captured : List Expr)
  | thunk (code : String) (captured : List Expr)
  | resolve (e : Expr)
  | field (e : Expr) (k : Nat) (otherwise : Expr)
  | arithmetic (op : Arithmetic) (left right : Expr)
  | tick (counter : String)
  | exception (e : RuntimeError)
  | depth
  | same (left right : Expr)
  | isValue (e : Expr)
  | spark (e : Expr)
  deriving Inhabited

inductive Instr where
  | bindLocal (e : Expr)
  | setRegister (index : Nat) (e : Expr)
  | pushApply (e : Expr)
  | pushUpdate (e : Expr)
  | pushHandler (e : Expr)
  | pushCase (code : String) (captured : List Expr)
  | pop
  | log (e : Expr)
  | branch (condition : Expr) (yes no : List Instr)
  | select (e : Expr) (alternatives : List (String × List Instr)) (otherwise : List Instr)
  | interrupt (flag : Bool)
  | giveBack (e : Expr)
  | resume
  | enter (e : Expr)
  | throw (e : Expr)
  | block (e : Expr)
  | apply (callee : Expr) (args : List Expr)
  | fail (e : RuntimeError)
  deriving Inhabited

structure Code where
  arity : Nat
  body : List Instr
  deriving Inhabited

end GraphReduction.Script
