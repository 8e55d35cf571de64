import GraphReduction.Heap

namespace GraphReduction

inductive Step where
  | resume
  | enter (closure : Address)
  | apply (callee : Address) (args : List Value)
  | throw (exception : Address)
  | block (thunk : Address)
  deriving DecidableEq, Inhabited

inductive Allocation (κ : Type) where
  | function (info : FunctionInfo κ) (captured : List Value)
  | thunk (body : Suspension κ)
  | data (constructor : Constructor) (fields : List Value)

namespace Allocation

def cell {κ : Type} : Allocation κ → Cell κ
  | function info captured => .function info captured
  | thunk body => .thunk (.unevaluated body)
  | data c fields => .data c fields

end Allocation

/-- Code as a tree of the things it may do to the machine that runs it, each followed by a choice
of how to go on. It ends with a result, fails, or never returns. -/
inductive Action (κ α : Type) where
  | done (result : α)
  | fail (error : RuntimeError)
  | diverge
  | readRegister (kind : Kind) (index : Nat) (next : Except RuntimeError Value → Action κ α)
  | writeRegister (index : Nat) (value : Value) (next : Except RuntimeError Unit → Action κ α)
  | setResult (value : Address) (next : Action κ α)
  | push (frame : Frame κ) (next : Except RuntimeError Unit → Action κ α)
  | pop (next : Option (Frame κ) → Action κ α)
  | depth (next : Nat → Action κ α)
  | allocate (closure : Allocation κ) (next : Address → Action κ α)
  | bindArgs (callee : Address) (args : List Value) (next : Except RuntimeError Address → Action κ α)
  | observe (next : Heap κ → Action κ α)
  | spark (thunk : Address) (next : Bool → Action κ α)
  | interrupt (flag : Bool) (next : Action κ α)
  | log (text : String) (next : Action κ α)
  | tick (counter : String) (next : Nat → Action κ α)

namespace Action

variable {κ α β : Type}

def bind (x : Action κ α) (f : α → Action κ β) : Action κ β :=
  match x with
  | done a => f a
  | fail e => fail e
  | diverge => diverge
  | readRegister k i next => readRegister k i fun r => (next r).bind f
  | writeRegister i v next => writeRegister i v fun r => (next r).bind f
  | setResult a next => setResult a (next.bind f)
  | push frame next => push frame fun r => (next r).bind f
  | pop next => pop fun r => (next r).bind f
  | depth next => depth fun n => (next n).bind f
  | allocate c next => allocate c fun a => (next a).bind f
  | bindArgs g args next => bindArgs g args fun r => (next r).bind f
  | observe next => observe fun h => (next h).bind f
  | spark a next => spark a fun b => (next b).bind f
  | interrupt b next => interrupt b (next.bind f)
  | log s next => log s (next.bind f)
  | tick c next => tick c fun n => (next n).bind f

instance : Monad (Action κ) where
  pure := done
  bind := bind

theorem bind_done (x : Action κ α) : x.bind done = x := by
  induction x with
  | spark a next ih => exact congrArg (spark a) (funext ih)
  | _ => simp_all [bind]

theorem bind_assoc {γ : Type} (x : Action κ α) (f : α → Action κ β) (g : β → Action κ γ) :
    (x.bind f).bind g = x.bind fun a => (f a).bind g := by
  induction x with
  | spark a next ih => exact congrArg (spark a) (funext ih)
  | _ => simp_all [bind]

instance : LawfulMonad (Action κ) :=
  LawfulMonad.mk' (Action κ) bind_done (fun _ _ => rfl) bind_assoc

def ofExcept : Except RuntimeError α → Action κ α
  | .ok a => done a
  | .error e => fail e

def register (kind : Kind) (index : Nat) : Action κ Value := readRegister kind index ofExcept

def pushed (frame : Frame κ) : Action κ Unit := push frame ofExcept

def written (index : Nat) (value : Value) : Action κ Unit := writeRegister index value ofExcept

def bound (callee : Address) (args : List Value) : Action κ Address := bindArgs callee args ofExcept

def allocated (c : Allocation κ) : Action κ Address := allocate c done

def ask (q : Heap κ → α) : Action κ α := observe fun h => done (q h)

/-- A text that never ends is never delivered. -/
def askText (q : Heap κ → Option String) : Action κ String := observe fun h =>
  match q h with
  | some s => done s
  | none => diverge

def boxed : Value → Action κ Address
  | .boxed a => done a
  | v => allocated (.data ⟨v.kind.boxName, 0⟩ [v])

def giveBack (a : Address) : Action κ Step := setResult a (done .resume)

end Action

structure Program (κ : Type) where
  body : κ → List Value → Action κ Step

end GraphReduction
