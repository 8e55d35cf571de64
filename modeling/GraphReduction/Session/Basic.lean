import GraphReduction.Pool
import GraphReduction.Script.Meaning
import GraphReduction.Session.View
import GraphReduction.Worker

namespace GraphReduction

open Evaluation Script

structure Session where
  codes : List (String × Code)
  bindings : List (String × Value)
  shared : Shared String
  workers : List (Worker String)
  threads : List (String × Thread String)
  threadNames : List (ThreadId × String)
  deriving Inhabited

namespace Session

inductive Failure where
  | error (e : RuntimeError)
  | refused (reason : String)
  | endless

abbrev Run := EStateM Failure Session

variable {α : Type}

def new (codes : List (String × Code)) (workers : List (Worker String)) (verbosity : Verbosity) :
    Session :=
  ⟨codes, [], .empty verbosity, workers, [], []⟩

def refuse (reason : String) : Run α := throw (.refused reason)

def ended : Option α → Run α
  | some a => pure a
  | none => throw .endless

def ofExcept : Except RuntimeError α → Run α
  | .ok a => pure a
  | .error e => throw (.error e)

def program (s : Session) : Program String := Script.program s.codes s.bindings

def scope (s : Session) : Scope := ⟨s.codes, s.bindings, [], []⟩

def worker (w : Nat) : Run (Worker String) := do
  match (← get).workers[w]? with
  | some worker => return worker
  | none => refuse "no such worker"

def workOn (w : Nat) (x : StateM (Machine String) α) : Run α := do
  let worker ← worker w
  let (a, worker, shared) := worker.work (← get).shared x
  modify fun s => { s with shared, workers := s.workers.set w worker }
  return a

def executeOn (w : Nat) (x : Exec String α) : Run α := do
  match ← workOn w x.outcome with
  | .ok a => return a
  | .error (.error e) => throw (.error e)
  | .error .endless => throw .endless

def performOn (w : Nat) (x : Action String α) : Run α := executeOn w x.perform

def value (w : Nat) (e : Expr) : Run Value := do performOn w (e.eval (← get).scope)

def values (w : Nat) (es : List Expr) : Run (List Value) := do performOn w (evalList (← get).scope es)

def closure (w : Nat) (e : Expr) : Run Address := do performOn w (e.closure (← get).scope)

def heap : Run (Heap String) := do return (← get).shared.heap

def thunk (a : Address) : Run (ThunkState String) := do
  match (← heap).thunk? a with
  | some state => return state
  | none => refuse "not a thunk"

def view (v : Value) : Run ValueView := do ended (viewValue (← heap) v)

def viewAddress (a : Address) : Run ValueView := view (.boxed a)

def viewStack (t : Thread String) : Run ThreadView := do ended (viewThread (← heap) t)

def bindName {β : Type} (name : String) (b : β) (entries : List (String × β)) : List (String × β) :=
  (name, b) :: entries.filter fun e => e.1 ≠ name

def keep (name : String) (t : Thread String) : Run Unit :=
  modify fun s => { s with
    threads := bindName name t s.threads
    threadNames := (t.id, name) :: s.threadNames.filter fun e => e.1 ≠ t.id }

def findThread (name : String) : Run (Thread String) := do
  match (← get).threads.lookup name with
  | some t => return t
  | none => refuse "no such thread"

def dropThread (name : String) : Run Unit :=
  modify fun s => { s with threads := s.threads.filter fun e => e.1 ≠ name }

def keepAll : List (Thread String) → Run (List String)
  | [] => pure []
  | t :: rest => do
    match (← get).threadNames.lookup t.id with
    | some name =>
      keep name t
      return name :: (← keepAll rest)
    | none => return "?" :: (← keepAll rest)

def requireEmptyStack (w : Nat) : Run Unit := do
  unless (← worker w).context.stack.isEmpty do refuse "stack not empty"

def resultText : Except RuntimeError Address → Run (Except RuntimeError String)
  | .ok a => do
    let h ← heap
    return .ok (← ended (h.text? (h.resolve a)))
  | .error e => return .error e

def resultTexts : List (Except RuntimeError Address) → Run (List (Except RuntimeError String))
  | [] => pure []
  | r :: rest => do
    let text ← resultText r
    return text :: (← resultTexts rest)

end Session

end GraphReduction
