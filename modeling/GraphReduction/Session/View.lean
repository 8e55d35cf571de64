import GraphReduction.Machine

namespace GraphReduction.Session

inductive Detail where
  | function (name : String) (arity captured : Nat)
  | data (tag : UInt32) (fields : Nat)
  | unsaturated (args arity remaining : Nat) (texts : List String)
  | thunk (isEvaluated isUnderEvaluation : Bool) (owner? : Option ThreadId) (value? : Option String)
  deriving Inhabited

structure ClosureView where
  variant : Variant
  text : String
  isValue : Bool
  constructor? : Option String
  unboxed? : Option String
  detail : Detail

inductive ValueView where
  | primitive (kind : Kind) (text : String)
  | closure (c : ClosureView)

inductive PendingView where
  | enter (c : ValueView)
  | resume (c : ValueView)
  | apply (callee : ValueView) (args : List String)

inductive StepView where
  | resume
  | enter (c : ValueView)
  | apply (callee : ValueView) (args : List String)
  | throw (c : ValueView)
  | block (c : ValueView)

structure ThreadView where
  id : ThreadId
  depth : Nat
  highWater : Nat
  limit : Nat
  labels : List String
  pending : PendingView

structure AfterView where
  step : StepView
  result? : Option String
  labels : List String

structure ContextView where
  workerId : Nat
  thread : ThreadId
  exception? : Option String
  interrupted : Bool
  depth : Nat
  limit : Nat
  highWater : Nat
  top? : Option String
  labels : List String
  result? : Option String
  counters : Counters

variable {κ : Type} (h : Heap κ)

def viewAll {α β : Type} (f : α → Option β) : List α → Option (List β)
  | [] => some []
  | a :: rest => do
    let b ← f a
    return b :: (← viewAll f rest)

def viewOption {α β : Type} (f : α → Option β) : Option α → Option (Option β)
  | none => some none
  | some a => (f a).map some

def viewDetail (a : Address) : Option Detail :=
  match h.cell a with
  | .function info captured => some (.function info.name info.arity captured.length)
  | .data c fields => some (.data c.tag fields.length)
  | .unsaturated f args => do
    let texts ← viewAll h.valueText? args
    return .unsaturated args.length (h.arity f) (h.arity f - args.length) texts
  | .thunk (.unevaluated _) => some (.thunk false false none none)
  | .thunk (.underEvaluation owner _ _) => some (.thunk false true owner none)
  | .thunk (.evaluated v) => do return .thunk true false none (← h.text? v)

def viewClosure (a : Address) : Option ValueView := do
  let text ← h.text? a
  let unboxed? ← viewOption h.valueText? (h.unboxed? a)
  return .closure ⟨h.variant a, text, h.isValue a, h.constructorName? a, unboxed?, ← viewDetail h a⟩

def viewValue : Value → Option ValueView
  | .boxed a => viewClosure h a
  | v => do return .primitive v.kind (← h.valueText? v)

def viewPending : Pending → Option PendingView
  | .enter a => do return .enter (← viewClosure h a)
  | .resume a => do return .resume (← viewClosure h a)
  | .apply f args => do return .apply (← viewClosure h f) (← viewAll h.valueText? args)

def viewStep : Step → Option StepView
  | .resume => some .resume
  | .enter a => do return .enter (← viewClosure h a)
  | .apply f args => do return .apply (← viewClosure h f) (← viewAll h.valueText? args)
  | .throw a => do return .throw (← viewClosure h a)
  | .block a => do return .block (← viewClosure h a)

def viewThread (t : Thread κ) : Option ThreadView := do
  let pending ← viewPending h t.pending
  return ⟨t.id, t.stack.depth, t.stack.highWater, t.stack.limit, t.stack.labels, pending⟩

def viewContext (c : Context κ) : Option ContextView := do
  return {
    workerId := c.workerId
    thread := c.thread
    exception? := ← viewOption h.text? c.exception
    interrupted := c.interrupted
    depth := c.stack.depth
    limit := c.stack.limit
    highWater := c.stack.highWater
    top? := ← viewOption h.frameText? c.stack.top?
    labels := c.stack.labels
    result? := ← viewOption h.text? c.registers.result?
    counters := c.counters }

def valueDebugText : Value → Option String
  | .boxed a => do return "Boxed(" ++ (← h.debugText? a) ++ ")"
  | .int n => some s!"Int({n.toInt})"
  | .long n => some s!"Long({n.toInt})"
  | .float x => some ("Float(" ++ x.text ++ ")")
  | .double x => some ("Double(" ++ x.text ++ ")")
  | .char c => some ("Char(" ++ Text.quoteChar c ++ ")")
  | .bool b => some ("Bool(" ++ (if b then "true" else "false") ++ ")")

def pendingDebugText : Pending → Option String
  | .enter a => do return "Enter(" ++ (← h.debugText? a) ++ ")"
  | .resume a => do return "Return(" ++ (← h.debugText? a) ++ ")"
  | .apply f args => do
    let texts ← viewAll (valueDebugText h) args
    return "Apply(" ++ (← h.debugText? f) ++ ", [" ++ ", ".intercalate texts ++ "])"

def threadDebugText (t : Thread κ) : Option String := do
  let pending ← pendingDebugText h t.pending
  return "LogicalThread \x7b id: ThreadId(" ++ toString t.id.number ++ "), depth: " ++
    toString t.stack.depth ++ ", pending: " ++ pending ++ " \x7d"

def joinLabels (labels : List String) : List String :=
  (labels.splitBy fun a b => decide (a = b)).map fun group =>
    match group with
    | [label] => label
    | group => group.headD "" ++ "*" ++ toString group.length

end GraphReduction.Session
