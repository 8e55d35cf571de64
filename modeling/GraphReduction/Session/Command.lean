import GraphReduction.Session.Basic

namespace GraphReduction.Session

open Evaluation Script

inductive FrameExpr where
  | apply (e : Expr)
  | update (e : Expr)
  | handler (e : Expr)
  | case (code : String) (captured : List Expr)
  deriving Inhabited

inductive PendingExpr where
  | enter (e : Expr)
  | resume (e : Expr)
  | apply (callee : Expr) (args : List Expr)
  deriving Inhabited

inductive Settling where
  | update (e : Expr)
  | reset
  deriving Inhabited

inductive Command where
  | define (name : String) (e : Expr)
  | «show» (e : Expr)
  | debug (e : Expr)
  | sameCode (e f : Expr)
  | evaluateOn (w : Nat) (e : Expr)
  | run (w : Nat) (e : Expr)
  | spawn (thread : String) (w : Nat) (e : Expr)
  | thread (thread : String) (limit : Nat) (frames : List FrameExpr) (pending : PendingExpr)
  | threadDebug (thread : String)
  | slice (w : Nat) (thread : String)
  | park (e : Expr) (thread : String)
  | abandon (thread : String)
  | update (e value : Expr)
  | reset (e : Expr)
  | settled (e : Expr)
  | apply (w : Nat) (callee : Expr) (args : List Expr)
  | enter (w : Nat) (e : Expr)
  | runBody (w : Nat) (body : List Instr)
  | attach (w : Nat) (thread : String)
  | detach (w : Nat) (thread : String) (pending : PendingExpr)
  | context (w : Nat)
  | interrupt (w : Nat) (flag : Bool)
  | sparks (w : Nat)
  /-- Several workers of their own evaluate one closure. -/
  | race (n : Nat) (e : Expr)
  | wait (e thunk : Expr) (how : Settling)
  | pool (options : RuntimeOptions) (roots : List Expr)
  deriving Inhabited

inductive SliceView where
  | finished (v : ValueView)
  | yielded (t : ThreadView)
  | blocked (t : ThreadView) (thunk : ValueView)

structure PoolView where
  workers : Nat
  options : RuntimeOptions
  results : List (Except RuntimeError String)
  counters : Counters
  summary : PoolSummary

inductive Reply where
  | value (v : ValueView)
  | values (vs : List ValueView)
  | text (s : String)
  | names (ns : List String)
  | flag (b : Bool)
  | sameCode (same : Bool) (first : String)
  | thread (t : ThreadView)
  | slice (s : SliceView)
  | updated (released : List String)
  | lost (first : ValueView)
  | after (a : AfterView)
  | pending (p : PendingView)
  | context (c : ContextView)
  | race (results : List (Except RuntimeError String)) (same : Bool)
  | results (rs : List (Except RuntimeError String))
  | pool (p : PoolView)

def defaultLimit : Nat := 4096

def quantum : Nat := 64

def pendingOf : PendingExpr → Run Pending
  | .enter e => do return .enter (← closure 0 e)
  | .resume e => do return .resume (← closure 0 e)
  | .apply f args => do
    let f ← closure 0 f
    return .apply f (← values 0 args)

def frameOf : FrameExpr → Run (Frame String)
  | .apply e => do return .apply (← value 0 e)
  | .update e => do return .update (← closure 0 e)
  | .handler e => do return .handler (← closure 0 e)
  | .case code captured => do
    let vs ← values 0 captured
    match (← get).codes.lookup code with
    | some _ => return .case code vs
    | none => throw (.error (.userException ("dsl: code " ++ code)))

def pushAll (stack : FrameStack String) : List FrameExpr → Run (FrameStack String)
  | [] => pure stack
  | f :: rest => do
    let frame ← frameOf f
    pushAll (← ofExcept (stack.push frame)) rest

def functionOf (a : Address) : Run (FunctionInfo String) := do
  match (← heap).function? a with
  | some (info, _) => return info
  | none => refuse "not a function"

def after (w : Nat) (x : Exec String Step) : Run Reply := do
  let step ← executeOn w x
  let h ← heap
  let c := (← worker w).context
  let view ← ended (viewStep h step)
  let result? ← ended (viewOption h.text? c.registers.result?)
  return .after ⟨view, result?, c.stack.labels⟩

def evaluateAside (fuel : Nat) (a : Address) : Run (Except RuntimeError Address) := do
  let s ← get
  let (result, _, shared) := (Worker.standalone defaultLimit).work s.shared
    (evaluate s.program fuel defaultLimit a)
  set { s with shared }
  ended result

def evaluateAsideTimes (fuel : Nat) (a : Address) : Nat → Run (List (Except RuntimeError Address))
  | 0 => pure []
  | n + 1 => do
    let r ← evaluateAside fuel a
    return r :: (← evaluateAsideTimes fuel a n)

def allSame (h : Heap String) : List (Except RuntimeError Address) → Bool
  | [] => true
  | [_] => true
  | .ok a :: .ok b :: rest => decide (h.resolve a = h.resolve b) && allSame h (.ok b :: rest)
  | _ => false

def updateThunk (a value : Address) : Run Reply := do
  let _ ← thunk a
  match (← heap).update a value with
  | .ok (released, heap) =>
    modify fun s => { s with shared := { s.shared with heap } }
    return .updated (← keepAll released)
  | .error first => return .lost (← viewAddress first)

def resetThunk (a : Address) : Run (List String) := do
  let _ ← thunk a
  let (released, heap) := (← heap).reset a
  modify fun s => { s with shared := { s.shared with heap } }
  keepAll released

variable (fuel : Nat)

def runNamed (w : Nat) (name : String) : Run SliceView := do
  requireEmptyStack w
  let t ← findThread name
  dropThread name
  let program := (← get).program
  match ← ended (← workOn w (runSlice program fuel t)) with
  | .finished v => return .finished (← viewAddress v)
  | .halted e => throw (.error e)
  | .yielded t =>
    keep name t
    return .yielded (← viewStack t)
  | .blocked t a =>
    keep name t
    let view ← viewStack t
    return .blocked view (← viewAddress a)
  | .endless => throw .endless

def Command.execute : Command → Run Reply
  | .define name e => do
    let v ← value 0 e
    modify fun s => { s with bindings := bindName name v s.bindings }
    return .value (← view v)
  | .show e => do return .value (← view (← value 0 e))
  | .debug e => do
    let a ← closure 0 e
    return .text (← ended ((← heap).debugText? a))
  | .sameCode e f => do
    let a ← closure 0 e
    let b ← closure 0 f
    let f ← functionOf a
    let g ← functionOf b
    return .sameCode (decide (f = g)) s!"CompiledFunction({f.name}/{f.arity})"
  | .evaluateOn w e => do return .value (← view (← value w e))
  | .run w e => do
    let a ← closure 0 e
    requireEmptyStack w
    let limit := (← worker w).stackLimit
    let program := (← get).program
    let result ← ended (← workOn w (evaluate program fuel limit a))
    return .value (← viewAddress (← ofExcept result))
  | .spawn name w e => do
    let a ← closure 0 e
    let limit := (← worker w).stackLimit
    let t ← modifyGet fun s =>
      let (t, shared) := s.shared.spawn a limit
      (t, { s with shared })
    keep name t
    return .thread (← viewStack t)
  | .thread name limit frames pending => do
    let stack ← pushAll (.empty limit) frames
    let pending ← pendingOf pending
    let t ← modifyGet fun s =>
      let (t, shared) := s.shared.spawn ⟨0⟩ limit
      ({ t with stack, pending }, { s with shared })
    keep name t
    return .thread (← viewStack t)
  | .threadDebug name => do
    let t ← findThread name
    return .text (← ended (threadDebugText (← heap) t))
  | .slice w name => do return .slice (← runNamed fuel w name)
  | .park e name => do
    let a ← closure 0 e
    let _ ← thunk a
    let t ← findThread name
    match (← heap).park? a t with
    | some heap =>
      modify fun s => { s with shared := { s.shared with heap } }
      dropThread name
      return .text "parked"
    | none => return .text "refused"
  | .abandon name => do
    let t ← findThread name
    dropThread name
    let released ← modifyGet fun s =>
      let (released, shared) := s.shared.abandon t
      (released, { s with shared })
    return .names (← keepAll released)
  | .update e v => do
    let a ← closure 0 e
    updateThunk a (← closure 0 v)
  | .reset e => do return .names (← resetThunk (← closure 0 e))
  | .settled e => do
    match ← thunk (← closure 0 e) with
    | .underEvaluation .. => refuse "would wait"
    | _ => return .text "settled"
  | .apply w callee args => do
    let f ← closure w callee
    let vs ← values w args
    after w (Evaluation.apply (← get).program f vs)
  | .enter w e => do
    let a ← closure 0 e
    after w (Evaluation.enter (← get).program a)
  | .runBody w body => do after w (execBody body (← get).scope).perform
  | .attach w name => do
    requireEmptyStack w
    let t ← findThread name
    dropThread name
    let pending ← workOn w fun m => m.attach t
    return .pending (← ended (viewPending (← heap) pending))
  | .detach w name pending => do
    let pending ← pendingOf pending
    let t ← workOn w fun m => m.detach pending
    keep name t
    return .thread (← viewStack t)
  | .context w => do
    let c := (← worker w).context
    return .context (← ended (viewContext (← heap) c))
  | .interrupt w flag => do
    workOn w fun m => ((), { m with context := { m.context with interrupted := flag } })
    return .flag flag
  | .sparks w => do
    match (← worker w).scheduler with
    | .manual m => return .values (← ended (viewAll (viewClosure (← heap)) m.sparks))
    | _ => return .values []
  | .race n e => do
    let a ← closure 0 e
    let results ← evaluateAsideTimes fuel a n
    let same := allSame (← heap) results
    return .race (← resultTexts results) same
  | .wait e t how => do
    let a ← closure 0 e
    let b ← closure 0 t
    match how with
    | .update v => let _ ← updateThunk b (← closure 0 v)
    | .reset => let _ ← resetThunk b
    return .results (← resultTexts [← evaluateAside fuel a])
  | .pool options roots => do
    let rec closures : List Expr → Run (List Address)
      | [] => pure []
      | e :: es => do
        let a ← closure 0 e
        return a :: (← closures es)
    let roots ← closures roots
    let s ← get
    let (report, shared) ← ended (Pool.run s.program quantum fuel options roots s.shared)
    set { s with shared }
    return .pool ⟨Pool.workerCount options, options, ← resultTexts report.results,
      report.counters, report.summary⟩

structure WakeView where
  thunk : String
  released : List String

def viewWakes : List (Wake String) → Run (List WakeView)
  | [] => pure []
  | w :: rest => do
    if w.released.isEmpty then viewWakes rest
    else
      let text ← ended ((← heap).text? w.thunk)
      let names ← keepAll w.released
      return ⟨text, names⟩ :: (← viewWakes rest)

def takeWakes (w : Worker String) : List (Wake String) × Worker String :=
  match w.scheduler with
  | .manual m => (m.wakes.reverse, { w with scheduler := .manual { m with wakes := [] } })
  | _ => ([], w)

def collectWakes : Run (Nat × List WakeView) := do
  let taken := (← get).workers.map takeWakes
  modify fun s => { s with workers := taken.map Prod.snd }
  let wakes := taken.flatMap Prod.fst
  return (wakes.length, ← viewWakes wakes)

structure Answer where
  reply : Except Failure Reply
  wakeCalls : Nat
  wakes : List WakeView

def answer (c : Command) (s : Session) : Answer × Session :=
  let (reply, s) := match c.execute fuel s with
    | .ok r s => (.ok r, s)
    | .error e s => (.error e, s)
  match collectWakes s with
  | .ok (calls, wakes) s => (⟨reply, calls, wakes⟩, s)
  | .error e s => (⟨.error e, 0, []⟩, s)

end GraphReduction.Session
