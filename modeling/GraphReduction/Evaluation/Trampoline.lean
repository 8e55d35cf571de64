import GraphReduction.Evaluation.Apply
import GraphReduction.Evaluation.Enter
import GraphReduction.Evaluation.Update

namespace GraphReduction.Evaluation

inductive Control where
  | entering (closure : Address)
  | applying (callee : Address) (args : List Value)
  | resuming
  | blocked (thunk : Address)
  | halted (e : RuntimeError)
  | endless
  deriving DecidableEq, Inhabited

inductive Outcome (κ : Type) where
  | finished (value : Address)
  | yielded (thread : Thread κ)
  | blocked (thread : Thread κ) (thunk : Address)
  | halted (e : RuntimeError)
  | endless
  deriving Inhabited

inductive Turn (κ : Type) where
  | next (control : Control)
  | over (outcome : Outcome κ)
  deriving Inhabited

def pollInterval : Nat := 1024

variable {κ : Type} (program : Program κ)

def controlRemark (control : Control) (m : Machine κ) : Remark :=
  let message := match control with
    | .entering a => "ENTER " ++ (m.heap.debugText? a).getD "<endless>"
    | .applying f args =>
      "APPLY " ++ closureText m f ++ " [" ++ ", ".intercalate (args.map (valueText m)) ++ "]"
    | .resuming =>
      let top := (m.context.stack.top?.map Frame.label).getD "<empty>"
      let result := (m.context.registers.result?.map (closureText m)).getD "<unset>"
      "RESUME " ++ top ++ " R1=" ++ result
    | .blocked a => "BLOCK " ++ (m.heap.debugText? a).getD "<endless>"
    | .halted e => "HALT " ++ e.message
    | .endless => "ENDLESS"
  ⟨.trace, message,
    [("thread", m.context.thread.text), ("depth", toString m.context.stack.depth)]⟩

def stackRemark (m : Machine κ) : Remark :=
  ⟨.trace, "  stack: [" ++ ", ".intercalate m.context.stack.labels ++ "]", []⟩

def reportControl (control : Control) (m : Machine κ) : Machine κ :=
  if m.shared.trace.wants .trampoline then
    let m := m.report .trampoline (controlRemark control)
    if m.context.stack.isEmpty then m else m.report .trampoline stackRemark
  else m

def controlOf : Step → Control
  | .resume => .resuming
  | .enter a => .entering a
  | .apply f args => .applying f args
  | .block a => .blocked a
  | .throw _ => .halted (.unexpectedEmptyStack "unwinding")

def throwValue (exception : Address) : StateM (Machine κ) Control := do
  match ← unwind exception with
  | some step => return controlOf step
  | none =>
    match (← get).heap.text? exception with
    | some text => return .halted (.uncaught text)
    | none => return .endless

/-- An error that a handler may take is raised as an exception value; if none takes it, the thread
halts with the error itself. -/
def raiseError (e : RuntimeError) : StateM (Machine κ) Control := do
  if e.isCatchable then
    modify fun m => m.report .trampoline fun _ =>
      ⟨.debug, "raising runtime exception", [("error", e.message)]⟩
    let exception ← modifyGet fun m => m.allocate (.data ⟨e.exceptionName, 0⟩ [])
    match ← unwind exception with
    | some step => return controlOf step
    | none => return .halted e
  else return .halted e

def settle : Except Fault Step → StateM (Machine κ) Control
  | .ok (.throw exception) => throwValue exception
  | .ok step => return controlOf step
  | .error (.error e) => raiseError e
  | .error .endless => return .endless

def resumeFrame : Frame κ → Exec κ Step
  | .apply v => applyFrame program v
  | .update a => updateThunk a
  | .case code captured => run program code captured
  | .handler _ => pure .resume

def suspensionPoint (control : Control) (m : Machine κ) : Except Control Pending :=
  match control with
  | .entering a => .ok (.enter a)
  | .applying f args => .ok (.apply f args)
  | .resuming =>
    match m.context.registers.readClosure 1 with
    | .ok a => .ok (.resume a)
    | .error e => .error (.halted e)
  | other => .error other

def threadDetail (t : ThreadId) : List (String × String) := [("thread", t.text)]

def yieldThread (pending : Pending) : StateM (Machine κ) (Turn κ) := do
  modify fun m => m.count fun c => { c with yields := c.yields + 1 }
  let thread ← modifyGet (·.detach pending)
  modify fun m => m.report .trampoline fun _ => ⟨.debug, "yielding", threadDetail thread.id⟩
  return .over (.yielded thread)

def follow (x : Exec κ Step) : StateM (Machine κ) (Turn κ) := do
  let result ← x.outcome
  return .next (← settle result)

def advance (control : Control) : StateM (Machine κ) (Turn κ) := do
  modify (reportControl control)
  match control with
  | .entering a => follow (enter program a)
  | .applying f args => follow (apply program f args)
  | .resuming => fun m =>
    match m.pop? with
    | some (frame, m) => follow (resumeFrame program frame) m
    | none =>
      match m.context.registers.readClosure 1 with
      | .ok value => (.over (.finished value), m.release)
      | .error _ => (.next (.halted (.unexpectedEmptyStack "returning a value")), m)
  | .blocked a =>
    let thread ← modifyGet (·.detach (.enter a))
    modify fun m => m.report .trampoline fun _ =>
      ⟨.debug, "blocked on thunk", threadDetail thread.id⟩
    return .over (.blocked thread a)
  | .halted e =>
    modify fun m => m.report .trampoline fun _ => ⟨.debug, "halting", [("error", e.message)]⟩
    abandonStack
    modify (·.release)
    return .over (.halted e)
  | .endless => return .over .endless

/-- One iteration of the trampoline, the `n`-th of the thread's time on the worker. An interrupt
halts the thread; now and then the scheduler may ask for the worker. -/
def iterate (n : Nat) (control : Control) : StateM (Machine κ) (Turn κ) := fun m =>
  if m.context.interrupted then advance program (.halted .interrupted) m
  else if n = 0 ∨ n % pollInterval ≠ 0 then advance program control m
  else
    let (asked, scheduler) := m.scheduler.poll
    let m := { m with scheduler }
    if asked then
      match suspensionPoint control m with
      | .ok pending => yieldThread pending m
      | .error control => advance program control m
    else advance program control m

def begin (thread : Thread κ) : StateM (Machine κ) Control := do
  match ← modifyGet (·.attach thread) with
  | .enter a => return .entering a
  | .apply f args => return .applying f args
  | .resume a =>
    modify (·.setResult a)
    return .resuming

def iterateUpTo : Nat → Nat → Control → StateM (Machine κ) (Nat × Turn κ)
  | 0, n, control => return (n, .next control)
  | fuel + 1, n, control => do
    match ← iterate program n control with
    | .next control => iterateUpTo fuel (n + 1) control
    | .over outcome => return (n + 1, .over outcome)

def runSlice (fuel : Nat) (thread : Thread κ) : StateM (Machine κ) (Option (Outcome κ)) := do
  let control ← begin thread
  match ← iterateUpTo program fuel 0 control with
  | (_, .over outcome) => return some outcome
  | (_, .next _) => return none

end GraphReduction.Evaluation
