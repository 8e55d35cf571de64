import GraphReduction.Machine

namespace GraphReduction.Evaluation

variable {κ : Type}

/-- Resumes an update frame: the value in the result register becomes the thunk's. A result that
is itself unevaluated is evaluated first, under the same frame. If the thunk has a value already,
that one stands and replaces the result. -/
def updateThunk (thunk : Address) : Exec κ Step := fun m =>
  match m.context.registers.readClosure 1 with
  | .error e => Exec.raise e m
  | .ok result =>
    let value := m.heap.resolve result
    let thread := ("thread", m.context.thread.text)
    if !m.heap.isThunk thunk then
      Exec.raise (.updateNonThunk (m.heap.variant thunk).name) m
    else if !m.heap.isValue value then
      (do
        Exec.report .update fun _ => ⟨.trace, "result is unevaluated; entering it first", [thread]⟩
        Exec.push (.update thunk)
        return Step.enter value) m
    else
      match m.heap.target? thunk with
      | some winner =>
        let m := m.report .update fun _ =>
          ⟨.trace, "update lost; adopting first result", [thread]⟩
        Exec.giveBack winner m
      | none =>
        let (released, m) := m.onHeap (·.settle thunk value)
        let m := m.count fun c => { c with updates := c.updates + 1 }
        let m := m.report .update fun _ => ⟨.trace, "thunk updated",
          [thread, ("released", toString released.length)]⟩
        .ok .resume (m.wake thunk released)

def resetRemark (released : Nat) : Option Remark :=
  some ⟨.trace, "thunk reset by exception", [("released", toString released)]⟩

def unwindFrames (exception : Address) : List (Frame κ) → Nat → StateM (Machine κ) (Option Step)
  | [], _ => pure none
  | .handler f :: _, discarded => do
    modify (·.drop)
    modify fun m => m.count fun c => { c with exceptionsCaught := c.exceptionsCaught + 1 }
    modify (·.setException none)
    modify fun m => m.report .trampoline fun m => ⟨.debug, "exception caught",
      [("exception", (m.heap.text? exception).getD "<endless>"), ("discarded", toString discarded)]⟩
    return some (.apply f [.boxed exception])
  | .update a :: rest, discarded => do
    modify (·.drop)
    modify fun m => if m.heap.isThunk a then m.resetThunk a resetRemark else m
    unwindFrames exception rest (discarded + 1)
  | _ :: rest, discarded => do
    modify (·.drop)
    unwindFrames exception rest (discarded + 1)

def unwind (exception : Address) : StateM (Machine κ) (Option Step) := do
  modify (·.setException (some exception))
  unwindFrames exception (← get).context.stack.frames 0

def abandonFrames : List (Frame κ) → StateM (Machine κ) Unit
  | [] => pure ()
  | .update a :: rest => do
    modify (·.drop)
    modify fun m => if m.heap.isThunk a then m.resetThunk a fun _ => none else m
    abandonFrames rest
  | _ :: rest => do
    modify (·.drop)
    abandonFrames rest

def abandonStack : StateM (Machine κ) Unit := do
  abandonFrames (← get).context.stack.frames

end GraphReduction.Evaluation
