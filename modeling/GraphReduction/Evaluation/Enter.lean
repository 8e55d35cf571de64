import GraphReduction.Machine

namespace GraphReduction.Evaluation

variable {κ : Type} (program : Program κ)

def run (code : κ) (captured : List Value) : Exec κ Step := (program.body code captured).perform

def enterBusy (a : Address) : Exec κ Step := fun m =>
  let me := m.context.thread
  let thread := [("thread", me.text)]
  match m.shared.waiting.register? m.heap me a with
  | none =>
    .error (.error .nonTermination) (m.report .update fun _ =>
      ⟨.debug, "blocking would deadlock; raising <<loop>>", thread⟩)
  | some w =>
    let m := { m with shared := { m.shared with waiting := w } }
    let m := m.count fun c => { c with blocks := c.blocks + 1 }
    .ok (.block a) (m.report .update fun _ => ⟨.trace, "thunk busy; blocking", thread⟩)

/-- Runs the code of a thunk that was just entered, under an update frame. If there is no room for
the frame the evaluation is taken back. -/
def start (a : Address) (body : Suspension κ) : Exec κ Step := fun m =>
  match m.push (.update a) with
  | .error e => .error (.error e) (m.resetThunk a fun _ => none)
  | .ok m =>
    run program body.code body.captured (m.count fun c => { c with thunkEntries := c.thunkEntries + 1 })

def enter (a : Address) : Exec κ Step := fun m =>
  match m.heap.cell a with
  | .unsaturated _ _ => Exec.raise .enterPartial m
  | _ =>
    let me := m.context.thread
    match m.onHeap (·.enter me a) with
    | (.value v, m) => Exec.giveBack v m
    | (.start body, m) => start program a body m
    | (.busy, m) => enterBusy a m
    | (.loop, m) => Exec.raise .nonTermination m

end GraphReduction.Evaluation
