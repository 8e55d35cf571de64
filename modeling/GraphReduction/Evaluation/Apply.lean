import GraphReduction.Machine
import GraphReduction.Schema

namespace GraphReduction.Evaluation

variable {κ : Type} (program : Program κ)

def load : List Value → List Slot → Exec κ Unit
  | v :: vs, s :: ss => fun m =>
    match m.context.registers.store s v with
    | .ok r => load vs ss (m.setRegisters r)
    | .error e => Exec.raise e m
  | _, _ => pure ()

theorem load_cons (v : Value) (vs : List Value) (s : Slot) (ss : List Slot) (m : Machine κ) :
    load (v :: vs) (s :: ss) m =
      if s.kind = v.kind then load vs ss (m.setRegisters (m.context.registers.put s.offset v))
      else Exec.raise (.registerKind s.kind s.index) m := by
  change (match m.context.registers.store s v with
    | .ok r => load vs ss (m.setRegisters r)
    | .error e => Exec.raise e m) = _
  unfold Registers.store
  by_cases hk : s.kind = v.kind
  · rw [if_pos hk, if_pos hk]
  · rw [if_neg hk, if_neg hk]

def invokeAt (f : Address) (args : List Value) (slots : List Slot) : Exec κ Step := fun m =>
  match m.heap.function? f with
  | none => Exec.raise (.applyNonFunction (m.heap.variant f).name args.length) m
  | some (info, captured) =>
    (do load args slots; (program.body info.code captured).perform) m

def invoke (f : Address) (args : List Value) : Exec κ Step := do
  let slots ← Exec.ofExcept (layoutFor (args.map Value.kind))
  invokeAt program f args slots

def closureText (m : Machine κ) (a : Address) : String := (m.heap.text? a).getD "<endless>"

def valueText (m : Machine κ) (v : Value) : String := (m.heap.valueText? v).getD "<endless>"

/-- A saturated call: by a layout known in advance, or else through one frame per argument. -/
def callExact (f : Address) (args : List Value) : Exec κ Step :=
  if args.isEmpty then invokeAt program f args []
  else
    match SchemaTable.standard.lookup args with
    | some schema => do
      Exec.count fun c => { c with fastPathCalls := c.fastPathCalls + 1 }
      invokeAt program f args schema.slots
    | none => do
      Exec.count fun c => { c with genericCalls := c.genericCalls + 1 }
      Exec.report .apply fun m => ⟨.trace, "generic apply",
        [("function", closureText m f), ("args", toString args.length)]⟩
      Exec.pushArguments args
      Exec.giveBack f

def arityOf (f : Address) (args : Nat) : Exec κ Nat := fun m =>
  match m.heap.function? f with
  | some (info, _) => .ok info.arity m
  | none => Exec.raise (.applyNonFunction (m.heap.variant f).name args) m

def bindArgs (f : Address) (args : List Value) : Exec κ Address := fun m =>
  match m.heap.bind f args with
  | .ok c =>
    let (a, m) := m.allocate c
    .ok a m
  | .error e => Exec.raise e m

def applyFunction (f : Address) (args : List Value) : Exec κ Step := do
  let arity ← arityOf f args.length
  if args.length = arity then callExact program f args
  else if args.length < arity then
    Exec.count fun c => { c with partialApplications := c.partialApplications + 1 }
    let pap ← bindArgs f args
    Exec.report .apply fun m => ⟨.trace, "under-application", [("pap", closureText m pap)]⟩
    Exec.giveBack pap
  else
    Exec.count fun c => { c with overApplications := c.overApplications + 1 }
    Exec.report .apply fun m => ⟨.trace, "over-application",
      [("function", closureText m f), ("extra", toString (args.length - arity))]⟩
    Exec.pushArguments (args.drop arity)
    callExact program f (args.take arity)

/-- Applies a callee of any shape. With no arguments functions are values already, and everything
else is entered. -/
def apply (callee : Address) (args : List Value) : Exec κ Step := fun m =>
  let callee := m.heap.resolve callee
  if args.isEmpty then
    match m.heap.cell callee with
    | .function _ _ | .unsaturated _ _ => Exec.giveBack callee m
    | .thunk _ | .data _ _ => .ok (.enter callee) m
  else
    match m.heap.callee? callee with
    | some (f, bound) => applyFunction program f (bound ++ args) m
    | none => Exec.raise (.applyNonFunction (m.heap.variant callee).name args.length) m

def popArguments : Nat → Exec κ (List Value)
  | 0 => pure []
  | n + 1 => fun m =>
    match m.context.stack.popArgument? with
    | some (v, s) => (do return v :: (← popArguments n)) (m.setStack s)
    | none => .ok [] m

def applyFrame (argument : Value) : Exec κ Step := do
  let result ← fun m => Exec.ofExcept (m.context.registers.readClosure 1) m
  let m ← get
  let callee := m.heap.resolve result
  match m.heap.callee? callee with
  | none => Exec.raise (.applyNonFunction (m.heap.variant callee).name 1)
  | some (f, bound) =>
    let arity ← arityOf f (bound.length + 1)
    if arity = 0 then
      Exec.push (.apply argument)
      invokeAt program f bound []
    else
      let more ← popArguments (arity - (bound.length + 1))
      let args := bound ++ argument :: more
      if args.length = arity then invoke program f args
      else
        Exec.count fun c => { c with partialApplications := c.partialApplications + 1 }
        let pap ← bindArgs f args
        Exec.giveBack pap

end GraphReduction.Evaluation
