import GraphReduction.Action
import GraphReduction.Heap.Rendering
import GraphReduction.Script.Syntax

namespace GraphReduction.Script

structure Scope where
  codes : List (String × Code)
  bindings : List (String × Value)
  captured : List Value
  locals : List Value
  deriving Inhabited

namespace Scope

def empty : Scope := ⟨[], [], [], []⟩

end Scope

def complain {α : Type} (text : String) : Action String α := .fail (.userException ("dsl: " ++ text))

def found {α : Type} (x : Option α) (complaint : String) : Action String α :=
  match x with
  | some a => pure a
  | none => complain complaint

def Arithmetic.eval? (op : Arithmetic) : Value → Value → Option Value
  | .int m, .int n => some <| .int <| match op with
    | add => m + n
    | sub => m - n
    | mul => m * n
  | .long m, .long n => some <| .long <| match op with
    | add => m + n
    | sub => m - n
    | mul => m * n
  | _, _ => none

variable (s : Scope)

mutual

def Expr.eval : Expr → Action String Value
  | .literal v => pure v
  | .variable name => found (s.bindings.lookup name) ("unbound " ++ name)
  | .captured k => found s.captured[k]? s!"free {k}"
  | .localValue k => found s.locals[k]? s!"loc {k}"
  | .register kind index => Action.register kind index
  | .data name tag fields => do
    let vs ← evalList fields
    return .boxed (← Action.allocated (.data ⟨name, tag⟩ vs))
  | .box e => do return .boxed (← Action.boxed (← e.eval))
  | .unbox e otherwise => do
    let a ← Action.boxed (← e.eval)
    match ← Action.ask (·.unboxed? a) with
    | some v => return v
    | none => otherwise.eval
  | .bound callee args => do
    let f ← Action.boxed (← callee.eval)
    let vs ← evalList args
    return .boxed (← Action.bound f vs)
  | .function code captured => do
    let vs ← evalList captured
    let c ← found (s.codes.lookup code) ("code " ++ code)
    return .boxed (← Action.allocated (.function ⟨code, c.arity, code⟩ vs))
  | .thunk code captured => do
    let vs ← evalList captured
    let _ ← found (s.codes.lookup code) ("code " ++ code)
    return .boxed (← Action.allocated (.thunk ⟨code, vs⟩))
  | .resolve e => do
    let a ← Action.boxed (← e.eval)
    return .boxed (← Action.ask (·.resolve a))
  | .field e k otherwise => do
    let a ← Action.boxed (← e.eval)
    match ← Action.ask fun h => (h.data? (h.resolve a)).bind fun (_, fields) => fields[k]? with
    | some v => return v
    | none => otherwise.eval
  | .arithmetic op left right => do
    let v ← left.eval
    let w ← right.eval
    found (op.eval? v w) "arith"
  | .tick counter => .tick counter fun n => pure (.int (Int32.ofNat n))
  | .exception e => do return .boxed (← Action.allocated (.data ⟨e.exceptionName, 0⟩ []))
  | .depth => .depth fun n => pure (.int (Int32.ofNat n))
  | .same left right => do
    let v ← left.eval
    let w ← right.eval
    return .bool (v.same w)
  | .isValue e => do
    let a ← Action.boxed (← e.eval)
    return .bool (← Action.ask (·.isValue a))
  | .spark e => do
    let a ← Action.boxed (← e.eval)
    .spark a fun accepted => pure (.bool accepted)

def evalList : List Expr → Action String (List Value)
  | [] => pure []
  | e :: es => do
    let v ← e.eval
    return v :: (← evalList es)

end

def Expr.closure (e : Expr) : Action String Address := do Action.boxed (← e.eval s)

inductive Ending where
  | step (s : Step)
  | onward (s : Scope)

mutual

def Instr.exec (i : Instr) (s : Scope) : Action String Ending :=
  match i with
  | .bindLocal e => do
    let v ← e.eval s
    return .onward { s with locals := s.locals ++ [v] }
  | .setRegister index e => do
    Action.written index (← e.eval s)
    return .onward s
  | .pushApply e => do
    Action.pushed (.apply (← e.eval s))
    return .onward s
  | .pushUpdate e => do
    Action.pushed (.update (← e.closure s))
    return .onward s
  | .pushHandler e => do
    Action.pushed (.handler (← e.closure s))
    return .onward s
  | .pushCase code captured => do
    let vs ← evalList s captured
    let _ ← found (s.codes.lookup code) ("code " ++ code)
    Action.pushed (.case code vs)
    return .onward s
  | .pop => .pop fun frame? => do
    let text ← match frame? with
      | some frame => Action.askText (·.frameText? frame)
      | none => pure "-"
    .log text (pure (.onward s))
  | .log e => do
    let v ← e.eval s
    let text ← Action.askText (·.valueText? v)
    .log text (pure (.onward s))
  | .branch condition yes no => do
    match ← condition.eval s with
    | .bool true => execAll yes s
    | .bool false => execAll no s
    | _ => complain "if"
  | .select e alternatives otherwise => do
    let a ← e.closure s
    let name? ← Action.ask (·.constructorName? a)
    match execAlternative? name? alternatives s with
    | some ending => ending
    | none => execAll otherwise s
  | .interrupt flag => .interrupt flag (pure (.onward s))
  | .giveBack e => do return .step (← Action.giveBack (← e.closure s))
  | .resume => return .step .resume
  | .enter e => do return .step (.enter (← e.closure s))
  | .throw e => do return .step (.throw (← e.closure s))
  | .block e => do return .step (.block (← e.closure s))
  | .apply callee args => do
    let f ← callee.closure s
    return .step (.apply f (← evalList s args))
  | .fail e => .fail e

def execAll (is : List Instr) (s : Scope) : Action String Ending :=
  match is with
  | [] => pure (.onward s)
  | i :: is => do
    match ← i.exec s with
    | .step t => return .step t
    | .onward s => execAll is s

def execAlternative? (name? : Option String) (alternatives : List (String × List Instr))
    (s : Scope) : Option (Action String Ending) :=
  match alternatives with
  | [] => none
  | (name, is) :: rest =>
    if name? = some name then some (execAll is s) else execAlternative? name? rest s

end

/-- A whole body. Falling off its end leaves the result register as it is. -/
def execBody (is : List Instr) (s : Scope) : Action String Step := do
  match ← execAll is s with
  | .step t => return t
  | .onward _ => return .resume

def program (codes : List (String × Code)) (bindings : List (String × Value)) : Program String where
  body name captured :=
    match codes.lookup name with
    | some c => execBody c.body ⟨codes, bindings, captured, []⟩
    | none => complain ("code " ++ name)

end GraphReduction.Script
