import GraphReduction.Kind

namespace GraphReduction

inductive ErrorCategory where
  | resourceExhaustion
  | exception
  | internalDefect
  | fatal
  deriving DecidableEq, Repr

inductive RuntimeError where
  | stackOverflow (limit : Nat)
  | registerExhausted (kind : Kind) (index available : Nat)
  | nonTermination
  | userException (text : String)
  | applyNonFunction (callee : String) (args : Nat)
  | enterPartial
  | emptyRegister (kind : Kind) (index : Nat)
  | registerKind (expected : Kind) (index : Nat)
  | updateNonThunk (target : String)
  | unexpectedEmptyStack (activity : String)
  | malformedPartial (name : String) (args arity : Nat)
  | uncaught (text : String)
  | interrupted
  deriving DecidableEq, Repr, Inhabited

namespace RuntimeError

def message : RuntimeError → String
  | stackOverflow limit => s!"stack overflow: continuation stack exceeded {limit} frames"
  | registerExhausted kind index available =>
    s!"register file exhausted: {kind.text} argument {index} exceeds {available} registers"
  | nonTermination => "<<loop>>: thunk re-entered by the thread evaluating it"
  | userException text => "exception: " ++ text
  | applyNonFunction callee args =>
    s!"internal error: cannot apply a {callee} to {args} argument(s)"
  | enterPartial => "internal error: a partial application was entered directly"
  | emptyRegister kind index =>
    s!"internal error: read of empty {kind.text} register {index}"
  | registerKind expected index =>
    s!"internal error: register {index} holds no {expected.text} value"
  | updateNonThunk target => s!"internal error: update frame holds a {target}, not a thunk"
  | unexpectedEmptyStack activity =>
    "internal error: continuation stack empty while " ++ activity
  | malformedPartial name args arity =>
    s!"internal error: partial application of {name} has {args} argument(s) for arity {arity}"
  | uncaught text => "uncaught exception: " ++ text
  | interrupted => "worker interrupted"

def category : RuntimeError → ErrorCategory
  | stackOverflow .. | registerExhausted .. => .resourceExhaustion
  | nonTermination | userException _ => .exception
  | applyNonFunction .. | enterPartial | emptyRegister .. | registerKind .. | updateNonThunk _
  | unexpectedEmptyStack _ | malformedPartial .. => .internalDefect
  | uncaught _ | interrupted => .fatal

def isCatchable (e : RuntimeError) : Bool :=
  e.category = .resourceExhaustion || e.category = .exception

def exceptionName : RuntimeError → String
  | stackOverflow .. => "StackOverflow"
  | registerExhausted .. => "RegisterExhausted"
  | nonTermination => "NonTermination"
  | userException _ => "ErrorCall"
  | _ => "InternalError"

end RuntimeError

end GraphReduction
