namespace GraphReduction

inductive Level where
  | trace
  | debug
  | warn
  deriving DecidableEq, Repr

namespace Level

def text : Level → String
  | trace => "TRACE"
  | debug => "DEBUG"
  | warn => "WARN"

end Level

inductive Target where
  | trampoline
  | apply
  | update
  | scheduler
  deriving DecidableEq, Repr

namespace Target

def text : Target → String
  | trampoline => "graft::trampoline"
  | apply => "graft::apply"
  | update => "graft::update"
  | scheduler => "graft::scheduler"

end Target

structure Remark where
  level : Level
  message : String
  details : List (String × String)
  deriving DecidableEq, Repr

structure Event extends Remark where
  target : Target
  deriving DecidableEq, Repr

namespace Event

def line (e : Event) : String :=
  e.level.text ++ " " ++ e.target.text ++ ": " ++ e.message ++
    String.join (e.details.map fun (name, value) => " " ++ name ++ "=" ++ value)

end Event

inductive Verbosity where
  | silent
  | scheduling
  | full
  deriving DecidableEq, Repr, Inhabited

structure Trace where
  verbosity : Verbosity
  events : Array Event
  deriving Inhabited

namespace Trace

def empty (verbosity : Verbosity) : Trace := ⟨verbosity, #[]⟩

def wants (t : Trace) (target : Target) : Bool :=
  match t.verbosity with
  | .silent => false
  | .scheduling => target = .scheduler
  | .full => true

def add (t : Trace) (target : Target) (r : Remark) : Trace :=
  { t with events := t.events.push ⟨r, target⟩ }

end Trace

end GraphReduction
