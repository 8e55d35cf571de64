import GraphReduction.Options.Flag
import GraphReduction.Text.Blank

namespace GraphReduction.Options

structure Split where
  runtime : List String
  program : List String
  deriving DecidableEq, Repr

/-- Divides a command line. Between `+RTS` and `-RTS` arguments are the runtime's; `--RTS`, which
is dropped, and `--`, which is kept, leave all that follows to the program. -/
def splitFrom (inRuntime : Bool) : List String → Split
  | [] => ⟨[], []⟩
  | arg :: rest =>
    if arg = "--RTS" then ⟨[], rest⟩
    else if arg = "--" then ⟨[], arg :: rest⟩
    else if arg = "+RTS" then splitFrom true rest
    else if arg = "-RTS" then splitFrom false rest
    else
      let s := splitFrom inRuntime rest
      if inRuntime then { s with runtime := arg :: s.runtime }
      else { s with program := arg :: s.program }

def split (args : List String) : Split := splitFrom false args

structure Parsed where
  options : RuntimeOptions
  programArgs : List String
  runtimeArgs : List String
  showInfo : Bool
  showUsage : Bool
  deriving DecidableEq, Repr

def apply (p : Parsed) : Setting → Parsed
  | .usage => { p with showUsage := true }
  | .info => { p with showInfo := true }
  | .nothing => p
  | .traceScheduler => { p with options := { p.options with debug := ⟨true⟩ } }
  | .idleTimeout n => { p with options := { p.options with idleTimeout := n } }
  | .workers n => { p with options := { p.options with workerCount := n } }
  | .sparkBudget n => { p with options := { p.options with sparkBudget := n } }
  | .stackLimit n => { p with options := { p.options with stackLimit := n } }

def problemOf? (arg : String) : Option Problem :=
  match readSetting arg with
  | .ok _ => none
  | .error e => some e

def settingOf? (arg : String) : Option Setting :=
  match readSetting arg with
  | .ok s => some s
  | .error _ => none

def parse (defaults : RuntimeOptions) (environment : Option String) (args : List String) :
    Except (List Problem) Parsed :=
  let s := split args
  let runtimeArgs := (environment.map Text.words).getD [] ++ s.runtime
  match runtimeArgs.filterMap problemOf? with
  | [] => .ok ((runtimeArgs.filterMap settingOf?).foldl apply ⟨defaults, s.program, runtimeArgs, false, false⟩)
  | problems => .error problems

def usage : String := "\n".intercalate [
  "usage: graft [program args] [+RTS <rts options> -RTS] [--RTS | -- program args]",
  "",
  "runtime options:",
  "  -N[<n>]     number of workers (bare -N means 1)",
  "  -C[<secs>]  idle time before a worker may retire (default 0, disabled)",
  "  -e<n>       spark budget: maximum outstanding sparks",
  "  -K<n>       continuation stack limit in frames",
  "  -Ds         trace the scheduler",
  "  --info      print runtime information and exit",
  "  -?          print this message"]

end GraphReduction.Options
