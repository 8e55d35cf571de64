import GraphReduction.Options.CommandLine
import GraphReduction.Options.Record
import GraphReduction.SharedSum
namespace GraphReduction

inductive ProgramEnding where
  | exited (code : UInt32)
  | aborted
  deriving DecidableEq, Repr

structure ProgramOutput where
  ending : ProgramEnding
  stdout : String
  stderr : String
  deriving DecidableEq, Repr

namespace Invocation

open Options

def defaultSumTo : Nat := 1000000

def unlines (lines : List String) : String := String.join (lines.map (· ++ "\n"))

def failure (lines : List String) : ProgramOutput := ⟨.exited 1, "", unlines lines⟩

def readSumTo? (s : String) : Option Nat :=
  let (negative, digits) := match s.toList with
    | '-' :: rest => (true, rest)
    | '+' :: rest => (false, rest)
    | cs => (false, cs)
  if digits = [] ∨ !digits.all Char.isDigit then none
  else
    let n := Decimal.digitsValue digits
    if (negative ∧ n ≠ 0) ∨ Int64.maxValue.toInt < n then none else some n

structure Workload where
  sumTo : Nat
  roots : Nat
  deriving DecidableEq, Repr

def defaultRoots (o : RuntimeOptions) : Nat := (max o.workerCount 1 * 2).toNat

def readRoots (o : RuntimeOptions) : List String → Except String Nat
  | [] => .ok (defaultRoots o)
  | s :: _ =>
    match readPositive? s.toList with
    | some n => .ok n.toNat
    | none => .error ("Error: roots expects a positive integer, got " ++ s)

/-- The workload that the program's arguments ask for; a `--` among them does not count. -/
def readWorkload (o : RuntimeOptions) (args : List String) : Except String Workload := do
  match args.filter (· ≠ "--") with
  | [] => return ⟨defaultSumTo, ← readRoots o []⟩
  | s :: rest =>
    match readSumTo? s with
    | some n => return ⟨n, ← readRoots o rest⟩
    | none => .error ("Error: sum-to expects a non-negative integer, got " ++ s)

def sortedObject (members : List (String × Json)) : Json :=
  .object (members.mergeSort fun a b => !decide (b.1 < a.1))

def resultText {κ : Type} (h : Heap κ) : Except RuntimeError Address → Option String
  | .ok a => h.text? (h.resolve a)
  | .error e => some ("error: " ++ e.message)

def resultTexts {κ : Type} (h : Heap κ) : List (Except RuntimeError Address) → Option (List String)
  | [] => some []
  | r :: rs => do
    let s ← resultText h r
    return s :: (← resultTexts h rs)

def summary (sumTo : Nat) (results : List String) (r : PoolReport) : Json := sortedObject [
  ("sum_to", .ofNat sumTo),
  ("results", .array (results.map Json.string)),
  ("stats", sortedObject (r.counters.fields.map fun (name, n) => (name, .ofUInt64 n))),
  ("pool", sortedObject (r.summary.fields.map fun (name, n) => (name, .ofNat n)))]

def breakdownCode : UInt32 := 101

/-- Without threads for its workers the program fails, with a block too long to be addressed it
breaks off, and without memory it is aborted. -/
def fallShort (s : Shortage) : ProgramOutput :=
  match s with
  | .threads => failure ["Error: " ++ s.message]
  | .addresses => ⟨.exited breakdownCode, "", unlines [s.message]⟩
  | .memory _ => ⟨.aborted, "", unlines [s.message]⟩

def runWorkload (fuel : Nat) (o : RuntimeOptions) (w : Workload) : Option ProgramOutput := do
  let verbosity := if o.debug.scheduler then .scheduling else .silent
  let (report, shared) ← SharedSum.run fuel o (Int64.ofNat w.sumTo) w.roots verbosity
  let results ← resultTexts shared.heap report.results
  let code := if report.results.all Except.isOk then 0 else 1
  return ⟨.exited code, (summary w.sumTo results report).pretty ++ "\n",
    unlines (shared.trace.events.toList.map Event.line)⟩

def attempt (fuel : Nat) (machine : Resources) (o : RuntimeOptions) (w : Workload) :
    Option ProgramOutput :=
  match machine.meetAll (SharedSum.demands o w.roots) with
  | .error s => some (fallShort s)
  | .ok () => runWorkload fuel o w

def answer (fuel : Nat) (machine : Resources) (defaults : RuntimeOptions)
    (environment : Option String) (args : List String) : Option ProgramOutput :=
  match parse defaults environment args with
  | .error problems => some (failure (problems.map (fun p => "graft: " ++ p.message) ++ [usage]))
  | .ok p =>
    if p.showUsage then some (failure [usage])
    else if p.showInfo then some ⟨.exited 0, (RuntimeInfo.ofOptions p.options).text ++ "\n", ""⟩
    else
      match readWorkload p.options p.programArgs with
      | .error line => some (failure [line])
      | .ok w => attempt fuel machine p.options w

end Invocation

end GraphReduction
