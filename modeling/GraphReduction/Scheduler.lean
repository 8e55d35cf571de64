import GraphReduction.Event
import GraphReduction.Heap

namespace GraphReduction

/-- The answers to a worker's polls: always to yield, or one answer per poll and then never. -/
inductive YieldPlan where
  | always
  | answers (list : List Bool)
  deriving DecidableEq, Repr

structure Wake (κ : Type) where
  thunk : Address
  released : List (Thread κ)

structure ManualScheduler (κ : Type) where
  plan : YieldPlan
  sparkLimit : Nat
  sparks : List Address
  wakes : List (Wake κ)

structure RunQueue (κ : Type) where
  threads : List (Thread κ)
  sparks : List Address
  sparkCapacity : Nat
  sparksAccepted : Nat
  sparksDropped : Nat
  sparksRun : Nat
  requeued : Nat
  verbose : Bool

namespace RunQueue

variable {κ : Type}

def empty (sparkBudget : Nat) (verbose : Bool) : RunQueue κ where
  threads := []
  sparks := []
  sparkCapacity := max sparkBudget 1
  sparksAccepted := 0
  sparksDropped := 0
  sparksRun := 0
  requeued := 0
  verbose

def requeue (q : RunQueue κ) (threads : List (Thread κ)) : RunQueue κ :=
  { q with threads := q.threads ++ threads, requeued := q.requeued + threads.length }

def offer (q : RunQueue κ) (h : Heap κ) (a : Address) : Bool × RunQueue κ :=
  if h.isValue a then (false, q)
  else if q.sparks.length < q.sparkCapacity then
    (true, { q with sparks := q.sparks ++ [a], sparksAccepted := q.sparksAccepted + 1 })
  else (false, { q with sparksDropped := q.sparksDropped + 1 })

end RunQueue

inductive Scheduler (κ : Type) where
  /-- One thread at a time: a blocked one waits in place, so none is ever parked. -/
  | standalone
  | manual (m : ManualScheduler κ)
  | pool (q : RunQueue κ)

namespace Scheduler

variable {κ : Type}

instance : Inhabited (Scheduler κ) := ⟨standalone⟩

def wake (s : Scheduler κ) (thunk : Address) (released : List (Thread κ)) : Scheduler κ :=
  match s with
  | standalone => standalone
  | manual m => manual { m with wakes := ⟨thunk, released⟩ :: m.wakes }
  | pool q => if released.isEmpty then pool q else pool (q.requeue released)

def wakeRemark? (s : Scheduler κ) (released : List (Thread κ)) : Option Remark :=
  if released.isEmpty then none
  else
    let count := [("count", toString released.length)]
    match s with
    | standalone => some ⟨.warn, "standalone scheduler dropped parked threads", count⟩
    | manual _ => none
    | pool q => if q.verbose then some ⟨.debug, "waking blocked threads", count⟩ else none

def spark (s : Scheduler κ) (h : Heap κ) (a : Address) : Bool × Scheduler κ :=
  match s with
  | standalone => (false, standalone)
  | manual m =>
    if m.sparks.length < m.sparkLimit then (true, manual { m with sparks := m.sparks ++ [a] })
    else (false, manual m)
  | pool q => match q.offer h a with
    | (accepted, q) => (accepted, pool q)

def poll (s : Scheduler κ) : Bool × Scheduler κ :=
  match s with
  | standalone => (false, standalone)
  | manual m => match m.plan with
    | .always => (true, manual m)
    | .answers [] => (false, manual m)
    | .answers (b :: rest) => (b, manual { m with plan := .answers rest })
  | pool q => (!q.threads.isEmpty, pool q)

end Scheduler

end GraphReduction
