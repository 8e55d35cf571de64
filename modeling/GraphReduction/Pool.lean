import GraphReduction.Abandon
import GraphReduction.Evaluation.Trampoline
import GraphReduction.Options.Basic

namespace GraphReduction

open Evaluation

inductive Job (κ : Type) where
  | idle
  | running (thread : ThreadId) (iterations : Nat) (control : Control)
  | ending (thread : ThreadId) (outcome : Outcome κ)
  | gone
  deriving Inhabited

structure PoolWorker (κ : Type) where
  context : Context κ
  job : Job κ
  deriving Inhabited

structure Pool (κ : Type) where
  options : RuntimeOptions
  shared : Shared κ
  queue : RunQueue κ
  workers : Array (PoolWorker κ)
  slots : List (ThreadId × Nat)
  results : Array (Option (Except RuntimeError Address))
  remaining : Nat
  alive : Nat
  retired : Nat
  counters : Counters

structure PoolSummary where
  workers : Nat
  workersRetired : Nat
  sparksAccepted : Nat
  sparksDropped : Nat
  sparksRun : Nat
  threadsRequeued : Nat
  deriving DecidableEq, Repr

namespace PoolSummary

def fields (s : PoolSummary) : List (String × Nat) := [
  ("workers", s.workers),
  ("workers_retired", s.workersRetired),
  ("sparks_accepted", s.sparksAccepted),
  ("sparks_dropped", s.sparksDropped),
  ("sparks_run", s.sparksRun),
  ("threads_requeued", s.threadsRequeued)]

end PoolSummary

structure PoolReport where
  results : List (Except RuntimeError Address)
  counters : Counters
  summary : PoolSummary

namespace Pool

variable {κ : Type}

def spawnRoots (stackLimit : Nat) : List Address → Nat → Shared κ →
    List (Thread κ) × List (ThreadId × Nat) × Shared κ
  | [], _, s => ([], [], s)
  | a :: roots, n, s =>
    let (t, s) := s.spawn a stackLimit
    let (threads, slots, s) := spawnRoots stackLimit roots (n + 1) s
    (t :: threads, (t.id, n) :: slots, s)

def workerCount (o : RuntimeOptions) : Nat := max o.workerCount.toNat 1

def start (o : RuntimeOptions) (roots : List Address) (shared : Shared κ) : Pool κ :=
  let (threads, slots, shared) := spawnRoots o.stackLimit.toNat roots 0 shared
  let n := workerCount o
  {
    options := o
    shared
    queue := { (RunQueue.empty o.sparkBudget.toNat o.debug.scheduler : RunQueue κ) with threads }
    workers := Array.ofFn fun i : Fin n => ⟨.new i o.stackLimit.toNat, .idle⟩
    slots
    results := Array.replicate roots.length none
    remaining := roots.length
    alive := n
    retired := 0
    counters := .zero
  }

def done (p : Pool κ) : Bool := p.remaining = 0

def remark (p : Pool κ) (message : String) (details : List (String × String)) : Pool κ :=
  if p.options.debug.scheduler then
    { p with shared := p.shared.report .scheduler ⟨.debug, message, details⟩ }
  else p

def setJob (p : Pool κ) (i : Nat) (job : Job κ) : Pool κ :=
  { p with workers := p.workers.modify i fun w => { w with job } }

def job (p : Pool κ) (i : Nat) : Job κ := (p.workers.getD i default).job

def work (p : Pool κ) (i : Nat) (x : StateM (Machine κ) (Job κ)) : Pool κ :=
  if h : i < p.workers.size then
    let ⟨options, shared, queue, workers, slots, results, remaining, alive, retired, counters⟩ := p
    let (w, workers) := workers.swapAt i default h
    let (job, m) := x ⟨shared, .pool queue, w.context⟩
    let queue := match m.scheduler with
      | .pool queue => queue
      | _ => .empty 0 false
    ⟨options, m.shared, queue, workers.setIfInBounds i ⟨m.context, job⟩, slots, results, remaining,
      alive, retired, counters⟩
  else p

def take (p : Pool κ) (i : Nat) (thread : Thread κ) : Pool κ :=
  p.work i do return .running thread.id 0 (← begin thread)

def dequeue? (p : Pool κ) (i : Nat) : Option (Pool κ) :=
  match p.queue.threads with
  | [] => none
  | thread :: rest => some ({ p with queue := { p.queue with threads := rest } }.take i thread)

def takeSpark? (p : Pool κ) (i : Nat) : Option (Pool κ) :=
  match p.queue.sparks with
  | [] => none
  | a :: rest =>
    let p := { p with queue := { p.queue with sparks := rest } }
    if p.shared.heap.isValue a then some p
    else
      let p := { p with queue := { p.queue with sparksRun := p.queue.sparksRun + 1 } }
      let p := p.remark "running spark" [("worker", toString i)]
      let (thread, shared) := p.shared.spawn a p.options.stackLimit.toNat
      some ({ p with shared }.take i thread)

def leave (p : Pool κ) (i : Nat) : Pool κ :=
  { p with counters := p.counters + (p.workers.getD i default).context.counters }.setJob i .gone

/-- A worker that has been idle for too long leaves, unless it is the last one. A turn without
anything to do counts as too long where there is a limit at all. -/
def retire? (p : Pool κ) (i : Nat) : Option (Pool κ) :=
  if p.options.idleTimeout ≠ 0 ∧ 1 < p.alive then
    let p := { p with alive := p.alive - 1, retired := p.retired + 1 }
    some ((p.remark "idle worker retiring" [("worker", toString i)]).leave i)
  else none

def finish (p : Pool κ) (id : ThreadId) (result : Except RuntimeError Address) : Pool κ :=
  match p.slots.lookup id with
  | some index =>
    { p with
      slots := p.slots.filter fun e => e.1 ≠ id
      results := p.results.setIfInBounds index (some result)
      remaining := p.remaining - 1 }
  | none =>
    match result with
    | .ok _ => p
    | .error e =>
      { p with
        shared := p.shared.report .scheduler
          ⟨.debug, "spark halted", [("thread", id.text), ("error", e.message)]⟩ }

/-- Leaves a blocked thread at its thunk, or takes it back if the thunk is settled by now. -/
def park (p : Pool κ) (thread : Thread κ) (thunk : Address) : Pool κ :=
  match p.shared.heap.park? thunk thread with
  | some heap => { p with shared := { p.shared with heap } }
  | none => { p with queue := p.queue.requeue [thread] }

def conclude (p : Pool κ) (i : Nat) (id : ThreadId) (outcome : Outcome κ) : Pool κ :=
  match outcome with
  | .finished value => (p.finish id (.ok value)).setJob i .idle
  | .halted e => (p.finish id (.error e)).setJob i .idle
  | .yielded thread => { p with queue := p.queue.requeue [thread] }.setJob i .idle
  | .blocked thread thunk =>
    let p := p.remark "parking on thunk" [("worker", toString i), ("thread", id.text)]
    (p.park thread thunk).setJob i .idle
  | .endless => p

variable (program : Program κ)

def iterate (p : Pool κ) (i n : Nat) (id : ThreadId) (iterations : Nat) (control : Control) : Pool κ :=
  p.work i do
    match ← iterateUpTo program n iterations control with
    | (iterations, .next control) => return .running id iterations control
    | (_, .over outcome) => return .ending id outcome

/-- The next thing that worker `i` does, at most `quantum` iterations long. An idle worker prefers
threads to sparks; if there is neither it may leave, and else it stays idle. -/
def turn (quantum : Nat) (p : Pool κ) (i : Nat) : Pool κ :=
  match p.job i with
  | .gone => p
  | .running id iterations control => p.iterate program i quantum id iterations control
  | .ending id outcome => p.conclude i id outcome
  | .idle =>
    if p.done then p.leave i
    else ((p.dequeue? i).or ((p.takeSpark? i).or (p.retire? i))).getD p

def isGone : Job κ → Bool
  | .gone => true
  | _ => false

def rounds (quantum : Nat) : Nat → Pool κ → Option (Pool κ)
  | 0, _ => none
  | fuel + 1, p =>
    if p.workers.all fun w => isGone w.job then some p
    else rounds quantum fuel ((List.range p.workers.size).foldl (turn program quantum) p)

def drain (p : Pool κ) : Shared κ :=
  let p := if p.queue.threads.isEmpty then p
    else p.remark "abandoning leftover threads" [("count", toString p.queue.threads.length)]
  p.shared.abandonAll (p.queue.threads.length + p.shared.heap.parked.length) p.queue.threads

def report (p : Pool κ) : PoolReport where
  results := p.results.toList.map fun r => r.getD (.error .interrupted)
  counters := p.counters
  summary := {
    workers := workerCount p.options
    workersRetired := p.retired
    sparksAccepted := p.queue.sparksAccepted
    sparksDropped := p.queue.sparksDropped
    sparksRun := p.queue.sparksRun
    threadsRequeued := p.queue.requeued }

def announce (p : Pool κ) : Pool κ :=
  (List.range p.workers.size).foldl (fun p i => p.remark "worker started" [("worker", toString i)]) p

def complete (quantum fuel : Nat) (p : Pool κ) : Option (PoolReport × Shared κ) := do
  let p ← if p.done then some p else rounds program quantum fuel p.announce
  return (p.report, p.drain)

def run (quantum fuel : Nat) (o : RuntimeOptions) (roots : List Address) (shared : Shared κ) :
    Option (PoolReport × Shared κ) :=
  complete program quantum fuel (start o roots shared)

end Pool

end GraphReduction
