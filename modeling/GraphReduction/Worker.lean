import GraphReduction.Evaluation.Trampoline

namespace GraphReduction

open Evaluation

structure Worker (κ : Type) where
  stackLimit : Nat
  scheduler : Scheduler κ
  context : Context κ
  deriving Inhabited

namespace Worker

variable {κ : Type}

def new (id stackLimit : Nat) (scheduler : Scheduler κ) : Worker κ :=
  ⟨stackLimit, scheduler, .new id stackLimit⟩

def standalone (stackLimit : Nat) : Worker κ := new 0 stackLimit .standalone

def work {α : Type} (w : Worker κ) (shared : Shared κ) (x : StateM (Machine κ) α) :
    α × Worker κ × Shared κ :=
  let (a, m) := x ⟨shared, w.scheduler, w.context⟩
  (a, { w with scheduler := m.scheduler, context := m.context }, m.shared)

end Worker

namespace Evaluation

variable {κ : Type} (program : Program κ)

/-- Runs a thread to its end, slice after slice. A yield resumes at once; a block goes on when the
thunk is settled, for which nobody else is at work here. There is no result if the fuel, slices and
iterations in each, does not last. -/
def runToEnd (fuel : Nat) : Nat → Thread κ → StateM (Machine κ) (Option (Except RuntimeError Address))
  | 0, _ => return none
  | slices + 1, thread => do
    match ← runSlice program fuel thread with
    | some (.finished value) => return some (.ok value)
    | some (.halted e) => return some (.error e)
    | some (.yielded thread) => runToEnd fuel slices thread
    | some (.blocked thread thunk) =>
      modify fun m => m.report .scheduler fun m => ⟨.debug, "waiting for thunk",
        [("worker", toString m.context.workerId), ("thread", thread.id.text)]⟩
      if ((← get).heap.owner? thunk).isSome then return none
      else runToEnd fuel slices thread
    | some .endless | none => return none

def evaluate (fuel stackLimit : Nat) (computation : Address) :
    StateM (Machine κ) (Option (Except RuntimeError Address)) := do
  let thread ← modifyGet fun m =>
    let (t, shared) := m.shared.spawn computation stackLimit
    (t, { m with shared })
  runToEnd program fuel fuel thread

end Evaluation

end GraphReduction
