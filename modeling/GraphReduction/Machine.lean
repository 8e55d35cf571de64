import GraphReduction.Action
import GraphReduction.Counters
import GraphReduction.Heap.Rendering
import GraphReduction.Registers
import GraphReduction.Scheduler
import GraphReduction.Waiting

namespace GraphReduction

structure Journal where
  log : List String
  counters : List (String × Nat)
  deriving Inhabited

namespace Journal

def empty : Journal := ⟨[], []⟩

def note (j : Journal) (line : String) : Journal := { j with log := line :: j.log }

def count (j : Journal) (counter : String) : Nat := (j.counters.lookup counter).getD 0

def tick (j : Journal) (counter : String) : Journal :=
  { j with counters := (counter, j.count counter + 1) :: j.counters.filter fun e => e.1 ≠ counter }

end Journal

structure Shared (κ : Type) where
  heap : Heap κ
  waiting : WaitingMap
  lastThread : Nat
  journal : Journal
  trace : Trace
  deriving Inhabited

namespace Shared

variable {κ : Type}

def empty (verbosity : Verbosity) : Shared κ := ⟨.empty, .empty, 0, .empty, .empty verbosity⟩

def report (s : Shared κ) (target : Target) (remark : Remark) : Shared κ :=
  if s.trace.wants target then { s with trace := s.trace.add target remark } else s

def spawn (s : Shared κ) (computation : Address) (stackLimit : Nat) : Thread κ × Shared κ :=
  (⟨⟨s.lastThread + 1⟩, .empty stackLimit, .enter computation⟩,
    { s with lastThread := s.lastThread + 1 })

end Shared

structure Context (κ : Type) where
  workerId : Nat
  registers : Registers
  stack : FrameStack κ
  thread : ThreadId
  exception : Option Address
  interrupted : Bool
  counters : Counters

namespace Context

variable {κ : Type}

def new (workerId stackLimit : Nat) : Context κ where
  workerId
  registers := .empty
  stack := .empty stackLimit
  thread := .nobody
  exception := none
  interrupted := false
  counters := .zero

instance : Inhabited (Context κ) := ⟨new 0 0⟩

def release (c : Context κ) : Context κ :=
  { c with
    registers := c.registers.releaseBoxed
    stack := .empty c.stack.limit
    thread := .nobody
    exception := none }

def detach (c : Context κ) (pending : Pending) : Thread κ × Context κ :=
  (⟨c.thread, c.stack, pending⟩, c.release)

end Context

structure Machine (κ : Type) where
  shared : Shared κ
  scheduler : Scheduler κ
  context : Context κ
  deriving Inhabited

namespace Machine

variable {κ : Type}

@[inline] def heap (m : Machine κ) : Heap κ := m.shared.heap

@[inline] def setHeap (m : Machine κ) (h : Heap κ) : Machine κ :=
  { m with shared := { m.shared with heap := h } }

@[inline] def setRegisters (m : Machine κ) (r : Registers) : Machine κ :=
  { m with context := { m.context with registers := r } }

@[inline] def setStack (m : Machine κ) (s : FrameStack κ) : Machine κ :=
  { m with context := { m.context with stack := s } }

@[inline] def setException (m : Machine κ) (e : Option Address) : Machine κ :=
  { m with context := { m.context with exception := e } }

def setResult (m : Machine κ) (a : Address) : Machine κ :=
  m.setRegisters (m.context.registers.setResult a)

@[inline] def count (m : Machine κ) (f : Counters → Counters) : Machine κ :=
  { m with context := { m.context with counters := f m.context.counters } }

def report (m : Machine κ) (target : Target) (remark : Machine κ → Remark) : Machine κ :=
  if m.shared.trace.wants target then
    let r := remark m
    { m with shared := { m.shared with trace := m.shared.trace.add target r } }
  else m

@[inline] def onHeap {α : Type} (m : Machine κ) (f : Heap κ → α × Heap κ) : α × Machine κ :=
  let ⟨⟨heap, waiting, lastThread, journal, trace⟩, scheduler, context⟩ := m
  let (a, heap) := f heap
  (a, ⟨⟨heap, waiting, lastThread, journal, trace⟩, scheduler, context⟩)

def allocate (m : Machine κ) (c : Cell κ) : Address × Machine κ := m.onHeap (·.allocate c)

def push (m : Machine κ) (frame : Frame κ) : Except RuntimeError (Machine κ) :=
  match m.context.stack.push frame with
  | .ok s =>
    .ok ((m.setStack s).count fun c => { c with framesPushed := c.framesPushed + 1 })
  | .error e => .error e

def pop? (m : Machine κ) : Option (Frame κ × Machine κ) :=
  match m.context.stack.pop? with
  | some (frame, s) => some (frame, m.setStack s)
  | none => none

def drop (m : Machine κ) : Machine κ :=
  match m.pop? with
  | some (_, m) => m
  | none => m

def wake (m : Machine κ) (thunk : Address) (released : List (Thread κ)) : Machine κ :=
  let m := match m.scheduler.wakeRemark? released with
    | some r => m.report .scheduler fun _ => r
    | none => m
  { m with scheduler := m.scheduler.wake thunk released }

def resetThunk (m : Machine κ) (thunk : Address) (remark : Nat → Option Remark) : Machine κ :=
  let (released, m) := m.onHeap (·.reset thunk)
  let m := match remark released.length with
    | some r => m.report .update fun _ => r
    | none => m
  m.wake thunk released

def spark (m : Machine κ) (a : Address) : Bool × Machine κ :=
  let (accepted, s) := m.scheduler.spark m.heap a
  (accepted, { m with scheduler := s })

def attach (m : Machine κ) (t : Thread κ) : Pending × Machine κ :=
  (t.pending,
    { m with
      shared := { m.shared with waiting := m.shared.waiting.erase t.id }
      context := { m.context with stack := t.stack, thread := t.id, exception := none } })

def detach (m : Machine κ) (pending : Pending) : Thread κ × Machine κ :=
  let (t, c) := m.context.detach pending
  (t, { m with context := c })

def release (m : Machine κ) : Machine κ := { m with context := m.context.release }

end Machine

inductive Fault where
  | error (e : RuntimeError)
  /-- It goes on for ever without reaching its next step. -/
  | endless
  deriving DecidableEq, Inhabited

/-- Executions on a machine. What was done before a fault stays done. -/
abbrev Exec (κ : Type) := EStateM Fault (Machine κ)

namespace Exec

variable {κ α : Type}

def raise (e : RuntimeError) : Exec κ α := throw (.error e)

def ofExcept : Except RuntimeError α → Exec κ α
  | .ok a => pure a
  | .error e => raise e

def push (frame : Frame κ) : Exec κ Unit := fun m =>
  match m.push frame with
  | .ok m => .ok () m
  | .error e => .error (.error e) m

def pushArguments : List Value → Exec κ Unit
  | [] => pure ()
  | v :: vs => do
    pushArguments vs
    push (.apply v)

def giveBack (a : Address) : Exec κ Step := do
  modify (·.setResult a)
  return .resume

def report (target : Target) (remark : Machine κ → Remark) : Exec κ Unit :=
  modify (·.report target remark)

def count (f : Counters → Counters) : Exec κ Unit := modify (·.count f)

def outcome (x : Exec κ α) : StateM (Machine κ) (Except Fault α) := fun m =>
  match x m with
  | .ok a m => (.ok a, m)
  | .error e m => (.error e, m)

end Exec

namespace Action

variable {κ α : Type}

def perform : Action κ α → Exec κ α
  | done a => pure a
  | fail e => Exec.raise e
  | diverge => throw .endless
  | readRegister k i next => fun m => (next (m.context.registers.read k i)).perform m
  | writeRegister i v next => fun m =>
    match Slot.ofIndex v.kind i with
    | .ok s => (next (.ok ())).perform (m.setRegisters (m.context.registers.put s.offset v))
    | .error e => (next (.error e)).perform m
  | setResult a next => fun m => next.perform (m.setResult a)
  | push frame next => fun m =>
    match m.push frame with
    | .ok m => (next (.ok ())).perform m
    | .error e => (next (.error e)).perform m
  | pop next => fun m =>
    match m.pop? with
    | some (frame, m) => (next (some frame)).perform m
    | none => (next none).perform m
  | depth next => fun m => (next m.context.stack.depth).perform m
  | allocate c next => fun m =>
    let (a, m) := m.allocate c.cell
    (next a).perform m
  | bindArgs f args next => fun m =>
    match m.heap.bind f args with
    | .ok c =>
      let (a, m) := m.allocate c
      (next (.ok a)).perform m
    | .error e => (next (.error e)).perform m
  | observe next => fun m => (next m.heap).perform m
  | spark a next => fun m =>
    let (accepted, m) := m.spark a
    (next accepted).perform m
  | interrupt b next => fun m =>
    next.perform { m with context := { m.context with interrupted := b } }
  | log line next => fun m =>
    next.perform { m with shared := { m.shared with journal := m.shared.journal.note line } }
  | tick c next => fun m =>
    let n := m.shared.journal.count c
    (next n).perform
      { m with shared := { m.shared with journal := m.shared.journal.tick c } }

end Action

end GraphReduction
