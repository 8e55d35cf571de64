import GraphReduction.Pool
import GraphReduction.Resources
/-!
A workload for a pool: every root demands one shared sum, which is computed once, and adds its own
number to it.
-/
namespace GraphReduction.SharedSum

inductive Code where
  | sum
  | total (sum : Address) (n : Int64)
  | root (shared : Address)
  | addOffset
  deriving DecidableEq, Repr

def longOf (v? : Option Value) : Int64 := (v?.bind Value.long?).getD 0

def readLong (index : Nat) (next : Int64 → Action Code Step) : Action Code Step :=
  .readRegister .long index fun
    | .ok v => next (longOf (some v))
    | .error e => .fail e

def readClosure (next : Address → Action Code Step) : Action Code Step :=
  .readRegister .boxed 1 fun
    | .ok (.boxed a) => next a
    | .ok _ => .fail (.emptyRegister .boxed 1)
    | .error e => .fail e

def giveLong (n : Int64) : Action Code Step :=
  .allocate (.data ⟨Kind.long.boxName, 0⟩ [.long n]) fun a => Action.giveBack a

def body (code : Code) (captured : List Value) : Action Code Step :=
  match code with
  | .sum =>
    readClosure fun this => readLong 1 fun acc => readLong 2 fun i =>
      if i = 0 then giveLong acc
      else .done (.apply this [.boxed this, .long (acc + i), .long (i - 1)])
  | .total sum n => .done (.apply sum [.boxed sum, .long 0, .long n])
  | .root shared =>
    .spark shared fun _ =>
      .push (.case .addOffset captured) fun
        | .ok () => .done (.enter shared)
        | .error e => .fail e
  | .addOffset =>
    readClosure fun a => .observe fun h =>
      giveLong (longOf (h.unboxed? a) + longOf captured.head?)

def program : Program Code := ⟨body⟩

def allocateRoots (shared : Address) : Nat → Nat → Heap Code → List Address × Heap Code
  | 0, _, h => ([], h)
  | n + 1, i, h =>
    let (a, h) := h.allocate (.thunk (.unevaluated ⟨.root shared, [.long (Int64.ofNat i)]⟩))
    let (rest, h) := allocateRoots shared n (i + 1) h
    (a :: rest, h)

def build (n : Int64) (roots : Nat) (h : Heap Code) : List Address × Heap Code :=
  let (sum, h) := h.allocate (.function ⟨"sum", 3, .sum⟩ [])
  let (shared, h) := h.allocate (.thunk (.unevaluated ⟨.total sum n, []⟩))
  allocateRoots shared roots 0 h

def quantum : Nat := 4096

def rootSize : Nat := 8

def sparkSize : Nat := 16

def frameSize : Nat := 40

/-- What a run needs, in order. The queue of sparks and the first places of every root's stack are
laid out in full beforehand. -/
def demands (o : RuntimeOptions) (roots : Nat) : List Demand := [
  .workers (Pool.workerCount o),
  .blocks 1 (roots * rootSize),
  .blocks 1 (max o.sparkBudget.toNat 1 * sparkSize),
  .blocks roots (min initialCapacity o.stackLimit.toNat * frameSize)]

def run (fuel : Nat) (o : RuntimeOptions) (n : Int64) (roots : Nat) (verbosity : Verbosity) :
    Option (PoolReport × Shared Code) :=
  let s : Shared Code := .empty verbosity
  let (roots, heap) := build n roots s.heap
  Pool.run program quantum fuel o roots { s with heap }

end GraphReduction.SharedSum
