namespace GraphReduction

inductive Demand where
  | workers (count : Nat)
  | blocks (count bytes : Nat)
  deriving DecidableEq, Repr

inductive Shortage where
  | threads
  | addresses
  | memory (bytes : Nat)
  deriving DecidableEq, Repr

namespace Shortage

def message : Shortage → String
  | .threads =>
    "failed to start worker threads: Resource temporarily unavailable (os error 11)"
  | .addresses => "capacity overflow"
  | .memory bytes => s!"memory allocation of {bytes} bytes failed"

end Shortage

structure Resources where
  threads : Nat
  memory : Nat
  deriving DecidableEq, Repr

namespace Resources

def common : Resources := ⟨Nat.pow 2 15, Nat.pow 2 33⟩

/-- The most bytes in one block: its addresses differ by a signed number of 64 bits. -/
def maxBlock : Nat := Int64.maxValue.toNatClampNeg

def meet (r : Resources) : Demand → Except Shortage Unit
  | .workers count => if count ≤ r.threads then .ok () else .error .threads
  | .blocks count bytes =>
    if maxBlock < bytes then .error .addresses
    else if r.memory < count * bytes then .error (.memory bytes)
    else .ok ()

def meetAll (r : Resources) : List Demand → Except Shortage Unit
  | [] => .ok ()
  | d :: ds => do
    r.meet d
    r.meetAll ds

end Resources

end GraphReduction
