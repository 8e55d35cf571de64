import GraphReduction.FrameStack

namespace GraphReduction

structure ThreadId where
  number : Nat
  deriving DecidableEq, Repr, Inhabited

namespace ThreadId

/-- Stands for the thread of a worker that runs none. Real threads count from 1. -/
def nobody : ThreadId := ⟨0⟩

def text (t : ThreadId) : String := s!"#{t.number}"

end ThreadId

inductive Pending where
  | enter (closure : Address)
  | resume (value : Address)
  | apply (callee : Address) (args : List Value)
  deriving Inhabited

structure Thread (κ : Type) where
  id : ThreadId
  stack : FrameStack κ
  pending : Pending
  deriving Inhabited

end GraphReduction
