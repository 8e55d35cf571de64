import GraphReduction.Machine

namespace GraphReduction

namespace Shared

variable {κ : Type}

def resetFrames (s : Shared κ) : List (Frame κ) → List (Thread κ) × Shared κ
  | [] => ([], s)
  | .update a :: rest =>
    let (released, heap) := s.heap.reset a
    let (others, s) := resetFrames { s with heap } rest
    (released ++ others, s)
  | _ :: rest => s.resetFrames rest

def abandon (s : Shared κ) (t : Thread κ) : List (Thread κ) × Shared κ :=
  { s with waiting := s.waiting.erase t.id }.resetFrames t.stack.frames

def abandonAll : Nat → List (Thread κ) → Shared κ → Shared κ
  | 0, _, s => s
  | n + 1, threads, s =>
    match threads.getLast? with
    | none => s
    | some t =>
      let (released, s) := s.abandon t
      abandonAll n (threads.dropLast ++ released) s

end Shared

namespace Heap

variable {κ : Type}

def parkedAt : Cell κ → List (Thread κ)
  | .thunk (.underEvaluation _ _ blocked) => blocked.reverse
  | _ => []

def parked (h : Heap κ) : List (Thread κ) := h.cells.toList.flatMap parkedAt

end Heap

end GraphReduction
