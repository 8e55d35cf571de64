namespace GraphReduction

structure Counters where
  thunkEntries : UInt64
  updates : UInt64
  blocks : UInt64
  partialApplications : UInt64
  fastPathCalls : UInt64
  genericCalls : UInt64
  overApplications : UInt64
  framesPushed : UInt64
  yields : UInt64
  exceptionsCaught : UInt64
  deriving DecidableEq, Repr

namespace Counters

def zero : Counters := ⟨0, 0, 0, 0, 0, 0, 0, 0, 0, 0⟩

instance : Inhabited Counters := ⟨zero⟩

def add (a b : Counters) : Counters where
  thunkEntries := a.thunkEntries + b.thunkEntries
  updates := a.updates + b.updates
  blocks := a.blocks + b.blocks
  partialApplications := a.partialApplications + b.partialApplications
  fastPathCalls := a.fastPathCalls + b.fastPathCalls
  genericCalls := a.genericCalls + b.genericCalls
  overApplications := a.overApplications + b.overApplications
  framesPushed := a.framesPushed + b.framesPushed
  yields := a.yields + b.yields
  exceptionsCaught := a.exceptionsCaught + b.exceptionsCaught

instance : Add Counters := ⟨add⟩

def fields (c : Counters) : List (String × UInt64) := [
  ("thunk_entries", c.thunkEntries),
  ("updates", c.updates),
  ("blocks", c.blocks),
  ("partial_applications", c.partialApplications),
  ("fast_path_calls", c.fastPathCalls),
  ("generic_calls", c.genericCalls),
  ("over_applications", c.overApplications),
  ("frames_pushed", c.framesPushed),
  ("yields", c.yields),
  ("exceptions_caught", c.exceptionsCaught)]

end Counters

end GraphReduction
