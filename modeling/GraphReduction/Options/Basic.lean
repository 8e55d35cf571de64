import GraphReduction.FrameStack

namespace GraphReduction

structure DebugFlags where
  scheduler : Bool
  deriving DecidableEq, Repr, Inhabited

structure RuntimeOptions where
  workerCount : UInt64
  idleTimeout : UInt64
  sparkBudget : UInt64
  stackLimit : UInt64
  debug : DebugFlags
  deriving DecidableEq, Repr, Inhabited

namespace RuntimeOptions

def defaultSparkBudget : UInt64 := 4096

def default (processors : UInt64) : RuntimeOptions where
  workerCount := max processors 1
  idleTimeout := 0
  sparkBudget := defaultSparkBudget
  stackLimit := UInt64.ofNat defaultStackLimit
  debug := ⟨false⟩

end RuntimeOptions

end GraphReduction
