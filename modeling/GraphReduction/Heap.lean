import GraphReduction.Thread

namespace GraphReduction

structure Suspension (κ : Type) where
  code : κ
  captured : List Value

inductive ThunkState (κ : Type) where
  | unevaluated (body : Suspension κ)
  /-- Of the blocked threads the last one comes first. -/
  | underEvaluation (owner : ThreadId) (body : Suspension κ) (blocked : List (Thread κ))
  | evaluated (value : Address)

structure FunctionInfo (κ : Type) where
  name : String
  arity : Nat
  code : κ
  deriving DecidableEq

structure Constructor where
  name : String
  tag : UInt32
  deriving DecidableEq, Inhabited

inductive Cell (κ : Type) where
  | function (info : FunctionInfo κ) (captured : List Value)
  | thunk (state : ThunkState κ)
  | data (constructor : Constructor) (fields : List Value)
  | unsaturated (function : Address) (args : List Value)

instance {κ : Type} : Inhabited (Cell κ) := ⟨.data default []⟩

inductive Entry (κ : Type) where
  | value (value : Address)
  | start (body : Suspension κ)
  | busy
  | loop

inductive Variant where
  | function
  | thunk
  | data
  | unsaturated
  | indirection
  deriving DecidableEq, Repr

namespace Variant

def name : Variant → String
  | function => "function"
  | thunk => "thunk"
  | data => "data value"
  | unsaturated => "partial application"
  | indirection => "indirection"

def tag : Variant → String
  | function => "Function"
  | thunk => "Thunk"
  | data => "Data"
  | unsaturated => "Partial"
  | indirection => "Indirection"

end Variant

/-- All closures, in order of creation. They never go away, and only thunks change. -/
structure Heap (κ : Type) where
  cells : Array (Cell κ)

namespace Heap

variable {κ : Type}

def empty : Heap κ := ⟨#[]⟩

instance : Inhabited (Heap κ) := ⟨empty⟩

def size (h : Heap κ) : Nat := h.cells.size

def cell (h : Heap κ) (a : Address) : Cell κ := h.cells.getD a.index default

def allocate (h : Heap κ) (c : Cell κ) : Address × Heap κ := (⟨h.size⟩, ⟨h.cells.push c⟩)

def write (h : Heap κ) (a : Address) (c : Cell κ) : Heap κ := ⟨h.cells.setIfInBounds a.index c⟩

def variant (h : Heap κ) (a : Address) : Variant :=
  match h.cell a with
  | .function _ _ => .function
  | .data _ _ => .data
  | .unsaturated _ _ => .unsaturated
  | .thunk (.evaluated _) => .indirection
  | .thunk _ => .thunk

def thunk? (h : Heap κ) (a : Address) : Option (ThunkState κ) :=
  match h.cell a with
  | .thunk state => some state
  | _ => none

def isThunk (h : Heap κ) (a : Address) : Bool := (h.thunk? a).isSome

def target? (h : Heap κ) (a : Address) : Option Address :=
  match h.cell a with
  | .thunk (.evaluated value) => some value
  | _ => none

def owner? (h : Heap κ) (a : Address) : Option ThreadId :=
  match h.cell a with
  | .thunk (.underEvaluation owner _ _) => some owner
  | _ => none

def follow (h : Heap κ) : Nat → Address → Address
  | 0, a => a
  | n + 1, a => match h.target? a with
    | some b => h.follow n b
    | none => a

/-- The closure at the end of a chain of indirections. A chain that does not repeat a closure is
shorter than the heap. -/
def resolve (h : Heap κ) (a : Address) : Address := h.follow h.size a

def isValue (h : Heap κ) (a : Address) : Bool := h.variant (h.resolve a) ≠ .thunk

def function? (h : Heap κ) (a : Address) : Option (FunctionInfo κ × List Value) :=
  match h.cell a with
  | .function info captured => some (info, captured)
  | _ => none

def data? (h : Heap κ) (a : Address) : Option (Constructor × List Value) :=
  match h.cell a with
  | .data c fields => some (c, fields)
  | _ => none

def constructorName? (h : Heap κ) (a : Address) : Option String :=
  (h.data? (h.resolve a)).map fun (c, _) => c.name

def unboxed? (h : Heap κ) (a : Address) : Option Value :=
  match h.data? (h.resolve a) with
  | some (c, [v]) => if v.kind ≠ .boxed ∧ c.name = v.kind.boxName then some v else none
  | _ => none

def box (h : Heap κ) : Value → Address × Heap κ
  | .boxed a => (a, h)
  | v => h.allocate (.data ⟨v.kind.boxName, 0⟩ [v])

def callee? (h : Heap κ) (a : Address) : Option (Address × List Value) :=
  match h.cell a with
  | .function _ _ => some (a, [])
  | .unsaturated f args => some (f, args)
  | _ => none

def arity (h : Heap κ) (f : Address) : Nat := ((h.function? f).map fun (info, _) => info.arity).getD 0

/-- A function bound to more arguments, flattened onto what it is bound to already. The result must
have arguments and must lack some. -/
def bind (h : Heap κ) (f : Address) (args : List Value) : Except RuntimeError (Cell κ) :=
  let f := h.resolve f
  match h.callee? f with
  | none => .error (.applyNonFunction (h.variant f).name args.length)
  | some (g, bound) =>
    match h.function? g with
    | none => .error (.applyNonFunction (h.variant g).name (bound ++ args).length)
    | some (info, _) =>
      let args := bound ++ args
      if args.isEmpty ∨ info.arity ≤ args.length then
        .error (.malformedPartial info.name args.length info.arity)
      else .ok (.unsaturated g args)

def enter (h : Heap κ) (me : ThreadId) (a : Address) : Entry κ × Heap κ :=
  match h.cell a with
  | .thunk (.unevaluated body) =>
    (.start body, h.write a (.thunk (.underEvaluation me body [])))
  | .thunk (.underEvaluation owner _ _) => (if owner = me then .loop else .busy, h)
  | .thunk (.evaluated value) => (.value value, h)
  | _ => (.value a, h)

def settle (h : Heap κ) (a value : Address) : List (Thread κ) × Heap κ :=
  match h.cell a with
  | .thunk (.unevaluated _) => ([], h.write a (.thunk (.evaluated value)))
  | .thunk (.underEvaluation _ _ blocked) =>
    (blocked.reverse, h.write a (.thunk (.evaluated value)))
  | _ => ([], h)

/-- Publishes a value for a thunk. A value that is there already stands, and is the error. -/
def update (h : Heap κ) (a value : Address) : Except Address (List (Thread κ) × Heap κ) :=
  match h.target? a with
  | some first => .error first
  | none => .ok (h.settle a value)

def reset (h : Heap κ) (a : Address) : List (Thread κ) × Heap κ :=
  match h.cell a with
  | .thunk (.underEvaluation _ body blocked) =>
    (blocked.reverse, h.write a (.thunk (.unevaluated body)))
  | _ => ([], h)

def park? (h : Heap κ) (a : Address) (t : Thread κ) : Option (Heap κ) :=
  match h.cell a with
  | .thunk (.underEvaluation owner body blocked) =>
    some (h.write a (.thunk (.underEvaluation owner body (t :: blocked))))
  | _ => none

end Heap

end GraphReduction
