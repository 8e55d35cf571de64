import GraphReduction.Error
import GraphReduction.Value

namespace GraphReduction

abbrev registersPerKind : Nat := 16

theorem registersPerKind_ne_zero : registersPerKind ≠ 0 := by decide

instance : @NeZero Nat Zero.ofOfNat0 registersPerKind := ⟨registersPerKind_ne_zero⟩

structure Slot where
  kind : Kind
  offset : Fin registersPerKind
  deriving DecidableEq, Repr

namespace Slot

def index (s : Slot) : Nat := s.offset + 1

def ofIndex (kind : Kind) (index : Nat) : Except RuntimeError Slot :=
  if h : 0 < index ∧ index ≤ registersPerKind then .ok ⟨kind, index - 1, by omega⟩
  else .error (.registerExhausted kind index registersPerKind)

theorem ofIndex_index (s : Slot) : ofIndex s.kind s.index = .ok s := by
  have h := s.offset.isLt
  rw [ofIndex, dif_pos ⟨Nat.succ_pos _, h⟩]
  rfl

theorem index_of_ofIndex {kind : Kind} {index : Nat} {s : Slot} (h : ofIndex kind index = .ok s) :
    s.kind = kind ∧ s.index = index := by
  unfold ofIndex at h
  split at h
  · cases h
    simp only [Slot.index, true_and]
    omega
  · cases h

def text (s : Slot) : String := s.kind.text ++ toString s.index

end Slot

/-- The register file. A boxed register may be empty; a primitive one starts at zero. -/
structure Registers where
  boxed : Vector (Option Address) registersPerKind
  ints : Vector Int32 registersPerKind
  longs : Vector Int64 registersPerKind
  floats : Vector Binary32 registersPerKind
  doubles : Vector Binary64 registersPerKind
  chars : Vector Char registersPerKind
  bools : Vector Bool registersPerKind

namespace Registers

def empty : Registers where
  boxed := .replicate _ none
  ints := .replicate _ 0
  longs := .replicate _ 0
  floats := .replicate _ ⟨0⟩
  doubles := .replicate _ ⟨0⟩
  chars := .replicate _ '\x00'
  bools := .replicate _ false

instance : Inhabited Registers := ⟨empty⟩

def get? (r : Registers) (s : Slot) : Option Value :=
  match s.kind with
  | .boxed => (r.boxed.get s.offset).map .boxed
  | .int => some (.int (r.ints.get s.offset))
  | .long => some (.long (r.longs.get s.offset))
  | .float => some (.float (r.floats.get s.offset))
  | .double => some (.double (r.doubles.get s.offset))
  | .char => some (.char (r.chars.get s.offset))
  | .bool => some (.bool (r.bools.get s.offset))

def put (r : Registers) (i : Fin registersPerKind) : Value → Registers
  | .boxed a => { r with boxed := r.boxed.set i (some a) i.isLt }
  | .int n => { r with ints := r.ints.set i n i.isLt }
  | .long n => { r with longs := r.longs.set i n i.isLt }
  | .float x => { r with floats := r.floats.set i x i.isLt }
  | .double x => { r with doubles := r.doubles.set i x i.isLt }
  | .char c => { r with chars := r.chars.set i c i.isLt }
  | .bool b => { r with bools := r.bools.set i b i.isLt }

theorem get_set {α : Type} {n : Nat} (xs : Vector α n) (i j : Fin n) (x : α) :
    (xs.set i x i.isLt).get j = if i = j then x else xs.get j := by
  change (xs.set i x i.isLt)[j.val] = if i = j then x else xs[j.val]
  rw [Vector.getElem_set]
  simp only [Fin.ext_iff]

theorem get?_put (r : Registers) (i : Fin registersPerKind) (v : Value) (s : Slot) :
    (r.put i v).get? s = if s = ⟨v.kind, i⟩ then some v else r.get? s := by
  obtain ⟨kind, offset⟩ := s
  by_cases h : offset = i
  · subst h
    cases v <;> cases kind <;> simp [put, get?, get_set, Value.kind]
  · cases v <;> cases kind <;> simp [put, get?, get_set, Value.kind, h, Ne.symm h]

def read (r : Registers) (kind : Kind) (index : Nat) : Except RuntimeError Value := do
  let s ← Slot.ofIndex kind index
  match r.get? s with
  | some v => .ok v
  | none => .error (.emptyRegister kind index)

def readClosure (r : Registers) (index : Nat) : Except RuntimeError Address := do
  let s ← Slot.ofIndex .boxed index
  match r.boxed.get s.offset with
  | some a => .ok a
  | none => .error (.emptyRegister .boxed index)

def write (r : Registers) (index : Nat) (v : Value) : Except RuntimeError Registers := do
  let s ← Slot.ofIndex v.kind index
  return r.put s.offset v

def store (r : Registers) (s : Slot) (v : Value) : Except RuntimeError Registers :=
  if s.kind = v.kind then .ok (r.put s.offset v)
  else .error (.registerKind s.kind s.index)

def result? (r : Registers) : Option Address := r.boxed.get 0

def setResult (r : Registers) (a : Address) : Registers :=
  { r with boxed := r.boxed.set 0 (some a) (by decide) }

def releaseBoxed (r : Registers) : Registers :=
  { r with boxed := .replicate _ none }

end Registers

end GraphReduction
