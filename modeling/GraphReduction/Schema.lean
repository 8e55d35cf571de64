import GraphReduction.Layout

namespace GraphReduction

def maxSchemaLength : Nat := 6

structure Schema where
  kinds : List Kind
  slots : List Slot
  deriving DecidableEq

namespace Schema

def code (s : Schema) : String := schemaCode s.kinds

def ofKinds? (kinds : List Kind) : Option Schema :=
  if kinds = [] ∨ maxSchemaLength < kinds.length then none
  else match layoutFor kinds with
    | .ok slots => some ⟨kinds, slots⟩
    | .error _ => none

theorem layoutFor_of_ofKinds? {kinds : List Kind} {s : Schema} (h : ofKinds? kinds = some s) :
    s.kinds = kinds ∧ layoutFor kinds = .ok s.slots := by
  unfold ofKinds? at h
  split at h
  · cases h
  · split at h <;> simp_all
    exact h ▸ ⟨rfl, rfl⟩

/-- The arguments' kinds at the front of a buffer for the longest schema, which is all closures at
first. -/
def kindBuffer (args : List Value) : List Kind :=
  (List.range maxSchemaLength).map fun i => (args[i]?.map Value.kind).getD .boxed

theorem take_kindBuffer {args : List Value} (h : args.length ≤ maxSchemaLength) :
    (kindBuffer args).take args.length = args.map Value.kind := by
  refine List.ext_getElem (by simp [kindBuffer, h]) fun i hi _ => ?_
  have hl : i < args.length := by
    rw [List.length_take] at hi
    omega
  simp [kindBuffer, hl]

end Schema

structure SchemaTable where
  schemas : List Schema

namespace SchemaTable

def find? (t : SchemaTable) (kinds : List Kind) : Option Schema :=
  t.schemas.find? fun s => s.kinds = kinds

def contains (t : SchemaTable) (kinds : List Kind) : Bool := (t.find? kinds).isSome

def lookup (t : SchemaTable) (args : List Value) : Option Schema :=
  if args.isEmpty || maxSchemaLength < args.length then none
  else t.find? ((Schema.kindBuffer args).take args.length)

theorem lookup_eq_find? (t : SchemaTable) (args : List Value) :
    t.lookup args = if 0 < args.length ∧ args.length ≤ maxSchemaLength
      then t.find? (args.map Value.kind) else none := by
  unfold lookup
  by_cases h : 0 < args.length ∧ args.length ≤ maxSchemaLength
  · have he : args.isEmpty = false := List.isEmpty_eq_false_iff.2 (List.ne_nil_of_length_pos h.1)
    rw [if_pos h, if_neg (by simp [he, h.2]), Schema.take_kindBuffer h.2]
  · have hn : (args.isEmpty || maxSchemaLength < args.length) = true := by
      rw [Bool.or_eq_true, List.isEmpty_iff_length_eq_zero, decide_eq_true_iff]
      omega
    rw [if_neg h, if_pos hn]

def size (t : SchemaTable) : Nat := t.schemas.length

def insert (t : SchemaTable) (s : Schema) : SchemaTable :=
  if t.contains s.kinds then t else ⟨t.schemas ++ [s]⟩

def ofKinds (lists : List (List Kind)) : SchemaTable :=
  (lists.filterMap Schema.ofKinds?).foldl insert ⟨[]⟩

/-- Every kind on its own, every pair with a closure in it, and three to six closures. -/
def standardKinds : List (List Kind) :=
  Kind.all.map (fun k => [k]) ++
    (Kind.all.flatMap fun j => (Kind.all.filter fun k => j = .boxed ∨ k = .boxed).map fun k => [j, k]) ++
    [3, 4, 5, 6].map fun n => List.replicate n .boxed

def standard : SchemaTable := ofKinds standardKinds

def codes (t : SchemaTable) : List String :=
  (t.schemas.map Schema.code).mergeSort fun a b => !decide (b < a)

end SchemaTable

end GraphReduction
