namespace GraphReduction

inductive Datum where
  | bool (b : Bool)
  | number (n : UInt64)
  | text (s : String)
  | list (elements : List Datum)
  | record (fields : List (String × Datum))
  deriving Inhabited

inductive Shape where
  | bool
  | number
  | text
  | list (element : Shape)
  | record (fields : List (String × Shape))
  deriving Inhabited

namespace Shape

mutual

def depth : Shape → Nat
  | bool | number | text => 0
  | list element => element.depth + 1
  | record fields => depths fields + 1

def depths : List (String × Shape) → Nat
  | [] => 0
  | (_, shape) :: fields => max shape.depth (depths fields)

end

theorem depth_le_depths {fields : List (String × Shape)} {field : String × Shape}
    (h : field ∈ fields) : field.2.depth ≤ depths fields := by
  induction fields with
  | nil => cases h
  | cons f fields ih =>
    rw [depths]
    rcases List.mem_cons.mp h with rfl | h
    · exact Nat.le_max_left _ _
    · exact Nat.le_trans (ih h) (Nat.le_max_right _ _)

end Shape

mutual

inductive Fits : Shape → Datum → Prop
  | bool (b) : Fits .bool (.bool b)
  | number (n) : Fits .number (.number n)
  | text (s) : Fits .text (.text s)
  | list {shape ds} : FitsAll shape ds → Fits (.list shape) (.list ds)
  | record {shapes ds} : (shapes.map Prod.fst).Nodup → FitsFields shapes ds →
      Fits (.record shapes) (.record ds)

inductive FitsAll : Shape → List Datum → Prop
  | nil {shape} : FitsAll shape []
  | cons {shape d ds} : Fits shape d → FitsAll shape ds → FitsAll shape (d :: ds)

inductive FitsFields : List (String × Shape) → List (String × Datum) → Prop
  | nil : FitsFields [] []
  | cons {name shape d shapes ds} : Fits shape d → FitsFields shapes ds →
      FitsFields ((name, shape) :: shapes) ((name, d) :: ds)

end

class Recorded (α : Type) where
  shape : Shape
  datum : α → Datum
  ofDatum? : Datum → Option α
  shallow : shape.depth < 128
  fits : ∀ v, Fits shape (datum v)
  ofDatum?_datum : ∀ v, ofDatum? (datum v) = some v

end GraphReduction
