import GraphReduction.Heap

namespace GraphReduction

namespace Heap

variable {κ : Type}

def textList (f : Value → Option String) : List Value → Option (List String)
  | [] => some []
  | v :: vs => do
    let s ← f v
    let rest ← textList f vs
    return s :: rest

def textTo (h : Heap κ) : Nat → Address → Option String
  | 0, _ => none
  | n + 1, a =>
    match h.cell a with
    | .function info _ => some s!"<function {info.name}/{info.arity}>"
    | .unsaturated f args =>
      let name := ((h.function? f).map fun (info, _) => info.name).getD "?"
      some s!"<partial {name} {args.length}/{h.arity f}>"
    | .data c [] => some c.name
    | .data c fields => do
      let texts ← textList (fun v => match v with
        | .boxed b => h.textTo n b
        | v => some (v.text fun _ => "")) fields
      return c.name ++ "(" ++ ", ".intercalate texts ++ ")"
    | .thunk (.evaluated b) => h.textTo n b
    | .thunk _ => some "<thunk>"

/-- The text of a closure. It has none if it would never end: on the way down a closure would be
met again, since the way is longer than the heap. -/
def text? (h : Heap κ) (a : Address) : Option String := h.textTo (h.size + 1) a

def valueText? (h : Heap κ) : Value → Option String
  | .boxed a => h.text? a
  | v => some (v.text fun _ => "")

def debugText? (h : Heap κ) (a : Address) : Option String :=
  (h.text? a).map fun s => "Closure(" ++ (h.variant a).tag ++ ": " ++ s ++ ")"

def frameText? (h : Heap κ) : Frame κ → Option String
  | .apply v => (h.valueText? v).map fun s => "Apply[" ++ v.kind.text ++ "](" ++ s ++ ")"
  | .update a => some ("Update(" ++ (h.variant a).tag ++ ")")
  | .case _ captured => some s!"Case(free={captured.length})"
  | .handler f => (h.text? f).map fun s => "Catch(" ++ s ++ ")"

end Heap

end GraphReduction
