import GraphReduction.Value

namespace GraphReduction

inductive Frame (κ : Type) where
  | apply (argument : Value)
  | update (thunk : Address)
  | case (code : κ) (captured : List Value)
  | handler (function : Address)
  deriving Inhabited

namespace Frame

variable {κ : Type}

def label : Frame κ → String
  | apply _ => "apply"
  | update _ => "update"
  | case _ _ => "case"
  | handler _ => "catch"

end Frame

end GraphReduction
