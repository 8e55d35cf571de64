import GraphReduction.Abandon

namespace GraphReduction

namespace Address

theorem eq_iff (a b : Address) : a = b ↔ a.index = b.index := by
  cases a; cases b; simp

end Address

namespace Heap

variable {κ : Type} {h : Heap κ} {a b : Address}

theorem cell_write (h : Heap κ) (a b : Address) (c : Cell κ) :
    (h.write a c).cell b = if a = b ∧ a.index < h.size then c else h.cell b := by
  simp only [write, cell, size, Array.getD_eq_getD_getElem?, Array.getElem?_setIfInBounds,
    Address.eq_iff]
  by_cases hab : a.index = b.index
  · by_cases hs : b.index < h.cells.size <;> simp [hab, hs]
  · simp [hab]

theorem cell_write_self {c : Cell κ} (ha : a.index < h.size) : (h.write a c).cell a = c := by
  rw [cell_write, if_pos ⟨rfl, ha⟩]

theorem cell_write_of_ne {c : Cell κ} (hab : a ≠ b) : (h.write a c).cell b = h.cell b := by
  rw [cell_write, if_neg fun hc => hab hc.1]

theorem lt_size_of_cell_ne_default (ha : h.cell a ≠ default) : a.index < h.size := by
  refine Nat.lt_of_not_le fun hn => ha ?_
  rw [cell, Array.getD_eq_getD_getElem?, Array.getElem?_eq_none hn]
  rfl

theorem lt_size_of_cell_eq_thunk {s : ThunkState κ} (ha : h.cell a = .thunk s) :
    a.index < h.size := by
  refine lt_size_of_cell_ne_default fun hd => ?_
  rw [hd] at ha
  cases ha

theorem cell_write_thunk {s : ThunkState κ} {c : Cell κ} (ha : h.cell a = .thunk s) :
    (h.write a c).cell a = c :=
  cell_write_self (lt_size_of_cell_eq_thunk ha)

theorem size_write (h : Heap κ) (a : Address) (c : Cell κ) : (h.write a c).size = h.size := by
  simp [size, write]

theorem size_reset (h : Heap κ) (a : Address) : (h.reset a).2.size = h.size := by
  unfold Heap.reset
  split
  · exact size_write _ _ _
  · rfl

theorem thunk?_eq_some_iff {s : ThunkState κ} : h.thunk? a = some s ↔ h.cell a = .thunk s := by
  unfold thunk?
  split <;> simp_all

theorem owner?_eq_some_iff {t : ThreadId} :
    h.owner? a = some t ↔ ∃ body blocked, h.cell a = .thunk (.underEvaluation t body blocked) := by
  unfold owner?
  split <;> simp_all

theorem target?_eq_some_iff {v : Address} :
    h.target? a = some v ↔ h.cell a = .thunk (.evaluated v) := by
  unfold target?
  split <;> simp_all

theorem size_allocate (h : Heap κ) (c : Cell κ) : (h.allocate c).2.size = h.size + 1 := by
  simp [allocate, size]

theorem cell_allocate (h : Heap κ) (c : Cell κ) (b : Address) :
    (h.allocate c).2.cell b = if b.index = h.size then c else h.cell b := by
  simp only [allocate, cell, size, Array.getD_eq_getD_getElem?, Array.getElem?_push]
  split <;> rfl

theorem cell_allocate_of_lt {c : Cell κ} (hb : b.index < h.size) :
    (h.allocate c).2.cell b = h.cell b := by
  rw [cell_allocate, if_neg (Nat.ne_of_lt hb)]

theorem follow_of_target?_eq_none (n : Nat) (ha : h.target? a = none) : h.follow n a = a := by
  cases n with
  | zero => rfl
  | succ n => rw [follow, ha]

theorem resolve_of_target?_eq_none (ha : h.target? a = none) : h.resolve a = a :=
  follow_of_target?_eq_none _ ha

theorem function?_eq_some_iff {info : FunctionInfo κ} {captured : List Value} :
    h.function? a = some (info, captured) ↔ h.cell a = .function info captured := by
  unfold function?
  split <;> simp_all

theorem callee?_eq_some_iff {f : Address} {bound : List Value} :
    h.callee? a = some (f, bound) ↔
      (∃ info captured, h.cell a = .function info captured ∧ f = a ∧ bound = []) ∨
        h.cell a = .unsaturated f bound := by
  unfold callee?
  cases h.cell a <;> simp [eq_comm]

theorem target?_of_callee? {f : Address} {bound : List Value} (ha : h.callee? a = some (f, bound)) :
    h.target? a = none := by
  unfold target?
  rcases callee?_eq_some_iff.1 ha with ⟨info, captured, hc, -⟩ | hc <;> rw [hc]

theorem resolve_of_callee? {f : Address} {bound : List Value} (ha : h.callee? a = some (f, bound)) :
    h.resolve a = a :=
  resolve_of_target?_eq_none (target?_of_callee? ha)

theorem callee?_of_function? {info : FunctionInfo κ} {captured : List Value}
    (ha : h.function? a = some (info, captured)) : h.callee? a = some (a, []) :=
  callee?_eq_some_iff.2 (.inl ⟨info, captured, function?_eq_some_iff.1 ha, rfl, rfl⟩)

theorem lt_size_of_callee? {f : Address} {bound : List Value} (ha : h.callee? a = some (f, bound)) :
    a.index < h.size := by
  refine lt_size_of_cell_ne_default fun hd => ?_
  rw [callee?, hd] at ha
  cases ha

/-- Unsaturated applications bind functions, never each other, to some but not all arguments. -/
def Flat (h : Heap κ) : Prop :=
  ∀ a f args, h.cell a = .unsaturated f args →
    ∃ info captured, h.function? f = some (info, captured) ∧ args ≠ [] ∧ args.length < info.arity

theorem function?_of_callee? {f : Address} {bound : List Value} (hh : h.Flat)
    (ha : h.callee? a = some (f, bound)) :
    ∃ info captured, h.function? f = some (info, captured) ∧
      (bound = [] ∨ bound.length < info.arity) := by
  rcases callee?_eq_some_iff.1 ha with ⟨info, captured, hc, rfl, rfl⟩ | hc
  · exact ⟨info, captured, function?_eq_some_iff.2 hc, .inl rfl⟩
  · obtain ⟨info, captured, hf, -, hl⟩ := hh a f bound hc
    exact ⟨info, captured, hf, .inr hl⟩

theorem exists_cell_eq {c : Cell κ} (hc : c ∈ h.cells.toList) : ∃ a, h.cell a = c := by
  obtain ⟨i, hi, rfl⟩ := List.mem_iff_getElem.1 hc
  have hi' : i < h.cells.size := by simpa using hi
  refine ⟨⟨i⟩, ?_⟩
  rw [cell, Array.getD_eq_getD_getElem?, Array.getElem?_eq_getElem hi']
  rfl

def binding (info : FunctionInfo κ) (f : Address) (args : List Value) :
    Except RuntimeError (Cell κ) :=
  if 0 < args.length ∧ args.length < info.arity then .ok (.unsaturated f args)
  else .error (.malformedPartial info.name args.length info.arity)

theorem bind_of_callee? {c f : Address} {info : FunctionInfo κ} {captured bound : List Value}
    (hc : h.callee? (h.resolve c) = some (f, bound)) (hf : h.function? f = some (info, captured))
    (args : List Value) : h.bind c args = binding info f (bound ++ args) := by
  simp only [bind, binding, hc, hf, List.isEmpty_iff, List.length_pos_iff]
  by_cases hn : bound ++ args = []
  · rw [if_pos (.inl hn), if_neg fun hs => hs.1 hn]
  · by_cases hl : (bound ++ args).length < info.arity
    · rw [if_neg (not_or.2 ⟨hn, Nat.not_le.2 hl⟩), if_pos ⟨hn, hl⟩]
    · rw [if_pos (.inr (Nat.le_of_not_lt hl)), if_neg fun hs => hl hs.2]

theorem bind_of_function? {f : Address} {info : FunctionInfo κ} {captured args : List Value}
    (hf : h.function? f = some (info, captured)) (hne : args ≠ []) (hl : args.length < info.arity) :
    h.bind f args = .ok (.unsaturated f args) := by
  have hc := callee?_of_function? hf
  rw [bind_of_callee? (by rwa [resolve_of_callee? hc]) hf]
  exact if_pos ⟨List.length_pos_iff.2 hne, hl⟩

end Heap

end GraphReduction
