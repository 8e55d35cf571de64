import GraphReduction.Proofs.Lasting
import GraphReduction.Proofs.Tally
import GraphReduction.SharedSum

namespace GraphReduction.SharedSum

open Evaluation

variable {n : Int64} {roots : Nat} {h h' : Heap Code} {a v : Address} {t : ThreadId}

def function : Address := ⟨0⟩

def shared : Address := ⟨1⟩

def rootOf (t : ThreadId) : Address := ⟨t.number + 1⟩

def IsRoot (roots : Nat) (t : ThreadId) : Prop := 1 ≤ t.number ∧ t.number ≤ roots

instance (roots : Nat) (t : ThreadId) : Decidable (IsRoot roots t) :=
  inferInstanceAs (Decidable (_ ∧ _))

theorem IsRoot.ne_shared (ht : IsRoot roots t) : rootOf t ≠ shared := fun he => by
  have hi : t.number + 1 = 1 := congrArg Address.index he
  have hpos := ht.1
  omega

def triangle (k : Nat) : Nat := k * (k + 1) / 2

theorem triangle_succ (k : Nat) : triangle (k + 1) = triangle k + (k + 1) := by
  have h : (k + 1) * (k + 1 + 1) = k * (k + 1) + 2 * (k + 1) := by grind
  rw [triangle, triangle, h]
  omega

def grandTotal (n : Int64) : Int64 := Int64.ofNat (triangle n.toNatClampNeg)

def sumAbove (n : Int64) (k : Nat) : Int64 := grandTotal n - Int64.ofNat (triangle k)

theorem sumAbove_zero (n : Int64) : sumAbove n 0 = grandTotal n := by
  simp [sumAbove, triangle]

theorem sumAbove_top (n : Int64) : sumAbove n n.toNatClampNeg = 0 := by
  simp [sumAbove, grandTotal]

theorem sumAbove_succ (n : Int64) (k : Nat) :
    sumAbove n (k + 1) + Int64.ofNat (k + 1) = sumAbove n k := by
  rw [sumAbove, sumAbove, triangle_succ, Int64.ofNat_add (triangle k)]
  grind

def suspension (n : Int64) (a : Address) : Suspension Code :=
  if a = shared then ⟨.total function n, []⟩
  else ⟨.root shared, [.long (Int64.ofNat (a.index - 2))]⟩

def content (n : Int64) (a : Address) : Int64 :=
  if a = shared then grandTotal n else grandTotal n + Int64.ofNat (a.index - 2)

def longCell (x : Int64) : Cell Code := .data ⟨Kind.long.boxName, 0⟩ [.long x]

def IsLong (h : Heap Code) (a : Address) (x : Int64) : Prop := h.cell a = longCell x

def Settled (h : Heap Code) (a : Address) : Prop := (h.target? a).isSome

def Begun (h : Heap Code) (a : Address) : Prop :=
  ∃ state, h.cell a = .thunk state ∧ ∀ body, state ≠ .unevaluated body

section Lasting

theorem IsLong.isThunk {x : Int64} (hv : IsLong h v x) : h.isThunk v = false := by
  rw [Heap.isThunk, Heap.thunk?, hv]
  rfl

theorem IsLong.target? {x : Int64} (hv : IsLong h v x) : h.target? v = none := by
  rw [Heap.target?, hv]
  rfl

theorem IsLong.resolve {x : Int64} (hv : IsLong h v x) : h.resolve v = v :=
  Heap.resolve_of_target?_eq_none hv.target?

theorem IsLong.isValue {x : Int64} (hv : IsLong h v x) : h.isValue (h.resolve v) = true := by
  rw [hv.resolve, Heap.isValue, hv.resolve, Heap.variant, hv]
  rfl

theorem isLong_allocate (h : Heap Code) (x : Int64) :
    IsLong (h.allocate (longCell x)).2 ⟨h.size⟩ x := by
  rw [IsLong, Heap.cell_allocate, if_pos rfl]

theorem IsLong.later {x : Int64} (hv : IsLong h v x) (hl : h.Later h') : IsLong h' v x := by
  refine (hl.fixed v (Heap.lt_size_of_cell_ne_default fun hd => ?_) hv.isThunk).trans hv
  rw [IsLong, hd] at hv
  cases (Cell.data.inj hv).2

theorem Settled.later (ha : Settled h a) (hl : h.Later h') : Settled h' a := by
  obtain ⟨v, hv⟩ := Option.isSome_iff_exists.1 ha
  exact Option.isSome_iff_exists.2 ⟨v, hl.targets a v hv⟩

theorem Settled.begun (ha : Settled h a) : Begun h a := by
  obtain ⟨v, hv⟩ := Option.isSome_iff_exists.1 ha
  exact ⟨_, Heap.target?_eq_some_iff.1 hv, nofun⟩

end Lasting

theorem cell_grown_eq_thunk {d : Constructor} {fields : List Value} {s : ThunkState Code} :
    (h.allocate (.data d fields)).2.cell a = .thunk s ↔ h.cell a = .thunk s := by
  rw [Heap.cell_allocate]
  split
  · next ha =>
    refine ⟨nofun, fun hc => ?_⟩
    exact absurd (Heap.lt_size_of_cell_eq_thunk hc) (by omega)
  · rfl

/-- What may stand in a thunk. Only the shared one is waited for, and it has its value before any
root has. -/
inductive Kept (n : Int64) (h : Heap Code) (a : Address) : ThunkState Code → Prop where
  | unevaluated : Kept n h a (.unevaluated (suspension n a))
  | underEvaluation {t : ThreadId} {blocked : List (Thread Code)} :
      (a ≠ shared → rootOf t = a ∧ blocked = []) →
      Kept n h a (.underEvaluation t (suspension n a) blocked)
  | evaluated {v : Address} : IsLong h v (content n a) → (a ≠ shared → Settled h shared) →
      Kept n h a (.evaluated v)

theorem Kept.later {s : ThunkState Code} (hk : Kept n h a s) (hl : h.Later h') : Kept n h' a s := by
  cases hk with
  | unevaluated => exact .unevaluated
  | underEvaluation hb => exact .underEvaluation hb
  | evaluated hv hs => exact .evaluated (hv.later hl) fun ha => (hs ha).later hl

structure Stored (n : Int64) (roots : Nat) (h : Heap Code) : Prop where
  function : h.cell function = .function ⟨"sum", 3, .sum⟩ []
  isThunk : ∀ a, h.isThunk a = true ↔ 1 ≤ a.index ∧ a.index ≤ roots + 1
  kept : ∀ a s, h.cell a = .thunk s → Kept n h a s

namespace Stored

theorem state (hs : Stored n roots h) (ha : 1 ≤ a.index) (hr : a.index ≤ roots + 1) :
    ∃ s, h.cell a = .thunk s ∧ Kept n h a s := by
  obtain ⟨s, hc⟩ := Option.isSome_iff_exists.1 ((hs.isThunk a).2 ⟨ha, hr⟩)
  have hc := Heap.thunk?_eq_some_iff.1 hc
  exact ⟨s, hc, hs.kept a s hc⟩

theorem function? (hs : Stored n roots h) :
    h.function? SharedSum.function = some (⟨"sum", 3, .sum⟩, []) :=
  Heap.function?_eq_some_iff.2 hs.function

theorem write {s s' : ThunkState Code} (hs : Stored n roots h) (hc : h.cell a = .thunk s)
    (hl : h.Later (h.write a (.thunk s'))) (hk : Kept n (h.write a (.thunk s')) a s') :
    Stored n roots (h.write a (.thunk s')) where
  function := by
    rw [Heap.cell_write_of_ne, hs.function]
    rintro rfl
    rw [hs.function] at hc
    cases hc
  isThunk b := by
    rw [← hs.isThunk b]
    by_cases hb : a = b
    · subst hb
      simp [Heap.isThunk, Heap.thunk?, Heap.cell_write_thunk hc, hc]
    · rw [Heap.isThunk_congr (Heap.cell_write_of_ne hb)]
  kept b u hu := by
    by_cases hb : a = b
    · subst hb
      rw [Heap.cell_write_thunk hc] at hu
      cases hu
      exact hk
    · rw [Heap.cell_write_of_ne hb] at hu
      exact (hs.kept b u hu).later hl

theorem allocate (hs : Stored n roots h) {d : Constructor} {fields : List Value} :
    Stored n roots (h.allocate (.data d fields)).2 := by
  have hl := (h.grown_allocation (.data d fields)).matures.later
  constructor
  case function =>
    rw [Heap.cell_allocate_of_lt, hs.function]
    exact Heap.lt_size_of_callee? (Heap.callee?_of_function? hs.function?)
  case isThunk =>
    intro b
    rw [← hs.isThunk b]
    simp only [Heap.isThunk, Option.isSome_iff_exists, Heap.thunk?_eq_some_iff, cell_grown_eq_thunk]
  case kept => exact fun b s hb => (hs.kept b s (cell_grown_eq_thunk.1 hb)).later hl

end Stored

inductive Change (n : Int64) (t : ThreadId) (h : Heap Code) :
    Heap Code → List Address → List Address → List (Thread Code) → Prop where
  | same : Change n t h h [] [] []
  | grown (x : Int64) : Change n t h (h.allocate (longCell x)).2 [] [] []
  | entered {a : Address} : h.cell a = .thunk (.unevaluated (suspension n a)) →
      (a ≠ shared → rootOf t = a) →
      Change n t h (h.write a (.thunk (.underEvaluation t (suspension n a) []))) [a] [] []
  | updated {a v : Address} {blocked : List (Thread Code)} :
      h.cell a = .thunk (.underEvaluation t (suspension n a) blocked) → IsLong h v (content n a) →
      (a ≠ shared → Settled h shared ∧ blocked = []) →
      Change n t h (h.write a (.thunk (.evaluated v))) [] [a] blocked.reverse

namespace Change

variable {entered updated : List Address} {released : List (Thread Code)}

theorem later (hc : Change n t h h' entered updated released) : h.Later h' := by
  cases hc with
  | same => exact .refl h
  | grown x => exact (h.grown_allocation (.data _ _)).matures.later
  | entered hc _ => exact Heap.later_write hc nofun
  | updated hc _ _ => exact Heap.later_write hc nofun

theorem stored (hc : Change n t h h' entered updated released) (hs : Stored n roots h) :
    Stored n roots h' := by
  have hl := hc.later
  cases hc with
  | same => exact hs
  | grown x => exact hs.allocate
  | entered hc ha => exact hs.write hc hl (.underEvaluation fun hne => ⟨ha hne, rfl⟩)
  | updated hc hv ha =>
    exact hs.write hc hl (.evaluated (hv.later hl) fun hne => (ha hne).1.later hl)

theorem nodup (hc : Change n t h h' entered updated released) :
    entered.Nodup ∧ updated.Nodup := by
  cases hc <;> simp

theorem begun (hc : Change n t h h' entered updated released) :
    (∀ a ∈ entered, ¬ Begun h a) ∧ ∀ a, Begun h' a ↔ Begun h a ∨ a ∈ entered := by
  cases hc with
  | same => simp
  | grown x =>
    refine ⟨nofun, fun b => ?_⟩
    simp only [Begun, List.not_mem_nil, or_false, longCell, cell_grown_eq_thunk]
  | @entered a hc _ =>
    refine ⟨?_, fun b => ?_⟩
    · simp [Begun, hc]
    · by_cases hb : a = b
      · subst hb
        simp [Begun, Heap.cell_write_thunk hc]
      · simp [Begun, Heap.cell_write_of_ne hb, Ne.symm hb]
  | @updated a v blocked hc _ _ =>
    refine ⟨nofun, fun b => ?_⟩
    by_cases hb : a = b
    · subst hb
      simp [Begun, Heap.cell_write_thunk hc, hc]
    · simp [Begun, Heap.cell_write_of_ne hb]

theorem settled (hc : Change n t h h' entered updated released) :
    (∀ a ∈ updated, ¬ Settled h a) ∧ ∀ a, Settled h' a ↔ Settled h a ∨ a ∈ updated := by
  cases hc with
  | same => simp
  | grown x =>
    refine ⟨nofun, fun b => ?_⟩
    simp only [Settled, Option.isSome_iff_exists, Heap.target?_eq_some_iff, List.not_mem_nil,
      or_false, longCell, cell_grown_eq_thunk]
  | @entered a hc _ =>
    refine ⟨nofun, fun b => ?_⟩
    by_cases hb : a = b
    · subst hb
      simp [Settled, Heap.target?, Heap.cell_write_thunk hc, hc]
    · simp [Settled, Heap.target?, Heap.cell_write_of_ne hb]
  | @updated a v blocked hc _ _ =>
    refine ⟨?_, fun b => ?_⟩
    · simp [Settled, Heap.target?, hc]
    · by_cases hb : a = b
      · subst hb
        simp [Settled, Heap.target?, Heap.cell_write_thunk hc]
      · simp [Settled, Heap.target?, Heap.cell_write_of_ne hb, Ne.symm hb]

end Change

section Bodies

variable {m : Machine Code} {k : Nat} {x : Int64}

def arguments (n : Int64) (k : Nat) : List Value :=
  [.boxed function, .long (sumAbove n k), .long (Int64.ofNat k)]

theorem toNat_ofNat (hk : k ≤ n.toNatClampNeg) : (Int64.ofNat k).toNatClampNeg = k :=
  Int64.toNatClampNeg_ofNat_of_lt (Nat.lt_of_le_of_lt hk n.toNatClampNeg_lt)

theorem arguments_top (hn : 0 ≤ n) :
    arguments n n.toNatClampNeg = [.boxed function, .long 0, .long n] := by
  rw [arguments, sumAbove_top, Int64.ofNat_toNatClampNeg n hn]

theorem reads_of_holds (hr : m.context.registers.Holds (arguments n k)) :
    m.context.registers.read .boxed 1 = .ok (.boxed function) ∧
      m.context.registers.read .long 1 = .ok (.long (sumAbove n k)) ∧
      m.context.registers.read .long 2 = .ok (.long (Int64.ofNat k)) :=
  ⟨hr 0 _ rfl, hr 1 _ rfl, hr 2 _ rfl⟩

theorem run_sum_again (hk : k + 1 ≤ n.toNatClampNeg)
    (hr : m.context.registers.Holds (arguments n (k + 1))) :
    Evaluation.run program .sum [] m = .ok (.apply function (arguments n k)) m := by
  obtain ⟨hthis, hacc, hi⟩ := reads_of_holds hr
  have hne : Int64.ofNat (k + 1) ≠ 0 := fun he => by
    have h := toNat_ofNat hk
    rw [he] at h
    cases h
  have hpred : Int64.ofNat (k + 1) - 1 = Int64.ofNat k := by
    rw [Int64.ofNat_add]
    grind
  simp only [Evaluation.run, program, body, readClosure, readLong, Action.perform, hthis, hacc, hi,
    longOf, Option.bind_some, Value.long?, Option.getD_some, if_neg hne, hpred, sumAbove_succ]
  rfl

theorem run_sum_last (hr : m.context.registers.Holds (arguments n 0)) :
    Evaluation.run program .sum [] m = .ok .resume
      ((m.allocate (longCell (grandTotal n))).2.setResult ⟨m.heap.size⟩) := by
  obtain ⟨hthis, hacc, hi⟩ := reads_of_holds hr
  rw [sumAbove_zero] at hacc
  simp only [Evaluation.run, program, body, readClosure, readLong, Action.perform, hthis, hacc, hi,
    longOf, Option.bind_some, Value.long?, Option.getD_some]
  rfl

theorem run_addOffset (offset : Int64) (hr : m.context.registers.result? = some v)
    (hv : IsLong m.heap v x) :
    Evaluation.run program .addOffset [.long offset] m = .ok .resume
      ((m.allocate (longCell (x + offset))).2.setResult ⟨m.heap.size⟩) := by
  have hread : m.context.registers.read .boxed 1 = .ok (.boxed v) := by
    have hs : m.context.registers.get? Slot.result = some (.boxed v) := by
      rw [Registers.get?]
      exact congrArg (Option.map Value.boxed) hr
    exact Registers.read_of_get? rfl hs
  have hx : m.heap.unboxed? v = some (.long x) := by
    rw [Heap.unboxed?, hv.resolve, Heap.data?, hv]
    rfl
  simp only [Evaluation.run, program, body, readClosure, Action.perform, hread, hx, longOf,
    Option.bind_some, Value.long?, Option.getD_some, List.head?_cons]
  rfl

theorem run_root (offset : Int64) (hroom : m.context.stack.frames.length < m.context.stack.limit) :
    ∃ m' s, Evaluation.run program (.root shared) [.long offset] m = .ok (.enter shared) m' ∧
      m'.core = { m.core with
        scheduler := (m.scheduler.spark m.heap shared).2
        stack := s } ∧
      s.frames = .case .addOffset [.long offset] :: m.context.stack.frames ∧
      s.limit = m.context.stack.limit := by
  obtain ⟨m', s, hpush, hc, hf, hl⟩ := Machine.exists_push (m := (m.spark shared).2)
    (.case .addOffset [.long offset]) hroom
  refine ⟨m', s, ?_, hc, hf, hl⟩
  simp only [Evaluation.run, program, body, Action.perform]
  rw [hpush]
  rfl

end Bodies

section Stages

def below (roots : Nat) (t : ThreadId) : List (Frame Code) :=
  if IsRoot roots t then
    [.case .addOffset [.long (Int64.ofNat (t.number - 1))], .update (rootOf t)]
  else []

def goal (roots : Nat) (t : ThreadId) : Address := if IsRoot roots t then rootOf t else shared

inductive At (n : Int64) (roots : Nat) (h : Heap Code) (t : ThreadId) :
    Pending → List (Frame Code) → Prop where
  | outset : IsRoot roots t → At n roots h t (.enter (rootOf t)) []
  | demand : At n roots h t (.enter shared) (below roots t)
  | call {k : Nat} : k ≤ n.toNatClampNeg →
      At n roots h t (.apply function (arguments n k)) (.update shared :: below roots t)
  | unpack {k : Nat} : k ≤ n.toNatClampNeg →
      At n roots h t (.resume function)
        ((arguments n k).map .apply ++ .update shared :: below roots t)
  | sum {v : Address} : IsLong h v (grandTotal n) →
      At n roots h t (.resume v) (.update shared :: below roots t)
  | next {v : Address} : IsRoot roots t → IsLong h v (grandTotal n) → Settled h shared →
      At n roots h t (.resume v) (below roots t)
  | answer {v : Address} : IsRoot roots t → IsLong h v (content n (rootOf t)) →
      Settled h shared → At n roots h t (.resume v) [.update (rootOf t)]
  | close {v : Address} : IsLong h v (content n (goal roots t)) → Settled h (goal roots t) →
      At n roots h t (.resume v) []

theorem At.later {pending : Pending} {frames : List (Frame Code)}
    (ha : At n roots h t pending frames) (hl : h.Later h') : At n roots h' t pending frames := by
  cases ha with
  | outset ht => exact .outset ht
  | demand => exact .demand
  | call hk => exact .call hk
  | unpack hk => exact .unpack hk
  | sum hv => exact .sum (hv.later hl)
  | next ht hv hs => exact .next ht (hv.later hl) (hs.later hl)
  | answer ht hv hs => exact .answer ht (hv.later hl) (hs.later hl)
  | close hv hs => exact .close (hv.later hl) (hs.later hl)

theorem At.of_sum (hv : IsLong h v (grandTotal n)) (hs : Settled h shared) :
    At n roots h t (.resume v) (below roots t) := by
  by_cases ht : IsRoot roots t
  · exact .next ht hv hs
  · have hgoal : goal roots t = shared := if_neg ht
    rw [below, if_neg ht]
    exact .close (by rwa [hgoal]) (by rwa [hgoal])

theorem content_rootOf (ht : IsRoot roots t) :
    content n (rootOf t) = grandTotal n + Int64.ofNat (t.number - 1) := by
  rw [content, if_neg ht.ne_shared]
  rfl

theorem suspension_rootOf (ht : IsRoot roots t) :
    suspension n (rootOf t) = ⟨.root shared, [.long (Int64.ofNat (t.number - 1))]⟩ := by
  rw [suspension, if_neg ht.ne_shared]
  rfl

end Stages

end GraphReduction.SharedSum
