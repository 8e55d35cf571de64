import GraphReduction.Proofs.CellOperations

namespace GraphReduction

open Evaluation

variable {κ : Type}

section Definitions

def Value.Within (n : Nat) : Value → Prop
  | .boxed a => a.index < n
  | _ => True

def AllWithin (n : Nat) (vs : List Value) : Prop := ∀ v ∈ vs, v.Within n

def Frame.Within (n : Nat) : Frame κ → Prop
  | .apply v => v.Within n
  | .update a => a.index < n
  | .case _ captured => AllWithin n captured
  | .handler f => f.index < n

def Cell.Within (n : Nat) : Cell κ → Prop
  | .function _ captured => AllWithin n captured
  | .thunk (.unevaluated body) => AllWithin n body.captured
  | .thunk (.underEvaluation _ body _) => AllWithin n body.captured
  | .thunk (.evaluated a) => a.index < n
  | .data _ fields => AllWithin n fields
  | .unsaturated f args => f.index < n ∧ AllWithin n args

def Step.Within (n : Nat) : Step → Prop
  | .resume => True
  | .enter a => a.index < n
  | .apply f args => f.index < n ∧ AllWithin n args
  | .throw a => a.index < n
  | .block a => a.index < n

def Evaluation.Control.Within (n : Nat) : Control → Prop
  | .entering a => a.index < n
  | .applying f args => f.index < n ∧ AllWithin n args
  | .blocked a => a.index < n
  | _ => True

def Pending.Within (n : Nat) : Pending → Prop
  | .enter a => a.index < n
  | .resume a => a.index < n
  | .apply f args => f.index < n ∧ AllWithin n args

def Heap.Closed (h : Heap κ) : Prop := ∀ a, (h.cell a).Within h.size

structure Machine.Closed (m : Machine κ) : Prop where
  heap : m.heap.Closed
  registers : ∀ i a, m.context.registers.boxed.get i = some a → a.index < m.heap.size
  frames : ∀ frame ∈ m.context.stack.frames, frame.Within m.heap.size

/-- A body keeps to the closures that it captured, finds on the machine or allocates. -/
def Program.ClosedAt (program : Program κ) (code : κ) (captured : List Value) (m : Machine κ) : Prop :=
  ((run program code captured).outcome m).2.Closed ∧
    ∀ step, ((run program code captured).outcome m).1 = .ok step →
      step.Within ((run program code captured).outcome m).2.heap.size

def Program.Closed (program : Program κ) : Prop :=
  ∀ code captured (m : Machine κ), m.Closed → AllWithin m.heap.size captured →
    program.ClosedAt code captured m

end Definitions

section Growing

variable {n k : Nat}

theorem Value.Within.mono {v : Value} (hv : v.Within n) (hk : n ≤ k) : v.Within k := by
  cases v with
  | boxed a => exact Nat.lt_of_lt_of_le hv hk
  | _ => trivial

theorem AllWithin.mono {vs : List Value} (hv : AllWithin n vs) (hk : n ≤ k) : AllWithin k vs :=
  fun v h => (hv v h).mono hk

theorem AllWithin.append {vs ws : List Value} (hv : AllWithin n vs) (hw : AllWithin n ws) :
    AllWithin n (vs ++ ws) :=
  fun v h => (List.mem_append.1 h).elim (hv v) (hw v)

theorem allWithin_nil (n : Nat) : AllWithin n [] := nofun

theorem AllWithin.cons {v : Value} {vs : List Value} (hv : v.Within n) (hvs : AllWithin n vs) :
    AllWithin n (v :: vs) :=
  List.forall_mem_cons.2 ⟨hv, hvs⟩

theorem Frame.Within.mono {frame : Frame κ} (hf : frame.Within n) (hk : n ≤ k) :
    frame.Within k := by
  cases frame with
  | apply v => exact Value.Within.mono hf hk
  | update a => exact Nat.lt_of_lt_of_le hf hk
  | case code captured => exact AllWithin.mono hf hk
  | handler f => exact Nat.lt_of_lt_of_le hf hk

theorem Cell.Within.mono {c : Cell κ} (hc : c.Within n) (hk : n ≤ k) : c.Within k := by
  match c, hc with
  | .function _ _, hc => exact AllWithin.mono hc hk
  | .thunk (.unevaluated _), hc => exact AllWithin.mono hc hk
  | .thunk (.underEvaluation _ _ _), hc => exact AllWithin.mono hc hk
  | .thunk (.evaluated _), hc => exact Nat.lt_of_lt_of_le hc hk
  | .data _ _, hc => exact AllWithin.mono hc hk
  | .unsaturated _ _, hc => exact ⟨Nat.lt_of_lt_of_le hc.1 hk, AllWithin.mono hc.2 hk⟩

theorem Evaluation.Control.Within.mono {c : Control} (hc : c.Within n) (hk : n ≤ k) :
    c.Within k := by
  cases c with
  | entering a => exact Nat.lt_of_lt_of_le hc hk
  | applying f args => exact ⟨Nat.lt_of_lt_of_le hc.1 hk, AllWithin.mono hc.2 hk⟩
  | blocked a => exact Nat.lt_of_lt_of_le hc hk
  | _ => trivial

theorem Pending.Within.mono {p : Pending} (hp : p.Within n) (hk : n ≤ k) : p.Within k := by
  cases p with
  | apply f args => exact ⟨Nat.lt_of_lt_of_le hp.1 hk, AllWithin.mono hp.2 hk⟩
  | _ => exact Nat.lt_of_lt_of_le hp hk

end Growing

namespace Heap

variable {h : Heap κ} {a : Address}

theorem Closed.target? (hh : h.Closed) {b : Address} (ha : h.target? a = some b) :
    b.index < h.size := by
  have hc := hh a
  rwa [target?_eq_some_iff.1 ha] at hc

theorem Closed.lt_size_resolve (hh : h.Closed) (ha : a.index < h.size) :
    (h.resolve a).index < h.size := by
  have hfollow (n : Nat) : (h.follow n a).index < h.size := by
    induction n generalizing a with
    | zero => exact ha
    | succ n ih =>
      rw [follow]
      split
      · next hb => exact ih (hh.target? hb)
      · exact ha
  exact hfollow h.size

theorem Closed.callee? (hh : h.Closed) {f : Address} {bound : List Value}
    (ha : h.callee? a = some (f, bound)) : f.index < h.size ∧ AllWithin h.size bound := by
  rcases callee?_eq_some_iff.1 ha with ⟨_, _, -, rfl, rfl⟩ | hc
  · exact ⟨lt_size_of_callee? ha, allWithin_nil _⟩
  · have hw := hh a
    rwa [hc] at hw

theorem Closed.function? (hh : h.Closed) {info : FunctionInfo κ} {captured : List Value}
    (ha : h.function? a = some (info, captured)) : AllWithin h.size captured := by
  have hc := hh a
  rwa [function?_eq_some_iff.1 ha] at hc

theorem Closed.allocate (hh : h.Closed) {c : Cell κ} (hc : c.Within (h.size + 1)) :
    (h.allocate c).2.Closed := by
  intro b
  rw [size_allocate, cell_allocate]
  split
  · exact hc
  · exact (hh b).mono (Nat.le_succ _)

theorem Closed.write (hh : h.Closed) {c : Cell κ} (hc : c.Within h.size) :
    (h.write a c).Closed := by
  intro b
  rw [size_write, cell_write]
  split
  · exact hc
  · exact hh b

theorem Closed.reset (hh : h.Closed) (a : Address) : (h.reset a).2.Closed := by
  have hc := hh a
  unfold Heap.reset
  split
  · next he =>
    rw [he] at hc
    exact hh.write hc
  · exact hh

theorem Closed.settle (hh : h.Closed) (a : Address) {v : Address} (hv : v.index < h.size) :
    (h.settle a v).2.Closed := by
  unfold Heap.settle
  split
  · exact hh.write hv
  · exact hh.write hv
  · exact hh

theorem size_settle (h : Heap κ) (a v : Address) : (h.settle a v).2.size = h.size := by
  unfold Heap.settle
  split
  · exact size_write _ _ _
  · exact size_write _ _ _
  · rfl

theorem Closed.bind (hh : h.Closed) {args : List Value} {c : Cell κ}
    (hargs : AllWithin h.size args) (hb : h.bind a args = .ok c) : c.Within h.size := by
  simp only [Heap.bind] at hb
  split at hb
  · cases hb
  · next g bound hg =>
    split at hb
    · cases hb
    · split at hb <;> cases hb
      obtain ⟨hlt, hbound⟩ := hh.callee? hg
      exact ⟨hlt, hbound.append hargs⟩

end Heap

section Carrying

variable {m m' m₁ m₂ : Machine κ}

def Frame.Based (a : Address) (frames : List (Frame κ)) : Prop := [.update a] <:+ frames

structure Carried (m m' : Machine κ) : Prop where
  closed : m'.Closed
  size_le : m.heap.size ≤ m'.heap.size
  based : ∀ a, Frame.Based a m.context.stack.frames → Frame.Based a m'.context.stack.frames

theorem Frame.Based.cons {a : Address} {frames : List (Frame κ)} (frame : Frame κ)
    (hb : Based a frames) : Based a (frame :: frames) :=
  hb.trans (List.suffix_cons _ _)

theorem Frame.Based.of_cons {a : Address} {frame : Frame κ} {frames : List (Frame κ)}
    (hb : Based a (frame :: frames)) :
    Based a frames ∨ frame = .update a ∧ frames = [] := by
  rcases List.suffix_cons_iff.1 hb with he | hb
  · obtain ⟨rfl, rfl⟩ := List.cons.inj he
    exact .inr ⟨rfl, rfl⟩
  · exact .inl hb

theorem Carried.refl (hm : m.Closed) : Carried m m := ⟨hm, Nat.le_refl _, fun _ => id⟩

theorem Carried.trans (h₁ : Carried m m₁) (h₂ : Carried m₁ m₂) : Carried m m₂ :=
  ⟨h₂.closed, Nat.le_trans h₁.size_le h₂.size_le, fun a ha => h₂.based a (h₁.based a ha)⟩

theorem Carried.of_heap (hm : m.Closed) (hh : m'.heap.Closed) (hs : m.heap.size ≤ m'.heap.size)
    (hr : m'.context.registers = m.context.registers) (hf : m'.context.stack = m.context.stack) :
    Carried m m' where
  closed := by
    refine ⟨hh, fun i a ha => ?_, fun frame hframe => ?_⟩
    · rw [hr] at ha
      exact Nat.lt_of_lt_of_le (hm.registers i a ha) hs
    · rw [hf] at hframe
      exact (hm.frames frame hframe).mono hs
  size_le := hs
  based a ha := by rwa [hf]

theorem Carried.of_core (hm : m.Closed) (hc : m'.core = m.core) : Carried m m' := by
  have hh : m'.heap = m.heap := congrArg Core.heap hc
  refine .of_heap hm ?_ ?_ (congrArg Core.registers hc) (congrArg Core.stack hc)
  · exact hh ▸ hm.heap
  · exact Nat.le_of_eq (by rw [hh])

theorem Carried.of_put (hm : m.Closed) {i : Fin registersPerKind} {v : Value}
    (hv : v.Within m.heap.size)
    (hc : m'.core = { m.core with registers := m.context.registers.put i v }) : Carried m m' := by
  have hh : m'.heap = m.heap := congrArg Core.heap hc
  have hr : m'.context.registers = m.context.registers.put i v := congrArg Core.registers hc
  have hs : m'.context.stack = m.context.stack := congrArg Core.stack hc
  refine ⟨⟨hh ▸ hm.heap, fun j a ha => ?_, ?_⟩, Nat.le_of_eq (by rw [hh]), fun a => by rw [hs]; exact id⟩
  · rw [hh]
    rw [hr] at ha
    cases v with
    | boxed b =>
      rw [Registers.put, Registers.get_set] at ha
      split at ha
      · cases ha
        exact hv
      · exact hm.registers j a ha
    | _ => exact hm.registers j a ha
  · rw [hh, hs]
    exact hm.frames

theorem Carried.of_stack (hm : m.Closed) {s : FrameStack κ}
    (hc : m'.core = { m.core with stack := s })
    (hf : ∀ frame ∈ s.frames, frame.Within m.heap.size)
    (hb : ∀ a, Frame.Based a m.context.stack.frames → Frame.Based a s.frames) : Carried m m' := by
  have hh : m'.heap = m.heap := congrArg Core.heap hc
  have hr : m'.context.registers = m.context.registers := congrArg Core.registers hc
  have hs : m'.context.stack = s := congrArg Core.stack hc
  refine ⟨⟨hh ▸ hm.heap, fun i a ha => ?_, fun frame hframe => ?_⟩, Nat.le_of_eq (by rw [hh]),
    fun a ha => ?_⟩
  · rw [hh]
    rw [hr] at ha
    exact hm.registers i a ha
  · rw [hh]
    rw [hs] at hframe
    exact hf frame hframe
  · rw [hs]
    exact hb a ha

theorem Carried.push {frame : Frame κ} (hm : m.Closed) (hf : frame.Within m.heap.size)
    (h : m.push frame = .ok m') : Carried m m' := by
  obtain ⟨s, hs, hc⟩ := Machine.push_eq_ok h
  obtain ⟨hframes, -⟩ := FrameStack.frames_of_push hs
  refine .of_stack hm hc ?_ fun a ha => hframes ▸ ha.cons frame
  rw [hframes]
  exact List.forall_mem_cons.2 ⟨hf, hm.frames⟩

theorem Carried.allocate {c : Cell κ} (hm : m.Closed) (hc : c.Within m.heap.size) :
    Carried m (m.allocate c).2 ∧ (m.allocate c).1.index < (m.allocate c).2.heap.size := by
  have hs : (m.allocate c).2.heap.size = m.heap.size + 1 := Heap.size_allocate _ _
  refine ⟨.of_heap hm (hm.heap.allocate (hc.mono (Nat.le_succ _))) ?_ rfl rfl, ?_⟩
  · rw [hs]
    exact Nat.le_succ _
  · rw [hs]
    exact Nat.lt_succ_self _

end Carrying

end GraphReduction
