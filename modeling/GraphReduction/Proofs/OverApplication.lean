import GraphReduction.Proofs.Gathering
import GraphReduction.Proofs.WeakHead

/-!
Applying a function to more arguments than it takes, beside applying its result to the others. The
two have values of the same shape, unless the function returns something that has yet to be
evaluated: an apply frame gives arguments to nothing but a function.
-/
namespace GraphReduction.Application

open Evaluation GraphReduction.Frame

variable {κ : Type} {program : Program κ} {m m' m₁ m₁' : Machine κ} {f g : Address}
  {xs ys : List Value} {limit n : Nat} {body : Suspension κ}

section Evaluating

def evaluateNew (program : Program κ) (fuel limit : Nat) (body : Suspension κ) :
    StateM (Machine κ) (Option (Except RuntimeError Address)) := do
  evaluate program fuel limit (← modifyGet (·.allocate (.thunk (.unevaluated body))))

def launch (limit : Nat) (body : Suspension κ) (m : Machine κ) : Machine κ :=
  let (t, m) := m.allocate (.thunk (.unevaluated body))
  let (thread, shared) := m.shared.spawn t limit
  (begin thread { m with shared }).2

def newCalls (program : Program κ) (fuel limit : Nat) (body : Suspension κ) (m : Machine κ) :
    List (Call κ) :=
  iterateUpToCalls program fuel 0 (.entering ⟨m.heap.size⟩) (launch limit body m)

theorem evaluateNew_eq (program : Program κ) (fuel limit : Nat) (body : Suspension κ)
    (m : Machine κ) :
    ∃ t m₀, evaluateNew program fuel limit body m = runToEnd program fuel fuel t m₀ ∧
      begin t m₀ = (.entering ⟨m.heap.size⟩, launch limit body m) :=
  ⟨_, _, rfl, rfl⟩

variable {fuel : Nat}

theorem runSlice_add {t : Thread κ} {o : Outcome κ} (h : runSlice program fuel t m = (some o, m₁))
    (j : Nat) : runSlice program (fuel + j) t m = (some o, m₁) := by
  obtain ⟨k, hk⟩ := runSlice_eq_some h
  rw [runSlice_eq, iterateUpTo_add hk j]

theorem runToEnd_add {slices : Nat} {t : Thread κ} {r : Except RuntimeError Address}
    (h : runToEnd program fuel slices t m = (some r, m₁)) (i j : Nat) :
    runToEnd program (fuel + i) (slices + j) t m = (some r, m₁) := by
  induction slices generalizing t m with
  | zero => cases h
  | succ slices ih =>
    rw [WeakHead.runToEnd_succ] at h
    rw [Nat.add_right_comm, WeakHead.runToEnd_succ]
    cases hs : runSlice program fuel t m with
    | mk result m₂ =>
      rw [hs] at h
      cases result with
      | none => cases h
      | some o =>
        rw [runSlice_add hs i]
        cases o with
        | finished | halted => exact h
        | endless => cases h
        | yielded t => exact ih h
        | blocked t a =>
          unfold WeakHead.continuation at h ⊢
          dsimp only at h ⊢
          split at h
          · cases h
          · next hn =>
            rw [if_neg hn]
            exact ih h

theorem evaluateNew_unique {fuel' : Nat} {r r' : Except RuntimeError Address} {m₂ : Machine κ}
    (h : evaluateNew program fuel limit body m = (some r, m₁))
    (h' : evaluateNew program fuel' limit body m = (some r', m₂)) : r = r' ∧ m₁ = m₂ := by
  have he := runToEnd_add h fuel' fuel'
  rw [Nat.add_comm] at he
  cases he.symm.trans (runToEnd_add h' fuel fuel)
  exact ⟨rfl, rfl⟩

theorem exists_run_of_evaluateNew
    (h : evaluateNew program fuel limit body m = (some (.ok g), m₁)) :
    ∃ o m₂, (∃ k, iterateUpTo program fuel 0 (.entering ⟨m.heap.size⟩) (launch limit body m) =
        ((k, .over o), m₂)) ∧
      ¬ o.Failed m₂.heap ∧ ∀ v, o = .finished v → v = g ∧ m₂ = m₁ := by
  obtain ⟨t, m₀, he, hb⟩ := evaluateNew_eq program fuel limit body m
  rw [he] at h
  cases fuel with
  | zero => cases h
  | succ slices =>
    rw [WeakHead.runToEnd_succ] at h
    cases hs : runSlice program (slices + 1) t m₀ with
    | mk result m₂ =>
      rw [hs] at h
      cases result with
      | none => cases h
      | some o =>
        have hrun := runSlice_eq_some hs
        rw [hb] at hrun
        refine ⟨o, m₂, hrun, fun hfailed => ?_, ?_⟩
        · cases o with
          | finished | yielded => exact hfailed
          | halted e => cases h
          | endless => cases h
          | blocked t a =>
            unfold WeakHead.continuation at h
            have hheap (r : Machine κ → Remark) : (m₂.report .scheduler r).heap = m₂.heap :=
              congrArg Core.heap (m₂.core_report .scheduler r)
            have hown : (m₂.heap.owner? a).isSome = true := hfailed
            simp only [hheap, if_pos hown] at h
            cases h
        · rintro v rfl
          cases h
          exact ⟨rfl, rfl⟩

theorem evaluateNew_of_concludes {o : Outcome κ} {r : Except RuntimeError Address}
    (h : Concludes program 0 (.entering ⟨m.heap.size⟩) (launch limit body m) o m₁)
    (ho : (∃ v, o = .finished v ∧ r = .ok v) ∨ ∃ e, o = .halted e ∧ r = .error e) :
    ∃ fuel, evaluateNew program fuel limit body m = (some r, m₁) := by
  obtain ⟨fuel, k, hk⟩ := h
  obtain ⟨t, m₀, he, hb⟩ := evaluateNew_eq program fuel limit body m
  refine ⟨fuel, ?_⟩
  cases fuel with
  | zero => cases hk
  | succ slices =>
    have hs : runSlice program (slices + 1) t m₀ = (some o, m₁) := by
      rw [runSlice_eq, hb, hk]
    rw [he, WeakHead.runToEnd_succ, hs]
    rcases ho with ⟨v, rfl, rfl⟩ | ⟨e, rfl, rfl⟩ <;> rfl

end Evaluating

section Starting

structure AtRest (h : Heap κ) : Prop where
  closed : h.Closed
  flat : h.Flat
  directed : h.Directed
  idle : ∀ a, h.owner? a = none

theorem AtRest.twin_self {h : Heap κ} (hh : AtRest h) : h.Twin (.identity h.size) h := by
  have hrel : ∀ b : Address, b.index < h.size → (Renaming.identity h.size).rel b b :=
    fun b hb => ⟨hb, rfl⟩
  refine ⟨fun a a' ha => ?_, fun a a' ha => ⟨ha.1, ha.2 ▸ ha.1⟩, hh.flat, hh.directed⟩
  rw [ha.2]
  exact Cell.twin_self hrel (hh.closed a)

structure Started (limit : Nat) (body : Suspension κ) (m m₁ : Machine κ) : Prop where
  heap : m₁.heap = (m.heap.allocate (.thunk (.unevaluated body))).2.write ⟨m.heap.size⟩
    (.thunk (.underEvaluation m₁.context.thread body []))
  frames : m₁.context.stack.frames = [.update ⟨m.heap.size⟩]
  limit_eq : m₁.context.stack.limit = limit
  calm : m₁.Calm

theorem enter_of_done {t : Address} {step : Step} (hc : m.heap.cell t = .thunk (.unevaluated body))
    (hb : program.body body.code body.captured = .done step)
    (hroom : m.context.stack.frames.length < m.context.stack.limit) :
    ∃ m₁ s, enter program t m = .ok step m₁ ∧
      m₁.core = { m.core with
        heap := m.heap.write t (.thunk (.underEvaluation m.context.thread body []))
        stack := s } ∧
      s.frames = .update t :: m.context.stack.frames ∧ s.limit = m.context.stack.limit := by
  let m₀ := m.setHeap (m.heap.write t (.thunk (.underEvaluation m.context.thread body [])))
  obtain ⟨m₁, s, hpush, hcore, hs, hl⟩ :=
    Machine.exists_push (.update t) (show m₀.context.stack.frames.length < _ from hroom)
  refine ⟨m₁.count fun c => { c with thunkEntries := c.thunkEntries + 1 }, s, ?_, hcore, hs, hl⟩
  rw [enter_eq_start program hc]
  simp only [start, show m.setHeap _ = m₀ from rfl, hpush, run, hb]
  rfl

theorem exists_started (hm : m.Calm) (hl : 0 < limit)
    (hb : program.body body.code body.captured = .done (.apply f xs)) :
    ∃ m₁, iterate program 0 (.entering ⟨m.heap.size⟩) (launch limit body m) =
      (.next (.applying f xs), m₁) ∧ Started limit body m m₁ := by
  let t : Address := ⟨m.heap.size⟩
  let m₀ := reportControl (.entering t) (launch limit body m)
  have hcore : m₀.core = (launch limit body m).core := Machine.core_reportControl _ _
  have hheap : m₀.heap = (m.heap.allocate (.thunk (.unevaluated body))).2 :=
    congrArg Core.heap hcore
  have hstack : m₀.context.stack = .empty limit := congrArg Core.stack hcore
  have hscheduler : m₀.scheduler = m.scheduler := congrArg Core.scheduler hcore
  have hcell : m₀.heap.cell t = .thunk (.unevaluated body) := by
    rw [hheap, Heap.cell_allocate, if_pos rfl]
  obtain ⟨m₁, s, he, hc, hs, hlim⟩ := enter_of_done hcell hb (by
    rw [hstack]
    exact hl)
  have hthread : m₁.context.thread = m₀.context.thread := congrArg Core.thread hc
  have hstack₁ : m₁.context.stack = s := congrArg Core.stack hc
  have hcalm : m₀.Calm :=
    ⟨(congrArg Core.interrupted hcore).trans hm.interrupted, hscheduler ▸ hm.patient⟩
  have hinterrupted : (launch limit body m).context.interrupted = false := hm.interrupted
  refine ⟨m₁, ?_, ?_, ?_, ?_, hcalm.of_core hcalm.patient hc⟩
  · rw [WeakHead.iterate_unpolled program (.inl rfl) _ hinterrupted]
    change follow (enter program t) m₀ = _
    rw [follow_eq, Exec.outcome, he]
    rfl
  · rw [show m₁.heap = _ from congrArg Core.heap hc, hheap, hthread]
  · rw [hstack₁, hs, hstack]
    rfl
  · rw [hstack₁, hlim, hstack]
    rfl

namespace Started

variable (h : Started limit body m m₁)
include h

theorem cell_of_lt {b : Address} (hb : b.index < m.heap.size) : m₁.heap.cell b = m.heap.cell b := by
  have hne : (⟨m.heap.size⟩ : Address) ≠ b := fun he => Nat.ne_of_gt hb (congrArg Address.index he)
  rw [h.heap, Heap.cell_write_of_ne hne, Heap.cell_allocate_of_lt hb]

theorem size_eq : m₁.heap.size = m.heap.size + 1 := by
  rw [h.heap, Heap.size_write, Heap.size_allocate]

theorem limit_pos : 0 < limit := by
  have hd := m₁.context.stack.depth_le_limit
  rw [m₁.context.stack.depth_eq, h.frames, h.limit_eq] at hd
  exact hd

theorem owner?_eq : m₁.heap.owner? ⟨m.heap.size⟩ = some m₁.context.thread := by
  have hc : (m.heap.allocate (.thunk (.unevaluated body))).2.cell ⟨m.heap.size⟩ =
      .thunk (.unevaluated body) := by rw [Heap.cell_allocate, if_pos rfl]
  refine Heap.owner?_eq_some_iff.2 ⟨body, [], ?_⟩
  rw [h.heap, Heap.cell_write_thunk hc]

theorem heap_twin {ρ : Renaming} {h' : Heap κ} (ht : m.heap.Twin ρ h') : m₁.heap.Twin ρ h' := by
  have hc : (m.heap.allocate (.thunk (.unevaluated body))).2.cell ⟨m.heap.size⟩ =
      .thunk (.unevaluated body) := by rw [Heap.cell_allocate, if_pos rfl]
  rw [h.heap]
  refine (ht.allocate_left (Heap.grown_allocation m.heap (.thunk body))).write_left ht.fresh hc ?_
  exact CellOperations.keeps_write hc nofun nofun

theorem twin {body' : Suspension κ} {vs : List Value} {s : FrameStack κ}
    (h' : Started (limit + vs.length) body' m m₁') (hh : AtRest m.heap)
    (hs : s.frames = vs.map .apply ++ [.update ⟨m.heap.size⟩])
    (hl : s.limit = m₁'.context.stack.limit) :
    m₁.Twin ⟨m.heap.size, limit, ⟨m.heap.size⟩, ⟨m.heap.size⟩, vs⟩ (.identity m.heap.size) (some [])
      (m₁'.setStack s) where
  heap := by
    have hleft := h.heap_twin hh.twin_self
    refine ⟨fun a a' ha => ?_, fun a a' ha => ⟨(hleft.lt_size a a' ha).1, ?_⟩, hleft.flat,
      hleft.directed⟩
    · change (m₁.heap.cell a).Twin _ (m₁'.heap.cell a')
      rw [h'.cell_of_lt (ha.2 ▸ ha.1)]
      exact hleft.cells a a' ha
    · change a'.index < m₁'.heap.size
      rw [h'.size_eq, ha.2]
      exact Nat.lt_succ_of_lt ha.1
  owners a a' t ha ht := by
    have ht : m₁'.heap.owner? a' = some t := ht
    rw [Heap.owner?_congr (h'.cell_of_lt (ha.2 ▸ ha.1)), hh.idle a'] at ht
    cases ht
  frames := ⟨[], [], h.frames, hs, .nil⟩
  room := ⟨h.limit_eq, hl.trans h'.limit_eq⟩
  registers _ hm := (List.not_mem_nil hm).elim
  old a ha := ⟨ha, rfl⟩
  own := by
    rw [h.owner?_eq]
    rfl
  own' := by
    change (m₁'.heap.owner? ⟨m.heap.size⟩).isSome
    rw [h'.owner?_eq]
    rfl
  apart b hb := Nat.lt_irrefl _ hb.1
  apart' b hb := Nat.lt_irrefl _ (congrArg Address.index hb.2 ▸ hb.1)
  calm := h.calm
  calm' := ⟨h'.calm.1, h'.calm.2⟩

end Started

end Starting

section Handing

variable {P : Footing} {ρ : Renaming} {need : Need} {h : Heap κ}

/-- A first evaluation has handed over a function, and the application in one step has come to the
same function with the arguments that wait. The first may have built an unsaturated application from
arguments that wait above them in the second. -/
inductive Handed (P : Footing) (ρ : Renaming) (h : Heap κ) (g : Address) (m' : Machine κ) :
    Prop where
  | same {p' : Address} : m'.context.registers.result? = some p' → ρ.rel g p' →
      m'.context.stack.frames = P.base' → Handed P ρ h g m'
  | built {f f' p' : Address} {info : FunctionInfo κ} {captured' bound bound' vs vs' : List Value} :
      h.cell g = .unsaturated f (bound ++ vs) → m'.context.registers.result? = some p' →
      m'.heap.callee? (m'.heap.resolve p') = some (f', bound') →
      m'.heap.function? f' = some (info, captured') →
      (bound' = [] ∨ bound'.length < info.arity) →
      m'.context.stack.frames = vs'.map .apply ++ P.base' → ρ.rel f f' → AllTwin ρ bound bound' →
      AllTwin ρ vs vs' → Handed P ρ h g m'

def Unready (frames : List (Frame κ)) (m : Machine κ) : Prop :=
  m.context.stack.frames = frames ∧ ∃ p, m.context.registers.result? = some p ∧
    m.heap.variant (m.heap.resolve p) = .thunk

theorem isValue_of_unsaturated {args : List Value} (hc : h.cell g = .unsaturated f args) :
    h.resolve g = g ∧ h.isValue (h.resolve g) = true := by
  have hn : h.target? g = none := by rw [Heap.target?, hc]
  have hr := Heap.resolve_of_target?_eq_none hn
  rw [hr, Heap.isValue, hr, Heap.variant, hc]
  exact ⟨rfl, rfl⟩

theorem finishes_of_result (program : Program κ) (hs : m.context.stack.frames = P.base)
    (hm : m.Twin P ρ (some [Slot.result]) m') (n : Nat) :
    Unready P.base' m' ∨ ∃ g m₁, Concludes program n .resuming m (.finished g) m₁ ∧ m₁.Calm ∧
      m₁.heap.Twin ρ m'.heap ∧ Handed P ρ m₁.heap g m' := by
  obtain ⟨fs, fs', hf, hf', hfs⟩ := hm.frames
  obtain rfl : fs = [] := List.append_left_eq_self.1 (hf.symm.trans hs)
  cases hfs
  obtain ⟨p, p', hp, hp', hrel⟩ := hm.result List.mem_cons_self
  have hres := hm.heap.resolve hrel
  by_cases hv : m.heap.isValue (m.heap.resolve p) = true
  · obtain ⟨m₁, hfin, hheap, hcalm⟩ := concludes_of_update program hm.calm hs hp hm.own hv n
    have hvalued := hm.heap.directed.valued_of_isValue (hm.heap.lt_size _ _ hres).1 hv
    refine .inr ⟨p, m₁, hfin, hcalm, ?_, .same hp' hrel hf'⟩
    rw [hheap]
    exact hm.heap.settle_left hm.apart hm.own hvalued
  · refine .inl ⟨hf', p', hp', ?_⟩
    have hself := Heap.resolve_of_target?_eq_none (hm.heap.directed.resolve_spec p).1
    rw [hm.heap.variant_eq hres]
    rwa [Heap.isValue, hself, decide_eq_true_eq, not_not] at hv

theorem finishes_of_gathering (program : Program κ) {v : Value} {vs captured bound : List Value}
    {info : FunctionInfo κ} {p : Address}
    (hs : m.context.stack.frames = (v :: vs).map .apply ++ P.base)
    (hm : m.Twin P ρ (some [Slot.result]) m') (hp : m.context.registers.result? = some p)
    (hc : m.heap.callee? (m.heap.resolve p) = some (f, bound))
    (hi : m.heap.function? f = some (info, captured))
    (hlt : (bound ++ v :: vs).length < info.arity) (n : Nat) :
    ∃ g m₁, Concludes program n .resuming m (.finished g) m₁ ∧ m₁.Calm ∧
      m₁.heap.Twin ρ m'.heap ∧ Handed P ρ m₁.heap g m' := by
  have hb : bound.length < info.arity := by
    rw [List.length_append] at hlt
    omega
  have hgathered : Gathered m f info (bound ++ v :: vs) P.base :=
    ⟨p, bound, v, vs, captured, hp, hc, hi, .inr hb, hs, rfl⟩
  obtain ⟨m₁, s, q, hit, hcore, hq, hsf, -⟩ :=
    hgathered.iterate_of_lt program hm.calm rfl hlt n
  have hheap₁ : m₁.heap = (m.heap.allocate (.unsaturated f (bound ++ v :: vs))).2 :=
    congrArg Core.heap hcore
  have hregs₁ : m₁.context.registers = m.context.registers.setResult ⟨m.heap.size⟩ :=
    congrArg Core.registers hcore
  have hstack₁ : m₁.context.stack = s := congrArg Core.stack hcore
  have hcell : m₁.heap.cell ⟨m.heap.size⟩ = .unsaturated f (bound ++ v :: vs) := by
    rw [hheap₁, Heap.cell_allocate, if_pos rfl]
  have hown : (m₁.heap.owner? P.own).isSome := by
    rw [hheap₁, Heap.owner?_congr (Heap.cell_allocate_of_lt (Heap.lt_size_of_owner? hm.own))]
    exact hm.own
  obtain ⟨hself, hvalue⟩ := isValue_of_unsaturated hcell
  obtain ⟨m₂, hfin, hheap₂, hcalm⟩ := concludes_of_update program (hm.calm.of_core hq hcore)
    (by rw [hstack₁, hsf]; rfl) (by rw [hregs₁, Registers.result?_setResult]) hown hvalue (n + 1)
  have ht₁ : m₁.heap.Twin ρ m'.heap := by
    rw [hheap₁]
    exact hm.heap.allocate_left
      (Heap.grown_bind (Heap.bind_of_function? hi hgathered.ne_nil hlt))
  have hvalued : m₁.heap.Valued (m₁.heap.resolve ⟨m.heap.size⟩) := by
    refine ht₁.directed.valued_of_isValue ?_ hvalue
    rw [hself, hheap₁, Heap.size_allocate]
    exact Nat.lt_succ_self _
  refine ⟨⟨m.heap.size⟩, m₂, ((Reaches.refl _ _ _ _).head hit).concludes hfin, hcalm, ?_, ?_⟩
  · rw [hheap₂]
    exact ht₁.settle_left hm.apart hown hvalued
  -- The second run has the same callee before the same arguments.
  obtain ⟨fs, fs', hf, hf', hfs⟩ := hm.frames
  obtain rfl : fs = (v :: vs).map .apply := List.append_cancel_right (hf.symm.trans hs)
  obtain ⟨vs', rfl, hvs'⟩ := AllTwin.exists_apply hfs
  obtain ⟨p₁, p', hp₁, hp', hrel⟩ := hm.result List.mem_cons_self
  obtain rfl := Option.some.inj (hp₁.symm.trans hp)
  obtain ⟨f', bound', hc', hfrel, hbound⟩ := hm.heap.exists_callee (hm.heap.resolve hrel) hc
  obtain ⟨captured', hi', -⟩ := hm.heap.exists_function hfrel hi
  refine .built ?_ hp' hc' hi' (.inr (hbound.length_eq ▸ hb)) hf' hfrel hbound hvs'
  have hne : P.own ≠ ⟨m.heap.size⟩ := fun he =>
    Nat.ne_of_lt (Heap.lt_size_of_owner? hm.own) (congrArg Address.index he)
  rw [hheap₂, Heap.cell_settle_of_ne hne, hcell]

theorem finishes_of_landed (program : Program κ) (hl : Landed P .resuming m)
    (hm : m.Twin P ρ (some [Slot.result]) m') (n : Nat) :
    Unready P.base' m' ∨ ∃ g m₁, Concludes program n .resuming m (.finished g) m₁ ∧ m₁.Calm ∧
      m₁.heap.Twin ρ m'.heap ∧ Handed P ρ m₁.heap g m' := by
  obtain ⟨-, vs, hs, hvs⟩ := hl
  cases vs with
  | nil => exact finishes_of_result program hs hm n
  | cons v vs =>
    obtain ⟨-, p, f, bound, info, captured, hp, hc, hi, hlt⟩ :=
      hvs.resolve_left (List.cons_ne_nil v vs)
    exact .inr (finishes_of_gathering program hs hm hp hc hi (by rwa [List.length_append]) n)

theorem Handed.gathered {h₁ : Heap κ} (hd : Handed P ρ h g m') (ht : h₁.Twin ρ m'.heap)
    (hcells : ∀ b, b.index < h.size → h₁.cell b = h.cell b) (hw : P.waiting ≠ [])
    (hold : AllTwin ρ P.waiting P.waiting) :
    h₁.callee? (h₁.resolve g) = none ∨ ∃ f f' bound info captured args',
      h₁.callee? (h₁.resolve g) = some (f, bound) ∧ h₁.function? f = some (info, captured) ∧
      (bound = [] ∨ bound.length < info.arity) ∧
      Gathered m' f' info args' [.update P.own'] ∧ ρ.rel f f' ∧
      AllTwin ρ (bound ++ P.waiting) args' := by
  obtain ⟨y, ys, hy⟩ := List.exists_cons_of_ne_nil hw
  cases hd with
  | @same p' hr hrel hs =>
    obtain ⟨hn, -⟩ | ⟨f, f', bound, bound', hc, hc', hf, hbound⟩ := ht.callee? (ht.resolve hrel)
    · exact .inl hn
    obtain ⟨info, captured, hi, hb⟩ := Heap.function?_of_callee? ht.flat hc
    obtain ⟨captured', hi', -⟩ := ht.exists_function hf hi
    have hb' : bound' = [] ∨ bound'.length < info.arity := by
      rw [← hbound.length_eq]
      refine hb.imp_left fun he => ?_
      subst he
      cases hbound
      rfl
    refine .inr ⟨f, f', bound, info, captured, bound' ++ P.waiting, hc, hi, hb,
      ⟨p', bound', y, ys, captured', hr, hc', hi', hb', ?_, by rw [hy]⟩, hf,
      List.rel_append hbound hold⟩
    rw [hs, Footing.base', hy]
    rfl
  | @built f f' p' info captured' bound bound' vs vs' hcell hr hc' hi' hb' hs hf hbound hvs =>
    have hlt : g.index < h.size := Heap.lt_size_of_cell_ne_default fun hd => by
      rw [hcell] at hd
      cases hd
    have hcell₁ : h₁.cell g = .unsaturated f (bound ++ vs) := (hcells g hlt).trans hcell
    have hcallee : h₁.callee? (h₁.resolve g) = some (f, bound ++ vs) := by
      rw [(isValue_of_unsaturated hcell₁).1]
      exact Heap.callee?_eq_some_iff.2 (.inr hcell₁)
    obtain ⟨info₁, captured, hi, hb⟩ := Heap.function?_of_callee? ht.flat hcallee
    obtain ⟨captured₁', hi₁', -⟩ := ht.exists_function hf hi
    obtain ⟨rfl, rfl⟩ := Prod.mk.inj (Option.some.inj (hi₁'.symm.trans hi'))
    obtain ⟨w, ws, hws⟩ := List.exists_cons_of_ne_nil (List.append_ne_nil_of_right_ne_nil vs' hw)
    refine .inr ⟨f, f', bound ++ vs, info₁, captured, bound' ++ (vs' ++ P.waiting), hcallee, hi, hb,
      ⟨p', bound', w, ws, captured₁', hr, hc', hi', hb', ?_, by rw [hws]⟩, hf, ?_⟩
    · rw [hs, Footing.base', ← List.append_assoc, ← List.map_append, hws]
      rfl
    · rw [List.append_assoc]
      exact List.rel_append hbound (List.rel_append hvs hold)

end Handing

section Joining

variable {P : Footing} {ρ : Renaming} {need : Need} {o : Outcome κ} {fuel : Nat}

theorem exists_stack (frames : List (Frame κ)) {l : Nat} (h : frames.length ≤ l) :
    ∃ s : FrameStack κ, s.frames = frames ∧ s.limit = l :=
  ⟨.holding frames (l - frames.length), rfl, Nat.add_sub_cancel' h⟩

theorem Started.twinBelow {m₂ : Machine κ} (hs : Started limit body m₁ m₂)
    (hm : m.Twin P ρ need m') (ht : m₁.heap.Twin ρ m'.heap)
    (hl : limit = m'.context.stack.limit) :
    m₂.TwinBelow ⟨P.size, limit, ⟨m₁.heap.size⟩, P.own', []⟩ ρ m' := by
  obtain ⟨s', hs', hl'⟩ := exists_stack [.update P.own'] (hl ▸ Nat.succ_le_of_lt hs.limit_pos)
  refine ⟨m₂.context.stack, s', ?_, rfl, hl'⟩
  constructor
  case heap => exact hs.heap_twin ht
  case owners => exact hm.owners
  case frames => exact ⟨[], [], hs.frames, hs', .nil⟩
  case room => exact ⟨hs.limit_eq, hl'.trans hl.symm⟩
  case registers => exact fun _ hmem => (List.not_mem_nil hmem).elim
  case old => exact hm.old
  case own =>
    change (m₂.heap.owner? ⟨m₁.heap.size⟩).isSome
    rw [hs.owner?_eq]
    rfl
  case own' => exact hm.own'
  case apart => exact ht.fresh
  case apart' => exact hm.apart'
  case calm => exact ⟨hs.calm.1, hs.calm.2⟩
  case calm' => exact ⟨hm.calm'.1, hm.calm'.2⟩

theorem iterate_applying_of_callee?_none (program : Program κ) (hm : m.Calm) (hy : ys ≠ [])
    (hc : m.heap.callee? (m.heap.resolve g) = none)
    (hs : ∀ f, Frame.handler f ∉ m.context.stack.frames) (n : Nat) :
    ∃ c m₁, iterate program n (.applying g ys) m = (.next c, m₁) ∧ c.Dead m₁.heap := by
  obtain ⟨m₀, q, hc₀, -, hit, -⟩ := iterate_applying_of_calm program hm n g ys
  have hheap : m₀.heap = m.heap := congrArg Core.heap hc₀
  have hstack : m₀.context.stack = m.context.stack := congrArg Core.stack hc₀
  have hn : ¬ ys.isEmpty = true := by simpa using hy
  have hx : dispatchApply g ys m₀ = .error (.error
      (.applyNonFunction (m₀.heap.variant (m₀.heap.resolve g)).name ys.length)) m₀ := by
    simp only [dispatchApply, if_neg hn, hheap, hc]
    rfl
  obtain ⟨c, m₁, hnext, hd⟩ := dead_of_error program hx (by rwa [hstack])
  exact ⟨c, m₁, hit.trans hnext, hd⟩

theorem finishes_of_handed {m₂ m₃ : Machine κ} (hd : Handed P ρ m₁.heap g m')
    (hm : m.Twin P ρ need m') (ht : m₁.heap.Twin ρ m'.heap) (hs : Started limit body m₁ m₂)
    (hl : limit = m'.context.stack.limit) (hw : P.waiting ≠ [])
    (hroom : P.waiting.length < limit) (hold : AllTwin ρ P.waiting P.waiting)
    (h : Course program P.size fuel n (.applying g P.waiting) m₂ o m₃) (n' : Nat) :
    o.Failed m₃.heap ∨ ∃ w w' m₃', o = .finished w ∧
      Concludes program n' .resuming m' (.finished w') m₃' ∧ m₃.heap.SameGraph m₃'.heap w w' := by
  let Q : Footing := ⟨P.size, limit, ⟨m₁.heap.size⟩, P.own', []⟩
  have hbelow : m₂.TwinBelow Q ρ m' := hs.twinBelow hm ht hl
  rcases hd.gathered hbelow.heap (fun b hb => hs.cell_of_lt hb) hw hold with
    hnone | ⟨f, f', bound, info, captured, args', hc, hi, hb, hg', hf, hargs⟩
  · obtain ⟨c, m₄, hit, hdead⟩ := iterate_applying_of_callee?_none program hs.calm hw hnone (by
      intro f hf
      rw [hs.frames] at hf
      cases List.mem_singleton.1 hf) n
    obtain ⟨_, -, h₁⟩ := h.next hit
    exact .inl (h₁.concludes.failed_of_dead hdead)
  obtain ⟨p, hit, hcase⟩ := abreast_of_applying hbelow rfl hs.frames hw hc hi hb
    (hs.limit_eq.symm ▸ hroom) hg' hf hargs n n' h.obeys_iterate h.uniform_iterate
  obtain ⟨fuel₁, -, h₁⟩ := h.next hit
  have hfinish {fuel n : Nat} {p p' : Control × Machine κ}
      (h : Course program Q.size fuel n p.1 p.2 o m₃) (hab : Abreast Q p p')
      (hit' : iterate program n' .resuming m' = (.next p'.1, p'.2)) :
      o.Failed m₃.heap ∨ ∃ w w' m₃', o = .finished w ∧
        Concludes program n' .resuming m' (.finished w') m₃' ∧
          m₃.heap.SameGraph m₃'.heap w w' := by
    refine (h.finishes_of_abreast rfl hab (n' + 1)).imp_right ?_
    rintro ⟨w, w', m₃', ho, hfin, hgraph⟩
    exact ⟨w, w', m₃', ho, ((Reaches.refl _ _ _ _).head hit').concludes hfin, hgraph⟩
  rcases hcase with hdead | ⟨hp, hg, hbelow₁⟩ | ⟨p', hit', hab⟩
  · exact .inl (h₁.concludes.failed_of_dead hdead)
  · obtain ⟨c₁, m₄⟩ := p
    obtain rfl : c₁ = .resuming := hp
    obtain ⟨p₂, p₂', hit₂, hit₂', hab⟩ := abreast_of_gathered hbelow₁ rfl hg hg' hf hargs (n + 1) n'
      h₁.obeys_iterate h₁.uniform_iterate
    obtain ⟨fuel₂, -, h₂⟩ := h₁.next hit₂
    exact hfinish h₂ hab hit₂'
  · exact hfinish h₁ hab hit'

section Together

variable {f₀ : Address} {info : FunctionInfo κ} {captured : List Value}

theorem lt_size_of_callee?_resolve {h : Heap κ} {bound : List Value}
    (hc : h.callee? (h.resolve f) = some (f₀, bound)) : f.index < h.size := by
  by_contra hn
  have hnone : h.target? f = none := by
    cases ht : h.target? f with
    | none => rfl
    | some b => exact absurd (Heap.lt_size_of_cell_eq_thunk (Heap.target?_eq_some_iff.1 ht)) hn
  rw [Heap.resolve_of_target?_eq_none hnone] at hc
  exact hn (Heap.lt_size_of_callee? hc)

theorem Started.callee? (h : Started limit body m m₁) (hh : AtRest m.heap)
    (hc : m.heap.callee? (m.heap.resolve f) = some (f₀, [])) :
    m₁.heap.resolve f = m.heap.resolve f ∧
      m₁.heap.callee? (m₁.heap.resolve f) = some (f₀, []) := by
  have hlt := lt_size_of_callee?_resolve hc
  have hres : m₁.heap.resolve f = m.heap.resolve f :=
    ((h.heap_twin hh.twin_self).resolve ⟨hlt, rfl⟩).2.symm
  refine ⟨hres, ?_⟩
  rw [hres, Heap.callee?, h.cell_of_lt (hh.closed.lt_size_resolve hlt)]
  exact hc

theorem Started.function? (h : Started limit body m m₁)
    (hf : m.heap.function? f₀ = some (info, captured)) :
    m₁.heap.function? f₀ = some (info, captured) := by
  rw [Heap.function?, h.cell_of_lt (Heap.lt_size_of_callee? (Heap.callee?_of_function? hf))]
  exact hf

variable {m₂ : Machine κ}

theorem abreast_of_call (h : Started limit body m m₁) {body' : Suspension κ}
    (h' : Started (limit + ys.length) body' m m₁') (hh : AtRest m.heap)
    (hc : m.heap.callee? (m.heap.resolve f) = some (f₀, []))
    (hf : m.heap.function? f₀ = some (info, captured)) (hx : xs.length = info.arity)
    (hne : xs ≠ []) (hw : AllWithin m.heap.size xs) (n n' : Nat)
    (ho : program.Obeys (iterateCalls n (.applying f xs) m₁))
    (hu : program.Uniform m.heap.size (iterateCalls n (.applying f xs) m₁)) :
    ∃ p p', iterate program n (.applying f xs) m₁ = (.next p.1, p.2) ∧
      iterate program n' (.applying f (xs ++ ys)) m₁' = (.next p'.1, p'.2) ∧
      Abreast ⟨m.heap.size, limit, ⟨m.heap.size⟩, ⟨m.heap.size⟩, ys⟩ p p' := by
  have hf₀ : f₀.index < m.heap.size := Heap.lt_size_of_callee? (Heap.callee?_of_function? hf)
  obtain ⟨m₂, q, hc₂, hq, hit, hcalls⟩ := iterate_applying_of_calm program h.calm n f xs
  obtain ⟨m₂', q', hc₂', hq', hit', -⟩ :=
    iterate_applying_of_calm program h'.calm n' f (xs ++ ys)
  have hheap : m₂.heap = m₁.heap := congrArg Core.heap hc₂
  have hheap' : m₂'.heap = m₁'.heap := congrArg Core.heap hc₂'
  have hstack : m₂.context.stack = m₁.context.stack := congrArg Core.stack hc₂
  have hstack' : m₂'.context.stack = m₁'.context.stack := congrArg Core.stack hc₂'
  have hd := dispatchApply_of_callee? hne (hheap.symm ▸ (h.callee? hh hc).2)
  have hd' := dispatchApply_of_callee? (List.append_ne_nil_of_left_ne_nil hne ys)
    (hheap'.symm ▸ (h'.callee? hh hc).2)
  have htake : (xs ++ ys).take info.arity = xs := by rw [← hx, List.take_left]
  have hdrop : (xs ++ ys).drop info.arity = ys := by rw [← hx, List.drop_left]
  have hpos := h.limit_pos
  have hroom : m₂.context.stack.frames.length + (xs.drop info.arity).length ≤
      m₂.context.stack.limit := by
    rw [← hx, List.drop_length, hstack, h.frames, h.limit_eq]
    exact hpos
  have hroom' : m₂'.context.stack.frames.length + ((xs ++ ys).drop info.arity).length ≤
      m₂'.context.stack.limit := by
    rw [hdrop, hstack', h'.frames, h'.limit_eq]
    exact Nat.add_le_add_right hpos _
  have hle' : info.arity ≤ (xs ++ ys).length := by
    rw [List.length_append]
    omega
  obtain ⟨m₃, s, hc₃, hl, hs, he⟩ :=
    dispatchFunction_of_le (hheap.symm ▸ h.function? hf) (Nat.le_of_eq hx.symm) hroom
  obtain ⟨m₃', s', hc₃', hl', hs', he'⟩ :=
    dispatchFunction_of_le (hheap'.symm ▸ h'.function? hf) hle' hroom'
  rw [← hx, List.take_length] at he
  rw [← hx, List.drop_length, hstack, h.frames] at hs
  rw [htake] at he'
  rw [hdrop, hstack', h'.frames] at hs'
  rw [hstack] at hl
  rw [hstack'] at hl'
  let P : Footing := ⟨m.heap.size, limit, ⟨m.heap.size⟩, ⟨m.heap.size⟩, ys⟩
  have hbase : s.frames = [] ++ P.base := hs
  have hbase' : s'.frames = [] ++ P.base' := hs'
  have hstacks := (h.twin h' hh hs' hl').setStack hbase hbase' .nil hl rfl
  have ht : m₃.Twin P (.identity m.heap.size) (some []) m₃' :=
    hstacks.of_core (by rw [hc₃, hc₂]; rfl) (by rw [hc₃', hc₂']; rfl) hq hq'
  have hself : AllTwin (.identity m.heap.size) xs xs := AllTwin.self ht.old hw
  rw [hcalls, calls_congr (hd.trans he)] at ho hu
  rw [hit, hit', follow_congr (Exec.bind_congr (hd.trans he)),
    follow_congr (Exec.bind_congr (hd'.trans he'))]
  exact abreast_dispatch (.inr (matches_dispatchExact (ht.old f₀ hf₀) hself _ _ ht)) ht.old ho hu

theorem iterate_applying_nil (program : Program κ) (hm : m.Calm) {bound : List Value}
    (hc : m.heap.callee? (m.heap.resolve f) = some (f₀, bound)) (n : Nat) :
    ∃ m₁ q, iterate program n (.applying f []) m = (.next .resuming, m₁) ∧ q.Patient ∧
      m₁.core = { m.core with
        registers := m.context.registers.setResult (m.heap.resolve f)
        scheduler := q } := by
  obtain ⟨m₀, q, hc₀, hq, hit, -⟩ := iterate_applying_of_calm program hm n f []
  have hheap : m₀.heap = m.heap := congrArg Core.heap hc₀
  have hx : apply program f [] m₀ = Exec.giveBack (m.heap.resolve f) m₀ := by
    rw [apply_nil (hheap.symm ▸ hc), hheap]
  refine ⟨m₀.setResult (m.heap.resolve f), q, ?_, hq, ?_⟩
  · rw [hit, ← apply_eq_finish]
    exact follow_of_resume hx
  · rw [Machine.core_setResult, hc₀]
    rfl

theorem concludes_of_nothing (h : Started limit body m m₁) (hh : AtRest m.heap)
    (hc : m.heap.callee? (m.heap.resolve f) = some (f₀, [])) {h' : Heap κ}
    (ht : m₁.heap.Twin (.identity m.heap.size) h') (n : Nat) :
    ∃ m₂, Concludes program n (.applying f []) m₁ (.finished (m.heap.resolve f)) m₂ ∧ m₂.Calm ∧
      m₂.heap.Twin (.identity m.heap.size) h' := by
  obtain ⟨hres, hc₁⟩ := h.callee? hh hc
  obtain ⟨m₂, q, hit, hq, hcore⟩ := iterate_applying_nil program h.calm hc₁ n
  have hheap : m₂.heap = m₁.heap := congrArg Core.heap hcore
  have hregs : m₂.context.registers = m₁.context.registers.setResult (m₁.heap.resolve f) :=
    congrArg Core.registers hcore
  have hstack : m₂.context.stack = m₁.context.stack := congrArg Core.stack hcore
  rw [hres] at hregs hc₁
  have hself : m₁.heap.resolve (m.heap.resolve f) = m.heap.resolve f := Heap.resolve_of_callee? hc₁
  have hvalue : m₂.heap.isValue (m₂.heap.resolve (m.heap.resolve f)) = true := by
    rw [hheap, hself, Heap.isValue, hself, Heap.variant]
    rcases Heap.callee?_eq_some_iff.1 hc₁ with ⟨_, _, hcell, -⟩ | hcell <;> rw [hcell] <;> rfl
  have hown : (m₂.heap.owner? ⟨m.heap.size⟩).isSome := by
    rw [hheap, h.owner?_eq]
    rfl
  obtain ⟨m₃, hfin, hheap₃, hcalm⟩ := concludes_of_update program (h.calm.of_core hq hcore)
    (by rw [hstack, h.frames]) (by rw [hregs, Registers.result?_setResult]) hown hvalue (n + 1)
  refine ⟨m₃, ((Reaches.refl _ _ _ _).head hit).concludes hfin, hcalm, ?_⟩
  rw [hheap] at hown hvalue
  rw [hheap₃, hheap]
  refine ht.settle_left (fun b hb => Nat.lt_irrefl _ hb.1) hown
    (ht.directed.valued_of_isValue ?_ hvalue)
  rw [hself]
  exact Heap.lt_size_of_callee? hc₁

theorem abreast_of_same_call {P : Footing} {ρ : Renaming} (h : m.TwinBelow P ρ m')
    (hs : m.context.stack.frames = P.base) (hs' : m'.context.stack.frames = P.base')
    (hc : m.heap.callee? (m.heap.resolve g) = some (f₀, []))
    (hc' : m'.heap.callee? (m'.heap.resolve f) = some (f₀, [])) (hrel : ρ.rel f₀ f₀)
    (hy : ys ≠ []) (hys : AllTwin ρ ys ys) (n n' : Nat)
    (ho : program.Obeys (iterateCalls n (.applying g ys) m))
    (hu : program.Uniform P.size (iterateCalls n (.applying g ys) m)) :
    ∃ p p', iterate program n (.applying g ys) m = (.next p.1, p.2) ∧
      iterate program n' (.applying f ys) m' = (.next p'.1, p'.2) ∧ Abreast P p p' := by
  obtain ⟨hcalm, hcalm'⟩ := h.calm
  obtain ⟨m₁, q, hc₁, hq, hit, hcalls⟩ := iterate_applying_of_calm program hcalm n g ys
  obtain ⟨m₁', q', hc₁', hq', hit', -⟩ := iterate_applying_of_calm program hcalm' n' f ys
  have hheap : m₁.heap = m.heap := congrArg Core.heap hc₁
  have hheap' : m₁'.heap = m'.heap := congrArg Core.heap hc₁'
  have hd := dispatchApply_of_callee? hy (hheap.symm ▸ hc)
  have hd' := dispatchApply_of_callee? hy (hheap'.symm ▸ hc')
  have ht : m₁.Twin P ρ (some []) m₁' :=
    h.twin hc₁ hc₁' hq hq' (hs.trans (List.nil_append _).symm)
      (hs'.trans (List.nil_append _).symm) .nil rfl rfl
  rw [hcalls, calls_congr hd] at ho hu
  rw [hit, hit', follow_congr (Exec.bind_congr hd), follow_congr (Exec.bind_congr hd')]
  exact abreast_dispatch (.inr (matches_dispatchFunction hrel hys _ _ ht)) ht.old ho hu

end Together

end Joining

section Law

theorem callee?_of_thunk {h : Heap κ} (hv : h.variant f = .thunk) : h.callee? f = none := by
  cases hc : h.cell f with
  | thunk state => rw [Heap.callee?, hc]
  | _ =>
    rw [Heap.variant, hc] at hv
    cases hv

theorem concludes_of_unready (program : Program κ) {v : Value} {rest : List (Frame κ)}
    (h : Unready (.apply v :: rest) m) (hm : m.Calm) (n : Nat) :
    ∃ m₁, Concludes program n .resuming m (.halted (.applyNonFunction "thunk" 1)) m₁ := by
  obtain ⟨hs, p, hr, hv⟩ := h
  obtain ⟨m₀, s, q, hc, hq, -, -, hit, -⟩ := iterate_resuming_of_calm program hm hs n
  have hheap : m₀.heap = m.heap := congrArg Core.heap hc
  have hregs : m₀.context.registers = m.context.registers := congrArg Core.registers hc
  have hcallee := callee?_of_thunk hv
  let e := RuntimeError.applyNonFunction "thunk" 1
  have hx : resumeFrame program (.apply v) m₀ = Exec.raise e m₀ := by
    have happly : resumeFrame program (.apply v) m₀ = _ :=
      applyFrame_of_callee?_eq_none (hregs ▸ hr) (hheap ▸ hcallee)
    rw [happly, hheap, hv]
    rfl
  have hnext : iterate program n .resuming m = (.next (.halted e), m₀) := by
    rw [hit, ← resumeFrame_eq_finish, follow_congr hx]
    rfl
  have hover := iterate_halted program (n + 1) e (hm.of_core hq hc).interrupted
  exact ⟨_, ((Reaches.refl _ _ _ _).head hnext).concludes
    ⟨1, n + 2, iterateUpTo_of_over (Prod.ext hover rfl)⟩⟩

/-- When arguments of an application are to be given to what the others made of it, that has yet to
be evaluated. -/
def Delays (program : Program κ) (limit : Nat) (body : Suspension κ) (ys : List Value)
    (m : Machine κ) : Prop :=
  ∃ k n m₁, iterateUpTo program k 0 (.entering ⟨m.heap.size⟩) (launch limit body m) =
    ((n, .next .resuming), m₁) ∧ Unready (ys.map .apply ++ [.update ⟨m.heap.size⟩]) m₁

variable {f₀ w : Address} {info : FunctionInfo κ} {captured : List Value} {fuel₁ fuel₂ : Nat}
  {first second direct : Suspension κ} {m₂ : Machine κ}

theorem evaluateNew_of_started
    (hit : iterate program 0 (.entering ⟨m.heap.size⟩) (launch limit body m) =
      (.next (.applying f xs), m₁))
    (h : (∃ w' m', Concludes program 1 (.applying f xs) m₁ (.finished w') m' ∧
        m₂.heap.SameGraph m'.heap w w') ∨
      ∃ n m', Reaches program 1 (.applying f xs) m₁ n .resuming m' ∧ m'.Calm ∧
        Unready (ys.map .apply ++ [.update ⟨m.heap.size⟩]) m') (hy : ys ≠ []) :
    (∃ fuel w' m', evaluateNew program fuel limit body m = (some (.ok w'), m') ∧
      m₂.heap.SameGraph m'.heap w w') ∨
    Delays program limit body ys m ∧ ∃ fuel m', evaluateNew program fuel limit body m =
      (some (.error (.applyNonFunction "thunk" 1)), m') := by
  rcases h with ⟨w', m', hfin, hgraph⟩ | ⟨n, m', hreach, hcalm, hunready⟩
  · obtain ⟨fuel, he⟩ := evaluateNew_of_concludes
      (((Reaches.refl _ _ _ _).head hit).concludes hfin) (.inl ⟨w', rfl, rfl⟩)
    exact .inl ⟨fuel, w', m', he, hgraph⟩
  · obtain ⟨y, rest, rfl⟩ := List.exists_cons_of_ne_nil hy
    have hreach := ((Reaches.refl program _ _ _).head hit).trans hreach
    obtain ⟨m₃, hhalts⟩ := concludes_of_unready program hunready hcalm n
    obtain ⟨k, hk⟩ := id hreach
    obtain ⟨fuel, he⟩ := evaluateNew_of_concludes (hreach.concludes hhalts) (.inr ⟨_, rfl, rfl⟩)
    exact .inr ⟨⟨0 + k, n, m', hk 0, hunready⟩, fuel, m₃, he⟩

variable {fuel fuel' : Nat} {o o' : Outcome κ} {m₃ m₄ : Machine κ}

theorem Started.exists_twin (h : Started limit body m m₁) {body' : Suspension κ}
    (h' : Started (limit + ys.length) body' m m₁') (hh : AtRest m.heap) :
    ∃ s : FrameStack κ, s.limit = limit + ys.length ∧
      m₁.Twin ⟨m.heap.size, limit, ⟨m.heap.size⟩, ⟨m.heap.size⟩, ys⟩ (.identity m.heap.size)
        (some []) (m₁'.setStack s) := by
  have hroom : (ys.map .apply ++ [Frame.update ⟨m.heap.size⟩] : List (Frame κ)).length ≤
      limit + ys.length := by
    have hpos := h.limit_pos
    rw [List.length_append, List.length_map, List.length_singleton]
    omega
  obtain ⟨s, hs, hl⟩ := exists_stack _ hroom
  exact ⟨s, hl, h.twin h' hh hs (hl.trans h'.limit_eq.symm)⟩

theorem finishes_of_same_call (h : Started limit body m m₁) {body' : Suspension κ}
    (h' : Started (limit + ys.length) body' m m₁') (hh : AtRest m.heap)
    (hc : m.heap.callee? (m.heap.resolve f) = some (f₀, []))
    (hf : m.heap.function? f₀ = some (info, captured)) (hy : ys ≠ [])
    (hw : AllWithin m.heap.size ys) (ht : m₂.heap.Twin (.identity m.heap.size) m₁'.heap)
    (hs : Started (limit + ys.length) second m₂ m₃)
    (hcourse : Course program m.heap.size fuel 1 (.applying (m.heap.resolve f) ys) m₃ o m₄) :
    o.Failed m₄.heap ∨ ∃ w w' m', o = .finished w ∧
      Concludes program 1 (.applying f ys) m₁' (.finished w') m' ∧
      m₄.heap.SameGraph m'.heap w w' := by
  obtain ⟨s, hl, htwin⟩ := h.exists_twin h' hh
  let Q : Footing := ⟨m.heap.size, limit + ys.length, ⟨m₂.heap.size⟩, ⟨m.heap.size⟩, []⟩
  have hbelow : m₃.TwinBelow Q (.identity m.heap.size) m₁' := by
    obtain ⟨s₁, s₁', ht₁, hl₁, hl₁'⟩ := hs.twinBelow htwin ht hl.symm
    exact ⟨s₁, s₁', ht₁, hl₁, hl₁'.trans (hl.trans h'.limit_eq.symm)⟩
  obtain ⟨hres, hc'⟩ := h'.callee? hh hc
  have hlt := lt_size_of_callee?_resolve hc
  have hf₀ := Heap.lt_size_of_callee? (Heap.callee?_of_function? hf)
  have hcell : m₃.heap.callee? (m₃.heap.resolve (m.heap.resolve f)) = some (f₀, []) := by
    have hg := hbelow.heap.resolve ⟨hh.closed.lt_size_resolve hlt, rfl⟩
    rw [hres] at hc'
    rw [Heap.resolve_of_callee? hc'] at hg
    obtain ⟨-, hn⟩ | ⟨f₁, f₁', bound, bound', hc₁, hc₁', hrel, hbound⟩ := hbelow.heap.callee? hg
    · rw [hc'] at hn
      cases hn
    obtain ⟨rfl, rfl⟩ := Prod.mk.inj (Option.some.inj (hc₁'.symm.trans hc'))
    cases hbound
    rw [hc₁, hrel.2]
  have hys : AllTwin (.identity m.heap.size) ys ys := AllTwin.self (fun b => hbelow.old) hw
  obtain ⟨p, p', hit, hit', hab⟩ := abreast_of_same_call hbelow hs.frames h'.frames hcell hc'
    (hbelow.old hf₀) hy hys 1 1 hcourse.obeys_iterate hcourse.uniform_iterate
  obtain ⟨fuel', -, hcourse⟩ := hcourse.next hit
  have hcourse : Course program Q.size fuel' 2 p.1 p.2 o m₄ := hcourse
  refine (hcourse.finishes_of_abreast rfl hab 2).imp_right ?_
  rintro ⟨w, w', m', ho, hfin, hgraph⟩
  exact ⟨w, w', m', ho, ((Reaches.refl _ _ _ _).head hit').concludes hfin, hgraph⟩

theorem lands_of_saturated (h : Started limit body m m₁) {body' : Suspension κ}
    (h' : Started (limit + ys.length) body' m m₁') (hh : AtRest m.heap)
    (hc : m.heap.callee? (m.heap.resolve f) = some (f₀, []))
    (hf : m.heap.function? f₀ = some (info, captured)) (hx : xs.length = info.arity)
    (hne : xs ≠ []) (hw : AllWithin m.heap.size xs)
    (hcourse : Course program m.heap.size fuel 1 (.applying f xs) m₁ o m₂) :
    o.Failed m₂.heap ∨ ∃ P ρ n m₃ m', P = ⟨m.heap.size, limit, ⟨m.heap.size⟩, ⟨m.heap.size⟩, ys⟩ ∧
      Reaches program 1 (.applying f (xs ++ ys)) m₁' n .resuming m' ∧
      Machine.Twin P ρ (some [Slot.result]) m₃ m' ∧
      (Unready P.base' m' ∨ ∃ v, o = .finished v ∧ m₂.Calm ∧ m₂.heap.Twin ρ m'.heap ∧
        Handed P ρ m₂.heap v m') := by
  let P : Footing := ⟨m.heap.size, limit, ⟨m.heap.size⟩, ⟨m.heap.size⟩, ys⟩
  obtain ⟨p, p', hit, hit', hab⟩ := abreast_of_call h h' hh hc hf hx hne hw 1 1
    hcourse.obeys_iterate hcourse.uniform_iterate
  obtain ⟨fuel', -, hcourse⟩ := hcourse.next hit
  have hcourse : Course program P.size fuel' 2 p.1 p.2 o m₂ := hcourse
  cases hab with
  | dead hd => exact .inl (hcourse.concludes.failed_of_dead hd)
  | twins hcontrol ht =>
    refine (hcourse.exists_landing ht hcontrol 2).imp_right ?_
    rintro ⟨σ, n, fuel₁, n₁, m₃, m', -, hcourse₁, hl, hreach, ht₃⟩
    refine ⟨P, σ, n, m₃, m', rfl, hreach.head hit', ht₃, ?_⟩
    refine (finishes_of_landed program hl ht₃ n₁).imp_right ?_
    rintro ⟨v, m₄, hfin, hcalm, ht₄, hd⟩
    obtain ⟨rfl, rfl⟩ := hcourse₁.concludes.unique hfin
    exact ⟨v, rfl, hcalm, ht₄, hd⟩

/-- If a function applied to as many arguments as it takes has a value, and that applied to others
has a value, then the function applied to all of them has a value of the same shape; or it delays,
and the application in one step halts. -/
theorem overApplication (hm : m.Calm) (hh : AtRest m.heap)
    (hc : m.heap.callee? (m.heap.resolve f) = some (f₀, []))
    (hf : m.heap.function? f₀ = some (info, captured)) (hx : xs.length = info.arity) (hy : ys ≠ [])
    (hw : AllWithin m.heap.size (xs ++ ys)) (hl : 0 < limit)
    (hfirst : program.body first.code first.captured = .done (.apply f xs))
    (hsecond : program.body second.code second.captured = .done (.apply g ys))
    (hdirect : program.body direct.code direct.captured = .done (.apply f (xs ++ ys)))
    (h₁ : evaluateNew program fuel₁ limit first m = (some (.ok g), m₁))
    (h₂ : evaluateNew program fuel₂ (limit + ys.length) second m₁ = (some (.ok w), m₂))
    (ho : program.Obeys (newCalls program fuel₁ limit first m ++
      newCalls program fuel₂ (limit + ys.length) second m₁))
    (hu : program.Uniform m.heap.size (newCalls program fuel₁ limit first m ++
      newCalls program fuel₂ (limit + ys.length) second m₁)) :
    (∃ fuel w' m', evaluateNew program fuel (limit + ys.length) direct m = (some (.ok w'), m') ∧
      m₂.heap.SameGraph m'.heap w w') ∨
    Delays program (limit + ys.length) direct ys m ∧
      ∃ fuel m', evaluateNew program fuel (limit + ys.length) direct m =
        (some (.error (.applyNonFunction "thunk" 1)), m') := by
  obtain ⟨m₃, hit, hs⟩ := exists_started hm hl hfirst
  obtain ⟨m₃', hit', hs'⟩ := exists_started hm (Nat.add_pos_left hl ys.length) hdirect
  refine evaluateNew_of_started hit' ?_ hy
  obtain ⟨o₁, e₁, hrun₁, hfailed₁, hend₁⟩ := exists_run_of_evaluateNew h₁
  obtain ⟨o₂, e₂, hrun₂, hfailed₂, hend₂⟩ := exists_run_of_evaluateNew h₂
  have hcourse₁ : Course program m.heap.size fuel₁ 0 _ _ o₁ e₁ :=
    ⟨hrun₁, fun c hcall => ho c (List.mem_append_left _ hcall),
      fun c hcall => hu c (List.mem_append_left _ hcall)⟩
  have hcourse₂ : Course program m.heap.size fuel₂ 0 _ _ o₂ e₂ :=
    ⟨hrun₂, fun c hcall => ho c (List.mem_append_right _ hcall),
      fun c hcall => hu c (List.mem_append_right _ hcall)⟩
  obtain ⟨fuel₃, -, hcourse₁⟩ := hcourse₁.next hit
  by_cases hxs : xs = []
  · subst hxs
    obtain ⟨s, hsl, htwin⟩ := hs.exists_twin hs' hh
    obtain ⟨e, hfin, hcalm, ht⟩ := concludes_of_nothing hs hh hc htwin.heap 1
    obtain ⟨rfl, rfl⟩ := hcourse₁.concludes.unique hfin
    obtain ⟨rfl, rfl⟩ := hend₁ _ rfl
    obtain ⟨m₄, hit₂, hs₂⟩ := exists_started hcalm (Nat.add_pos_left hl ys.length) hsecond
    obtain ⟨fuel₄, -, hcourse₂⟩ := hcourse₂.next hit₂
    rcases finishes_of_same_call hs hs' hh hc hf hy hw ht hs₂ hcourse₂ with
      hfailed | ⟨w₁, w', m', rfl, hfin', hgraph⟩
    · exact absurd hfailed hfailed₂
    · obtain ⟨rfl, rfl⟩ := hend₂ _ rfl
      exact .inl ⟨w', m', hfin', hgraph⟩
  · have hwx : AllWithin m.heap.size xs := fun v hv => hw v (List.mem_append_left _ hv)
    have hwy : AllWithin m.heap.size ys := fun v hv => hw v (List.mem_append_right _ hv)
    rcases lands_of_saturated hs hs' hh hc hf hx hxs hwx hcourse₁ with
      hfailed | ⟨P, ρ, n, m₄, m', rfl, hreach, ht, hunready | ⟨v, rfl, hcalm, hheap, hd⟩⟩
    · exact absurd hfailed hfailed₁
    · exact .inr ⟨n, m', hreach, ht.calm', hunready⟩
    obtain ⟨rfl, rfl⟩ := hend₁ _ rfl
    obtain ⟨m₅, hit₂, hs₂⟩ := exists_started hcalm (Nat.add_pos_left hl ys.length) hsecond
    obtain ⟨fuel₄, -, hcourse₂⟩ := hcourse₂.next hit₂
    rcases finishes_of_handed hd ht hheap hs₂ ht.room.2.symm hy (Nat.lt_add_of_pos_left hl)
        (AllTwin.self ht.old hwy) hcourse₂ n with hfailed | ⟨w₁, w', m₆, rfl, hfin', hgraph⟩
    · exact absurd hfailed hfailed₂
    · obtain ⟨rfl, rfl⟩ := hend₂ _ rfl
      exact .inl ⟨w', m₆, hreach.concludes hfin', hgraph⟩

end Law

section Delayed

def onBoxed (next : Address → Action Nat Step) : Value → Action Nat Step
  | .boxed a => next a
  | _ => .fail .enterPartial

def onArgument (next : Address → Action Nat Step) : Action Nat Step := do
  onBoxed next (← Action.register .boxed 1)

def delaying : Program Nat where
  body
  | 0, _ => do
    let g ← Action.allocated (.function ⟨"identity", 1, 1⟩ [])
    Action.giveBack (← Action.allocated (.thunk ⟨2, [.boxed g]⟩))
  | 1, _ => onArgument Action.giveBack
  | 2, [v] => onBoxed Action.giveBack v
  | 3, v :: args => onBoxed (fun callee => .done (.apply callee args)) v
  | 4, _ => onArgument fun a => do
    Action.giveBack (← Action.allocated (.function ⟨"always", 1, 2⟩ [.boxed a]))
  | _, _ => .fail .enterPartial

def delayed : Machine Nat where
  shared := {
    heap := ⟨#[.function ⟨"delay", 1, 0⟩ [], .function ⟨"constant", 1, 4⟩ [], .data ⟨"X", 0⟩ [],
      .data ⟨"Y", 0⟩ []]⟩
    waiting := .empty
    lastThread := 0
    journal := .empty
    trace := .empty .silent }
  scheduler := .standalone
  context := .new 0 64

def application (args : List Address) : Suspension Nat := ⟨3, args.map .boxed⟩

def inTwoStages (f x y : Address) :
    StateM (Machine Nat) (Option (Except RuntimeError Address)) := do
  match ← evaluateNew delaying 20 64 (application [f, x]) with
  | some (.ok g) => evaluateNew delaying 20 65 (application [g, y])
  | other => return other

variable {ρ : Renaming} {known : List Slot} {captured captured' : List Value}
  {next next' : Address → Action Nat Step}

theorem obeys_onBoxed (h : ∀ a, (next a).Obeys known) (v : Value) :
    (onBoxed next v).Obeys known := by
  cases v with
  | boxed a => exact h a
  | _ => trivial

theorem obeys_onArgument (hk : Slot.result ∈ known) (h : ∀ a, (next a).Obeys known) :
    (onArgument next).Obeys known := by
  refine ⟨fun s hs => ?_, fun r => ?_⟩
  · cases hs
    exact hk
  · cases r with
    | error e => trivial
    | ok v => exact obeys_onBoxed h v

theorem obeys_giveBack (a : Address) : (Action.giveBack a : Action Nat Step).Obeys known :=
  fun _ => List.mem_cons_self

theorem obeys_delaying (code : Nat) (captured : List Value)
    (h : code = 1 ∨ code = 4 → Slot.result ∈ known) :
    (delaying.body code captured).Obeys known := by
  unfold delaying
  dsimp only
  split
  · exact fun _ _ => obeys_giveBack _
  · exact obeys_onArgument (h (.inl rfl)) obeys_giveBack
  · exact obeys_onBoxed obeys_giveBack _
  · refine obeys_onBoxed ?_ _
    exact fun callee => nofun
  · exact obeys_onArgument (h (.inr rfl)) fun _ _ => obeys_giveBack _
  · trivial

theorem twin_onBoxed {v v' : Value} (hv : v.Twin ρ v')
    (h : ∀ a a', ρ.rel a a' → (next a).Twin ρ (next' a')) :
    (onBoxed next v).Twin ρ (onBoxed next' v') := by
  cases hv with
  | boxed ha => exact h _ _ ha
  | primitive hk =>
    cases v with
    | boxed a => exact absurd rfl hk
    | _ => exact .fail (.refl _)

theorem twin_onArgument (h : ∀ a a', ρ.rel a a' → (next a).Twin ρ (next' a')) :
    (onArgument next).Twin ρ (onArgument next') :=
  .readRegister _ _ (fun _ _ hv => twin_onBoxed hv h) fun e => .fail (.refl e)

theorem twin_giveBack {a a' : Address} (h : ρ.rel a a') :
    (Action.giveBack a : Action Nat Step).Twin ρ (Action.giveBack a') :=
  .setResult h (.done .resume)

theorem twin_delaying (code : Nat) (h : AllTwin ρ captured captured') :
    (delaying.body code captured).Twin ρ (delaying.body code captured') := by
  have hfail : (Action.fail .enterPartial : Action Nat Step).Twin ρ (.fail .enterPartial) :=
    .fail (.refl _)
  match code with
  | 0 =>
    refine .allocate (.function _ .nil) fun σ g g' _ hg => ?_
    exact .allocate (.unevaluated 2 (.cons (.boxed hg) .nil)) fun _ _ _ _ ht => twin_giveBack ht
  | 1 => exact twin_onArgument fun _ _ => twin_giveBack
  | 2 =>
    cases h with
    | nil => exact hfail
    | cons hv hvs =>
      cases hvs with
      | nil => exact twin_onBoxed hv fun _ _ => twin_giveBack
      | cons => exact hfail
  | 3 =>
    cases h with
    | nil => exact hfail
    | cons hv hvs => exact twin_onBoxed hv fun _ _ ha => .done (.apply ha hvs)
  | 4 =>
    refine twin_onArgument fun a a' ha => ?_
    exact .allocate (.function _ (.cons (.boxed ha) .nil)) fun _ _ _ _ hg => twin_giveBack hg
  | n + 5 => exact hfail

theorem uniform_delaying (n : Nat) (cs : List (Call Nat)) : delaying.Uniform n cs :=
  fun c _ _ _ _ h => twin_delaying c.code h

theorem atRest_delayed : AtRest delayed.heap where
  closed := by
    intro ⟨i⟩
    match i with
    | 0 | 1 | 2 | 3 => exact allWithin_nil _
    | i + 4 => exact allWithin_nil _
  flat := by
    intro ⟨i⟩ f args h
    match i with
    | 0 | 1 | 2 | 3 => cases h
    | i + 4 => cases h
  directed := by
    intro ⟨i⟩ b h
    match i with
    | 0 | 1 | 2 | 3 => cases h
    | i + 4 => cases h
  idle := by
    intro ⟨i⟩
    match i with
    | 0 | 1 | 2 | 3 => rfl
    | i + 4 => rfl

/-- The bodies read nothing but the argument that they are called with and do not look at addresses;
the two stages have a value, and the application in one step has none. -/
theorem not_overApplication_delayed :
    (∀ code captured known, (code = 1 ∨ code = 4 → Slot.result ∈ known) →
      (delaying.body code captured).Obeys known) ∧
    (∀ n cs, delaying.Uniform n cs) ∧ AtRest delayed.heap ∧
    (inTwoStages ⟨0⟩ ⟨2⟩ ⟨3⟩ delayed).1 = some (.ok ⟨3⟩) ∧
    (evaluateNew delaying 20 65 (application [⟨0⟩, ⟨2⟩, ⟨3⟩]) delayed).1 =
      some (.error (.applyNonFunction "thunk" 1)) :=
  ⟨fun code captured _ h => obeys_delaying code captured h, uniform_delaying, atRest_delayed,
    by decide +kernel, by decide +kernel⟩

theorem overApplication_constant :
    ∃ g m₁ m₂, evaluateNew delaying 20 64 (application [⟨1⟩, ⟨2⟩]) delayed = (some (.ok g), m₁) ∧
      evaluateNew delaying 20 65 (application [g, ⟨3⟩]) m₁ = (some (.ok ⟨2⟩), m₂) ∧
      ∃ fuel w' m', evaluateNew delaying fuel 65 (application [⟨1⟩, ⟨2⟩, ⟨3⟩]) delayed =
        (some (.ok w'), m') ∧ m₂.heap.SameGraph m'.heap ⟨2⟩ w' := by
  let m₁ := (evaluateNew delaying 20 64 (application [⟨1⟩, ⟨2⟩]) delayed).2
  let m₂ := (evaluateNew delaying 20 65 (application [⟨5⟩, ⟨3⟩]) m₁).2
  have hfirst : evaluateNew delaying 20 64 (application [⟨1⟩, ⟨2⟩]) delayed =
      (some (.ok ⟨5⟩), m₁) := Prod.fst_eq_iff.1 (by decide +kernel)
  have hsecond : evaluateNew delaying 20 65 (application [⟨5⟩, ⟨3⟩]) m₁ =
      (some (.ok ⟨2⟩), m₂) := Prod.fst_eq_iff.1 (by decide +kernel)
  have hobeys : delaying.Obeys (newCalls delaying 20 64 (application [⟨1⟩, ⟨2⟩]) delayed ++
      newCalls delaying 20 65 (application [⟨5⟩, ⟨3⟩]) m₁) := by
    have hknown : ∀ c ∈ newCalls delaying 20 64 (application [⟨1⟩, ⟨2⟩]) delayed ++
        newCalls delaying 20 65 (application [⟨5⟩, ⟨3⟩]) m₁,
        c.code = 1 ∨ c.code = 4 → Slot.result ∈ c.arguments.map Prod.fst := by decide +kernel
    exact fun c hc => obeys_delaying _ _ (hknown c hc)
  refine ⟨⟨5⟩, m₁, m₂, hfirst, hsecond, ?_⟩
  obtain ⟨m₃, hanswer⟩ : ∃ m₃, evaluateNew delaying 20 65 (application [⟨1⟩, ⟨2⟩, ⟨3⟩]) delayed =
      (some (.ok ⟨2⟩), m₃) := ⟨_, Prod.fst_eq_iff.1 (by decide +kernel)⟩
  have hcalm : delayed.Calm := ⟨rfl, trivial⟩
  have hy : ([.boxed ⟨3⟩] : List Value) ≠ [] := List.cons_ne_nil _ _
  have hwithin : AllWithin delayed.heap.size ([.boxed ⟨2⟩] ++ [.boxed ⟨3⟩]) :=
    AllWithin.cons (v := .boxed ⟨2⟩) (show 2 < 4 by decide)
      (AllWithin.cons (v := .boxed ⟨3⟩) (show 3 < 4 by decide) (allWithin_nil _))
  have hdirect : delaying.body (application [⟨1⟩, ⟨2⟩, ⟨3⟩]).code
      (application [⟨1⟩, ⟨2⟩, ⟨3⟩]).captured =
        .done (.apply ⟨1⟩ ([.boxed ⟨2⟩] ++ [.boxed ⟨3⟩])) := rfl
  refine (overApplication hcalm atRest_delayed rfl rfl rfl hy hwithin (by decide) rfl rfl hdirect
    hfirst hsecond hobeys (uniform_delaying _ _)).resolve_right ?_
  rintro ⟨-, fuel, m', he⟩
  cases (evaluateNew_unique hanswer he).1

end Delayed

end GraphReduction.Application
