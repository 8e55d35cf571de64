import GraphReduction.Proofs.Lockstep

namespace GraphReduction

open Evaluation

variable {κ : Type} {program : Program κ} {n k : Nat} {c c' c₁ : Control} {m m' m₁ m₂ : Machine κ}
  {o o₁ : Outcome κ} {fuel : Nat}

namespace Evaluation

/-- The thread's time is over without a result, and it cannot go on. -/
def Outcome.Failed (h : Heap κ) : Outcome κ → Prop
  | .blocked _ a => (h.owner? a).isSome
  | .halted _ | .endless => True
  | _ => False

def Reaches (program : Program κ) (n : Nat) (c : Control) (m : Machine κ) (n₁ : Nat) (c₁ : Control)
    (m₁ : Machine κ) : Prop :=
  ∃ k, ∀ fuel, iterateUpTo program (fuel + k) n c m = iterateUpTo program fuel n₁ c₁ m₁

def Concludes (program : Program κ) (n : Nat) (c : Control) (m : Machine κ) (o : Outcome κ)
    (m₁ : Machine κ) : Prop :=
  ∃ fuel k, iterateUpTo program fuel n c m = ((k, .over o), m₁)

theorem Reaches.refl (program : Program κ) (n : Nat) (c : Control) (m : Machine κ) :
    Reaches program n c m n c m := ⟨0, fun _ => rfl⟩

theorem Reaches.head (h : iterate program n c m = (.next c₁, m₁)) {n₂ : Nat} {c₂ : Control}
    (hr : Reaches program (n + 1) c₁ m₁ n₂ c₂ m₂) : Reaches program n c m n₂ c₂ m₂ := by
  obtain ⟨k, hk⟩ := hr
  exact ⟨k + 1, fun fuel => (iterateUpTo_of_next h).trans (hk fuel)⟩

theorem Reaches.trans {n₁ n₂ : Nat} {c₂ : Control} (h : Reaches program n c m n₁ c₁ m₁)
    (h₁ : Reaches program n₁ c₁ m₁ n₂ c₂ m₂) : Reaches program n c m n₂ c₂ m₂ := by
  obtain ⟨j, hj⟩ := h
  obtain ⟨k, hk⟩ := h₁
  refine ⟨k + j, fun fuel => ?_⟩
  rw [← Nat.add_assoc, hj, hk]

theorem Reaches.concludes {n₁ : Nat} (h : Reaches program n c m n₁ c₁ m₁)
    (h₁ : Concludes program n₁ c₁ m₁ o m₂) : Concludes program n c m o m₂ := by
  obtain ⟨j, hj⟩ := h
  obtain ⟨fuel, k, hk⟩ := h₁
  exact ⟨fuel + j, k, (hj fuel).trans hk⟩

theorem iterateUpTo_add (h : iterateUpTo program fuel n c m = ((k, .over o), m₁)) (j : Nat) :
    iterateUpTo program (fuel + j) n c m = ((k, .over o), m₁) := by
  induction fuel generalizing n c m with
  | zero => cases h
  | succ fuel ih =>
    rw [Nat.add_right_comm, iterateUpTo_succ]
    rw [iterateUpTo_succ] at h
    cases hi : (iterate program n c m).1 with
    | next c₁ =>
      rw [hi] at h
      exact ih h
    | «over» o₁ =>
      rw [hi] at h
      exact h

theorem Concludes.unique (h : Concludes program n c m o m₁) (h₁ : Concludes program n c m o₁ m₂) :
    o = o₁ ∧ m₁ = m₂ := by
  obtain ⟨fuel, k, hk⟩ := h
  obtain ⟨fuel₁, k₁, hk₁⟩ := h₁
  have he := (iterateUpTo_add hk fuel₁).symm.trans
    ((congrArg (iterateUpTo program · n c m) (Nat.add_comm _ _)).trans (iterateUpTo_add hk₁ fuel))
  cases he
  exact ⟨rfl, rfl⟩

theorem iterate_of_dead (program : Program κ) (n : Nat) (hc : c.Dead m.heap) :
    ∃ c' m', iterate program n c m = advance program c' m' ∧ m'.heap = m.heap ∧
      c'.Dead m.heap := by
  have hpoint (m₁ : Machine κ) : suspensionPoint c m₁ = .error c := by
    cases c with
    | entering _ | applying _ _ | resuming => exact hc.elim
    | _ => rfl
  unfold iterate
  split
  · exact ⟨_, m, rfl, rfl, trivial⟩
  · split
    · exact ⟨c, m, rfl, rfl, hc⟩
    · dsimp only
      rw [hpoint]
      split <;> exact ⟨c, _, rfl, rfl, hc⟩

theorem Concludes.failed_of_dead (h : Concludes program n c m o m₁) (hc : c.Dead m.heap) :
    o.Failed m₁.heap := by
  obtain ⟨fuel, k, h⟩ := h
  cases fuel with
  | zero => cases h
  | succ fuel =>
    obtain ⟨c₂, m₂, hi, hh, hd⟩ := iterate_of_dead program n hc
    have hcore : (reportControl c₂ m₂).heap = m.heap := by
      rw [← hh]
      exact congrArg Core.heap (m₂.core_reportControl c₂)
    rw [iterateUpTo_succ, hi] at h
    cases c₂ with
    | entering _ | applying _ _ | resuming => exact hd.elim
    | halted e =>
      cases h
      trivial
    | endless =>
      cases h
      trivial
    | blocked a =>
      cases h
      refine Eq.mpr (congrArg (fun h : Heap κ => (h.owner? a).isSome = true) ?_) hd
      exact (congrArg Core.heap (Machine.core_report _ _ _)).trans hcore

end Evaluation

/-- A run to the end of the thread's time, of bodies that keep to their registers and treat what
they capture alike. -/
structure Evaluation.Course (program : Program κ) (size fuel n : Nat) (c : Control) (m : Machine κ)
    (o : Outcome κ) (m₁ : Machine κ) : Prop where
  run : ∃ k, iterateUpTo program fuel n c m = ((k, .over o), m₁)
  obeys : program.Obeys (iterateUpToCalls program fuel n c m)
  uniform : program.Uniform size (iterateUpToCalls program fuel n c m)

namespace Evaluation.Course

variable {size : Nat} (h : Course program size fuel n c m o m₁)
include h

theorem concludes : Concludes program n c m o m₁ := ⟨fuel, h.run⟩

theorem exists_succ : ∃ fuel', fuel = fuel' + 1 := by
  obtain ⟨k, hk⟩ := h.run
  cases fuel with
  | zero => cases hk
  | succ fuel' => exact ⟨fuel', rfl⟩

theorem obeys_iterate : program.Obeys (iterateCalls n c m) := by
  obtain ⟨fuel', rfl⟩ := h.exists_succ
  exact fun call hcall => h.obeys call (List.mem_append_left _ hcall)

theorem uniform_iterate : program.Uniform size (iterateCalls n c m) := by
  obtain ⟨fuel', rfl⟩ := h.exists_succ
  exact fun call hcall => h.uniform call (List.mem_append_left _ hcall)

theorem next (hi : iterate program n c m = (.next c₁, m₂)) :
    ∃ fuel', fuel' < fuel ∧ Course program size fuel' (n + 1) c₁ m₂ o m₁ := by
  obtain ⟨fuel', rfl⟩ := h.exists_succ
  obtain ⟨k, hk⟩ := h.run
  have hmem {call : Call κ} (hcall : call ∈ iterateUpToCalls program fuel' (n + 1) c₁ m₂) :
      call ∈ iterateUpToCalls program (fuel' + 1) n c m := by
    rw [iterateUpToCalls, hi]
    exact List.mem_append_right _ hcall
  exact ⟨fuel', Nat.lt_succ_self _, ⟨k, (iterateUpTo_of_next hi).symm.trans hk⟩,
    fun call hcall => h.obeys call (hmem hcall), fun call hcall => h.uniform call (hmem hcall)⟩

end Evaluation.Course

section Landing

variable {P : Footing} {ρ : Renaming}

theorem Evaluation.Course.exists_landing (h : Course program P.size fuel n c m o m₁)
    (hm : m.Twin P ρ c.need m') (hc : c.Twin ρ c') (n' : Nat) :
    o.Failed m₁.heap ∨ ∃ σ j fuel₂ n₂ m₂ m₂', fuel₂ ≤ fuel ∧
      Course program P.size fuel₂ n₂ .resuming m₂ o m₁ ∧ Landed P .resuming m₂ ∧
      Reaches program n' c' m' j .resuming m₂' ∧ m₂.Twin P σ (some [Slot.result]) m₂' := by
  induction fuel using Nat.strongRecOn generalizing ρ n n' c c' m m' with
  | ind fuel ih =>
    by_cases hl : Landed P c m
    · obtain ⟨rfl, -⟩ := id hl
      cases hc
      exact .inr ⟨ρ, n', fuel, n, m, m', Nat.le_refl _, h, hl, .refl _ _ _ _, hm⟩
    obtain ⟨⟨c₁, m₁⟩, ⟨c₁', m₁'⟩, hi, hi', hab⟩ :=
      abreast_iterate hm hc hl n n' h.obeys_iterate h.uniform_iterate
    obtain ⟨fuel', hlt, h₁⟩ := h.next hi
    cases hab with
    | dead hd => exact .inl (h₁.concludes.failed_of_dead hd)
    | twins hc₁ hm₁ =>
      refine (ih fuel' hlt h₁ hm₁ hc₁ (n' + 1)).imp_right ?_
      rintro ⟨σ, j, fuel₂, n₂, m₂, m₂', hle, h₂, hl₂, hr, hm₂⟩
      exact ⟨σ, j, fuel₂, n₂, m₂, m₂', Nat.le_of_lt (Nat.lt_of_le_of_lt hle hlt), h₂, hl₂,
        hr.head hi', hm₂⟩

end Landing

section Resuming

variable {frame : Frame κ} {rest : List (Frame κ)} {a p : Address}

theorem Machine.Calm.of_core {s : FrameStack κ} {q : Scheduler κ} {h : Heap κ} {r : Registers}
    (hm : m.Calm) (hq : q.Patient)
    (hc : m₁.core = { m.core with heap := h, registers := r, stack := s, scheduler := q }) :
    m₁.Calm := by
  refine ⟨(congrArg Core.interrupted hc).trans hm.interrupted, ?_⟩
  rw [show m₁.scheduler = q from congrArg Core.scheduler hc]
  exact hq

theorem iterate_resuming_of_calm (program : Program κ) (hm : m.Calm)
    (hs : m.context.stack.frames = frame :: rest) (n : Nat) :
    ∃ m₁ s q, m₁.core = { m.core with stack := s, scheduler := q } ∧ q.Patient ∧
      s.frames = rest ∧ s.limit = m.context.stack.limit ∧
      iterate program n .resuming m = follow (dispatchFrame frame >>= finish program) m₁ ∧
      iterateCalls n .resuming m = calls (dispatchFrame frame) m₁ := by
  obtain ⟨m₀, q, hc, hq, hi, hcalls⟩ := iterate_of_calm program hm n .resuming
  have hstack : (reportControl .resuming m₀).context.stack = m.context.stack :=
    (congrArg Core.stack (m₀.core_reportControl .resuming)).trans (congrArg Core.stack hc)
  obtain ⟨m₁, s, hp, hc₁, hf, hl⟩ := Machine.exists_pop? (by rwa [hstack])
  refine ⟨m₁, s, q, ?_, hq, hf, by rw [hl, hstack], ?_, ?_⟩
  · rw [hc₁, m₀.core_reportControl, hc]
  · rw [hi, advance_of_pop? program hp, resumeFrame_eq_finish]
  · rw [hcalls]
    unfold callsOf
    dsimp only
    rw [hp]

theorem concludes_of_empty (program : Program κ) (hm : m.Calm) (hs : m.context.stack.frames = [])
    (hr : m.context.registers.result? = some p) (n : Nat) :
    ∃ m₁, Concludes program n .resuming m (.finished p) m₁ ∧ m₁.heap = m.heap ∧ m₁.Calm := by
  obtain ⟨m₀, q, hc, hq, hi, -⟩ := iterate_of_calm program hm n .resuming
  have hcore : (reportControl .resuming m₀).core = { m.core with scheduler := q } :=
    (m₀.core_reportControl .resuming).trans hc
  have hstack : (reportControl .resuming m₀).context.stack = m.context.stack :=
    congrArg Core.stack hcore
  have hregs : (reportControl .resuming m₀).context.registers = m.context.registers :=
    congrArg Core.registers hcore
  have hcalm : (reportControl .resuming m₀).Calm := hm.of_core hq hcore
  rw [advance_of_pop?_eq_none program (Machine.pop?_eq_none (by rwa [hstack]))
    (by rwa [hregs])] at hi
  exact ⟨_, ⟨1, n + 1, iterateUpTo_of_over hi⟩, congrArg Core.heap hcore,
    hcalm.interrupted, hcalm.patient⟩

theorem concludes_of_update (program : Program κ) (hm : m.Calm)
    (hs : m.context.stack.frames = [.update a]) (hr : m.context.registers.result? = some p)
    (ha : (m.heap.owner? a).isSome) (hv : m.heap.isValue (m.heap.resolve p) = true) (n : Nat) :
    ∃ m₁, Concludes program n .resuming m (.finished p) m₁ ∧
      m₁.heap = (m.heap.settle a (m.heap.resolve p)).2 ∧ m₁.Calm := by
  obtain ⟨m₁, s, q, hc, hq, hf, -, hi, -⟩ := iterate_resuming_of_calm program hm hs n
  have hheap : m₁.heap = m.heap := congrArg Core.heap hc
  have hregs : m₁.context.registers = m.context.registers := congrArg Core.registers hc
  obtain ⟨t, ht⟩ := Option.isSome_iff_exists.1 ha
  obtain ⟨body, blocked, hcell⟩ := Heap.owner?_eq_some_iff.1 ht
  rw [← hheap] at hv hcell
  rw [← hregs] at hr
  have hthunk : m₁.heap.isThunk a = true := by
    rw [Heap.isThunk, Heap.thunk?_eq_some_iff.2 hcell]
    rfl
  have hx : dispatchFrame (.update a) >>= finish program = updateThunk a := stepped_bind _
  rcases updateThunk_spec a m₁ with ⟨e, m₂, -, -, ⟨hn, -⟩ | ⟨hn, -⟩ | ⟨⟨p₁, hp₁, hn⟩, -⟩⟩ |
    ⟨p₁, s₁, m₂, hp₁, -, hn, -⟩ | ⟨p₁, w, m₂, -, -, hw, -⟩ | ⟨p₁, m₂, hp₁, -, -, -, hup, hc₂⟩
  · rw [hr] at hn
    cases hn
  · exact absurd hthunk hn
  · obtain rfl := Option.some.inj (hr.symm.trans hp₁)
    exact absurd hv hn
  · obtain rfl := Option.some.inj (hr.symm.trans hp₁)
    exact absurd hv hn
  · rw [Heap.target?_eq_some_iff, hcell] at hw
    cases hw
  obtain rfl := Option.some.inj (hr.symm.trans hp₁)
  rw [hx, follow_of_resume hup] at hi
  have hstack : m₂.context.stack.frames = [] := by
    rw [show m₂.context.stack = m₁.context.stack from congrArg Core.stack hc₂,
      show m₁.context.stack = s from congrArg Core.stack hc, hf]
  have hregs₂ : m₂.context.registers = m₁.context.registers := congrArg Core.registers hc₂
  have hq₁ : m₁.scheduler = q := congrArg Core.scheduler hc
  have hcalm : m₂.Calm := (hm.of_core hq hc).of_core (hq₁ ▸ hq.wake _ _) hc₂
  obtain ⟨m₃, hconcludes, hheap₃, hcalm₃⟩ :=
    concludes_of_empty program hcalm hstack (by rw [hregs₂, hr]) (n + 1)
  refine ⟨m₃, ((Reaches.refl _ _ _ _).head hi).concludes hconcludes, ?_, hcalm₃⟩
  rw [hheap₃, show m₂.heap = _ from congrArg Core.heap hc₂, hheap]

theorem iterate_update_of_unevaluated (program : Program κ) (hm : m.Calm)
    (hs : m.context.stack.frames = .update a :: rest)
    (hr : m.context.registers.result? = some p) (ha : (m.heap.owner? a).isSome)
    (hv : ¬ m.heap.isValue (m.heap.resolve p) = true) (n : Nat) :
    ∃ m₁ s q, iterate program n .resuming m = (.next (.entering (m.heap.resolve p)), m₁) ∧
      m₁.core = { m.core with stack := s, scheduler := q } ∧ q.Patient ∧
      s.frames = m.context.stack.frames ∧ s.limit = m.context.stack.limit := by
  obtain ⟨m₁, s, q, hc, hq, hf, hl, hi, -⟩ := iterate_resuming_of_calm program hm hs n
  have hheap : m₁.heap = m.heap := congrArg Core.heap hc
  have hregs : m₁.context.registers = m.context.registers := congrArg Core.registers hc
  have hstack : m₁.context.stack = s := congrArg Core.stack hc
  obtain ⟨t, ht⟩ := Option.isSome_iff_exists.1 ha
  obtain ⟨body, blocked, hcell⟩ := Heap.owner?_eq_some_iff.1 ht
  have hroom : m₁.context.stack.frames.length < m₁.context.stack.limit := by
    have hd := m.context.stack.depth_le_limit
    rw [m.context.stack.depth_eq, hs, List.length_cons] at hd
    rw [hstack, hf, hl]
    omega
  rw [← hheap] at hv hcell
  rw [← hregs] at hr
  have hthunk : m₁.heap.isThunk a = true := by
    rw [Heap.isThunk, Heap.thunk?_eq_some_iff.2 hcell]
    rfl
  obtain ⟨m₂, s₂, hup, hc₂, hf₂, hl₂⟩ := updateThunk_of_unevaluated hr hthunk hv hroom
  have hx : dispatchFrame (.update a) >>= finish program = updateThunk a := stepped_bind _
  refine ⟨m₂, s₂, q, ?_, ?_, hq, ?_, ?_⟩
  · rw [hi, hx, follow_eq, Exec.outcome, hup, hheap]
    rfl
  · rw [hc₂, hc]
  · rw [hf₂, hstack, hf, hs]
  · rw [hl₂, hstack, hl]

end Resuming

section Finishing

variable {P : Footing} {ρ : Renaming}

theorem frames_of_landed (hl : Landed P .resuming m) (hw : P.waiting = [])
    (hm : m.Twin P ρ (some [Slot.result]) m') :
    m.context.stack.frames = [.update P.own] ∧ m'.context.stack.frames = [.update P.own'] := by
  obtain ⟨-, vs, hs, hvs⟩ := hl
  obtain rfl := hvs.resolve_right fun h => h.1 hw
  obtain ⟨fs, fs', hf, hf', hfs⟩ := hm.frames
  have hnil : fs = [] := List.append_left_eq_self.1 (hf.symm.trans hs)
  subst hnil
  cases hfs
  exact ⟨hs, by rw [hf', Footing.base', hw]; rfl⟩

theorem Evaluation.Course.finishes (hw : P.waiting = [])
    (h : Course program P.size fuel n c m o m₁) (hm : m.Twin P ρ c.need m') (hc : c.Twin ρ c')
    (n' : Nat) : o.Failed m₁.heap ∨ ∃ g g' m₁', o = .finished g ∧
      Concludes program n' c' m' (.finished g') m₁' ∧ m₁.heap.SameGraph m₁'.heap g g' := by
  induction fuel using Nat.strongRecOn generalizing ρ n n' c c' m m' with
  | ind fuel ih =>
    refine (h.exists_landing hm hc n').elim .inl ?_
    rintro ⟨σ, j, fuel₂, n₂, m₂, m₂', hle, h₂, hl, hr, hm₂⟩
    obtain ⟨hs, hs'⟩ := frames_of_landed hl hw hm₂
    obtain ⟨p, p', hp, hp', hrel⟩ := hm₂.result List.mem_cons_self
    have hvalue := hm₂.heap.isValue_eq (hm₂.heap.resolve hrel)
    by_cases hv : m₂.heap.isValue (m₂.heap.resolve p) = true
    · obtain ⟨m₃, hfin, hheap, -⟩ := concludes_of_update program hm₂.calm hs hp hm₂.own hv n₂
      obtain ⟨m₃', hfin', hheap', -⟩ :=
        concludes_of_update program hm₂.calm' hs' hp' hm₂.own' (hvalue.trans hv) j
      obtain ⟨rfl, rfl⟩ := h₂.concludes.unique hfin
      refine .inr ⟨p, p', m₃', rfl, hr.concludes hfin', ?_⟩
      rw [hheap, hheap']
      exact hm₂.heap.sameGraph_settle hrel hm₂.apart hm₂.apart' _ _
    · -- Both results are evaluated first, under the same update frames.
      obtain ⟨m₃, s, q, hi, hcore, hq, hf, hlim⟩ :=
        iterate_update_of_unevaluated program hm₂.calm hs hp hm₂.own hv n₂
      obtain ⟨m₃', s', q', hi', hcore', hq', hf', hlim'⟩ :=
        iterate_update_of_unevaluated program hm₂.calm' hs' hp' hm₂.own' (by rwa [hvalue]) j
      have hbase : s.frames = [] ++ P.base := hf.trans hs
      have hbase' : s'.frames = [] ++ P.base' := by
        rw [hf', hs', Footing.base', hw]
        rfl
      have hm₃ : m₃.Twin P σ (some []) m₃' :=
        (hm₂.nothing.setStack hbase hbase' .nil hlim hlim').of_core hcore hcore' hq hq'
      obtain ⟨fuel₃, hlt, h₃⟩ := h₂.next hi
      refine (ih fuel₃ (Nat.lt_of_lt_of_le hlt hle) h₃ hm₃ (.entering (hm₂.heap.resolve hrel))
        (j + 1)).imp_right ?_
      rintro ⟨g, g', m₁', ho, hfin, hgraph⟩
      exact ⟨g, g', m₁', ho, hr.concludes (((Reaches.refl _ _ _ _).head hi').concludes hfin),
        hgraph⟩

theorem Evaluation.Course.finishes_of_abreast {p p' : Control × Machine κ} (hw : P.waiting = [])
    (h : Course program P.size fuel n p.1 p.2 o m₁) (hab : Abreast P p p') (n' : Nat) :
    o.Failed m₁.heap ∨ ∃ g g' m₁', o = .finished g ∧
      Concludes program n' p'.1 p'.2 (.finished g') m₁' ∧ m₁.heap.SameGraph m₁'.heap g g' := by
  cases hab with
  | dead hd => exact .inl (h.concludes.failed_of_dead hd)
  | twins hc hm => exact h.finishes hw hm hc n'

end Finishing

end GraphReduction
