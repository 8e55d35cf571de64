import GraphReduction.Proofs.Entering
import Mathlib.Algebra.Group.Basic

namespace GraphReduction

variable {κ α β : Type}

namespace Counters

instance : Zero Counters := ⟨zero⟩

theorem zero_def : (0 : Counters) = ⟨0, 0, 0, 0, 0, 0, 0, 0, 0, 0⟩ := rfl

theorem add_def (a b : Counters) : a + b = add a b := rfl

instance : AddCommMonoid Counters where
  add_assoc a b c := by simp only [add_def, add, UInt64.add_assoc]
  zero_add a := by
    change add zero a = a
    simp only [add, zero, UInt64.zero_add]
  add_zero a := by
    change add a zero = a
    simp only [add, zero, UInt64.add_zero]
  add_comm a b := by
    rw [add_def, add_def, add, add]
    simp only [UInt64.add_comm]
  nsmul := nsmulRec

theorem exists_eq_add (a b : Counters) : ∃ d, a = b + d := by
  refine ⟨⟨a.thunkEntries - b.thunkEntries, a.updates - b.updates, a.blocks - b.blocks,
    a.partialApplications - b.partialApplications, a.fastPathCalls - b.fastPathCalls,
    a.genericCalls - b.genericCalls, a.overApplications - b.overApplications,
    a.framesPushed - b.framesPushed, a.yields - b.yields,
    a.exceptionsCaught - b.exceptionsCaught⟩, ?_⟩
  rw [add_comm]
  simp only [add_def, add, UInt64.sub_add_cancel]

def work (c : Counters) : Counters := { c with yields := 0 }

theorem work_add (a b : Counters) : (a + b).work = a.work + b.work := rfl

end Counters

namespace Scheduler

def Patient : Scheduler κ → Prop
  | standalone => True
  | manual m => ∃ answers, m.plan = .answers answers ∧ true ∉ answers
  | pool _ => False

variable {s : Scheduler κ}

theorem Patient.poll (h : s.Patient) : s.poll.1 = false ∧ s.poll.2.Patient := by
  cases s with
  | standalone => exact ⟨rfl, trivial⟩
  | pool q => exact h.elim
  | manual m =>
    obtain ⟨plan, limit, sparks, wakes⟩ := m
    obtain ⟨answers, rfl, hnot⟩ := h
    cases answers with
    | nil => exact ⟨rfl, [], rfl, hnot⟩
    | cons b rest =>
      rw [List.mem_cons, not_or] at hnot
      exact ⟨Bool.eq_false_iff.2 fun hb => hnot.1 hb.symm, rest, rfl, hnot.2⟩

theorem Patient.wake (h : s.Patient) (a : Address) (released : List (Thread κ)) :
    (s.wake a released).Patient := by
  cases s with
  | standalone => trivial
  | manual m => exact h
  | pool q => exact h.elim

theorem Patient.spark (h : s.Patient) (heap : Heap κ) (a : Address) :
    (s.spark heap a).2.Patient := by
  cases s with
  | standalone => trivial
  | pool q => exact h.elim
  | manual m =>
    unfold Scheduler.spark
    dsimp only
    split <;> exact h

end Scheduler

/-- What a thread needs of its worker: registers that hold values, unless it is about to wait. -/
abbrev Need := Option (List Slot)

def Machine.visible (m : Machine κ) : Core κ :=
  { m.core with scheduler := .standalone, workerId := 0, registers := .empty, exception := none }

def Machine.Unseen (m m' : Machine κ) (q : Scheduler κ) : Prop :=
  ∃ trace, m' = { m with shared := { m.shared with trace }, scheduler := q }

namespace Machine.Unseen

variable {m m₁ m₂ : Machine κ} {q q₁ : Scheduler κ}

theorem refl (m : Machine κ) : m.Unseen m m.scheduler := ⟨m.shared.trace, rfl⟩

theorem spark (m : Machine κ) (a : Address) :
    m.Unseen (m.spark a).2 (m.scheduler.spark m.heap a).2 :=
  ⟨m.shared.trace, rfl⟩

theorem report (m : Machine κ) (target : Target) (remark : Machine κ → Remark) :
    m.Unseen (m.report target remark) m.scheduler := by
  unfold Machine.report
  split
  · exact ⟨_, rfl⟩
  · exact ⟨m.shared.trace, rfl⟩

theorem trans (h : m.Unseen m₁ q) (h₁ : m₁.Unseen m₂ q₁) : m.Unseen m₂ q₁ := by
  obtain ⟨t, rfl⟩ := h
  obtain ⟨t₁, rfl⟩ := h₁
  exact ⟨t₁, rfl⟩

theorem scheduler_eq (h : m.Unseen m₁ q) : m₁.scheduler = q := by
  obtain ⟨t, rfl⟩ := h
  rfl

theorem wake (m : Machine κ) (a : Address) (released : List (Thread κ)) :
    m.Unseen (m.wake a released) (m.scheduler.wake a released) := by
  unfold Machine.wake
  cases m.scheduler.wakeRemark? released with
  | none => exact ⟨m.shared.trace, rfl⟩
  | some r =>
    have h := report m .scheduler fun _ => r
    have hw : (m.report .scheduler fun _ => r).Unseen
        { (m.report .scheduler fun _ => r) with
          scheduler := (m.report .scheduler fun _ => r).scheduler.wake a released }
        (m.scheduler.wake a released) := by
      rw [h.scheduler_eq]
      exact ⟨_, rfl⟩
    exact h.trans hw

theorem reportControl (c : Evaluation.Control) (m : Machine κ) :
    m.Unseen (Evaluation.reportControl c m) m.scheduler := by
  unfold Evaluation.reportControl
  split
  · dsimp only
    have h := report m .trampoline (Evaluation.controlRemark c)
    split
    · exact h
    · have h' := report (m.report .trampoline (Evaluation.controlRemark c)) .trampoline
        Evaluation.stackRemark
      rw [h.scheduler_eq] at h'
      exact h.trans h'
  · exact ⟨m.shared.trace, rfl⟩

end Machine.Unseen

/-- Two machines that a thread cannot tell apart. The first one's scheduler never asks to yield;
what it has counted apart from yields differs from the other's count by a constant. -/
structure Alike (d : Counters) (need : Need) (m m' : Machine κ) : Prop where
  visible : m'.visible = m.visible
  registers : ∀ s ∈ need.getD [], ∃ v,
    m.context.registers.get? s = some v ∧ m'.context.registers.get? s = some v
  free : need ≠ none → m.shared.waiting.find? m.context.thread = none
  counters : m.context.counters.work = m'.context.counters.work + d
  patient : m.scheduler.Patient

namespace Alike

variable {d : Counters} {need : Need} {known : List Slot} {m m' m₁ m₁' : Machine κ}

theorem heap (h : Alike d need m m') : m'.heap = m.heap := congrArg Core.heap h.visible

theorem stack (h : Alike d need m m') : m'.context.stack = m.context.stack :=
  congrArg Core.stack h.visible

theorem thread (h : Alike d need m m') : m'.context.thread = m.context.thread :=
  congrArg Core.thread h.visible

theorem waiting (h : Alike d need m m') : m'.shared.waiting = m.shared.waiting :=
  congrArg Core.waiting h.visible

theorem journal (h : Alike d need m m') : m'.shared.journal = m.shared.journal :=
  congrArg Core.journal h.visible

theorem interrupted (h : Alike d need m m') : m'.context.interrupted = m.context.interrupted :=
  congrArg Core.interrupted h.visible

theorem of_subset {known' : List Slot} (h : Alike d (some known) m m') (hs : known' ⊆ known) :
    Alike d (some known') m m' :=
  ⟨h.visible, fun s hm => h.registers s (hs hm), fun _ => h.free nofun, h.counters, h.patient⟩

theorem nothing (h : Alike d (some known) m m') : Alike d (some []) m m' :=
  h.of_subset (List.nil_subset _)

theorem wait (h : Alike d need m m') : Alike d none m m' :=
  ⟨h.visible, fun _ hm => (List.not_mem_nil hm).elim, fun hn => absurd rfl hn, h.counters,
    h.patient⟩

theorem change {δ : Counters} {f : Core κ → Core κ} (h : Alike d need m m')
    (hm : m₁.visible = f m.visible) (hm' : m₁'.visible = f m'.visible)
    (hw : m₁.shared.waiting = m.shared.waiting) (ht : m₁.context.thread = m.context.thread)
    (hr : m₁.context.registers = m.context.registers)
    (hr' : m₁'.context.registers = m'.context.registers)
    (hc : m₁.context.counters = m.context.counters + δ)
    (hc' : m₁'.context.counters = m'.context.counters + δ) (hp : m₁.scheduler.Patient) :
    Alike d need m₁ m₁' where
  visible := by rw [hm, hm', h.visible]
  registers := by
    rw [hr, hr']
    exact h.registers
  free hn := by
    rw [hw, ht]
    exact h.free hn
  counters := by
    rw [hc, hc', Counters.work_add, Counters.work_add, h.counters, add_right_comm]
  patient := hp

theorem count (h : Alike d need m m') {f : Counters → Counters}
    (hf : ∀ c, f c = c + f 0 := by
      exact fun c => by simp [Counters.zero_def, Counters.add_def, Counters.add]) :
    Alike d need (m.count f) (m'.count f) :=
  h.change (f := id) rfl rfl rfl rfl rfl rfl (hf _) (hf _) h.patient

theorem unseen {q q' : Scheduler κ} (h : Alike d need m m') (hm : m.Unseen m₁ q)
    (hm' : m'.Unseen m₁' q') (hq : q.Patient) : Alike d need m₁ m₁' := by
  obtain ⟨t, rfl⟩ := hm
  obtain ⟨t', rfl⟩ := hm'
  exact ⟨h.visible, h.registers, h.free, h.counters, hq⟩

theorem report (h : Alike d need m m') (target : Target) (remark : Machine κ → Remark) :
    Alike d need (m.report target remark) (m'.report target remark) :=
  h.unseen (.report m target remark) (.report m' target remark) h.patient

theorem reportControl (h : Alike d need m m') (c : Evaluation.Control) :
    Alike d need (Evaluation.reportControl c m) (Evaluation.reportControl c m') :=
  h.unseen (.reportControl c m) (.reportControl c m') h.patient

theorem wake (h : Alike d need m m') (a : Address) (released : List (Thread κ)) :
    Alike d need (m.wake a released) (m'.wake a released) :=
  h.unseen (.wake m a released) (.wake m' a released) (h.patient.wake a released)

theorem setStack (h : Alike d need m m') (s : FrameStack κ) :
    Alike d need (m.setStack s) (m'.setStack s) :=
  ⟨congrArg (fun c : Core κ => { c with stack := s }) h.visible, h.registers, h.free, h.counters,
    h.patient⟩

theorem setHeap (h : Alike d need m m') (heap : Heap κ) :
    Alike d need (m.setHeap heap) (m'.setHeap heap) :=
  ⟨congrArg (fun c : Core κ => { c with heap }) h.visible, h.registers, h.free, h.counters,
    h.patient⟩

theorem onHeap (h : Alike d need m m') (f : Heap κ → α × Heap κ) :
    (m'.onHeap f).1 = (m.onHeap f).1 ∧ Alike d need (m.onHeap f).2 (m'.onHeap f).2 := by
  rw [Evaluation.onHeap_eq, Evaluation.onHeap_eq, h.heap]
  exact ⟨rfl, h.setHeap _⟩

theorem setException (h : Alike d need m m') (e : Option Address) :
    Alike d need (m.setException e) (m'.setException e) :=
  ⟨h.visible, h.registers, h.free, h.counters, h.patient⟩

theorem put (h : Alike d (some known) m m') (i : Fin registersPerKind) (v : Value) :
    Alike d (some (⟨v.kind, i⟩ :: known)) (m.setRegisters (m.context.registers.put i v))
      (m'.setRegisters (m'.context.registers.put i v)) where
  visible := h.visible
  registers s hs := by
    change ∃ w, (m.context.registers.put i v).get? s = some w ∧
      (m'.context.registers.put i v).get? s = some w
    rw [Registers.get?_put, Registers.get?_put]
    by_cases he : s = ⟨v.kind, i⟩
    · exact ⟨v, by rw [if_pos he], by rw [if_pos he]⟩
    · rw [if_neg he, if_neg he]
      exact h.registers s ((List.mem_cons.1 hs).resolve_left he)
  free _ := h.free nofun
  counters := h.counters
  patient := h.patient

theorem setResult (h : Alike d (some known) m m') (a : Address) :
    Alike d (some (Slot.result :: known)) (m.setResult a) (m'.setResult a) :=
  h.put 0 (.boxed a)

theorem result (h : Alike d need m m') (hs : Slot.result ∈ need.getD []) :
    ∃ a, m.context.registers.result? = some a ∧ m'.context.registers.result? = some a := by
  obtain ⟨v, hv, hv'⟩ := h.registers _ hs
  obtain ⟨a, ha, rfl⟩ := Option.map_eq_some_iff.1 hv
  obtain ⟨b, hb, hba⟩ := Option.map_eq_some_iff.1 hv'
  cases hba
  exact ⟨a, ha, hb⟩

theorem read (h : Alike d (some known) m m') {k : Kind} {i : Nat}
    (hs : ∀ s, Slot.ofIndex k i = .ok s → s ∈ known) :
    m'.context.registers.read k i = m.context.registers.read k i := by
  cases hi : Slot.ofIndex k i with
  | error e => simp only [Registers.read, hi, bind, Except.bind]
  | ok s =>
    obtain ⟨v, hv, hv'⟩ := h.registers s (hs s hi)
    simp only [Registers.read, hi, bind, Except.bind, hv, hv']

theorem spark (h : Alike d need m m') (a : Address) :
    Alike d need (m.spark a).2 (m'.spark a).2 :=
  h.unseen (.spark m a) (.spark m' a) (h.patient.spark m.heap a)

theorem resetThunk (h : Alike d need m m') (a : Address) (remark : Nat → Option Remark) :
    Alike d need (m.resetThunk a remark) (m'.resetThunk a remark) := by
  obtain ⟨hreleased, hheap⟩ := h.onHeap (·.reset a)
  unfold Machine.resetThunk
  dsimp only
  rw [hreleased]
  cases remark (m.onHeap (·.reset a)).1.length with
  | none => exact hheap.wake a _
  | some r => exact (hheap.report .update fun _ => r).wake a _

theorem push (h : Alike d need m m') (frame : Frame κ) :
    (∃ m₁ m₁', m.push frame = .ok m₁ ∧ m'.push frame = .ok m₁' ∧ Alike d need m₁ m₁') ∨
      ∃ e, m.push frame = .error e ∧ m'.push frame = .error e := by
  unfold Machine.push
  rw [h.stack]
  cases m.context.stack.push frame with
  | error e => exact .inr ⟨e, rfl, rfl⟩
  | ok s =>
    exact .inl ⟨_, _, rfl, rfl, (h.setStack s).count⟩

theorem pop? (h : Alike d need m m') :
    (∃ frame m₁ m₁', m.pop? = some (frame, m₁) ∧ m'.pop? = some (frame, m₁') ∧
      Alike d need m₁ m₁') ∨ m.pop? = none ∧ m'.pop? = none := by
  unfold Machine.pop?
  rw [h.stack]
  cases m.context.stack.pop? with
  | none => exact .inr ⟨rfl, rfl⟩
  | some p => exact .inl ⟨p.1, _, _, rfl, rfl, h.setStack p.2⟩

theorem drop (h : Alike d need m m') : Alike d need m.drop m'.drop := by
  unfold Machine.drop
  rcases h.pop? with ⟨frame, m₁, m₁', hm, hm', h₁⟩ | ⟨hm, hm'⟩
  · rw [hm, hm']
    exact h₁
  · rw [hm, hm']
    exact h

end Alike

end GraphReduction
