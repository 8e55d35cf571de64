import GraphReduction.Proofs.Effects
import GraphReduction.Proofs.KnownLayouts
import Mathlib.Algebra.Group.Prod
import Mathlib.Data.UInt

namespace GraphReduction

open Evaluation

variable {κ α : Type} {m m' : Machine κ} {c : Control}

def Heap.isFresh (h : Heap κ) (a : Address) : Bool :=
  match h.cell a with
  | .thunk (.unevaluated _) => true
  | _ => false

theorem Heap.isFresh_iff {h : Heap κ} {a : Address} :
    h.isFresh a = true ↔ ∃ body, h.cell a = .thunk (.unevaluated body) := by
  unfold Heap.isFresh
  split <;> simp_all

section Kept

theorem Machine.tally_pop? {frame : Frame κ} (h : m.pop? = some (frame, m')) :
    m'.tally = m.tally := by
  unfold Machine.pop? at h
  split at h <;> cases h
  rfl

theorem tolerant_tally : Machine.Tolerant (κ := κ) fun m m' => m'.tally = m.tally :=
  ⟨Plain.tally, fun h₁ h₂ => h₂.trans h₁⟩

theorem bears_tally : Machine.Bears (κ := κ) fun m m' => m'.tally = m.tally where
  refl _ := rfl
  trans h₁ h₂ := h₂.trans h₁
  context _ _ _ ht := ht
  allocate _ _ _ := rfl
  spark _ _ := rfl
  journal _ _ := rfl

variable {x : Exec κ α} {a : α}

theorem Exec.Respects.tally (hx : x.Respects fun m m' => m'.tally = m.tally)
    (h : x m = .ok a m') : m'.tally = m.tally := by
  have ht := hx m
  rwa [Exec.outcome_of_ok h] at ht

end Kept

namespace Evaluation

variable (program : Program κ)

theorem respects_run_tally (code : κ) (captured : List Value) :
    (run program code captured).Respects fun m m' => m'.tally = m.tally :=
  (program.body code captured).respects_perform bears_tally

theorem follow_of_ok {x : Exec κ Step} {s : Step} (h : x m = .ok s m')
    (hs : ∀ a, s ≠ .throw a) : follow x m = (.next (controlOf s), m') := by
  rw [follow_congr (y := pure s) h, follow_eq]
  cases s with
  | throw a => exact absurd rfl (hs a)
  | _ => rfl

def resumePoint? (r : Registers) : Control → Option Pending
  | .entering a => some (.enter a)
  | .applying f args => some (.apply f args)
  | .resuming => r.result?.map .resume
  | .blocked a => some (.enter a)
  | _ => none

theorem iterate_pool {q : RunQueue κ} (k : Nat) (hq : m.scheduler = .pool q)
    (hi : m.context.interrupted = false)
    (hc : ∀ e, suspensionPoint c m = .error (.halted e) → c = .halted e) :
    (k ≠ 0 ∧ ∃ pending, suspensionPoint c m = .ok pending ∧
      iterate program k c m = yieldThread pending m) ∨
      iterate program k c m = advance program c m := by
  have hpoll : m.scheduler.poll = (!q.threads.isEmpty, m.scheduler) := by rw [hq]; rfl
  unfold iterate
  rw [if_neg (by rw [hi]; exact Bool.false_ne_true)]
  split
  · exact .inr rfl
  · next hk =>
    rw [hpoll]
    dsimp only
    split
    · cases hs : suspensionPoint c m with
      | ok pending => exact .inl ⟨fun h0 => hk (.inl h0), pending, rfl, rfl⟩
      | error c' =>
        rcases suspensionPoint_eq_error hs with rfl | ⟨e, rfl⟩
        · exact .inr rfl
        · rw [hc e hs]
          exact .inr rfl
    · exact .inr rfl

theorem yieldThread_eq (pending : Pending) (m : Machine κ) :
    ∃ m', yieldThread pending m =
        (.over (.yielded ⟨m.context.thread, m.context.stack, pending⟩), m') ∧
      m'.heap = m.heap ∧ m'.scheduler = m.scheduler ∧
      m'.context.interrupted = m.context.interrupted ∧ m'.tally = m.tally := by
  let m₁ := ((m.count fun c => { c with yields := c.yields + 1 }).detach pending).2
  have hc := m₁.core_report .trampoline fun _ =>
    ⟨.debug, "yielding", threadDetail m.context.thread⟩
  exact ⟨_, rfl, congrArg Core.heap hc, congrArg Core.scheduler hc, congrArg Core.interrupted hc,
    m₁.tally_report _ _⟩

theorem advance_blocked (a : Address) (m : Machine κ) :
    ∃ m', advance program (.blocked a) m =
        (.over (.blocked ⟨m.context.thread, m.context.stack, .enter a⟩ a), m') ∧
      m'.heap = m.heap ∧ m'.scheduler = m.scheduler ∧
      m'.context.interrupted = m.context.interrupted ∧ m'.tally = m.tally := by
  let m₁ := reportControl (.blocked a) m
  have hc₁ : m₁.core = m.core := m.core_reportControl _
  let m₂ := (m₁.detach (.enter a)).2
  have hc₂ := m₂.core_report .trampoline fun _ =>
    ⟨.debug, "blocked on thunk", threadDetail m₁.context.thread⟩
  refine ⟨_, ?_, (congrArg Core.heap hc₂).trans (congrArg Core.heap hc₁),
    (congrArg Core.scheduler hc₂).trans (congrArg Core.scheduler hc₁),
    (congrArg Core.interrupted hc₂).trans (congrArg Core.interrupted hc₁),
    (m₂.tally_report _ _).trans (m.tally_reportControl _)⟩
  rw [← show m₁.context.thread = m.context.thread from congrArg Core.thread hc₁,
    ← show m₁.context.stack = m.context.stack from congrArg Core.stack hc₁]
  rfl

section Entering

variable {a : Address}

theorem advance_start {body : Suspension κ} (hc : m.heap.cell a = .thunk (.unevaluated body))
    (hroom : m.context.stack.frames.length < m.context.stack.limit) :
    ∃ m₁ s, (∀ program : Program κ, advance program (.entering a) m =
        follow (run program body.code body.captured) m₁) ∧
      m₁.core = { m.core with
        heap := m.heap.write a (.thunk (.underEvaluation m.context.thread body []))
        stack := s } ∧
      s.frames = .update a :: m.context.stack.frames ∧ s.limit = m.context.stack.limit ∧
      m₁.tally = m.tally + (1, 0) := by
  let m₁ := reportControl (.entering a) m
  have hc₁ : m₁.core = m.core := m.core_reportControl _
  have hheap : m₁.heap = m.heap := congrArg Core.heap hc₁
  have hstack : m₁.context.stack = m.context.stack := congrArg Core.stack hc₁
  have hthread : m₁.context.thread = m.context.thread := congrArg Core.thread hc₁
  let m₂ := m₁.setHeap
    (m₁.heap.write a (.thunk (.underEvaluation m₁.context.thread body [])))
  obtain ⟨m₃, s, hpush, hc₃, hf, hl⟩ := Machine.exists_push (m := m₂) (.update a)
    (by change m₁.context.stack.frames.length < m₁.context.stack.limit; rwa [hstack])
  have hx : ∀ program : Program κ, enter program a m₁ = run program body.code body.captured
      (m₃.count fun c => { c with thunkEntries := c.thunkEntries + 1 }) := by
    intro program
    rw [enter_eq_start program (hheap ▸ hc)]
    simp only [start]
    rw [hpush]
  refine ⟨_, s, fun program => follow_congr (m := m₁) (hx program), ?_, ?_, ?_, ?_⟩
  · change m₃.core = _
    rw [hc₃]
    change ({ m₁.core with
      heap := m₁.heap.write a (.thunk (.underEvaluation m₁.context.thread body []))
      stack := s } : Core κ) = _
    rw [hc₁, hheap, hthread]
  · rw [hf]
    change _ :: m₁.context.stack.frames = _
    rw [hstack]
  · rw [hl]
    change m₁.context.stack.limit = _
    rw [hstack]
  · have ht : m₃.tally = m.tally :=
      (Machine.tally_push hpush).trans (m.tally_reportControl _)
    rw [← ht]
    simp [Machine.tally, Machine.count]

theorem advance_value {v : Address} (hv : m.heap.target? a = some v) :
    ∃ m', advance program (.entering a) m = (.next .resuming, m') ∧
      m'.core = { m.core with registers := m.context.registers.setResult v } ∧
      m'.tally = m.tally := by
  let m₁ := reportControl (.entering a) m
  have hc₁ : m₁.core = m.core := m.core_reportControl _
  have hheap : m₁.heap = m.heap := congrArg Core.heap hc₁
  refine ⟨m₁.setResult v, follow_of_resume (m := m₁) (enter_eq_giveBack program (hheap ▸ hv)), ?_,
    m.tally_reportControl _⟩
  rw [Machine.core_setResult, hc₁]
  rfl

theorem advance_wait {t : ThreadId} {w : WaitingMap} (ht : m.heap.owner? a = some t)
    (hne : t ≠ m.context.thread)
    (hw : m.shared.waiting.register? m.heap m.context.thread a = some w) :
    ∃ m', advance program (.entering a) m = (.next (.blocked a), m') ∧
      m'.core = { m.core with waiting := w } ∧ m'.tally = m.tally := by
  let m₁ := reportControl (.entering a) m
  have hc₁ : m₁.core = m.core := m.core_reportControl _
  have hheap : m₁.heap = m.heap := congrArg Core.heap hc₁
  have hthread : m₁.context.thread = m.context.thread := congrArg Core.thread hc₁
  have hw₁ : m₁.shared.waiting.register? m₁.heap m₁.context.thread a = some w := by
    rw [hheap, hthread, show m₁.shared.waiting = m.shared.waiting from congrArg Core.waiting hc₁, hw]
  let m₂ := ({ m₁ with shared := { m₁.shared with waiting := w } }).count
    fun c => { c with blocks := c.blocks + 1 }
  have hx : enter program a m₁ = .ok (.block a) (m₂.report .update fun _ =>
      ⟨.trace, "thunk busy; blocking", [("thread", m₁.context.thread.text)]⟩) := by
    rw [enter_eq_of_owner program (hheap ▸ ht), if_neg (hthread ▸ hne)]
    simp only [enterBusy, hw₁]
    rfl
  refine ⟨_, follow_of_ok (m := m₁) hx (fun b hb => by cases hb), ?_, ?_⟩
  · rw [Machine.core_report]
    change ({ m₁.core with waiting := w } : Core κ) = _
    rw [hc₁]
  · rw [Machine.tally_report]
    exact m.tally_reportControl _

end Entering

section Resuming

variable {frame : Frame κ} {rest : List (Frame κ)}

theorem advance_frame (h : m.context.stack.frames = frame :: rest) :
    ∃ m₁ s, advance program .resuming m = follow (resumeFrame program frame) m₁ ∧
      m₁.core = { m.core with stack := s } ∧ s.frames = rest ∧
      s.limit = m.context.stack.limit ∧ m₁.tally = m.tally := by
  have hc := m.core_reportControl .resuming
  have hs : (reportControl .resuming m).context.stack = m.context.stack := congrArg Core.stack hc
  obtain ⟨m₁, s, hp, hc₁, hf, hl⟩ := Machine.exists_pop? (m := reportControl .resuming m) (hs ▸ h)
  refine ⟨m₁, s, advance_of_pop? program hp, by rw [hc₁, hc], hf, by rw [hl, hs], ?_⟩
  exact (Machine.tally_pop? hp).trans (m.tally_reportControl _)

theorem advance_finish {v : Address} (hs : m.context.stack.frames = [])
    (hr : m.context.registers.result? = some v) :
    ∃ m', advance program .resuming m = (.over (.finished v), m') ∧ m'.heap = m.heap ∧
      m'.scheduler = m.scheduler ∧ m'.context.interrupted = m.context.interrupted ∧
      m'.tally = m.tally := by
  have hc := m.core_reportControl .resuming
  refine ⟨_, advance_of_pop?_eq_none program (Machine.pop?_eq_none ?_) ?_,
    congrArg Core.heap hc, congrArg Core.scheduler hc, congrArg Core.interrupted hc,
    m.tally_reportControl _⟩
  · rw [show (reportControl .resuming m).context.stack = m.context.stack from
      congrArg Core.stack hc, hs]
  · rw [show (reportControl .resuming m).context.registers = m.context.registers from
      congrArg Core.registers hc, hr]

theorem advance_update {a v : Address} (h : m.context.stack.frames = .update a :: rest)
    (hr : m.context.registers.result? = some v) (ha : m.heap.isThunk a = true)
    (hv : m.heap.isValue (m.heap.resolve v) = true) (ht : m.heap.target? a = none) :
    ∃ m' s, advance program .resuming m = (.next .resuming, m') ∧
      m'.core = { m.core with
        heap := (m.heap.settle a (m.heap.resolve v)).2
        scheduler := m.scheduler.wake a (m.heap.settle a (m.heap.resolve v)).1
        stack := s } ∧
      s.frames = rest ∧ s.limit = m.context.stack.limit ∧ m'.tally = m.tally + (0, 1) := by
  obtain ⟨m₁, s, hadv, hc₁, hf, hl, ht₁⟩ := advance_frame program h
  have hheap : m₁.heap = m.heap := congrArg Core.heap hc₁
  have hread : m₁.context.registers.readClosure 1 = .ok v := by
    rw [Registers.readClosure_one, show m₁.context.registers = m.context.registers from
      congrArg Core.registers hc₁, hr]
  let released := (m.heap.settle a (m.heap.resolve v)).1
  let m₂ := (m₁.setHeap (m.heap.settle a (m.heap.resolve v)).2).count
    fun c => { c with updates := c.updates + 1 }
  let m₃ := m₂.report .update fun _ => ⟨.trace, "thunk updated",
    [("thread", m₁.context.thread.text), ("released", toString released.length)]⟩
  have hc₃ : m₃.core = m₂.core := Machine.core_report _ _ _
  have hx : updateThunk a m₁ = .ok .resume (m₃.wake a released) := by
    simp only [updateThunk, hread, hheap, ha, hv, ht, onHeap_eq]
    rfl
  refine ⟨_, s, hadv.trans (follow_of_resume (m := m₁) hx), ?_, hf, hl, ?_⟩
  · rw [Machine.core_wake, hc₃, show m₃.scheduler = m₁.scheduler from
      congrArg Core.scheduler hc₃]
    change ({ m₁.core with
      heap := (m.heap.settle a (m.heap.resolve v)).2
      scheduler := m₁.core.scheduler.wake a released } : Core κ) = _
    rw [hc₁]
    rfl
  · have hwake : (m₃.wake a released).tally = m₃.tally := by
      unfold Machine.wake
      cases m₃.scheduler.wakeRemark? released with
      | none => rfl
      | some r => exact m₃.tally_report _ _
    rw [hwake, Machine.tally_report, ← ht₁]
    simp [m₂, Machine.tally, Machine.count, Machine.setHeap]

end Resuming

section Calling

variable {f : Address} {info : FunctionInfo κ} {captured args : List Value}
  {rest : List (Frame κ)}

theorem advance_call (hne : args ≠ []) (hf : m.heap.function? f = some (info, captured))
    (harity : args.length = info.arity) (hn : SchemaTable.standard.lookup args = none)
    (hroom : m.context.stack.frames.length + args.length ≤ m.context.stack.limit) :
    ∃ m' s, advance program (.applying f args) m = (.next .resuming, m') ∧
      m'.core = { m.core with stack := s, registers := m.context.registers.setResult f } ∧
      s.frames = args.map .apply ++ m.context.stack.frames ∧
      s.limit = m.context.stack.limit ∧ m'.tally = m.tally := by
  let m₁ := reportControl (.applying f args) m
  have hc₁ : m₁.core = m.core := m.core_reportControl _
  have hheap : m₁.heap = m.heap := congrArg Core.heap hc₁
  have hstack : m₁.context.stack = m.context.stack := congrArg Core.stack hc₁
  have hf₁ : m₁.heap.function? f = some (info, captured) := hheap ▸ hf
  obtain ⟨m₂, s, hcall, hc₂, hframes, hl⟩ := callByFrames_eq (m := m₁) f
    (by rwa [hstack])
  have hx : apply program f args m₁ = .ok .resume m₂ := by
    have hcallee := Heap.callee?_of_function? hf₁
    rw [apply_of_callee? hne (by rwa [Heap.resolve_of_callee? hcallee]), List.nil_append,
      applyFunction_eq hf₁, if_pos harity, callExact_eq program f hne]
    rw [hn]
    exact hcall
  refine ⟨m₂, s, follow_of_resume (m := m₁) hx, ?_, by rw [hframes, hstack], by rw [hl, hstack], ?_⟩
  · rw [hc₂, hc₁, show m₁.context.registers = m.context.registers from congrArg Core.registers hc₁]
  · exact ((respects_apply tolerant_tally (respects_run_tally program) f args).tally hx).trans
      (m.tally_reportControl _)

theorem advance_gather {v : Value} {vs : List Value} {slots : List Slot} {s : Step}
    (hframes : m.context.stack.frames = (v :: vs).map .apply ++ rest)
    (hr : m.context.registers.result? = some f)
    (hf : m.heap.function? f = some (info, captured)) (harity : (v :: vs).length = info.arity)
    (hl : layoutFor ((v :: vs).map Value.kind) = .ok slots) :
    ∃ m₁ st, m₁.core = { m.core with
        stack := st, registers := m.context.registers.loaded (v :: vs) slots } ∧
      st.frames = rest ∧ st.limit = m.context.stack.limit ∧
      ∀ m', run program info.code captured m₁ = .ok s m' → (∀ a, s ≠ .throw a) →
        advance program .resuming m = (.next (controlOf s), m') ∧ m'.tally = m.tally := by
  obtain ⟨m₂, s₂, hadv, hc₂, hf₂, hl₂, ht₂⟩ := advance_frame program hframes
  have hheap : m₂.heap = m.heap := congrArg Core.heap hc₂
  have hregisters : m₂.context.registers = m.context.registers := congrArg Core.registers hc₂
  have hstack : m₂.context.stack = s₂ := congrArg Core.stack hc₂
  obtain ⟨m₁, st, hrun, hc₁, hst, hlt⟩ := applyFrame_gathers (m := m₂) program
    (by rwa [hregisters]) (hheap ▸ hf) harity (by rw [hstack, hf₂]; rfl) hl
  refine ⟨m₁, st, ?_, hst, by rw [hlt, hstack, hl₂], fun m' hs hne => ⟨?_, ?_⟩⟩
  · rw [hc₁, hc₂, hregisters]
  · exact hadv.trans (follow_of_ok (m := m₂) (hrun.trans hs) hne)
  · exact ((respects_applyFrame tolerant_tally (respects_run_tally program) v).tally
      (hrun.trans hs)).trans ht₂

end Calling

end Evaluation

end GraphReduction
