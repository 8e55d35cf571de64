import GraphReduction.Proofs.Cells
import GraphReduction.Proofs.Machine

namespace GraphReduction.Evaluation

variable {κ : Type} {m : Machine κ} {a : Address} (program : Program κ)

theorem onHeap_eq {α : Type} (m : Machine κ) (f : Heap κ → α × Heap κ) :
    m.onHeap f = ((f m.heap).1, m.setHeap (f m.heap).2) := rfl

theorem enter_eq_start {body : Suspension κ} (hc : m.heap.cell a = .thunk (.unevaluated body)) :
    enter program a m = start program a body
      (m.setHeap (m.heap.write a (.thunk (.underEvaluation m.context.thread body [])))) := by
  simp only [enter, hc, onHeap_eq, Heap.enter]

theorem enter_eq_of_owner {t : ThreadId} (ht : m.heap.owner? a = some t) :
    enter program a m =
      if t = m.context.thread then Exec.raise .nonTermination m else enterBusy a m := by
  obtain ⟨body, blocked, hc⟩ := Heap.owner?_eq_some_iff.1 ht
  by_cases ho : t = m.context.thread
  · simp only [enter, hc, onHeap_eq, Heap.enter, if_pos ho]
    rfl
  · simp only [enter, hc, onHeap_eq, Heap.enter, if_neg ho]
    rfl

theorem enter_eq_giveBack {v : Address} (hv : m.heap.target? a = some v) :
    enter program a m = Exec.giveBack v m := by
  have hc := Heap.target?_eq_some_iff.1 hv
  simp only [enter, hc, onHeap_eq, Heap.enter]
  rfl

theorem enter_spec (program : Program κ) (a : Address) (m : Machine κ) :
    (∃ f args, m.heap.cell a = .unsaturated f args ∧
      enter program a m = Exec.raise .enterPartial m) ∨
      (m.heap.isThunk a = false ∧ enter program a m = Exec.giveBack a m) ∨
      (∃ v, m.heap.target? a = some v ∧ enter program a m = Exec.giveBack v m) ∨
      (m.heap.owner? a = some m.context.thread ∧
        enter program a m = Exec.raise .nonTermination m) ∨
      (∃ t, t ≠ m.context.thread ∧ m.heap.owner? a = some t ∧
        enter program a m = enterBusy a m) ∨
      ∃ body, m.heap.cell a = .thunk (.unevaluated body) ∧ enter program a m = start program a body
        (m.setHeap (m.heap.write a (.thunk (.underEvaluation m.context.thread body [])))) := by
  cases hc : m.heap.cell a with
  | function info captured =>
    refine .inr (.inl ⟨by simp only [Heap.isThunk, Heap.thunk?, hc]; rfl, ?_⟩)
    simp only [enter, hc, onHeap_eq, Heap.enter]
    rfl
  | data d fields =>
    refine .inr (.inl ⟨by simp only [Heap.isThunk, Heap.thunk?, hc]; rfl, ?_⟩)
    simp only [enter, hc, onHeap_eq, Heap.enter]
    rfl
  | unsaturated f args => exact .inl ⟨f, args, rfl, by simp only [enter, hc]⟩
  | thunk state =>
    refine .inr (.inr ?_)
    cases state with
    | evaluated v =>
      have hv := Heap.target?_eq_some_iff.2 hc
      exact .inl ⟨v, hv, enter_eq_giveBack program hv⟩
    | unevaluated body => exact .inr (.inr (.inr ⟨body, rfl, enter_eq_start program hc⟩))
    | underEvaluation t body blocked =>
      have ht : m.heap.owner? a = some t := Heap.owner?_eq_some_iff.2 ⟨body, blocked, hc⟩
      have hx := enter_eq_of_owner program ht
      by_cases hme : t = m.context.thread
      · exact .inr (.inl ⟨hme ▸ ht, hx.trans (if_pos hme)⟩)
      · exact .inr (.inr (.inl ⟨t, hme, ht, hx.trans (if_neg hme)⟩))

theorem enter_cases (program : Program κ) (a : Address) (m : Machine κ) :
    (∃ v, enter program a m = Exec.giveBack v m) ∨
      (∃ e, enter program a m = Exec.raise e m) ∨
      (∃ t, t ≠ m.context.thread ∧ m.heap.owner? a = some t ∧
        enter program a m = enterBusy a m) ∨
      ∃ body, m.heap.cell a = .thunk (.unevaluated body) ∧ enter program a m = start program a body
        (m.setHeap (m.heap.write a (.thunk (.underEvaluation m.context.thread body [])))) := by
  rcases enter_spec program a m with ⟨_, _, -, hx⟩ | ⟨-, hx⟩ | ⟨v, -, hx⟩ | ⟨-, hx⟩ | h | h
  · exact .inr (.inl ⟨_, hx⟩)
  · exact .inl ⟨a, hx⟩
  · exact .inl ⟨v, hx⟩
  · exact .inr (.inl ⟨_, hx⟩)
  · exact .inr (.inr (.inl h))
  · exact .inr (.inr (.inr h))

theorem enterBusy_of_cycle (hw : m.shared.waiting.register? m.heap m.context.thread a = none) :
    ∃ m', enterBusy a m = .error (.error .nonTermination) m' ∧ m'.core = m.core := by
  refine ⟨_, ?_, m.core_report .update fun _ => ⟨.debug, "blocking would deadlock; raising <<loop>>",
    [("thread", m.context.thread.text)]⟩⟩
  simp only [enterBusy, hw]

theorem enterBusy_of_register? {w : WaitingMap}
    (hw : m.shared.waiting.register? m.heap m.context.thread a = some w) :
    ∃ m', enterBusy a m = .ok (.block a) m' ∧ m'.core = { m.core with waiting := w } := by
  let m₁ := ({ m with shared := { m.shared with waiting := w } }).count
    fun c => { c with blocks := c.blocks + 1 }
  refine ⟨_, ?_, m₁.core_report .update fun _ => ⟨.trace, "thunk busy; blocking",
    [("thread", m.context.thread.text)]⟩⟩
  simp only [enterBusy, hw]
  rfl

theorem updateThunk_spec (a : Address) (m : Machine κ) :
    (∃ e m', updateThunk a m = .error (.error e) m' ∧ m'.core = m.core ∧
      (m.context.registers.result? = none ∧ e = .emptyRegister .boxed 1 ∨
        ¬ m.heap.isThunk a = true ∧ e = .updateNonThunk (m.heap.variant a).name ∨
        (∃ p, m.context.registers.result? = some p ∧ ¬ m.heap.isValue (m.heap.resolve p) = true) ∧
          m.context.stack.frames.length = m.context.stack.limit ∧
            e = .stackOverflow m.context.stack.limit)) ∨
      (∃ p s m', m.context.registers.result? = some p ∧ m.heap.isThunk a = true ∧
        ¬ m.heap.isValue (m.heap.resolve p) = true ∧ m.context.stack.push (.update a) = .ok s ∧
        updateThunk a m = .ok (.enter (m.heap.resolve p)) m' ∧
        m'.core = { m.core with stack := s }) ∨
      (∃ p w m', m.context.registers.result? = some p ∧
        m.heap.isValue (m.heap.resolve p) = true ∧ m.heap.target? a = some w ∧
        updateThunk a m = .ok .resume m' ∧
        m'.core = { m.core with registers := m.context.registers.setResult w }) ∨
      ∃ p m', m.context.registers.result? = some p ∧ m.heap.isThunk a = true ∧
        m.heap.isValue (m.heap.resolve p) = true ∧ m.heap.target? a = none ∧
        updateThunk a m = .ok .resume m' ∧
        m'.core = { m.core with
          heap := (m.heap.settle a (m.heap.resolve p)).2
          scheduler := m.scheduler.wake a (m.heap.settle a (m.heap.resolve p)).1 } := by
  have hread := Registers.readClosure_one m.context.registers
  cases hr : m.context.registers.result? with
  | none =>
    rw [hr] at hread
    refine .inl ⟨.emptyRegister .boxed 1, m, ?_, rfl, .inl ⟨rfl, rfl⟩⟩
    simp only [updateThunk, hread]
    rfl
  | some p =>
    rw [hr] at hread
    by_cases ha : m.heap.isThunk a = true
    case neg =>
      refine .inl ⟨.updateNonThunk (m.heap.variant a).name, m, ?_, rfl, .inr (.inl ⟨ha, rfl⟩)⟩
      simp only [updateThunk, hread, ha]
      rfl
    by_cases hv : m.heap.isValue (m.heap.resolve p) = true
    case neg =>
      let m₁ := m.report .update fun _ => ⟨.trace, "result is unevaluated; entering it first",
        [("thread", m.context.thread.text)]⟩
      have hc₁ : m₁.core = m.core := Machine.core_report _ _ _
      have hs₁ : m₁.context.stack = m.context.stack := congrArg Core.stack hc₁
      have hx : updateThunk a m =
          (Exec.push (.update a) >>= fun _ => pure (Step.enter (m.heap.resolve p))) m₁ := by
        simp only [updateThunk, hread, ha, hv]
        rfl
      -- The frame goes back on the stack before the result is entered, and may find no room.
      cases hpush : m₁.push (.update a) with
      | error e =>
        have hfull := Machine.push_eq_error hpush
        rw [hs₁] at hfull
        exact .inl ⟨e, m₁, hx.trans (Exec.bind_of_error (Exec.push_of_error hpush)), hc₁,
          .inr (.inr ⟨⟨p, rfl, hv⟩, hfull⟩)⟩
      | ok m₂ =>
        obtain ⟨s, hs, hc₂⟩ := Machine.push_eq_ok hpush
        rw [hs₁] at hs
        exact .inr (.inl ⟨p, s, m₂, rfl, ha, hv, hs,
          hx.trans (Exec.bind_of_ok (Exec.push_of_ok hpush)), hc₂.trans (by rw [hc₁])⟩)
    cases ht : m.heap.target? a with
    | some w =>
      let m₁ := m.report .update fun _ => ⟨.trace, "update lost; adopting first result",
        [("thread", m.context.thread.text)]⟩
      have hc₁ : m₁.core = m.core := Machine.core_report _ _ _
      refine .inr (.inr (.inl ⟨p, w, m₁.setResult w, rfl, hv, rfl, ?_, ?_⟩))
      · simp only [updateThunk, hread, ha, hv, ht]
        rfl
      · rw [Machine.core_setResult, hc₁]
        rfl
    | none =>
      let released := (m.heap.settle a (m.heap.resolve p)).1
      let m₁ := (m.setHeap (m.heap.settle a (m.heap.resolve p)).2).count
        fun c => { c with updates := c.updates + 1 }
      let m₂ := m₁.report .update fun _ => ⟨.trace, "thunk updated",
        [("thread", m.context.thread.text), ("released", toString released.length)]⟩
      have hc₂ : m₂.core = m₁.core := Machine.core_report _ _ _
      refine .inr (.inr (.inr ⟨p, m₂.wake a released, rfl, ha, hv, rfl, ?_, ?_⟩))
      · simp only [updateThunk, hread, ha, hv, ht, onHeap_eq]
        rfl
      · rw [Machine.core_wake, hc₂, show m₂.scheduler = m.scheduler from
          congrArg Core.scheduler hc₂]
        rfl

theorem heap_updateThunk (a : Address) (m : Machine κ) :
    ((updateThunk a).outcome m).2.heap = m.heap ∨
      ∃ p, m.context.registers.result? = some p ∧ m.heap.isThunk a = true ∧
        m.heap.isValue (m.heap.resolve p) = true ∧ m.heap.target? a = none ∧
        ((updateThunk a).outcome m).2.heap = (m.heap.settle a (m.heap.resolve p)).2 := by
  rcases updateThunk_spec a m with ⟨e, m', hx, hc, -⟩ | ⟨p, s, m', -, -, -, -, hx, hc⟩ |
    ⟨p, w, m', -, -, -, hx, hc⟩ | ⟨p, m', hp, ha, hv, ht, hx, hc⟩
  all_goals rw [Exec.outcome, hx]
  · exact .inl (congrArg Core.heap hc)
  · exact .inl (congrArg Core.heap hc)
  · exact .inl (congrArg Core.heap hc)
  · exact .inr ⟨p, hp, ha, hv, ht, congrArg Core.heap hc⟩

theorem updateThunk_of_unevaluated {p : Address} (hr : m.context.registers.result? = some p)
    (ha : m.heap.isThunk a = true) (hv : ¬ m.heap.isValue (m.heap.resolve p) = true)
    (hroom : m.context.stack.frames.length < m.context.stack.limit) :
    ∃ m' s, updateThunk a m = .ok (.enter (m.heap.resolve p)) m' ∧
      m'.core = { m.core with stack := s } ∧ s.frames = .update a :: m.context.stack.frames ∧
      s.limit = m.context.stack.limit := by
  rcases updateThunk_spec a m with ⟨e, m', -, -, ⟨hn, -⟩ | ⟨hn, -⟩ | ⟨-, hn, -⟩⟩ |
    ⟨q, s, m', hq, -, -, hs, hx, hcore⟩ | ⟨q, w, m', hq, hv', -⟩ | ⟨q, m', hq, -, hv', -⟩
  · rw [hr] at hn
    cases hn
  · exact absurd ha hn
  · exact absurd hn (Nat.ne_of_lt hroom)
  · rw [hr] at hq
    cases hq
    exact ⟨m', s, hx, hcore, FrameStack.frames_of_push hs⟩
  · rw [hr] at hq
    cases hq
    exact absurd hv' hv
  · rw [hr] at hq
    cases hq
    exact absurd hv' hv

end GraphReduction.Evaluation
