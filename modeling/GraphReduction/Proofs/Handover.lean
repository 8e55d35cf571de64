import GraphReduction.Proofs.Relay

namespace GraphReduction

open Evaluation

variable {κ : Type} {n : Nat}

def Shared.Same (s s' : Shared κ) : Prop := ∃ trace, s' = { s with trace }

section Handing

variable {program : Program κ} {d : Counters} {known : List Slot} {c : Control}
  {m m' : Machine κ} {t : Thread κ}

theorem Shared.Same.refl (s : Shared κ) : s.Same s := ⟨s.trace, rfl⟩

theorem Shared.Same.trans {s₁ s₂ s₃ : Shared κ} (h : s₁.Same s₂) (h' : s₂.Same s₃) :
    s₁.Same s₃ := by
  obtain ⟨t, rfl⟩ := h
  obtain ⟨t', rfl⟩ := h'
  exact ⟨t', rfl⟩

theorem Alike.same {need : Need} (h : Alike d need m m') : m.shared.Same m'.shared := by
  refine ⟨m'.shared.trace, ?_⟩
  have hl : m'.shared.lastThread = m.shared.lastThread := congrArg Core.lastThread h.visible
  rw [← show m'.shared.heap = m.shared.heap from h.heap, ← h.waiting, ← h.journal, ← hl]

theorem alike_begin (t : Thread κ) (hs : m.shared.Same m'.shared)
    (hi : m'.context.interrupted = m.context.interrupted)
    (hc : m.context.counters.work = m'.context.counters.work + d) (hp : m.scheduler.Patient) :
    (begin t m').1 = (begin t m).1 ∧ Alike d (begin t m).1.need (begin t m).2 (begin t m').2 := by
  obtain ⟨trace, ht⟩ := hs
  have ha : Alike d (some []) (m.attach t).2 (m'.attach t).2 := by
    refine ⟨?_, fun _ h => (List.not_mem_nil h).elim, fun _ => ?_, hc, hp⟩
    · simp only [Machine.visible, Machine.core, Machine.attach, ht, hi]
    · change (m.shared.waiting.erase t.id).find? t.id = none
      rw [WaitingMap.find?_erase, if_pos rfl]
  obtain ⟨id, stack, pending⟩ := t
  cases pending with
  | enter a => exact ⟨rfl, ha⟩
  | apply f args => exact ⟨rfl, ha⟩
  | resume a => exact ⟨rfl, ha.setResult a⟩

theorem Alike.attach {d' : Counters} (h : Alike d (some known) m m') {m₁ : Machine κ}
    (hid : t.id = m.context.thread) (hst : t.stack = m.context.stack)
    (hs : m'.shared.Same m₁.shared) (hi : m₁.context.interrupted = m'.context.interrupted)
    (hc : m.context.counters.work = m₁.context.counters.work + d') :
    Alike d' (some []) m (m₁.attach t).2 := by
  refine ⟨?_, fun _ h => (List.not_mem_nil h).elim, fun _ => h.free nofun, hc, h.patient⟩
  -- The thread waits for nothing, so it need not be taken off the waiting map.
  have he : m.shared.waiting.erase m.context.thread = m.shared.waiting := by
    unfold WaitingMap.erase
    rw [h.free nofun]
    rfl
  obtain ⟨trace, ht⟩ := h.same.trans hs
  simp only [Machine.visible, Machine.core, Machine.attach, ht, hid, hst, hi, h.interrupted, he]

theorem Alike.suspensionPoint (h : Alike d c.need m m') :
    suspensionPoint c m' = .error c ∨ ∃ p, suspensionPoint c m' = .ok p ∧
      ∀ d' (m₁ : Machine κ), m'.shared.Same m₁.shared →
        m₁.context.interrupted = m'.context.interrupted →
        m.context.counters.work = m₁.context.counters.work + d' →
        (begin ⟨m'.context.thread, m'.context.stack, p⟩ m₁).1 = c ∧
          Alike d' c.need m (begin ⟨m'.context.thread, m'.context.stack, p⟩ m₁).2 := by
  cases c with
  | entering a =>
    exact .inr ⟨_, rfl, fun d' m₁ hs hi hc => ⟨rfl, Alike.attach h h.thread h.stack hs hi hc⟩⟩
  | applying f args =>
    exact .inr ⟨_, rfl, fun d' m₁ hs hi hc => ⟨rfl, Alike.attach h h.thread h.stack hs hi hc⟩⟩
  | resuming =>
    obtain ⟨a, hr, hr'⟩ := h.result (List.mem_cons_self)
    have hp : Evaluation.suspensionPoint .resuming m' = .ok (.resume a) := by
      simp only [Evaluation.suspensionPoint, Registers.readClosure_one, hr']
    refine .inr ⟨_, hp, fun d' m₁ hs hi hc => ⟨rfl, ?_⟩⟩
    -- The result register is the only one that the thread needs, and it is set again.
    have ha := Alike.attach (t := ⟨m'.context.thread, m'.context.stack, .resume a⟩) h
      h.thread h.stack hs hi hc
    refine ⟨ha.visible, fun s hm => ?_, fun _ => ha.free nofun, ha.counters, ha.patient⟩
    rw [List.mem_singleton.1 hm]
    refine ⟨.boxed a, congrArg (Option.map Value.boxed) hr, ?_⟩
    exact congrArg (Option.map Value.boxed) (Registers.result?_setResult _ a)
  | blocked a => exact .inl rfl
  | halted e => exact .inl rfl
  | endless => exact .inl rfl

def Evaluation.Control.minding (c : Control) (m : Machine κ) : Control :=
  if m.context.interrupted then .halted .interrupted else c

theorem Alike.minding_eq (h : Alike d c.need m m') : c.minding m' = c.minding m := by
  rw [Control.minding, Control.minding, h.interrupted]

theorem Alike.of_minding (h : Alike d c.need m m') : Alike d (c.minding m).need m m' := by
  unfold Control.minding
  split
  · exact h.wait
  · exact h

theorem decision_of_patient (k : Nat) (c : Control) (h : m.scheduler.Patient) :
    ∃ m₁ q, decision k c m = (.inl (c.minding m), m₁) ∧ m.Unseen m₁ q ∧ q.Patient := by
  unfold decision Control.minding
  split
  · exact ⟨m, m.scheduler, rfl, ⟨_, rfl⟩, h⟩
  · split
    · exact ⟨m, m.scheduler, rfl, ⟨_, rfl⟩, h⟩
    · dsimp only
      rw [h.poll.1, if_neg nofun]
      exact ⟨_, m.scheduler.poll.2, rfl, ⟨m.shared.trace, rfl⟩, h.poll.2⟩

theorem decision_cases (k : Nat) (c : Control) (m : Machine κ)
    (hc : ∀ m₁ q, m.Unseen m₁ q → suspensionPoint c m₁ = .error c ∨
      ∃ p, suspensionPoint c m₁ = .ok p) :
    ∃ m₁ q, m.Unseen m₁ q ∧ (decision k c m = (.inl (c.minding m), m₁) ∨
      k ≠ 0 ∧ m.context.interrupted = false ∧
        ∃ p, decision k c m = (.inr p, m₁) ∧ suspensionPoint c m₁ = .ok p) := by
  unfold decision Control.minding
  by_cases hi : m.context.interrupted = true
  · exact ⟨m, m.scheduler, ⟨_, rfl⟩, .inl (by rw [if_pos hi, if_pos hi])⟩
  · simp only [if_neg hi]
    by_cases hk : k = 0 ∨ k % pollInterval ≠ 0
    · exact ⟨m, m.scheduler, ⟨_, rfl⟩, .inl (by rw [if_pos hk])⟩
    · simp only [if_neg hk]
      let m₁ : Machine κ := { m with scheduler := m.scheduler.poll.2 }
      have hm : m.Unseen m₁ m.scheduler.poll.2 := ⟨m.shared.trace, rfl⟩
      refine ⟨m₁, _, hm, ?_⟩
      by_cases ha : m.scheduler.poll.1 = true
      · rcases hc m₁ _ hm with he | ⟨p, hp⟩
        · exact .inl (by rw [if_pos ha, he])
        · refine .inr ⟨fun h => hk (.inl h), Bool.eq_false_iff.2 hi, p, ?_, hp⟩
          rw [if_pos ha, hp]
      · exact .inl (by rw [if_neg ha])

theorem decision_interrupted (k : Nat) (c : Control) (m : Machine κ) :
    (decision k c m).1 = .inl (.halted .interrupted) ∨
      (decision k c m).2.context.interrupted = false := by
  by_cases hi : m.context.interrupted = true
  · left
    rw [decision, if_pos hi]
  · right
    have hi := Bool.eq_false_iff.2 hi
    unfold decision
    split
    · exact hi
    · split
      · exact hi
      · dsimp only
        split
        · split <;> exact hi
        · exact hi

theorem interrupted_of_advance {o : Outcome κ} {h : Heap κ}
    (ha : advance program c m = (.over o, m')) (ho : o.standing h = some (.inr t)) :
    m'.context.interrupted = m.context.interrupted := by
  have hc : (reportControl c m).context.interrupted = m.context.interrupted :=
    congrArg Core.interrupted (m.core_reportControl c)
  cases c with
  | entering a => exact nomatch congrArg Prod.fst ha
  | applying f args => exact nomatch congrArg Prod.fst ha
  | resuming =>
    cases hp : (reportControl .resuming m).pop? with
    | some p =>
      rw [advance_of_pop? program hp] at ha
      exact nomatch congrArg Prod.fst ha
    | none =>
      cases hr : (reportControl .resuming m).context.registers.result? with
      | some a =>
        rw [advance_of_pop?_eq_none program hp hr] at ha
        cases ha
        cases ho
      | none =>
        rw [advance_of_result?_eq_none program hp hr] at ha
        exact nomatch congrArg Prod.fst ha
  | blocked a =>
    have hm : (advance program (.blocked a) m).2 = m' := congrArg Prod.snd ha
    rw [← hm, ← hc]
    exact congrArg Core.interrupted (Machine.core_report _ _ _)
  | halted e =>
    have hout : (advance program (.halted e) m).1 = .over o := congrArg Prod.fst ha
    cases hout
    cases ho
  | endless =>
    cases ha
    cases ho

theorem uninterrupted_of_standing {k : Nat} {o : Outcome κ} {h : Heap κ}
    (hi : iterate program k c m = (.over o, m')) (ho : o.standing h = some (.inr t)) :
    m'.context.interrupted = false := by
  have hd := decision_interrupted k c m
  rw [iterate_eq] at hi
  cases hdec : decision k c m with
  | mk first m₁ =>
    rw [hdec] at hi hd
    cases first with
    | inl c₁ =>
      rcases hd with hd | hd
      · cases hd
        have hout : (advance program (.halted .interrupted) m₁).1 = .over o := congrArg Prod.fst hi
        cases hout
        cases ho
      · exact (interrupted_of_advance hi ho).trans hd
    | inr p =>
      have hm : (yieldThread p m₁).2 = m' := congrArg Prod.snd hi
      rw [← hm]
      refine Eq.trans ?_ (hd.resolve_left nofun)
      exact congrArg Core.interrupted (Machine.core_report _ _ _)

theorem exists_yieldThread (p : Pending) (m : Machine κ) : ∃ m₁,
    yieldThread p m = (.over (.yielded ⟨m.context.thread, m.context.stack, p⟩), m₁) ∧
      m.shared.Same m₁.shared ∧ m₁.context.interrupted = m.context.interrupted ∧
      m₁.context.counters.work = m.context.counters.work := by
  let m₀ := (m.count fun c => { c with yields := c.yields + 1 }).release
  obtain ⟨trace, hm⟩ := Machine.Unseen.report m₀ .trampoline fun _ =>
    ⟨.debug, "yielding", threadDetail m.context.thread⟩
  refine ⟨{ m₀ with shared := { m₀.shared with trace } }, ?_, ⟨trace, rfl⟩, rfl, rfl⟩
  exact Prod.ext rfl hm

end Handing

end GraphReduction
