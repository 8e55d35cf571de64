import GraphReduction.Evaluation.Trampoline

namespace GraphReduction

variable {κ α β : Type}

namespace Exec

variable {m m' : Machine κ} {x : Exec κ α} {f : α → Exec κ β}

theorem bind_of_ok {a : α} (h : x m = .ok a m') : (x >>= f) m = f a m' := by
  change EStateM.bind x f m = f a m'
  rw [EStateM.bind, h]

theorem bind_of_error {e : Fault} (h : x m = .error e m') : (x >>= f) m = .error e m' := by
  change EStateM.bind x f m = .error e m'
  rw [EStateM.bind, h]

theorem bind_congr {y : Exec κ α} (h : x m = y m') : (x >>= f) m = (y >>= f) m' := by
  change EStateM.bind x f m = EStateM.bind y f m'
  rw [EStateM.bind, EStateM.bind, h]

theorem push_of_ok {frame : Frame κ} (h : m.push frame = .ok m') : push frame m = .ok () m' := by
  rw [push, h]

theorem push_of_error {frame : Frame κ} {e : RuntimeError} (h : m.push frame = .error e) :
    push frame m = .error (.error e) m := by
  rw [push, h]

end Exec

namespace FrameStack

variable {s : FrameStack κ}

theorem exists_pop? {frame : Frame κ} {rest : List (Frame κ)} (h : s.frames = frame :: rest) :
    ∃ t, s.pop? = some (frame, t) ∧ t.frames = rest ∧ t.limit = s.limit := by
  unfold pop?
  split
  · next hs =>
    rw [hs] at h
    cases h
  · next hs =>
    rw [hs] at h
    obtain ⟨rfl, rfl⟩ := List.cons.inj h
    exact ⟨_, rfl, rfl, rfl⟩

theorem pop?_eq_none (h : s.frames = []) : s.pop? = none := by
  unfold pop?
  split
  · rfl
  · next hs => cases h.symm.trans hs

end FrameStack

/-- A machine but for its counters and its trace, which no evaluation looks at. -/
structure Core (κ : Type) where
  heap : Heap κ
  waiting : WaitingMap
  lastThread : Nat
  journal : Journal
  scheduler : Scheduler κ
  workerId : Nat
  registers : Registers
  stack : FrameStack κ
  thread : ThreadId
  exception : Option Address
  interrupted : Bool

namespace Machine

def core (m : Machine κ) : Core κ where
  heap := m.shared.heap
  waiting := m.shared.waiting
  lastThread := m.shared.lastThread
  journal := m.shared.journal
  scheduler := m.scheduler
  workerId := m.context.workerId
  registers := m.context.registers
  stack := m.context.stack
  thread := m.context.thread
  exception := m.context.exception
  interrupted := m.context.interrupted

def tally (m : Machine κ) : UInt64 × UInt64 :=
  (m.context.counters.thunkEntries, m.context.counters.updates)

variable (m : Machine κ)

@[simp] theorem core_report (target : Target) (remark : Machine κ → Remark) :
    (m.report target remark).core = m.core := by
  unfold report
  split <;> rfl

@[simp] theorem core_count (f : Counters → Counters) : (m.count f).core = m.core := rfl

@[simp] theorem core_reportControl (control : Evaluation.Control) :
    (Evaluation.reportControl control m).core = m.core := by
  unfold Evaluation.reportControl
  split
  · dsimp only
    split <;> simp
  · rfl

theorem context_report (target : Target) (remark : Machine κ → Remark) :
    (m.report target remark).context = m.context := by
  unfold report
  split <;> rfl

theorem context_reportControl (control : Evaluation.Control) :
    (Evaluation.reportControl control m).context = m.context := by
  unfold Evaluation.reportControl
  split
  · dsimp only
    split <;> simp only [context_report]
  · rfl

@[simp] theorem tally_report (target : Target) (remark : Machine κ → Remark) :
    (m.report target remark).tally = m.tally := by
  rw [tally, context_report, tally]

@[simp] theorem tally_reportControl (control : Evaluation.Control) :
    (Evaluation.reportControl control m).tally = m.tally := by
  rw [tally, context_reportControl, tally]

theorem heap_reportControl (control : Evaluation.Control) :
    (Evaluation.reportControl control m).heap = m.heap :=
  congrArg Core.heap (m.core_reportControl control)

@[simp] theorem core_setStack (s : FrameStack κ) :
    (m.setStack s).core = { m.core with stack := s } := rfl

@[simp] theorem core_setResult (a : Address) :
    (m.setResult a).core = { m.core with registers := m.core.registers.setResult a } := rfl

@[simp] theorem core_allocate (c : Cell κ) :
    (m.allocate c).2.core = { m.core with heap := (m.core.heap.allocate c).2 } := rfl

theorem core_wake (m : Machine κ) (a : Address) (released : List (Thread κ)) :
    (m.wake a released).core = { m.core with scheduler := m.scheduler.wake a released } := by
  unfold wake
  cases m.scheduler.wakeRemark? released with
  | none => rfl
  | some r =>
    have hc := m.core_report .scheduler fun _ => r
    change ({ (m.report .scheduler fun _ => r).core with
      scheduler := (m.report .scheduler fun _ => r).scheduler.wake a released } : Core κ) = _
    rw [hc, show (m.report .scheduler fun _ => r).scheduler = m.scheduler from
      congrArg Core.scheduler hc]

theorem push_eq_ok {m m' : Machine κ} {frame : Frame κ} (h : m.push frame = .ok m') :
    ∃ s, m.context.stack.push frame = .ok s ∧ m'.core = { m.core with stack := s } := by
  unfold push at h
  split at h
  · next s hs =>
    cases h
    exact ⟨s, hs, rfl⟩
  · cases h

theorem tally_push {m m' : Machine κ} {frame : Frame κ} (h : m.push frame = .ok m') :
    m'.tally = m.tally := by
  unfold push at h
  split at h <;> cases h
  rfl

theorem push_eq_error {m : Machine κ} {frame : Frame κ} {e : RuntimeError}
    (h : m.push frame = .error e) :
    m.context.stack.frames.length = m.context.stack.limit ∧
      e = .stackOverflow m.context.stack.limit := by
  unfold push at h
  split at h
  · cases h
  · next hs =>
    cases h
    exact FrameStack.push_eq_error_iff.1 hs

theorem exists_push {m : Machine κ} (frame : Frame κ)
    (h : m.context.stack.frames.length < m.context.stack.limit) :
    ∃ m' s, m.push frame = .ok m' ∧ m'.core = { m.core with stack := s } ∧
      s.frames = frame :: m.context.stack.frames ∧ s.limit = m.context.stack.limit := by
  unfold push
  cases hs : m.context.stack.push frame with
  | error e =>
    have he := (FrameStack.push_eq_error_iff.1 hs).1
    omega
  | ok s =>
    obtain ⟨hf, hl⟩ := FrameStack.frames_of_push hs
    exact ⟨_, s, rfl, rfl, hf, hl⟩

theorem exists_pop? {m : Machine κ} {frame : Frame κ} {rest : List (Frame κ)}
    (h : m.context.stack.frames = frame :: rest) :
    ∃ m' s, m.pop? = some (frame, m') ∧ m'.core = { m.core with stack := s } ∧
      s.frames = rest ∧ s.limit = m.context.stack.limit := by
  obtain ⟨s, hs, hf, hl⟩ := FrameStack.exists_pop? h
  refine ⟨m.setStack s, s, ?_, rfl, hf, hl⟩
  rw [pop?, hs]

theorem pop?_eq_none {m : Machine κ} (h : m.context.stack.frames = []) : m.pop? = none := by
  rw [pop?, FrameStack.pop?_eq_none h]

end Machine

def FrameStack.holding (frames : List (Frame κ)) (room : Nat) : FrameStack κ where
  frames := frames
  depth := frames.length
  limit := frames.length + room
  capacity := frames.length + room
  highWater := frames.length
  depth_eq := rfl
  depth_le_limit := Nat.le_add_right _ _
  depth_le_highWater := Nat.le_refl _

def Slot.result : Slot := ⟨.boxed, 0⟩

namespace Registers

theorem readClosure_one (r : Registers) :
    r.readClosure 1 = match r.result? with
      | some a => .ok a
      | none => .error (.emptyRegister .boxed 1) := rfl

@[simp] theorem result?_setResult (r : Registers) (a : Address) :
    (r.setResult a).result? = some a :=
  get_set r.boxed 0 0 (some a)

end Registers

namespace Evaluation

variable {m m' : Machine κ} {x y : Exec κ Step}

theorem follow_eq (x : Exec κ Step) (m : Machine κ) :
    follow x m = (.next (settle (x.outcome m).1 (x.outcome m).2).1,
      (settle (x.outcome m).1 (x.outcome m).2).2) := rfl

theorem follow_congr (h : x m = y m') : follow x m = follow y m' := by
  have ho : x.outcome m = y.outcome m' := by rw [Exec.outcome, h, Exec.outcome]
  rw [follow_eq, follow_eq, ho]

theorem follow_of_resume (h : x m = .ok .resume m') : follow x m = (.next .resuming, m') := by
  rw [follow_congr (y := pure .resume) h]
  rfl

section Settling

theorem unwindFrames_fst (exception : Address) (frames : List (Frame κ)) (n : Nat) (m : Machine κ) :
    (unwindFrames exception frames n m).1 = none ∨
      ∃ f args, (unwindFrames exception frames n m).1 = some (.apply f args) := by
  induction frames generalizing n m with
  | nil => exact .inl rfl
  | cons frame rest ih =>
    cases frame with
    | handler f => exact .inr ⟨f, [.boxed exception], rfl⟩
    | _ => exact ih (n + 1) _

def uncaught (exception : Address) (h : Heap κ) : Control :=
  match h.text? exception with
  | some text => .halted (.uncaught text)
  | none => .endless

theorem throwValue_eq (exception : Address) (m : Machine κ) :
    throwValue exception m =
      (match (unwind exception m).1 with
        | some step => controlOf step
        | none => uncaught exception (unwind exception m).2.heap, (unwind exception m).2) := by
  have h : throwValue exception m =
      (match (unwind exception m).1 with
        | some step => (pure (controlOf step) : StateM (Machine κ) Control)
        | none => do
          match (← get).heap.text? exception with
          | some text => return .halted (.uncaught text)
          | none => return .endless) (unwind exception m).2 := rfl
  rw [h]
  cases (unwind exception m).1 with
  | some step => rfl
  | none =>
    change (match (unwind exception m).2.heap.text? exception with
      | some text => (pure (.halted (.uncaught text)) : StateM (Machine κ) Control)
      | none => pure .endless) (unwind exception m).2 = (uncaught _ _, _)
    unfold uncaught
    cases (unwind exception m).2.heap.text? exception <;> rfl

def raised (e : RuntimeError) (m : Machine κ) : Address × Machine κ :=
  (m.report .trampoline fun _ =>
    ⟨.debug, "raising runtime exception", [("error", e.message)]⟩).allocate
      (.data ⟨e.exceptionName, 0⟩ [])

theorem raiseError_eq {e : RuntimeError} (hc : e.isCatchable = true) (m : Machine κ) :
    raiseError e m =
      (match (unwind (raised e m).1 (raised e m).2).1 with
        | some step => controlOf step
        | none => .halted e, (unwind (raised e m).1 (raised e m).2).2) := by
  have h : raiseError e m =
      (match (unwind (raised e m).1 (raised e m).2).1 with
        | some step => (pure (controlOf step) : StateM (Machine κ) Control)
        | none => pure (.halted e)) (unwind (raised e m).1 (raised e m).2).2 := by
    unfold raiseError
    rw [if_pos hc]
    rfl
  rw [h]
  cases (unwind (raised e m).1 (raised e m).2).1 <;> rfl

theorem raiseError_of_not_catchable {e : RuntimeError} (hc : ¬ e.isCatchable = true)
    (m : Machine κ) : raiseError e m = (.halted e, m) := by
  unfold raiseError
  rw [if_neg hc]
  rfl

theorem unwind_fst (exception : Address) (m : Machine κ) :
    (unwind exception m).1 = none ∨ ∃ f args, (unwind exception m).1 = some (.apply f args) :=
  unwindFrames_fst exception m.context.stack.frames 0 (m.setException (some exception))

theorem settle_cases (r : Except Fault Step) (m : Machine κ) :
    (∃ s, r = .ok s ∧ (∀ a, s ≠ .throw a) ∧ settle r m = (controlOf s, m)) ∨
      (∃ f args, (settle r m).1 = .applying f args) ∨ (settle r m).1 = .endless ∨
      ∃ e, (settle r m).1 = .halted e ∧ (r = .error (.error e) ∨ ∃ text, e = .uncaught text) := by
  cases r with
  | ok step =>
    cases step with
    | throw exception =>
      refine .inr ?_
      change (∃ f args, (throwValue exception m).1 = .applying f args) ∨
        (throwValue exception m).1 = .endless ∨ ∃ e, (throwValue exception m).1 = .halted e ∧ _
      rw [throwValue_eq]
      rcases unwind_fst exception m with hu | ⟨f, args, hu⟩
      · rw [hu]
        unfold uncaught
        cases (unwind exception m).2.heap.text? exception with
        | some text => exact .inr (.inr ⟨.uncaught text, rfl, .inr ⟨text, rfl⟩⟩)
        | none => exact .inr (.inl rfl)
      · rw [hu]
        exact .inl ⟨f, args, rfl⟩
    | _ => exact .inl ⟨_, rfl, nofun, rfl⟩
  | error fault =>
    cases fault with
    | endless => exact .inr (.inr (.inl rfl))
    | error e =>
      refine .inr ?_
      change (∃ f args, (raiseError e m).1 = .applying f args) ∨
        (raiseError e m).1 = .endless ∨ ∃ e', (raiseError e m).1 = .halted e' ∧ _
      by_cases hc : e.isCatchable = true
      · rw [raiseError_eq hc]
        rcases unwind_fst (raised e m).1 (raised e m).2 with hu | ⟨f, args, hu⟩
        · rw [hu]
          exact .inr (.inr ⟨e, rfl, .inl rfl⟩)
        · rw [hu]
          exact .inl ⟨f, args, rfl⟩
      · rw [raiseError_of_not_catchable hc]
        exact .inr (.inr ⟨e, rfl, .inl rfl⟩)

end Settling

section Resuming

variable (program : Program κ)

theorem modify_bind {σ : Type} (f : σ → σ) (y : StateM σ α) (s : σ) :
    (modify f >>= fun _ => y) s = y (f s) := rfl

theorem advance_of_pop? {frame : Frame κ}
    (h : (reportControl .resuming m).pop? = some (frame, m')) :
    advance program .resuming m = follow (resumeFrame program frame) m' := by
  unfold advance
  simp only [modify_bind, h]

theorem advance_of_pop?_eq_none {a : Address} (h : (reportControl .resuming m).pop? = none)
    (ha : (reportControl .resuming m).context.registers.result? = some a) :
    advance program .resuming m = (.over (.finished a), (reportControl .resuming m).release) := by
  unfold advance
  simp only [modify_bind, h, Registers.readClosure_one, ha]

theorem advance_of_result?_eq_none (h : (reportControl .resuming m).pop? = none)
    (hr : (reportControl .resuming m).context.registers.result? = none) :
    advance program .resuming m =
      (.next (.halted (.unexpectedEmptyStack "returning a value")), reportControl .resuming m) := by
  unfold advance
  simp only [modify_bind, h, Registers.readClosure_one, hr]

theorem iterate_halted (n : Nat) (e : RuntimeError) (hi : m.context.interrupted = false) :
    (iterate program n (.halted e) m).1 = .over (.halted e) := by
  unfold iterate
  rw [if_neg (Bool.eq_false_iff.1 hi)]
  split
  · rfl
  · dsimp only
    split <;> rfl

theorem iterate_of_interrupted (n : Nat) (c : Control)
    (hm : m.context.interrupted = true) :
    (iterate program n c m).1 = .over (.halted .interrupted) := by
  unfold iterate
  rw [if_pos hm]
  rfl

theorem iterate_blocked (n : Nat) (a : Address)
    (hm : m.context.interrupted = false) :
    ∃ t, (iterate program n (.blocked a) m).1 = .over (.blocked t a) := by
  unfold iterate
  rw [if_neg (by simp [hm])]
  split
  · exact ⟨_, rfl⟩
  · dsimp only
    split <;> exact ⟨_, rfl⟩

theorem interrupted_of_next {n : Nat} {c c' : Control}
    (h : iterate program n c m = (.next c', m')) : m.context.interrupted = false := by
  cases hm : m.context.interrupted with
  | false => rfl
  | true =>
    have ht := iterate_of_interrupted program n c hm
    rw [h] at ht
    cases ht

end Resuming

section Repeating

variable {program : Program κ} {fuel n k : Nat} {c c' : Control} {t : Thread κ}
  {outcome : Outcome κ}

theorem iterateUpTo_succ (fuel n : Nat) (c : Control) (m : Machine κ) :
    iterateUpTo program (fuel + 1) n c m =
      (match (iterate program n c m).1 with
        | .next c => iterateUpTo program fuel (n + 1) c
        | .over outcome => pure (n + 1, .over outcome)) (iterate program n c m).2 := rfl

theorem iterateUpTo_of_next (h : iterate program n c m = (.next c', m')) :
    iterateUpTo program (fuel + 1) n c m = iterateUpTo program fuel (n + 1) c' m' := by
  rw [iterateUpTo_succ, h]

theorem iterateUpTo_of_over (h : iterate program n c m = (.over outcome, m')) :
    iterateUpTo program (fuel + 1) n c m = ((n + 1, .over outcome), m') := by
  rw [iterateUpTo_succ, h]
  rfl

theorem runSlice_eq (program : Program κ) (fuel : Nat) (t : Thread κ) (m : Machine κ) :
    runSlice program fuel t m =
      (match (iterateUpTo program fuel 0 (begin t m).1 (begin t m).2).1 with
        | (_, .over outcome) => some outcome
        | (_, .next _) => none, (iterateUpTo program fuel 0 (begin t m).1 (begin t m).2).2) := by
  have h : runSlice program fuel t m =
      (match (iterateUpTo program fuel 0 (begin t m).1 (begin t m).2).1 with
        | (_, .over outcome) => (pure (some outcome) : StateM (Machine κ) (Option (Outcome κ)))
        | (_, .next _) => pure none) (iterateUpTo program fuel 0 (begin t m).1 (begin t m).2).2 := rfl
  rw [h]
  rcases (iterateUpTo program fuel 0 (begin t m).1 (begin t m).2).1 with ⟨k, turn⟩
  cases turn <;> rfl

theorem runSlice_eq_some (h : runSlice program fuel t m = (some outcome, m')) :
    ∃ k, iterateUpTo program fuel 0 (begin t m).1 (begin t m).2 = ((k, .over outcome), m') := by
  rw [runSlice_eq] at h
  obtain ⟨ho, hm⟩ := Prod.mk.inj h
  split at ho
  · next k o heq =>
    cases ho
    exact ⟨k, Prod.ext heq hm⟩
  · cases ho

end Repeating

end Evaluation

end GraphReduction
