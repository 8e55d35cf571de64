import GraphReduction.Proofs.StackLevel
import Mathlib.Data.List.Forall2

namespace GraphReduction

open Evaluation Machine

variable {κ α β σ τ : Type}

section Attempts

structure Attempt (κ : Type) where
  frame : Frame κ
  machine : Machine κ

namespace Attempt

def depth (a : Attempt κ) : Nat := a.machine.context.stack.depth

def Fits (a : Attempt κ) : Prop := a.depth < a.machine.context.stack.limit

instance (a : Attempt κ) : Decidable a.Fits := inferInstanceAs (Decidable (_ < _))

structure Level (a a' : Attempt κ) : Prop where
  frame : a'.frame = a.frame
  machine : a.machine.Level a'.machine

end Attempt

def peak (h : Nat) (log : List (Attempt κ)) : Nat := log.foldl (fun h a => max h (a.depth + 1)) h

def Exec.after (x : Exec κ α) (log : α → Machine κ → List (Attempt κ)) (m : Machine κ) :
    List (Attempt κ) :=
  match (x.outcome m).1 with
  | .ok a => log a (x.outcome m).2
  | .error _ => []

def Action.attempts : Action κ α → Machine κ → List (Attempt κ)
  | done _, _ => []
  | fail _, _ => []
  | diverge, _ => []
  | readRegister k i next, m => (next (m.context.registers.read k i)).attempts m
  | writeRegister i v next, m =>
    match Slot.ofIndex v.kind i with
    | .ok s => (next (.ok ())).attempts (m.setRegisters (m.context.registers.put s.offset v))
    | .error e => (next (.error e)).attempts m
  | setResult a next, m => next.attempts (m.setResult a)
  | push frame next, m =>
    ⟨frame, m⟩ :: match m.push frame with
      | .ok m => (next (.ok ())).attempts m
      | .error e => (next (.error e)).attempts m
  | pop next, m => (next (taken FrameStack.pop? m).1).attempts (taken FrameStack.pop? m).2
  | depth next, m => (next m.context.stack.depth).attempts m
  | allocate c next, m => (next (m.allocate c.cell).1).attempts (m.allocate c.cell).2
  | bindArgs f args next, m =>
    match m.heap.bind f args with
    | .ok c => (next (.ok (m.allocate c).1)).attempts (m.allocate c).2
    | .error e => (next (.error e)).attempts m
  | observe next, m => (next m.heap).attempts m
  | spark a next, m => (next (m.spark a).1).attempts (m.spark a).2
  | interrupt b next, m => next.attempts { m with context := { m.context with interrupted := b } }
  | log line next, m =>
    next.attempts { m with shared := { m.shared with journal := m.shared.journal.note line } }
  | tick c next, m =>
    (next (m.shared.journal.count c)).attempts
      { m with shared := { m.shared with journal := m.shared.journal.tick c } }

namespace Evaluation

variable (program : Program κ)

def argumentAttempts : List Value → Machine κ → List (Attempt κ)
  | [], _ => []
  | v :: vs, m =>
    argumentAttempts vs m ++ (Exec.pushArguments vs).after (fun _ m => [⟨.apply v, m⟩]) m

def invokeAtAttempts (f : Address) (args : List Value) (slots : List Slot) (m : Machine κ) :
    List (Attempt κ) :=
  match m.heap.function? f with
  | none => []
  | some (info, captured) =>
    (load args slots).after (fun _ => (program.body info.code captured).attempts) m

def invokeAttempts (f : Address) (args : List Value) : Machine κ → List (Attempt κ) :=
  (Exec.ofExcept (layoutFor (args.map Value.kind))).after fun slots =>
    invokeAtAttempts program f args slots

def callExactAttempts (f : Address) (args : List Value) : Machine κ → List (Attempt κ) :=
  if args.isEmpty then invokeAtAttempts program f args []
  else
    match SchemaTable.standard.lookup args with
    | some schema =>
      (Exec.count fun c => { c with fastPathCalls := c.fastPathCalls + 1 }).after fun _ =>
        invokeAtAttempts program f args schema.slots
    | none =>
      (Exec.count fun c => { c with genericCalls := c.genericCalls + 1 }).after fun _ =>
      (Exec.report .apply fun m => ⟨.trace, "generic apply",
        [("function", closureText m f), ("args", toString args.length)]⟩).after fun _ =>
        argumentAttempts args

def applyFunctionAttempts (f : Address) (args : List Value) : Machine κ → List (Attempt κ) :=
  (arityOf f args.length).after fun arity =>
    if args.length = arity then callExactAttempts program f args
    else if args.length < arity then fun _ => []
    else
      (Exec.count fun c => { c with overApplications := c.overApplications + 1 }).after fun _ =>
      (Exec.report .apply fun m => ⟨.trace, "over-application",
        [("function", closureText m f),
          ("extra", toString (args.length - arity))]⟩).after fun _ m =>
        argumentAttempts (args.drop arity) m ++ (Exec.pushArguments (args.drop arity)).after
          (fun _ => callExactAttempts program f (args.take arity)) m

def applyAttempts (callee : Address) (args : List Value) (m : Machine κ) : List (Attempt κ) :=
  if args.isEmpty then []
  else
    match m.heap.callee? (m.heap.resolve callee) with
    | some (f, bound) => applyFunctionAttempts program f (bound ++ args) m
    | none => []

def resultAttempts (argument : Value) (f : Address) (bound : List Value) :
    Machine κ → List (Attempt κ) :=
  (arityOf f (bound.length + 1)).after fun arity =>
    if arity = 0 then fun m =>
      ⟨.apply argument, m⟩ :: (Exec.push (.apply argument)).after
        (fun _ => invokeAtAttempts program f bound []) m
    else (popArguments (arity - (bound.length + 1))).after fun more =>
      if (bound ++ argument :: more).length = arity then
        invokeAttempts program f (bound ++ argument :: more)
      else fun _ => []

def applyFrameAttempts (argument : Value) (m : Machine κ) : List (Attempt κ) :=
  match m.context.registers.readClosure 1 with
  | .error _ => []
  | .ok result =>
    match m.heap.callee? (m.heap.resolve result) with
    | none => []
    | some (f, bound) => resultAttempts program argument f bound m

def startAttempts (a : Address) (body : Suspension κ) (m : Machine κ) : List (Attempt κ) :=
  ⟨.update a, m⟩ :: match m.push (.update a) with
    | .ok m => (program.body body.code body.captured).attempts
        (m.count fun c => { c with thunkEntries := c.thunkEntries + 1 })
    | .error _ => []

def enterAttempts (a : Address) (m : Machine κ) : List (Attempt κ) :=
  match m.heap.cell a with
  | .thunk (.unevaluated body) => startAttempts program a body
      (m.setHeap (m.heap.write a (.thunk (.underEvaluation m.context.thread body []))))
  | _ => []

def updateAttempts (a : Address) (m : Machine κ) : List (Attempt κ) :=
  match m.context.registers.readClosure 1 with
  | .error _ => []
  | .ok result =>
    if m.heap.isThunk a = true ∧ m.heap.isValue (m.heap.resolve result) = false then
      [⟨.update a, m.report .update fun _ => ⟨.trace, "result is unevaluated; entering it first",
        [("thread", m.context.thread.text)]⟩⟩]
    else []

def frameAttempts : Frame κ → Machine κ → List (Attempt κ)
  | .apply v => applyFrameAttempts program v
  | .update a => updateAttempts a
  | .case code captured => (program.body code captured).attempts
  | .handler _ => fun _ => []

end Evaluation

end Attempts

section Tracing

/-- Logs of two runs, the second of which has a limit: the pushes are the same, to the end or to one
that is refused in the second. -/
inductive Parallel (limit : Nat) (P : Prop) : List (Attempt κ) → List (Attempt κ) → Prop where
  | finished : P → Parallel limit P [] []
  | pushed {a a' : Attempt κ} {log log' : List (Attempt κ)} : a.Level a' → a.depth < limit →
      Parallel limit P log log' → Parallel limit P (a :: log) (a' :: log')
  | refused {a a' : Attempt κ} {log log' : List (Attempt κ)} : a.Level a' → a.depth = limit →
      a'.machine.context.stack.limit = limit → Parallel limit P (a :: log) (a' :: log')

namespace Parallel

variable {L : Nat} {P Q : Prop} {log log' more more' : List (Attempt κ)}

theorem append (h : Parallel L P log log') (h' : P → Parallel L Q more more') :
    Parallel L Q (log ++ more) (log' ++ more') := by
  induction h with
  | finished hp => exact h' hp
  | pushed ha hd _ ih => exact .pushed ha hd ih
  | refused ha hd hl => exact .refused ha hd hl

theorem of_fits (h : Parallel L P log log') (hfit : ∀ a ∈ log', a.Fits) : P := by
  induction h with
  | finished hp => exact hp
  | pushed ha hd _ ih => exact ih fun a hm => hfit a (List.mem_cons_of_mem _ hm)
  | @refused a a' log log' ha hd hl =>
    have hroom : a'.depth < a'.machine.context.stack.limit := hfit a' List.mem_cons_self
    have hdepth : a'.depth = a.depth := ha.machine.stack.depth
    omega

theorem of_lt (h : Parallel L P log log') (hlt : ∀ a ∈ log, a.depth < L) :
    P ∧ List.Forall₂ Attempt.Level log log' := by
  induction h with
  | finished hp => exact ⟨hp, .nil⟩
  | pushed ha hd _ ih =>
    obtain ⟨hp, hlogs⟩ := ih fun a hm => hlt a (List.mem_cons_of_mem _ hm)
    exact ⟨hp, .cons ha hlogs⟩
  | refused ha hd hl => exact absurd hd (Nat.ne_of_lt (hlt _ List.mem_cons_self))

theorem exists_refused (h : Parallel L P log log') (hle : ∃ a ∈ log, L ≤ a.depth) :
    ∃ before a after before' a' after', log = before ++ a :: after ∧
      log' = before' ++ a' :: after' ∧ List.Forall₂ Attempt.Level before before' ∧ a.Level a' ∧
      a.depth = L ∧ a'.machine.context.stack.limit = L ∧ ∀ b ∈ before, b.depth < L := by
  induction h with
  | finished => obtain ⟨a, hm, -⟩ := hle; cases hm
  | @pushed b b' log log' hb hd _ ih =>
    obtain ⟨a, hm, hle⟩ := hle
    rcases List.mem_cons.1 hm with rfl | hm
    · omega
    · obtain ⟨before, a, after, before', a', after', rfl, rfl, hbefore, ha, hdepth, hl, hlt⟩ :=
        ih ⟨a, hm, hle⟩
      exact ⟨b :: before, a, after, b' :: before', a', after', rfl, rfl, .cons hb hbefore, ha,
        hdepth, hl, List.forall_mem_cons.2 ⟨hd, hlt⟩⟩
  | refused ha hd hl => exact ⟨[], _, _, [], _, _, rfl, rfl, .nil, ha, hd, hl, by simp⟩

end Parallel

section Peaks

variable {h L : Nat} {log log' : List (Attempt κ)}

theorem peak_append (h : Nat) (log log' : List (Attempt κ)) :
    peak h (log ++ log') = peak (peak h log) log' :=
  List.foldl_append

theorem peak_le_iff : peak h log ≤ L ↔ h ≤ L ∧ ∀ a ∈ log, a.depth < L := by
  induction log generalizing h with
  | nil => simp [peak]
  | cons a log ih =>
    rw [show peak h (a :: log) = peak (max h (a.depth + 1)) log from rfl, ih, List.forall_mem_cons,
      Nat.max_le, and_assoc]
    rfl

theorem max_peak (h₀ h : Nat) (log : List (Attempt κ)) :
    max h₀ (peak h log) = peak (max h₀ h) log := by
  induction log generalizing h with
  | nil => rfl
  | cons a log ih =>
    change max h₀ (peak (max h (a.depth + 1)) log) = peak (max (max h₀ h) (a.depth + 1)) log
    rw [ih, Nat.max_assoc]

end Peaks

structure View (κ σ : Type) where
  level : σ → σ → Prop
  limit : σ → Nat
  mark? : σ → Option Nat

namespace View

def machine : View κ (Machine κ) where
  level m m' := m.Level m'
  limit m := m.context.stack.limit
  mark? m := some m.context.stack.highWater

def result : View κ (α × Machine κ) where
  level p q := q.1 = p.1 ∧ p.2.Level q.2
  limit p := p.2.context.stack.limit
  mark? p := some p.2.context.stack.highWater

end View

/-- What a log of pushes tells about an execution, under any limit. -/
structure Logged (S : View κ σ) (T : View κ τ) (F : σ → τ) (log : σ → List (Attempt κ)) :
    Prop where
  limit : ∀ s, T.limit (F s) = S.limit s
  mark : ∀ s, (∀ a ∈ log s, a.Fits) → ∀ w ∈ T.mark? (F s), ∃ h ∈ S.mark? s, w = peak h (log s)
  parallel : ∀ {s s' : σ}, S.level s s' → (∀ a ∈ log s, a.Fits) →
    Parallel (S.limit s') (T.level (F s) (F s')) (log s) (log s')
  bounded : ∀ s : σ, ∃ bound, ∀ s', S.level s s' → bound ≤ S.limit s' → ∀ a ∈ log s', a.Fits

abbrev Traced (F : Machine κ → α × Machine κ) (log : Machine κ → List (Attempt κ)) : Prop :=
  Logged .machine .result F log

theorem Machine.exists_level (m : Machine κ) (bound : Nat) :
    ∃ m', m.Level m' ∧ bound ≤ m'.context.stack.limit := by
  let s := m.context.stack
  let t : FrameStack κ := { s with
    limit := max bound s.limit
    depth_le_limit := Nat.le_trans s.depth_le_limit (Nat.le_max_right _ _) }
  exact ⟨m.setStack t, ⟨t, rfl, rfl, rfl⟩, Nat.le_max_left _ _⟩

namespace Logged

variable {S : View κ σ} {T : View κ τ}

theorem silent {F : σ → τ} (hlimit : ∀ s, T.limit (F s) = S.limit s)
    (hmark : ∀ s, ∀ w ∈ T.mark? (F s), w ∈ S.mark? s)
    (hlevel : ∀ {s s'}, S.level s s' → T.level (F s) (F s')) : Logged S T F fun _ => [] where
  limit := hlimit
  mark s _ w hw := ⟨w, hmark s w hw, rfl⟩
  parallel hl _ := .finished (hlevel hl)
  bounded _ := ⟨0, fun _ _ _ _ hm => (List.not_mem_nil hm).elim⟩

theorem of_indifferent {F : Machine κ → α × Machine κ} (h : Indifferent F) :
    Traced F fun _ => [] := by
  refine silent h.change.limit (fun m w hw => ?_) fun hl => ⟨h.result hl, h.change.level hl⟩
  cases hw
  exact congrArg some (h.change.highWater m).symm

theorem comp {F : Machine κ → σ} {G : σ → τ} {p : Machine κ → List (Attempt κ)}
    {q : σ → List (Attempt κ)} (hF : Logged .machine S F p) (hG : Logged S T G q) :
    Logged .machine T (fun m => G (F m)) fun m => p m ++ q (F m) where
  limit m := (hG.limit _).trans (hF.limit m)
  mark m hfit w hw := by
    obtain ⟨hfit, hfit'⟩ := List.forall_mem_append.1 hfit
    obtain ⟨v, hv, rfl⟩ := hG.mark _ hfit' w hw
    obtain ⟨h, hh, rfl⟩ := hF.mark m hfit v hv
    exact ⟨h, hh, (peak_append h _ _).symm⟩
  parallel {m m'} hl hfit := by
    obtain ⟨hfit, hfit'⟩ := List.forall_mem_append.1 hfit
    refine (hF.parallel hl hfit).append fun hl' => ?_
    rw [← hF.limit m']
    exact hG.parallel hl' hfit'
  bounded m := by
    obtain ⟨bound, hbound⟩ := hF.bounded m
    -- Any run whose pushes all succeed tells where the second part begins.
    obtain ⟨m₁, hm₁, hle₁⟩ := m.exists_level bound
    obtain ⟨bound', hbound'⟩ := hG.bounded (F m₁)
    refine ⟨max bound bound', fun m' hm' hle => List.forall_mem_append.2 ?_⟩
    have hle : max bound bound' ≤ m'.context.stack.limit := hle
    have hfit := hbound m' hm' (Nat.le_trans (Nat.le_max_left _ _) hle)
    have hl := (hF.parallel (hm₁.symm.trans hm') (hbound m₁ hm₁ hle₁)).of_fits hfit
    refine ⟨hfit, hbound' _ hl ?_⟩
    rw [hF.limit]
    exact Nat.le_trans (Nat.le_max_right _ _) hle

theorem of_result {G : α × Machine κ → τ} {q : α × Machine κ → List (Attempt κ)}
    (h : ∀ a, Logged .machine T (fun m => G (a, m)) fun m => q (a, m)) :
    Logged .result T G q where
  limit s := (h s.1).limit s.2
  mark s := (h s.1).mark s.2
  parallel {s t} hl hfit := by
    obtain ⟨a, m⟩ := s
    obtain ⟨b, m'⟩ := t
    obtain ⟨rfl, hl⟩ := hl
    exact (h b).parallel hl hfit
  bounded s := by
    obtain ⟨bound, hbound⟩ := (h s.1).bounded s.2
    refine ⟨bound, fun t hl hle => ?_⟩
    obtain ⟨b, m'⟩ := t
    obtain ⟨rfl, hl⟩ := hl
    exact hbound m' hl hle

theorem seq {F : Machine κ → α × Machine κ} {G : α → Machine κ → τ}
    {p : Machine κ → List (Attempt κ)} {q : α → Machine κ → List (Attempt κ)}
    (hF : Traced F p) (hG : ∀ a, Logged .machine T (G a) (q a)) :
    Logged .machine T (fun m => G (F m).1 (F m).2) fun m => p m ++ q (F m).1 (F m).2 :=
  comp hF (of_result (G := fun s => G s.1 s.2) (q := fun s => q s.1 s.2) hG)

theorem congr {F F' : σ → τ} {p p' : σ → List (Attempt κ)} (h : Logged S T F p)
    (hF : ∀ s, F' s = F s) (hlog : ∀ s, p' s = p s) : Logged S T F' p' := by
  rwa [funext hF, funext hlog]

theorem changed {F : Machine κ → τ} {p : Machine κ → List (Attempt κ)}
    {g : Machine κ → Machine κ} (hg : Blind g) (h : Logged .machine T F p) :
    Logged .machine T (fun m => F (g m)) fun m => p (g m) :=
  (of_indifferent (.of_blind () hg)).seq (G := fun _ => F) fun _ => h

theorem reading {F : β → Machine κ → τ} {p : β → Machine κ → List (Attempt κ)}
    {v : Machine κ → β} (hv : ∀ {m m' : Machine κ}, m.Level m' → v m' = v m)
    (h : ∀ b, Logged .machine T (F b) (p b)) :
    Logged .machine T (fun m => F (v m) m) fun m => p (v m) m where
  limit m := (h _).limit m
  mark m := (h _).mark m
  parallel hl hfit := by
    rw [hv hl]
    exact (h _).parallel hl hfit
  bounded m := by
    obtain ⟨bound, hbound⟩ := (h (v m)).bounded m
    refine ⟨bound, fun m' hl hle => ?_⟩
    rw [hv hl]
    exact hbound m' hl hle

end Logged

def Machine.attempt (frame : Frame κ) (m : Machine κ) : Except RuntimeError Unit × Machine κ :=
  match m.push frame with
  | .ok m => (.ok (), m)
  | .error e => (.error e, m)

theorem Machine.attempt_of_fits {m : Machine κ} (frame : Frame κ)
    (h : m.context.stack.depth < m.context.stack.limit) :
    ∃ s, m.attempt frame = (.ok (), (m.setStack s).count fun c =>
        { c with framesPushed := c.framesPushed + 1 }) ∧
      s.frames = frame :: m.context.stack.frames ∧ s.limit = m.context.stack.limit ∧
      s.highWater = max m.context.stack.highWater (m.context.stack.depth + 1) := by
  obtain ⟨s, hs, hf, hl, hw⟩ := FrameStack.push_of_lt frame h
  exact ⟨s, by rw [Machine.attempt, Machine.push, hs], hf, hl, hw⟩

theorem traced_attempt (frame : Frame κ) :
    Traced (Machine.attempt frame) fun m => [⟨frame, m⟩] where
  limit m := by
    by_cases h : m.context.stack.depth < m.context.stack.limit
    · obtain ⟨s, hs, -, hl, -⟩ := Machine.attempt_of_fits frame h
      rw [hs]
      exact hl
    · rw [Machine.attempt, Machine.push,
        FrameStack.push_of_full frame (Nat.le_antisymm m.context.stack.depth_le_limit (by omega))]
      rfl
  mark m hfit w hw := by
    obtain ⟨s, hs, -, -, hs'⟩ := Machine.attempt_of_fits frame (hfit _ List.mem_cons_self)
    rw [hs] at hw
    cases hw
    exact ⟨_, rfl, hs'⟩
  parallel {m m'} hl hfit := by
    have hroom : m.context.stack.depth < m.context.stack.limit := hfit _ List.mem_cons_self
    have hdepth : m'.context.stack.depth = m.context.stack.depth := hl.stack.depth
    have hle := m'.context.stack.depth_le_limit
    by_cases h : m'.context.stack.depth < m'.context.stack.limit
    · obtain ⟨s, hs, hf, -, hw⟩ := Machine.attempt_of_fits frame hroom
      obtain ⟨t, ht, hf', -, hw'⟩ := Machine.attempt_of_fits frame h
      have hlt : m.context.stack.depth < m'.context.stack.limit := hdepth ▸ h
      refine .pushed ⟨rfl, hl⟩ hlt (.finished ?_)
      rw [hs, ht]
      obtain ⟨u, rfl, hu⟩ := hl
      refine ⟨rfl, t, rfl, hf'.trans ?_, hw'.trans ?_⟩
      · exact (congrArg (frame :: ·) hu.frames).trans hf.symm
      · rw [hdepth]
        exact (congrArg (max · _) hu.highWater).trans hw.symm
    · have hfull : m.context.stack.depth = m'.context.stack.limit := by omega
      exact .refused ⟨rfl, hl⟩ hfull rfl
  bounded m := by
    refine ⟨m.context.stack.depth + 1, fun m' hl hle a ha => ?_⟩
    rw [List.mem_singleton.1 ha]
    change m'.context.stack.depth < _
    rw [hl.stack.depth]
    exact hle

theorem traced_perform (x : Action κ α) : Traced x.perform.outcome x.attempts := by
  induction x with
  | done a => exact .of_indifferent (.pure (Except.ok a))
  | fail e => exact .of_indifferent (Exec.indifferent_raise e)
  | diverge => exact .of_indifferent (.pure (Except.error Fault.endless))
  | readRegister k i next ih =>
    exact .reading (v := fun m => m.context.registers.read k i)
      (F := fun r => (next r).perform.outcome) (fun h => by rw [h.registers]) ih
  | writeRegister i v next ih =>
    cases hs : Slot.ofIndex v.kind i with
    | ok s =>
      have hput : Blind fun m : Machine κ => m.setRegisters (m.context.registers.put s.offset v) :=
        .of_setStack (fun _ _ => rfl) fun _ => rfl
      refine (Logged.changed hput (ih (.ok ()))).congr (fun m => ?_) fun m => ?_
      · simp only [Exec.outcome, Action.perform, hs]
      · simp only [Action.attempts, hs]
    | error e =>
      refine (ih (.error e)).congr (fun m => ?_) fun m => ?_
      · simp only [Exec.outcome, Action.perform, hs]
      · simp only [Action.attempts, hs]
  | setResult a next ih =>
    exact Logged.changed (g := fun m => m.setResult a) (blind_setResult a) ih
  | push frame next ih =>
    refine ((traced_attempt frame).seq ih).congr (fun m => ?_) fun m => ?_
    · simp only [Exec.outcome, Machine.attempt, Action.perform]
      cases m.push frame <;> rfl
    · simp only [Machine.attempt, Action.attempts]
      cases m.push frame <;> rfl
  | pop next ih =>
    refine ((Logged.of_indifferent (indifferent_taken FrameStack.takes_pop?)).seq ih).congr
      (fun m => ?_) fun m => rfl
    simp only [Exec.outcome, taken, Action.perform, Machine.pop?]
    cases m.context.stack.pop? <;> rfl
  | depth next ih =>
    exact .reading (v := fun m => m.context.stack.depth) (F := fun r => (next r).perform.outcome)
      (fun h => h.stack.depth) ih
  | allocate c next ih =>
    exact (Logged.of_indifferent (indifferent_onHeap (·.allocate c.cell))).seq ih
  | bindArgs f args next ih =>
    refine (Logged.reading (v := Machine.heap)
      (F := fun h m => match h.bind f args with
        | .ok c => (next (.ok (m.allocate c).1)).perform.outcome (m.allocate c).2
        | .error e => (next (.error e)).perform.outcome m)
      (p := fun h m => match h.bind f args with
        | .ok c => (next (.ok (m.allocate c).1)).attempts (m.allocate c).2
        | .error e => (next (.error e)).attempts m) Level.heap fun h => ?_).congr (fun m => ?_)
          fun m => ?_
    · cases h.bind f args with
      | ok c =>
        exact (Logged.of_indifferent (indifferent_onHeap (·.allocate c))).seq fun a => ih (.ok a)
      | error e => exact ih (.error e)
    · simp only [Exec.outcome, Action.perform]
      cases m.heap.bind f args <;> rfl
    · simp only [Action.attempts]
  | observe next ih =>
    exact .reading (v := Machine.heap) (F := fun r => (next r).perform.outcome) Level.heap ih
  | spark a next ih => exact (Logged.of_indifferent (indifferent_spark a)).seq ih
  | interrupt b next ih =>
    exact Logged.changed
      (g := fun m => { m with context := { m.context with interrupted := b } })
      (.of_setStack (fun _ _ => rfl) fun _ => rfl) ih
  | log line next ih =>
    exact Logged.changed
      (g := fun m => { m with shared := { m.shared with journal := m.shared.journal.note line } })
      (.of_setStack (fun _ _ => rfl) fun _ => rfl) ih
  | tick c next ih =>
    have hticked (n : Nat) := Logged.changed
      (g := fun m => { m with shared := { m.shared with journal := m.shared.journal.tick c } })
      (.of_setStack (fun _ _ => rfl) fun _ => rfl) (ih n)
    exact .reading (v := fun m => m.shared.journal.count c)
      (fun h => by obtain ⟨s, rfl, -⟩ := h; rfl) hticked

theorem traced_push (frame : Frame κ) :
    Traced (Exec.push frame).outcome fun m => [⟨frame, m⟩] := by
  refine ((traced_attempt frame).seq (G := fun r m => (r.mapError Fault.error, m))
    fun r => .of_indifferent (.pure (r.mapError Fault.error))).congr (fun m => ?_) fun m => rfl
  unfold Exec.outcome Exec.push Machine.attempt
  cases m.push frame <;> rfl

namespace Logged

variable {x : Exec κ α} {f : α → Exec κ β} {p : Machine κ → List (Attempt κ)}
  {q : α → Machine κ → List (Attempt κ)}

theorem bind (hx : Traced x.outcome p) (hf : ∀ a, Traced (f a).outcome (q a)) :
    Traced (x >>= f).outcome fun m => p m ++ x.after q m := by
  let rest : Except Fault α → Machine κ → List (Attempt κ)
    | .ok a => q a
    | .error _ => fun _ => []
  refine (hx.seq (G := Exec.onward f) (q := rest) fun r => ?_).congr (Exec.outcome_bind x f)
    fun m => ?_
  · cases r with
    | ok a => exact hf a
    | error e => exact .of_indifferent (.pure (Except.error e))
  · unfold Exec.after
    dsimp only [rest]
    cases (x.outcome m).1 <;> rfl

theorem after (hx : Indifferent x.outcome) (hf : ∀ a, Traced (f a).outcome (q a)) :
    Traced (x >>= f).outcome (x.after q) :=
  (of_indifferent hx).bind hf

theorem andThen (hx : Traced x.outcome p) (hf : ∀ a, Indifferent (f a).outcome) :
    Traced (x >>= f).outcome p := by
  refine (hx.bind fun a => .of_indifferent (hf a)).congr (fun _ => rfl) fun m => ?_
  unfold Exec.after
  cases (x.outcome m).1 <;> exact (List.append_nil _).symm

theorem ofReading {y : β → Exec κ α} {r : β → Machine κ → List (Attempt κ)} {v : Machine κ → β}
    (hv : ∀ {m m' : Machine κ}, m.Level m' → v m' = v m) (hx : ∀ m, x m = y (v m) m)
    (hp : ∀ m, p m = r (v m) m) (h : ∀ b, Traced (y b).outcome (r b)) : Traced x.outcome p :=
  (reading hv h).congr (fun m => by rw [Exec.outcome, hx, Exec.outcome]) hp

end Logged

namespace Evaluation

variable {program : Program κ}

theorem traced_pushArguments (vs : List Value) :
    Traced (Exec.pushArguments vs : Exec κ Unit).outcome (argumentAttempts vs) := by
  induction vs with
  | nil => exact .of_indifferent (.pure (Except.ok ()))
  | cons v vs ih => exact ih.bind fun _ => traced_push (.apply v)

theorem traced_invokeAt (f : Address) (args : List Value) (slots : List Slot) :
    Traced (invokeAt program f args slots).outcome (invokeAtAttempts program f args slots) := by
  refine .ofReading (v := Machine.heap) (y := fun h => match h.function? f with
      | none => Exec.raise (.applyNonFunction (h.variant f).name args.length)
      | some (info, captured) => do
        load args slots
        (program.body info.code captured).perform)
    (r := fun h => match h.function? f with
      | none => fun _ => []
      | some (info, captured) =>
        (load args slots).after fun _ => (program.body info.code captured).attempts)
    Level.heap (fun m => ?_) (fun m => ?_) fun h => ?_
  · unfold invokeAt
    cases m.heap.function? f <;> rfl
  · unfold invokeAtAttempts
    cases m.heap.function? f <;> rfl
  · cases h.function? f with
    | none => exact .of_indifferent (Exec.indifferent_raise _)
    | some p => exact .after (indifferent_load args slots) fun _ => traced_perform _

theorem traced_invoke (f : Address) (args : List Value) :
    Traced (invoke program f args).outcome (invokeAttempts program f args) :=
  .after (Exec.indifferent_ofExcept _) fun slots => traced_invokeAt f args slots

theorem indifferent_said (f : Address) (message detail : String) (n : Nat) :
    Indifferent (Exec.report .apply fun m => ⟨.trace, message,
      [("function", closureText m f), (detail, toString n)]⟩ : Exec κ Unit).outcome :=
  Exec.indifferent_report .apply fun h => by rw [closureText_of_level h]

theorem traced_callExact (f : Address) (args : List Value) :
    Traced (callExact program f args).outcome (callExactAttempts program f args) := by
  unfold callExact callExactAttempts
  split
  · exact traced_invokeAt f args []
  · cases SchemaTable.standard.lookup args with
    | some schema =>
      exact .after (Exec.indifferent_count _) fun _ => traced_invokeAt f args schema.slots
    | none =>
      exact .after (Exec.indifferent_count _) fun _ =>
        .after (indifferent_said f "generic apply" "args" args.length) fun _ =>
          (traced_pushArguments args).andThen fun _ => Exec.indifferent_giveBack f

theorem traced_applyFunction (f : Address) (args : List Value) :
    Traced (applyFunction program f args).outcome (applyFunctionAttempts program f args) := by
  refine .after (indifferent_arityOf f args.length) fun arity => ?_
  by_cases heq : args.length = arity
  · rw [if_pos heq, if_pos heq]
    exact traced_callExact f args
  · rw [if_neg heq, if_neg heq]
    by_cases hlt : args.length < arity
    · rw [if_pos hlt, if_pos hlt]
      refine .of_indifferent (Exec.indifferent_bind (Exec.indifferent_count _) fun _ =>
        Exec.indifferent_bind (indifferent_bindArgs f args) fun pap =>
          Exec.indifferent_bind (Exec.indifferent_report .apply fun h => ?_) fun _ =>
            Exec.indifferent_giveBack pap)
      rw [closureText_of_level h]
    · rw [if_neg hlt, if_neg hlt]
      exact .after (Exec.indifferent_count _) fun _ =>
        .after (indifferent_said f "over-application" "extra" _) fun _ =>
          (traced_pushArguments _).bind fun _ => traced_callExact f _

def bareCall (a : Address) : Cell κ → Exec κ Step
  | .function _ _ | .unsaturated _ _ => Exec.giveBack a
  | .thunk _ | .data _ _ => pure (.enter a)

theorem traced_apply (callee : Address) (args : List Value) :
    Traced (apply program callee args).outcome (applyAttempts program callee args) := by
  by_cases hn : args.isEmpty = true
  · refine .ofReading (v := Machine.heap)
      (y := fun h => bareCall (h.resolve callee) (h.cell (h.resolve callee)))
      (r := fun _ _ => []) Level.heap (fun m => ?_) (fun m => if_pos hn) fun h => ?_
    · refine (if_pos hn).trans ?_
      cases m.heap.cell (m.heap.resolve callee) <;> rfl
    · cases h.cell (h.resolve callee) with
      | function _ _ => exact .of_indifferent (Exec.indifferent_giveBack _)
      | unsaturated _ _ => exact .of_indifferent (Exec.indifferent_giveBack _)
      | thunk _ => exact .of_indifferent (.pure (Except.ok (Step.enter (h.resolve callee))))
      | data _ _ => exact .of_indifferent (.pure (Except.ok (Step.enter (h.resolve callee))))
  · refine .ofReading (v := Machine.heap)
      (y := fun h => match h.callee? (h.resolve callee) with
        | some (f, bound) => applyFunction program f (bound ++ args)
        | none => Exec.raise
          (.applyNonFunction (h.variant (h.resolve callee)).name args.length))
      (r := fun h => match h.callee? (h.resolve callee) with
        | some (f, bound) => applyFunctionAttempts program f (bound ++ args)
        | none => fun _ => []) Level.heap (fun m => ?_) (fun m => ?_) fun h => ?_
    · refine (if_neg hn).trans ?_
      cases m.heap.callee? (m.heap.resolve callee) <;> rfl
    · refine (if_neg hn).trans ?_
      cases m.heap.callee? (m.heap.resolve callee) <;> rfl
    · cases h.callee? (h.resolve callee) with
      | none => exact .of_indifferent (Exec.indifferent_raise _)
      | some p => exact traced_applyFunction p.1 (p.2 ++ args)

def applyResult (program : Program κ) (argument : Value) (f : Address) (bound : List Value) :
    Exec κ Step := do
  let arity ← arityOf f (bound.length + 1)
  if arity = 0 then
    Exec.push (.apply argument)
    invokeAt program f bound []
  else
    let more ← popArguments (arity - (bound.length + 1))
    if (bound ++ argument :: more).length = arity then
      invoke program f (bound ++ argument :: more)
    else
      Exec.count fun c => { c with partialApplications := c.partialApplications + 1 }
      let pap ← bindArgs f (bound ++ argument :: more)
      Exec.giveBack pap

theorem traced_applyResult (v : Value) (f : Address) (bound : List Value) :
    Traced (applyResult program v f bound).outcome (resultAttempts program v f bound) := by
  refine .after (indifferent_arityOf f _) fun arity => ?_
  by_cases hz : arity = 0
  · rw [if_pos hz, if_pos hz]
    exact (traced_push (.apply v)).bind fun _ => traced_invokeAt f bound []
  · rw [if_neg hz, if_neg hz]
    refine .after (indifferent_popArguments _) fun more => ?_
    split
    · exact traced_invoke f _
    · exact .of_indifferent (Exec.indifferent_bind (Exec.indifferent_count _) fun _ =>
        Exec.indifferent_bind (indifferent_bindArgs f _) fun pap => Exec.indifferent_giveBack pap)

theorem applyFrame_eq_result (v : Value) (m : Machine κ) :
    applyFrame program v m = (match m.context.registers.readClosure 1 with
      | .error e => Exec.raise e
      | .ok result =>
        match m.heap.callee? (m.heap.resolve result) with
        | none => Exec.raise (.applyNonFunction (m.heap.variant (m.heap.resolve result)).name 1)
        | some (f, bound) => applyResult program v f bound) m := by
  cases hr : m.context.registers.readClosure 1 with
  | error e =>
    have hx : (Exec.ofExcept (m.context.registers.readClosure 1) : Exec κ Address) m =
        .error (.error e) m := by
      rw [hr]
      rfl
    exact Exec.bind_of_error hx
  | ok result =>
    have hx : (Exec.ofExcept (m.context.registers.readClosure 1) : Exec κ Address) m =
        .ok result m := by
      rw [hr]
      rfl
    refine (Exec.bind_of_ok hx).trans ?_
    rw [Exec.bind_of_ok (show (get : Exec κ (Machine κ)) m = .ok m m from rfl)]
    dsimp only
    cases m.heap.callee? (m.heap.resolve result) <;> rfl

theorem traced_applyFrame (v : Value) :
    Traced (applyFrame program v).outcome (applyFrameAttempts program v) := by
  refine .ofReading (v := fun m => (m.heap, m.context.registers.readClosure 1))
    (y := fun p => match p.2 with
      | .error e => Exec.raise e
      | .ok result =>
        match p.1.callee? (p.1.resolve result) with
        | none => Exec.raise (.applyNonFunction (p.1.variant (p.1.resolve result)).name 1)
        | some (f, bound) => applyResult program v f bound)
    (r := fun p => match p.2 with
      | .error _ => fun _ => []
      | .ok result =>
        match p.1.callee? (p.1.resolve result) with
        | none => fun _ => []
        | some (f, bound) => resultAttempts program v f bound)
    (fun h => by rw [h.heap, h.registers]) (applyFrame_eq_result v) (fun m => ?_) fun p => ?_
  · unfold applyFrameAttempts
    cases m.context.registers.readClosure 1 with
    | error e => rfl
    | ok result =>
      dsimp only
      cases m.heap.callee? (m.heap.resolve result) <;> rfl
  · obtain ⟨heap, read⟩ := p
    cases read with
    | error e => exact .of_indifferent (Exec.indifferent_raise e)
    | ok result =>
      dsimp only
      cases heap.callee? (heap.resolve result) with
      | none => exact .of_indifferent (Exec.indifferent_raise _)
      | some q => exact traced_applyResult v q.1 q.2

theorem traced_start (a : Address) (body : Suspension κ) :
    Traced (start program a body).outcome (startAttempts program a body) := by
  let rest : Except RuntimeError Unit → Machine κ → Except Fault Step × Machine κ
    | .ok () => fun m => (program.body body.code body.captured).perform.outcome
        (m.count fun c => { c with thunkEntries := c.thunkEntries + 1 })
    | .error e => fun m => (.error (.error e), m.resetThunk a fun _ => none)
  let more : Except RuntimeError Unit → Machine κ → List (Attempt κ)
    | .ok () => fun m => (program.body body.code body.captured).attempts
        (m.count fun c => { c with thunkEntries := c.thunkEntries + 1 })
    | .error _ => fun _ => []
  refine ((traced_attempt (.update a)).seq (G := rest) (q := more) fun r => ?_).congr
    (fun m => ?_) fun m => ?_
  · cases r with
    | ok u => exact .changed (blind_count _) (traced_perform _)
    | error e => exact .of_indifferent (.of_blind _ (blind_resetThunk a _))
  · unfold Exec.outcome start Machine.attempt
    cases m.push (.update a) <;> rfl
  · unfold startAttempts Machine.attempt
    cases m.push (.update a) <;> rfl

theorem traced_enter (a : Address) :
    Traced (enter program a).outcome (enterAttempts program a) := by
  -- What becomes of the entry is decided by the cell and by the thread.
  refine .ofReading (v := fun m => (m.heap.cell a, m.context.thread))
    (y := fun p => match p.1 with
      | .unsaturated _ _ => Exec.raise .enterPartial
      | .thunk (.unevaluated body) => fun m => start program a body
          (m.setHeap (m.heap.write a (.thunk (.underEvaluation m.context.thread body []))))
      | .thunk (.underEvaluation owner _ _) =>
        if owner = p.2 then Exec.raise .nonTermination else enterBusy a
      | .thunk (.evaluated value) => Exec.giveBack value
      | .function _ _ | .data _ _ => Exec.giveBack a)
    (r := fun p => match p.1 with
      | .thunk (.unevaluated body) => fun m => startAttempts program a body
          (m.setHeap (m.heap.write a (.thunk (.underEvaluation m.context.thread body []))))
      | _ => fun _ => []) (fun h => ?_) (fun m => ?_) (fun m => ?_) fun p => ?_
  · obtain ⟨s, rfl, -⟩ := h
    rfl
  · cases hc : m.heap.cell a with
    | thunk state =>
      cases state with
      | unevaluated body => rw [enter_eq_start program hc]
      | underEvaluation owner body blocked =>
        have howner := Heap.owner?_eq_some_iff.2 ⟨body, blocked, hc⟩
        refine (enter_eq_of_owner program howner).trans ?_
        dsimp only
        split <;> rfl
      | evaluated value =>
        exact enter_eq_giveBack program (Heap.target?_eq_some_iff.2 hc)
    | _ =>
      simp only [enter, hc, onHeap_eq, Heap.enter]
      try rfl
  · unfold enterAttempts
    cases m.heap.cell a with
    | thunk state => cases state <;> rfl
    | _ => rfl
  · obtain ⟨cell, thread⟩ := p
    have hentered (body : Suspension κ) : Blind fun m : Machine κ =>
        m.setHeap (m.heap.write a (.thunk (.underEvaluation m.context.thread body []))) :=
      .of_setStack (fun _ _ => rfl) fun _ => rfl
    cases cell with
    | unsaturated _ _ => exact .of_indifferent (Exec.indifferent_raise _)
    | function _ _ => exact .of_indifferent (Exec.indifferent_giveBack a)
    | data _ _ => exact .of_indifferent (Exec.indifferent_giveBack a)
    | thunk state =>
      cases state with
      | unevaluated body =>
        exact Logged.changed (F := (start program a body).outcome) (hentered body)
          (traced_start a body)
      | evaluated value => exact .of_indifferent (Exec.indifferent_giveBack value)
      | underEvaluation owner body blocked =>
        dsimp only
        split
        · exact .of_indifferent (Exec.indifferent_raise _)
        · exact .of_indifferent (indifferent_enterBusy a)

def assign (a value : Address) (thread : ThreadId) : Exec κ Step := fun m =>
  let (released, m) := m.onHeap (·.settle a value)
  let m := m.count fun c => { c with updates := c.updates + 1 }
  let m := m.report .update fun _ => ⟨.trace, "thunk updated",
    [("thread", thread.text), ("released", toString released.length)]⟩
  .ok .resume (m.wake a released)

theorem indifferent_assign (a value : Address) (thread : ThreadId) :
    Indifferent (assign a value thread : Exec κ Step).outcome := by
  have hrest (released : List (Thread κ)) : Blind fun m : Machine κ =>
      ((m.count fun c => { c with updates := c.updates + 1 }).report .update fun _ =>
        ⟨.trace, "thunk updated",
          [("thread", thread.text), ("released", toString released.length)]⟩).wake a released := by
    have hcounted : Blind fun m : Machine κ =>
        m.count fun c => { c with updates := c.updates + 1 } := blind_count _
    have hsaid : Blind fun m : Machine κ => m.report .update fun _ => ⟨.trace, "thunk updated",
        [("thread", thread.text), ("released", toString released.length)]⟩ :=
      blind_report _ fun _ => rfl
    exact (hcounted.comp hsaid).comp (blind_wake a released)
  exact (indifferent_onHeap (·.settle a value)).seq
    (G := fun released m => (Except.ok Step.resume, _)) fun released => .of_blind _ (hrest released)

def updating (a : Address) (thread : ThreadId) (h : Heap κ) :
    Except RuntimeError Address → Exec κ Step
  | .error e => Exec.raise e
  | .ok result =>
    if !h.isThunk a then Exec.raise (.updateNonThunk (h.variant a).name)
    else if !h.isValue (h.resolve result) then do
      Exec.report .update fun _ =>
        ⟨.trace, "result is unevaluated; entering it first", [("thread", thread.text)]⟩
      Exec.push (.update a)
      return Step.enter (h.resolve result)
    else match h.target? a with
      | some winner => do
        Exec.report .update fun _ =>
          ⟨.trace, "update lost; adopting first result", [("thread", thread.text)]⟩
        Exec.giveBack winner
      | none => assign a (h.resolve result) thread

def updatingAttempts (a : Address) (thread : ThreadId) (h : Heap κ) :
    Except RuntimeError Address → Machine κ → List (Attempt κ)
  | .error _ => fun _ => []
  | .ok result =>
    if h.isThunk a = true ∧ h.isValue (h.resolve result) = false then
      (Exec.report .update fun _ => ⟨.trace, "result is unevaluated; entering it first",
        [("thread", thread.text)]⟩).after fun _ m => [⟨.update a, m⟩]
    else fun _ => []

theorem traced_updateThunk (a : Address) :
    Traced (updateThunk a : Exec κ Step).outcome (updateAttempts a) := by
  refine .ofReading (v := fun m => (m.heap, m.context.registers.readClosure 1, m.context.thread))
    (y := fun p => updating a p.2.2 p.1 p.2.1) (r := fun p => updatingAttempts a p.2.2 p.1 p.2.1)
    (fun h => ?_) (fun m => ?_) (fun m => ?_) fun p => ?_
  · obtain ⟨s, rfl, -⟩ := h
    rfl
  · unfold updateThunk
    cases m.context.registers.readClosure 1 with
    | error e => rfl
    | ok result =>
      dsimp only [updating]
      split
      · rfl
      · split
        · rfl
        · cases m.heap.target? a <;> rfl
  · unfold updateAttempts
    cases m.context.registers.readClosure 1 with
    | error e => rfl
    | ok result =>
      dsimp only [updatingAttempts]
      split <;> rfl
  · obtain ⟨heap, read, thread⟩ := p
    have hsaid (message : String) : Indifferent (Exec.report .update fun _ =>
        ⟨.trace, message, [("thread", thread.text)]⟩ : Exec κ Unit).outcome :=
      Exec.indifferent_report .update fun _ => rfl
    cases read with
    | error e => exact .of_indifferent (Exec.indifferent_raise e)
    | ok result =>
      dsimp only [updating, updatingAttempts]
      cases heap.isThunk a with
      | false => exact .of_indifferent (Exec.indifferent_raise _)
      | true =>
        cases heap.isValue (heap.resolve result) with
        | false =>
          exact .after (hsaid _) fun _ => (traced_push (.update a)).andThen fun _ =>
            .pure (Except.ok (Step.enter (heap.resolve result)))
        | true =>
          cases heap.target? a with
          | some winner =>
            exact .of_indifferent (Exec.indifferent_bind (hsaid _) fun _ =>
              Exec.indifferent_giveBack winner)
          | none => exact .of_indifferent (indifferent_assign a _ thread)

theorem traced_resumeFrame (frame : Frame κ) :
    Traced (resumeFrame program frame).outcome (frameAttempts program frame) := by
  cases frame with
  | apply v => exact traced_applyFrame v
  | update a => exact traced_updateThunk a
  | case code captured => exact traced_perform _
  | handler f => exact .of_indifferent (.pure (Except.ok Step.resume))

end Evaluation

end Tracing

end GraphReduction
