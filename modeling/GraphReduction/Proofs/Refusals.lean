import GraphReduction.Proofs.PushLog

namespace GraphReduction

open Evaluation Machine

variable {κ α β : Type}

/-- Code that goes no further where it is refused a push. -/
def Action.Heeds : Action κ α → Prop
  | done _ | fail _ | diverge => True
  | readRegister _ _ next => ∀ r, (next r).Heeds
  | writeRegister _ _ next => ∀ r, (next r).Heeds
  | setResult _ next => next.Heeds
  | push _ next => (∀ e, next (.error e) = .fail e) ∧ (next (.ok ())).Heeds
  | pop next => ∀ frame, (next frame).Heeds
  | depth next => ∀ n, (next n).Heeds
  | allocate _ next => ∀ a, (next a).Heeds
  | bindArgs _ _ next => ∀ r, (next r).Heeds
  | observe next => ∀ h, (next h).Heeds
  | spark _ next => ∀ b, (next b).Heeds
  | interrupt _ next => next.Heeds
  | log _ next => next.Heeds
  | tick _ next => ∀ n, (next n).Heeds

def Program.Heeds (program : Program κ) : Prop :=
  ∀ code captured, (program.body code captured).Heeds

/-- The last push of the log is the first one to be refused. -/
def RefusedLast (log : List (Attempt κ)) (a : Attempt κ) : Prop :=
  ∃ before, log = before ++ [a] ∧ (∀ b ∈ before, b.Fits) ∧ ¬ a.Fits

section Logs

variable {log more : List (Attempt κ)} {a b : Attempt κ}

theorem RefusedLast.singleton (h : ¬ a.Fits) : RefusedLast [a] a :=
  ⟨[], rfl, List.forall_mem_nil _, h⟩

theorem RefusedLast.append (hlog : ∀ b ∈ log, b.Fits) (h : RefusedLast more a) :
    RefusedLast (log ++ more) a := by
  obtain ⟨before, rfl, hbefore, ha⟩ := h
  exact ⟨log ++ before, (List.append_assoc _ _ _).symm,
    List.forall_mem_append.2 ⟨hlog, hbefore⟩, ha⟩

theorem RefusedLast.cons (hb : b.Fits) (h : RefusedLast more a) : RefusedLast (b :: more) a :=
  h.append (List.forall_mem_cons.2 ⟨hb, List.forall_mem_nil _⟩)

theorem RefusedLast.eq_of_append {before after : List (Attempt κ)}
    (h : RefusedLast (before ++ b :: after) a) (hb : ¬ b.Fits) : b = a ∧ after = [] := by
  obtain ⟨fitting, he, hfits, -⟩ := h
  rcases List.append_eq_append_iff.1 he with ⟨rest, hrest, hlast⟩ | ⟨rest, hrest, hlast⟩
  · cases rest with
    | nil =>
      cases hlast
      exact ⟨rfl, rfl⟩
    | cons c rest =>
      obtain ⟨rfl, -⟩ := List.cons.inj hlast
      exact absurd (hfits _ (hrest ▸ List.mem_append_right _ List.mem_cons_self)) hb
  · cases rest with
    | nil =>
      cases hlast
      exact ⟨rfl, rfl⟩
    | cons c rest => cases rest <;> cases hlast

end Logs

namespace Exec

/-- All pushes succeed, or the execution ends with the one that is refused and leaves the stack as
it was. -/
def HeedsOn (x : Exec κ α) (m : Machine κ) (log : List (Attempt κ)) : Prop :=
  (∀ a ∈ log, a.Fits) ∨ ∃ a m₁, RefusedLast log a ∧
    x m = .error (.error (.stackOverflow a.machine.context.stack.limit)) m₁ ∧
    m₁.context.stack = a.machine.context.stack

def Heeds (x : Exec κ α) (log : Machine κ → List (Attempt κ)) : Prop := ∀ m, x.HeedsOn m (log m)

variable {x : Exec κ α} {f : α → Exec κ β} {p : Machine κ → List (Attempt κ)}
  {q : α → Machine κ → List (Attempt κ)} {m : Machine κ}

theorem heedsOn_nil : x.HeedsOn m [] := .inl (List.forall_mem_nil _)

theorem heeds_nil : x.Heeds fun _ => [] := fun _ => heedsOn_nil

theorem HeedsOn.bind (hx : x.HeedsOn m (p m)) (hf : ∀ a, (f a).Heeds (q a)) :
    (x >>= f).HeedsOn m (p m ++ x.after q m) := by
  rcases hx with hfit | ⟨a, m₁, hlast, he, hs⟩
  · cases hm : x m with
    | ok b m₁ =>
      have hafter : x.after q m = q b m₁ := by rw [after, outcome, hm]
      rw [hafter]
      rcases hf b m₁ with hfit' | ⟨a, m₂, hlast, he, hs⟩
      · exact .inl (List.forall_mem_append.2 ⟨hfit, hfit'⟩)
      · exact .inr ⟨a, m₂, hlast.append hfit, by rw [bind_of_ok hm, he], hs⟩
    | error e m₁ =>
      have hafter : x.after q m = [] := by rw [after, outcome, hm]
      rw [hafter, List.append_nil]
      exact .inl hfit
  · have hafter : x.after q m = [] := by rw [after, outcome, he]
    rw [hafter, List.append_nil]
    exact .inr ⟨a, m₁, hlast, bind_of_error he, hs⟩

theorem Heeds.bind (hx : x.Heeds p) (hf : ∀ a, (f a).Heeds (q a)) :
    (x >>= f).Heeds fun m => p m ++ x.after q m := fun m => (hx m).bind hf

theorem Heeds.after (hf : ∀ a, (f a).Heeds (q a)) : (x >>= f).Heeds (x.after q) :=
  Heeds.bind (p := fun _ => []) heeds_nil hf

theorem Heeds.andThen (hx : x.Heeds p) : (x >>= f).Heeds p := by
  intro m
  rcases hx m with hfit | ⟨a, m₁, hlast, he, hs⟩
  · exact .inl hfit
  · exact .inr ⟨a, m₁, hlast, bind_of_error he, hs⟩

theorem push_cases (frame : Frame κ) (m : Machine κ) :
    ((⟨frame, m⟩ : Attempt κ).Fits ∧ ∃ m₁, m.push frame = .ok m₁) ∨
      ¬ (⟨frame, m⟩ : Attempt κ).Fits ∧
        m.push frame = .error (.stackOverflow m.context.stack.limit) := by
  by_cases h : m.context.stack.depth < m.context.stack.limit
  · obtain ⟨s, hs, -⟩ := FrameStack.push_of_lt frame h
    exact .inl ⟨h, _, by rw [Machine.push, hs]⟩
  · have hfull : m.context.stack.depth = m.context.stack.limit :=
      Nat.le_antisymm m.context.stack.depth_le_limit (Nat.le_of_not_lt h)
    exact .inr ⟨h, by rw [Machine.push, FrameStack.push_of_full frame hfull]⟩

theorem heeds_push (frame : Frame κ) : (push frame).Heeds fun m => [⟨frame, m⟩] := by
  intro m
  rcases push_cases frame m with ⟨hfit, -⟩ | ⟨hfull, hpush⟩
  · exact .inl fun a ha => List.mem_singleton.1 ha ▸ hfit
  · exact .inr ⟨_, m, .singleton hfull, push_of_error hpush, rfl⟩

theorem heeds_perform {x : Action κ α} (hx : x.Heeds) : x.perform.Heeds x.attempts := by
  induction x with
  | done | fail | diverge => exact heeds_nil
  | readRegister k i next ih => exact fun m => ih _ (hx _) m
  | writeRegister i v next ih =>
    intro m
    cases hs : Slot.ofIndex v.kind i with
    | ok s =>
      have hrest := ih (.ok ()) (hx _) (m.setRegisters (m.context.registers.put s.offset v))
      unfold HeedsOn Action.perform Action.attempts
      rwa [hs]
    | error e =>
      have hrest := ih (.error e) (hx _) m
      unfold HeedsOn Action.perform Action.attempts
      rwa [hs]
  | setResult a next ih => exact fun m => ih hx _
  | push frame next ih =>
    intro m
    unfold HeedsOn Action.perform Action.attempts
    rcases push_cases frame m with ⟨hfit, m₁, hpush⟩ | ⟨hfull, hpush⟩
    · rw [hpush]
      rcases ih (.ok ()) hx.2 m₁ with hfits | ⟨a, m₂, hlast, hrest⟩
      · exact .inl (List.forall_mem_cons.2 ⟨hfit, hfits⟩)
      · exact .inr ⟨a, m₂, hlast.cons hfit, hrest⟩
    · rw [hpush]
      dsimp only
      rw [hx.1]
      exact .inr ⟨_, m, .singleton hfull, rfl, rfl⟩
  | pop next ih =>
    intro m
    have hrest := ih _ (hx (taken FrameStack.pop? m).1) (taken FrameStack.pop? m).2
    unfold HeedsOn Action.perform Action.attempts
    unfold taken Machine.pop? at *
    cases hp : m.context.stack.pop? with
    | none => rwa [hp] at hrest
    | some popped => rwa [hp] at hrest
  | depth next ih => exact fun m => ih _ (hx _) m
  | allocate c next ih => exact fun m => ih _ (hx _) _
  | bindArgs f args next ih =>
    intro m
    unfold HeedsOn Action.perform Action.attempts
    cases m.heap.bind f args with
    | ok c => exact ih _ (hx _) _
    | error e => exact ih _ (hx _) _
  | observe next ih => exact fun m => ih _ (hx _) m
  | spark a next ih => exact fun m => ih _ (hx _) _
  | interrupt b next ih => exact fun m => ih hx _
  | log line next ih => exact fun m => ih hx _
  | tick c next ih => exact fun m => ih _ (hx _) _

end Exec

namespace Evaluation

open Exec

variable {program : Program κ}

theorem heeds_pushArguments (vs : List Value) :
    (pushArguments vs : Exec κ Unit).Heeds (argumentAttempts vs) := by
  induction vs with
  | nil => exact heeds_nil
  | cons v vs ih => exact ih.bind fun _ => heeds_push (.apply v)

section Dispatching

variable (hp : program.Heeds)
include hp

theorem heeds_invokeAt (f : Address) (args : List Value) (slots : List Slot) :
    (invokeAt program f args slots).Heeds (invokeAtAttempts program f args slots) := by
  intro m
  unfold HeedsOn invokeAt invokeAtAttempts
  cases m.heap.function? f with
  | none => exact heedsOn_nil
  | some p => exact Heeds.after (fun _ => heeds_perform (hp p.1.code p.2)) m

theorem heeds_callExact (f : Address) (args : List Value) :
    (callExact program f args).Heeds (callExactAttempts program f args) := by
  unfold callExact callExactAttempts
  split
  · exact heeds_invokeAt hp f args []
  · cases SchemaTable.standard.lookup args with
    | some schema => exact .after fun _ => heeds_invokeAt hp f args schema.slots
    | none => exact .after fun _ => .after fun _ => (heeds_pushArguments args).andThen

theorem heeds_applyFunction (f : Address) (args : List Value) :
    (applyFunction program f args).Heeds (applyFunctionAttempts program f args) := by
  refine .after fun arity => ?_
  by_cases heq : args.length = arity
  · rw [if_pos heq, if_pos heq]
    exact heeds_callExact hp f args
  · rw [if_neg heq, if_neg heq]
    by_cases hlt : args.length < arity
    · rw [if_pos hlt, if_pos hlt]
      exact heeds_nil
    · rw [if_neg hlt, if_neg hlt]
      exact .after fun _ => .after fun _ =>
        (heeds_pushArguments _).bind fun _ => heeds_callExact hp f _

theorem heeds_apply (callee : Address) (args : List Value) :
    (apply program callee args).Heeds (applyAttempts program callee args) := by
  intro m
  by_cases hn : args.isEmpty = true
  · rw [applyAttempts, if_pos hn]
    exact heedsOn_nil
  · unfold HeedsOn apply applyAttempts
    rw [if_neg hn, if_neg hn]
    cases m.heap.callee? (m.heap.resolve callee) with
    | none => exact heedsOn_nil
    | some p => exact heeds_applyFunction hp p.1 (p.2 ++ args) m

theorem heeds_applyResult (v : Value) (f : Address) (bound : List Value) :
    (applyResult program v f bound).Heeds (resultAttempts program v f bound) := by
  refine .after fun arity => ?_
  by_cases hz : arity = 0
  · rw [if_pos hz, if_pos hz]
    exact (heeds_push (.apply v)).bind fun _ => heeds_invokeAt hp f bound []
  · rw [if_neg hz, if_neg hz]
    refine .after fun more => ?_
    split
    · exact .after fun slots => heeds_invokeAt hp f _ slots
    · exact heeds_nil

theorem heeds_applyFrame (v : Value) :
    (applyFrame program v).Heeds (applyFrameAttempts program v) := by
  intro m
  unfold HeedsOn applyFrameAttempts
  rw [applyFrame_eq_result]
  cases m.context.registers.readClosure 1 with
  | error e => exact heedsOn_nil
  | ok result =>
    dsimp only
    cases m.heap.callee? (m.heap.resolve result) with
    | none => exact heedsOn_nil
    | some p => exact heeds_applyResult hp v p.1 p.2 m

theorem heeds_start (a : Address) (body : Suspension κ) :
    (start program a body).Heeds (startAttempts program a body) := by
  intro m
  unfold HeedsOn start startAttempts
  rcases push_cases (.update a) m with ⟨hfit, m₁, hpush⟩ | ⟨hfull, hpush⟩
  · rw [hpush]
    rcases heeds_perform (hp body.code body.captured) _ with hfits | ⟨b, m₂, hlast, hrest⟩
    · exact .inl (List.forall_mem_cons.2 ⟨hfit, hfits⟩)
    · exact .inr ⟨b, m₂, hlast.cons hfit, hrest⟩
  · rw [hpush]
    exact .inr ⟨_, _, .singleton hfull, rfl, congrArg Core.stack (m.core_resetThunk a _)⟩

theorem heeds_enter (a : Address) : (enter program a).Heeds (enterAttempts program a) := by
  intro m
  unfold HeedsOn enterAttempts
  split
  · next body hc =>
    rw [enter_eq_start program hc]
    exact heeds_start hp a body _
  · exact heedsOn_nil

end Dispatching

theorem heeds_updateThunk (a : Address) :
    (updateThunk a : Exec κ Step).Heeds (updateAttempts a) := by
  intro m
  unfold HeedsOn updateThunk updateAttempts
  cases m.context.registers.readClosure 1 with
  | error e => exact heedsOn_nil
  | ok result =>
    dsimp only
    split
    · next h =>
      rw [if_neg (by simp [h.1]), if_pos (by simp [h.2])]
      have hentered := (heeds_push (κ := κ) (.update a)).andThen
        (f := fun _ => pure (Step.enter (m.heap.resolve result)))
      exact Heeds.after (x := Exec.report .update fun _ => ⟨.trace,
        "result is unevaluated; entering it first", [("thread", m.context.thread.text)]⟩)
          (fun _ => hentered) m
    · exact .inl (List.forall_mem_nil _)

theorem heeds_resumeFrame (hp : program.Heeds) (frame : Frame κ) :
    (resumeFrame program frame).Heeds (frameAttempts program frame) := by
  cases frame with
  | apply v => exact heeds_applyFrame hp v
  | update a => exact heeds_updateThunk a
  | case code captured => exact heeds_perform (hp code captured)
  | handler f => exact heeds_nil

end Evaluation

end GraphReduction
