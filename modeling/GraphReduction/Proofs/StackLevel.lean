import GraphReduction.Proofs.Calling
import GraphReduction.Proofs.Effects

namespace GraphReduction

open Evaluation

variable {κ α β γ : Type}

namespace FrameStack

variable {s t u : FrameStack κ} {frame : Frame κ}

/-- The stacks have the same history, and limits of their own. -/
structure Level (s t : FrameStack κ) : Prop where
  frames : t.frames = s.frames
  highWater : t.highWater = s.highWater

theorem Level.symm (h : s.Level t) : t.Level s := ⟨h.frames.symm, h.highWater.symm⟩

theorem Level.trans (h : s.Level t) (h' : t.Level u) : s.Level u :=
  ⟨h'.frames.trans h.frames, h'.highWater.trans h.highWater⟩

theorem Level.depth (h : s.Level t) : t.depth = s.depth := by
  rw [t.depth_eq, s.depth_eq, h.frames]

theorem push_of_lt (frame : Frame κ) (h : s.depth < s.limit) :
    ∃ t, s.push frame = .ok t ∧ t.frames = frame :: s.frames ∧ t.limit = s.limit ∧
      t.highWater = max s.highWater (s.depth + 1) := by
  rw [push_eq_place frame h]
  exact ⟨_, rfl, rfl, rfl, rfl⟩

theorem push_of_full (frame : Frame κ) (h : s.depth = s.limit) :
    s.push frame = .error (.stackOverflow s.limit) :=
  push_eq_error_iff.2 ⟨s.depth_eq ▸ h, rfl⟩

structure Takes (p : FrameStack κ → Option (α × FrameStack κ)) : Prop where
  level : ∀ {s t : FrameStack κ}, s.Level t → p s = none ∧ p t = none ∨
    ∃ a s' t', p s = some (a, s') ∧ p t = some (a, t') ∧ s'.Level t'
  kept : ∀ {s t : FrameStack κ} {a : α}, p s = some (a, t) →
    t.limit = s.limit ∧ t.highWater = s.highWater

theorem highWater_of_pop? (h : s.pop? = some (frame, t)) : t.highWater = s.highWater := by
  unfold pop? at h
  split at h <;> cases h
  rfl

theorem takes_pop? : Takes (pop? (κ := κ)) where
  level {s t} h := by
    cases hf : s.frames with
    | nil => exact .inl ⟨pop?_eq_none hf, pop?_eq_none (h.frames.trans hf)⟩
    | cons frame rest =>
      obtain ⟨s', hs, hs', -⟩ := exists_pop? hf
      obtain ⟨t', ht, ht', -⟩ := exists_pop? (h.frames.trans hf)
      refine .inr ⟨frame, s', t', hs, ht, ht'.trans hs'.symm, ?_⟩
      rw [highWater_of_pop? hs, highWater_of_pop? ht, h.highWater]
  kept h := ⟨(frames_of_pop? h).2, highWater_of_pop? h⟩

theorem takes_popArgument? : Takes (popArgument? (κ := κ)) where
  level h := by
    unfold popArgument?
    rcases takes_pop?.level h with ⟨hs, ht⟩ | ⟨frame, s', t', hs, ht, hl⟩
    · rw [hs, ht]
      exact .inl ⟨rfl, rfl⟩
    · rw [hs, ht]
      cases frame with
      | apply v => exact .inr ⟨v, s', t', rfl, rfl, hl⟩
      | _ => exact .inl ⟨rfl, rfl⟩
  kept h := by
    unfold popArgument? at h
    split at h
    · next hp =>
      cases h
      exact takes_pop?.kept hp
    · cases h

end FrameStack

namespace Machine

variable {m m' m₁ : Machine κ}

def Level (m m' : Machine κ) : Prop := ∃ s, m' = m.setStack s ∧ m.context.stack.Level s

theorem Level.stack (h : m.Level m') : m.context.stack.Level m'.context.stack := by
  obtain ⟨s, rfl, hs⟩ := h
  exact hs

theorem Level.symm (h : m.Level m') : m'.Level m := by
  obtain ⟨s, rfl, hs⟩ := h
  exact ⟨m.context.stack, rfl, hs.symm⟩

theorem Level.trans (h : m.Level m₁) (h' : m₁.Level m') : m.Level m' := by
  obtain ⟨s, rfl, hs⟩ := h
  obtain ⟨t, rfl, ht⟩ := h'
  exact ⟨t, rfl, hs.trans ht⟩

theorem Level.heap (h : m.Level m') : m'.heap = m.heap := by
  obtain ⟨s, rfl, -⟩ := h
  rfl

theorem Level.registers (h : m.Level m') : m'.context.registers = m.context.registers := by
  obtain ⟨s, rfl, -⟩ := h
  rfl

structure Blind (g : Machine κ → Machine κ) : Prop where
  level : ∀ {m m' : Machine κ}, m.Level m' → (g m).Level (g m')
  limit : ∀ m, (g m).context.stack.limit = m.context.stack.limit
  highWater : ∀ m, (g m).context.stack.highWater = m.context.stack.highWater

namespace Blind

variable {f g : Machine κ → Machine κ}

theorem id : Blind (fun m : Machine κ => m) := ⟨fun h => h, fun _ => rfl, fun _ => rfl⟩

theorem comp (hf : Blind f) (hg : Blind g) : Blind (fun m => g (f m)) where
  level h := hg.level (hf.level h)
  limit m := (hg.limit _).trans (hf.limit m)
  highWater m := (hg.highWater _).trans (hf.highWater m)

theorem of_setStack (h : ∀ m s, g (m.setStack s) = (g m).setStack s)
    (hs : ∀ m, (g m).context.stack = m.context.stack) : Blind g where
  level := by
    rintro m - ⟨s, rfl, hl⟩
    refine ⟨s, h m s, ?_⟩
    rw [hs]
    exact hl
  limit m := by rw [hs]
  highWater m := by rw [hs]

theorem reading {g : β → Machine κ → Machine κ} {v : Machine κ → β}
    (hv : ∀ {m m' : Machine κ}, m.Level m' → v m' = v m) (h : ∀ b, Blind (g b)) :
    Blind (fun m => g (v m) m) where
  level hl := by
    rw [hv hl]
    exact (h _).level hl
  limit m := (h _).limit m
  highWater m := (h _).highWater m

end Blind

structure Indifferent (F : Machine κ → α × Machine κ) : Prop where
  result : ∀ {m m' : Machine κ}, m.Level m' → (F m').1 = (F m).1
  change : Blind fun m => (F m).2

namespace Indifferent

theorem of_blind {g : Machine κ → Machine κ} (a : α) (h : Blind g) :
    Indifferent fun m => (a, g m) :=
  ⟨fun _ => rfl, h⟩

theorem pure (a : α) : Indifferent fun m : Machine κ => (a, m) := .of_blind a .id

theorem seq {F : Machine κ → α × Machine κ} {G : α → Machine κ → β × Machine κ}
    (hF : Indifferent F) (hG : ∀ a, Indifferent (G a)) :
    Indifferent fun m => G (F m).1 (F m).2 where
  result h := by
    rw [hF.result h]
    exact (hG _).result (hF.change.level h)
  change := by
    constructor
    · intro m m' h
      rw [hF.result h]
      exact (hG _).change.level (hF.change.level h)
    · exact fun m => ((hG _).change.limit _).trans (hF.change.limit m)
    · exact fun m => ((hG _).change.highWater _).trans (hF.change.highWater m)

theorem reading {G : β → Machine κ → α × Machine κ} {v : Machine κ → β}
    (hv : ∀ {m m' : Machine κ}, m.Level m' → v m' = v m) (h : ∀ b, Indifferent (G b)) :
    Indifferent fun m => G (v m) m where
  result hl := by
    rw [hv hl]
    exact (h _).result hl
  change := .reading hv fun b => (h b).change

theorem congr {F G : Machine κ → α × Machine κ} (hF : Indifferent F) (h : ∀ m, G m = F m) :
    Indifferent G := by
  rwa [funext h]

end Indifferent

section Operations

theorem blind_report (target : Target) {remark : Machine κ → Remark}
    (hr : ∀ {m m' : Machine κ}, m.Level m' → remark m' = remark m) :
    Blind fun m => m.report target remark where
  level := by
    rintro m - ⟨s, rfl, hl⟩
    have hr' := hr ⟨s, rfl, hl⟩
    unfold report
    change Level _ (if m.shared.trace.wants target then _ else _)
    split
    · dsimp only
      rw [hr']
      exact ⟨s, rfl, hl⟩
    · exact ⟨s, rfl, hl⟩
  limit m := by rw [context_report]
  highWater m := by rw [context_report]

theorem blind_count (f : Counters → Counters) : Blind fun m : Machine κ => m.count f :=
  .of_setStack (fun _ _ => rfl) fun _ => rfl

theorem blind_setResult (a : Address) : Blind fun m : Machine κ => m.setResult a :=
  .of_setStack (fun _ _ => rfl) fun _ => rfl

theorem blind_setException (e : Option Address) : Blind fun m : Machine κ => m.setException e :=
  .of_setStack (fun _ _ => rfl) fun _ => rfl

def remarked (target : Target) (remark? : Option Remark) (m : Machine κ) : Machine κ :=
  match remark? with
  | some r => m.report target fun _ => r
  | none => m

theorem blind_remarked (target : Target) (remark? : Option Remark) :
    Blind fun m : Machine κ => remarked target remark? m := by
  cases remark? with
  | none => exact .id
  | some r => exact blind_report _ fun _ => rfl

theorem blind_wake (a : Address) (released : List (Thread κ)) :
    Blind fun m => m.wake a released := by
  have hwoken : Blind fun m : Machine κ =>
      { m with scheduler := m.scheduler.wake a released } :=
    .of_setStack (fun _ _ => rfl) fun _ => rfl
  have hsaid : Blind fun m : Machine κ =>
      remarked .scheduler (m.scheduler.wakeRemark? released) m :=
    .reading (v := fun m => m.scheduler.wakeRemark? released)
      (fun h => by obtain ⟨s, rfl, -⟩ := h; rfl) (blind_remarked .scheduler)
  exact hsaid.comp hwoken

theorem indifferent_onHeap (f : Heap κ → α × Heap κ) :
    Indifferent fun m : Machine κ => m.onHeap f where
  result h := by rw [onHeap_eq, onHeap_eq, h.heap]
  change := .of_setStack (fun _ _ => rfl) fun _ => rfl

theorem blind_resetThunk (a : Address) (remark : Nat → Option Remark) :
    Blind fun m : Machine κ => m.resetThunk a remark := by
  have hwake (released : List (Thread κ)) : Blind fun m : Machine κ =>
      (remarked .update (remark released.length) m).wake a released :=
    (blind_remarked .update _).comp (blind_wake a released)
  exact ((indifferent_onHeap (·.reset a)).seq fun released => .of_blind () (hwake released)).change

theorem indifferent_spark (a : Address) : Indifferent fun m : Machine κ => m.spark a where
  result h := by
    obtain ⟨s, rfl, -⟩ := h
    rfl
  change := .of_setStack (fun _ _ => rfl) fun _ => rfl

def taken (p : FrameStack κ → Option (α × FrameStack κ)) (m : Machine κ) : Option α × Machine κ :=
  match p m.context.stack with
  | some (a, s) => (some a, m.setStack s)
  | none => (none, m)

theorem indifferent_taken {p : FrameStack κ → Option (α × FrameStack κ)} (hp : FrameStack.Takes p) :
    Indifferent (taken p) where
  result h := by
    unfold taken
    rcases hp.level h.stack with ⟨hm, hm'⟩ | ⟨a, s, t, hm, hm', -⟩ <;> rw [hm, hm']
  change := by
    constructor
    · intro m m' h
      unfold taken
      rcases hp.level h.stack with ⟨hm, hm'⟩ | ⟨a, s, t, hm, hm', hl⟩ <;> rw [hm, hm']
      · exact h
      · obtain ⟨u, rfl, -⟩ := h
        exact ⟨t, rfl, hl⟩
    · intro m
      unfold taken
      cases hm : p m.context.stack with
      | none => rfl
      | some q => exact (hp.kept hm).1
    · intro m
      unfold taken
      cases hm : p m.context.stack with
      | none => rfl
      | some q => exact (hp.kept hm).2

theorem blind_drop : Blind (drop (κ := κ)) := by
  have h : drop (κ := κ) = fun m => (taken FrameStack.pop? m).2 := by
    funext m
    unfold drop pop? taken
    cases m.context.stack.pop? <;> rfl
  rw [h]
  exact (indifferent_taken FrameStack.takes_pop?).change

theorem blind_reportControl (c : Control) : Blind fun m : Machine κ => reportControl c m := by
  have hstack {m m' : Machine κ} (h : m.Level m') :
      m'.context.stack.frames = m.context.stack.frames ∧
        m'.context.stack.depth = m.context.stack.depth := ⟨h.stack.frames, h.stack.depth⟩
  have hcontrol : Blind fun m : Machine κ => m.report .trampoline (controlRemark c) := by
    refine blind_report _ fun {m m'} h => ?_
    obtain ⟨hframes, hdepth⟩ := hstack h
    obtain ⟨s, rfl, -⟩ := h
    cases c <;> simp only [controlRemark, FrameStack.top?, hframes, hdepth] <;> rfl
  have hremark : Blind fun m : Machine κ => m.report .trampoline stackRemark := by
    refine blind_report _ fun {m m'} h => ?_
    simp only [stackRemark, FrameStack.labels, (hstack h).1]
  have hboth : Blind fun m : Machine κ =>
      if m.context.stack.isEmpty then m else m.report .trampoline stackRemark := by
    refine .reading (v := fun m => m.context.stack.isEmpty)
      (g := fun b m => if b then m else m.report .trampoline stackRemark) (fun h => ?_) fun b => ?_
    · simp only [FrameStack.isEmpty, (hstack h).1]
    · cases b with
      | true => exact .id
      | false => exact hremark
  refine .reading (v := fun m => m.shared.trace.wants .trampoline)
    (g := fun b m => if b then
      (if (m.report .trampoline (controlRemark c)).context.stack.isEmpty then
        m.report .trampoline (controlRemark c)
      else (m.report .trampoline (controlRemark c)).report .trampoline stackRemark) else m)
    (fun h => by obtain ⟨s, rfl, -⟩ := h; rfl) fun b => ?_
  cases b with
  | true => exact hcontrol.comp hboth
  | false => exact .id

end Operations

end Machine

namespace Exec

open Machine

variable {x : Exec κ α} {f : α → Exec κ β}

def onward (f : α → Exec κ β) : Except Fault α → Machine κ → Except Fault β × Machine κ
  | .ok a => (f a).outcome
  | .error e => fun m => (.error e, m)

theorem outcome_bind (x : Exec κ α) (f : α → Exec κ β) (m : Machine κ) :
    (x >>= f).outcome m = onward f (x.outcome m).1 (x.outcome m).2 := by
  cases hx : x m with
  | ok a m' =>
    rw [outcome_of_ok hx, outcome, bind_of_ok hx]
    rfl
  | error e m' => rw [outcome_of_error hx, outcome_of_error (bind_of_error hx), onward]

theorem indifferent_bind (hx : Indifferent x.outcome) (hf : ∀ a, Indifferent (f a).outcome) :
    Indifferent (x >>= f).outcome := by
  refine (hx.seq (G := onward f) fun r => ?_).congr (outcome_bind x f)
  cases r with
  | ok a => exact hf a
  | error e => exact .pure (Except.error e)

theorem indifferent_raise (e : RuntimeError) : Indifferent (raise e : Exec κ α).outcome :=
  .pure (Except.error (Fault.error e))

theorem indifferent_ofExcept (r : Except RuntimeError α) :
    Indifferent (ofExcept r : Exec κ α).outcome := by
  cases r with
  | ok a => exact .pure (Except.ok a)
  | error e => exact indifferent_raise e

theorem indifferent_reading {y : β → Exec κ α} {v : Machine κ → β}
    (hv : ∀ {m m' : Machine κ}, m.Level m' → v m' = v m) (hx : ∀ m, x m = y (v m) m)
    (h : ∀ b, Indifferent (y b).outcome) : Indifferent x.outcome :=
  (Indifferent.reading hv h).congr fun m => by rw [outcome, hx, outcome]

theorem indifferent_modify {g : Machine κ → Machine κ} (hg : Blind g) :
    Indifferent (modify g : Exec κ Unit).outcome :=
  .of_blind (Except.ok ()) hg

theorem indifferent_count (f : Counters → Counters) : Indifferent (count f : Exec κ Unit).outcome :=
  indifferent_modify (blind_count f)

theorem indifferent_report (target : Target) {remark : Machine κ → Remark}
    (hr : ∀ {m m' : Machine κ}, m.Level m' → remark m' = remark m) :
    Indifferent (report target remark : Exec κ Unit).outcome :=
  indifferent_modify (blind_report target hr)

theorem indifferent_giveBack (a : Address) : Indifferent (giveBack a : Exec κ Step).outcome :=
  .of_blind (Except.ok Step.resume) (blind_setResult a)

end Exec

namespace Evaluation

open Machine

theorem closureText_of_level {m m' : Machine κ} (h : m.Level m') (a : Address) :
    closureText m' a = closureText m a := by
  rw [closureText, h.heap, closureText]

theorem indifferent_load (args : List Value) (slots : List Slot) :
    Indifferent (load args slots : Exec κ Unit).outcome := by
  induction args generalizing slots with
  | nil => exact .pure (Except.ok ())
  | cons v vs ih =>
    cases slots with
    | nil => exact .pure (Except.ok ())
    | cons s ss =>
      by_cases hk : s.kind = v.kind
      · have hput : Blind fun m : Machine κ =>
            m.setRegisters (m.context.registers.put s.offset v) :=
          .of_setStack (fun _ _ => rfl) fun _ => rfl
        refine (Indifferent.seq (.of_blind () hput) fun _ => ih ss).congr fun m => ?_
        rw [Exec.outcome, load_cons, if_pos hk]
        rfl
      · refine (Exec.indifferent_raise (.registerKind s.kind s.index)).congr fun m => ?_
        rw [Exec.outcome, load_cons, if_neg hk]
        rfl

theorem indifferent_arityOf (f : Address) (n : Nat) :
    Indifferent (arityOf f n : Exec κ Nat).outcome := by
  refine Exec.indifferent_reading (v := Machine.heap)
    (y := fun h => (h.function? f).elim (Exec.raise (.applyNonFunction (h.variant f).name n))
      fun p => pure p.1.arity) Level.heap (fun m => ?_) fun h => ?_
  · unfold arityOf
    cases m.heap.function? f <;> rfl
  · cases h.function? f with
    | none => exact Exec.indifferent_raise _
    | some p => exact .pure (Except.ok p.1.arity)

def built : Except RuntimeError (Cell κ) → Exec κ Address
  | .ok c => fun m => .ok (m.allocate c).1 (m.allocate c).2
  | .error e => Exec.raise e

theorem indifferent_bindArgs (f : Address) (args : List Value) :
    Indifferent (bindArgs f args : Exec κ Address).outcome := by
  refine Exec.indifferent_reading (v := Machine.heap) (y := fun h => built (h.bind f args))
    Level.heap (fun m => ?_) fun h => ?_
  · unfold bindArgs
    cases m.heap.bind f args <;> rfl
  · cases h.bind f args with
    | error e => exact Exec.indifferent_raise e
    | ok c =>
      exact (indifferent_onHeap (·.allocate c)).seq (G := fun a m => (Except.ok a, m))
        fun a => .pure (Except.ok a)

theorem indifferent_popArguments (n : Nat) :
    Indifferent (popArguments n : Exec κ (List Value)).outcome := by
  induction n with
  | zero => exact .pure (Except.ok [])
  | succ n ih =>
    let more (r : Option Value) : Exec κ (List Value) :=
      r.elim (pure []) fun v => do return v :: (← popArguments n)
    have hmore (r : Option Value) : Indifferent (more r).outcome := by
      cases r with
      | none => exact .pure (Except.ok [])
      | some v => exact Exec.indifferent_bind ih fun vs => .pure (Except.ok (v :: vs))
    refine ((indifferent_taken FrameStack.takes_popArgument?).seq hmore).congr fun m => ?_
    unfold Exec.outcome popArguments taken
    cases m.context.stack.popArgument? <;> rfl

theorem stack_enterBusy (a : Address) (m : Machine κ) :
    ((enterBusy a).outcome m).2.context.stack = m.context.stack := by
  cases hw : m.shared.waiting.register? m.heap m.context.thread a with
  | none =>
    obtain ⟨m₁, hx, hcore⟩ := enterBusy_of_cycle hw
    rw [Exec.outcome_of_error hx]
    exact congrArg Core.stack hcore
  | some w =>
    obtain ⟨m₁, hx, hcore⟩ := enterBusy_of_register? hw
    rw [Exec.outcome_of_ok hx]
    exact congrArg Core.stack hcore

theorem level_enterBusy {m m' : Machine κ} (a : Address) (h : m.Level m') :
    ((enterBusy a).outcome m').1 = ((enterBusy a).outcome m).1 ∧
      ((enterBusy a).outcome m).2.Level ((enterBusy a).outcome m').2 := by
  obtain ⟨s, rfl, hl⟩ := h
  cases hw : m.shared.waiting.register? m.heap m.context.thread a with
  | none =>
    have hw' : (m.setStack s).shared.waiting.register? (m.setStack s).heap
      (m.setStack s).context.thread a = none := hw
    simp only [Exec.outcome, enterBusy, hw, hw']
    exact ⟨trivial, (blind_report .update fun _ => rfl).level ⟨s, rfl, hl⟩⟩
  | some w =>
    have hw' : (m.setStack s).shared.waiting.register? (m.setStack s).heap
      (m.setStack s).context.thread a = some w := hw
    simp only [Exec.outcome, enterBusy, hw, hw']
    exact ⟨trivial, (blind_report .update fun _ => rfl).level ⟨s, rfl, hl⟩⟩

theorem indifferent_enterBusy (a : Address) :
    Indifferent (enterBusy a : Exec κ Step).outcome where
  result h := (level_enterBusy a h).1
  change := by
    refine ⟨fun h => (level_enterBusy a h).2, fun m => ?_, fun m => ?_⟩
    · exact congrArg FrameStack.limit (stack_enterBusy a m)
    · exact congrArg FrameStack.highWater (stack_enterBusy a m)

section Settling

theorem blind_discard (remark : Nat → Option Remark) (frame : Frame κ) :
    Blind fun m => Halting.discard remark frame m := by
  cases frame with
  | update a =>
    have hreset (b : Bool) : Blind fun m : Machine κ => if b then m.resetThunk a remark else m := by
      cases b with
      | true => exact blind_resetThunk a remark
      | false => exact .id
    have hdiscard : Blind fun m : Machine κ =>
        if m.heap.isThunk a then m.resetThunk a remark else m :=
      .reading (v := fun m => m.heap.isThunk a)
        (g := fun b m => if b then m.resetThunk a remark else m)
        (fun h => congrArg (Heap.isThunk · a) h.heap) hreset
    exact blind_drop.comp hdiscard
  | _ => exact blind_drop

theorem blind_abandonFrames (frames : List (Frame κ)) :
    Blind fun m => (abandonFrames frames m).2 := by
  induction frames with
  | nil => exact .id
  | cons frame rest ih =>
    have hd := blind_discard (fun _ => none) frame
    cases frame <;> exact hd.comp ih

theorem indifferent_unwindFrames (exception : Address) (frames : List (Frame κ)) (n : Nat) :
    Indifferent (unwindFrames exception frames n) := by
  induction frames generalizing n with
  | nil => exact .pure none
  | cons frame rest ih =>
    have hd := blind_discard resetRemark frame
    cases frame with
    | handler f =>
      have hcaught : Blind fun m : Machine κ => m.report .trampoline fun m =>
          ⟨.debug, "exception caught", [("exception", (m.heap.text? exception).getD "<endless>"),
            ("discarded", toString n)]⟩ :=
        blind_report _ fun h => by rw [h.heap]
      exact .of_blind _ (((hd.comp (blind_count _)).comp (blind_setException none)).comp hcaught)
    | _ =>
      exact (Indifferent.of_blind () hd).seq (G := fun _ => unwindFrames exception rest (n + 1))
        fun _ => ih (n + 1)

theorem indifferent_unwind (exception : Address) :
    Indifferent (unwind exception : StateM (Machine κ) (Option Step)) := by
  have hframes : Indifferent fun m : Machine κ =>
      unwindFrames exception m.context.stack.frames 0 m :=
    .reading (v := fun m => m.context.stack.frames)
      (G := fun frames m => unwindFrames exception frames 0 m) (fun h => h.stack.frames)
      fun frames => indifferent_unwindFrames exception frames 0
  exact (Indifferent.of_blind () (blind_setException (some exception))).seq
    (G := fun _ m => unwindFrames exception m.context.stack.frames 0 m) fun _ => hframes

theorem indifferent_unwinding (exception : Address) {h : Machine κ → Control}
    (hh : ∀ {m m' : Machine κ}, m.Level m' → h m' = h m) :
    Indifferent fun m => (match (unwind exception m).1 with
      | some step => controlOf step
      | none => h (unwind exception m).2, (unwind exception m).2) := by
  refine (indifferent_unwind exception).seq (G := fun r m => (match r with
    | some step => controlOf step
    | none => h m, m)) fun r => ?_
  cases r with
  | some step => exact .pure (controlOf step)
  | none => exact ⟨fun hl => hh hl, .id⟩

theorem indifferent_raised (e : RuntimeError) :
    Indifferent fun m : Machine κ => raised e m := by
  have hsaid : Blind fun m : Machine κ => m.report .trampoline fun _ =>
      ⟨.debug, "raising runtime exception", [("error", e.message)]⟩ := blind_report _ fun _ => rfl
  exact (Indifferent.of_blind () hsaid).seq (G := fun _ m => m.allocate _)
    fun _ => indifferent_onHeap (·.allocate _)

theorem indifferent_settle (r : Except Fault Step) :
    Indifferent (settle r : StateM (Machine κ) Control) := by
  cases r with
  | ok step =>
    cases step with
    | throw exception =>
      have hhalted : Indifferent fun m : Machine κ => throwValue exception m := by
        refine (indifferent_unwinding exception (h := fun m => uncaught exception m.heap)
          fun h => by rw [h.heap]).congr fun m => throwValue_eq exception m
      exact hhalted
    | resume => exact .pure Control.resuming
    | enter a => exact .pure (Control.entering a)
    | apply f args => exact .pure (Control.applying f args)
    | block a => exact .pure (Control.blocked a)
  | error fault =>
    cases fault with
    | endless => exact .pure Control.endless
    | error e =>
      by_cases hc : e.isCatchable = true
      · have hraised : Indifferent fun m : Machine κ => raiseError e m := by
          refine ((indifferent_raised e).seq fun exception =>
            indifferent_unwinding exception (h := fun _ => .halted e)
              fun _ => rfl).congr fun m => raiseError_eq hc m
        exact hraised
      · exact (Indifferent.pure (Control.halted e)).congr fun m => raiseError_of_not_catchable hc m

end Settling

end Evaluation

end GraphReduction
