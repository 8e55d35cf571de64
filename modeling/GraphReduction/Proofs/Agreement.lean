import GraphReduction.Proofs.Alike
import GraphReduction.Proofs.Calling
import GraphReduction.Proofs.Dispatch
import Mathlib.Tactic.Tauto

namespace GraphReduction

variable {κ α β : Type}

inductive Agreed (d : Counters) (post : α → Need) :
    EStateM.Result Fault (Machine κ) α → EStateM.Result Fault (Machine κ) α → Prop where
  | ok {a : α} {m m' : Machine κ} : Alike d (post a) m m' → Agreed d post (.ok a m) (.ok a m')
  | error {e : Fault} {m m' : Machine κ} : Alike d (some []) m m' →
      Agreed d post (.error e m) (.error e m')

theorem Agreed.elim {d : Counters} {post : α → Need}
    {r r' : EStateM.Result Fault (Machine κ) α} (h : Agreed d post r r') :
    (∃ a m m', r = .ok a m ∧ r' = .ok a m' ∧ Alike d (post a) m m') ∨
      ∃ e m m', r = .error e m ∧ r' = .error e m' ∧ Alike d (some []) m m' := by
  cases h with
  | ok h => exact .inl ⟨_, _, _, rfl, rfl, h⟩
  | error h => exact .inr ⟨_, _, _, rfl, rfl, h⟩

namespace Exec

def Agrees (d : Counters) (need : Need) (post : α → Need) (x : Exec κ α) : Prop :=
  ∀ m m', Alike d need m m' → Agreed d post (x m) (x m')

variable {d : Counters} {need : Need} {known known' : List Slot} {post : α → Need}
  {post' : β → Need} {x : Exec κ α} {f : α → Exec κ β}

theorem Agrees.bind (hx : Agrees d need post x) (hf : ∀ a, Agrees d (post a) post' (f a)) :
    Agrees d need post' (x >>= f) := by
  intro m m' h
  rcases (hx m m' h).elim with ⟨a, m₁, m₁', hm, hm', h₁⟩ | ⟨e, m₁, m₁', hm, hm', h₁⟩
  · rw [bind_of_ok hm, bind_of_ok hm']
    exact hf a m₁ m₁' h₁
  · rw [bind_of_error hm, bind_of_error hm']
    exact .error h₁

theorem agrees_pure (a : α) (h : post a = need) : Agrees d need post (pure a : Exec κ α) :=
  fun _ _ hm => .ok (h ▸ hm)

theorem agrees_throw (e : Fault) : Agrees d (some known) post (throw e : Exec κ α) :=
  fun _ _ hm => .error hm.nothing

theorem agrees_raise (e : RuntimeError) : Agrees d (some known) post (raise e : Exec κ α) :=
  agrees_throw _

theorem agrees_ofExcept (x : Except RuntimeError α) :
    Agrees d (some known) (fun _ => some known) (ofExcept x : Exec κ α) := by
  cases x with
  | ok a => exact agrees_pure a rfl
  | error e => exact agrees_raise e

theorem agrees_report (target : Target) (remark : Machine κ → Remark) :
    Agrees d need (fun _ => need) (report target remark) :=
  fun _ _ h => .ok (h.report target remark)

theorem agrees_count {f : Counters → Counters}
    (hf : ∀ c, f c = c + f 0 := by
      exact fun c => by simp [Counters.zero_def, Counters.add_def, Counters.add]) :
    Agrees d need (fun _ => need) (count f : Exec κ Unit) :=
  fun _ _ h => .ok (h.count hf)

theorem agrees_push (frame : Frame κ) :
    Agrees d (some known) (fun _ => some known) (push frame) := by
  intro m m' h
  rcases h.push frame with ⟨m₁, m₁', hm, hm', h₁⟩ | ⟨e, hm, hm'⟩
  · rw [push_of_ok hm, push_of_ok hm']
    exact .ok h₁
  · rw [push_of_error hm, push_of_error hm']
    exact .error h.nothing

theorem agrees_pushArguments (vs : List Value) :
    Agrees d (some known) (fun _ => some known) (pushArguments vs : Exec κ Unit) := by
  induction vs with
  | nil => exact agrees_pure () rfl
  | cons v vs ih => exact ih.bind fun _ => agrees_push _

end Exec

def Step.need : Step → Need
  | .resume => some [Slot.result]
  | .block _ => none
  | _ => some []

namespace Exec

variable {d : Counters} {known : List Slot}

theorem agrees_giveBack (a : Address) :
    Agrees d (some known) Step.need (giveBack a : Exec κ Step) :=
  fun _ _ h => .ok ((h.setResult a).of_subset (List.cons_subset_cons _ (List.nil_subset _)))

end Exec

section Bodies

variable {d : Counters} {known : List Slot}

namespace Action

/-- The code reads no register but those that are known or that it has written; it has written the
result register if it says so, and it does not look at what becomes of a spark. -/
def Obeys : Action κ Step → List Slot → Prop
  | done s, known => s = .resume → Slot.result ∈ known
  | fail _, _ => True
  | diverge, _ => True
  | readRegister k i next, known =>
    (∀ s, Slot.ofIndex k i = .ok s → s ∈ known) ∧ ∀ r, (next r).Obeys known
  | writeRegister i v next, known =>
    (∀ s, Slot.ofIndex v.kind i = .ok s → (next (.ok ())).Obeys (s :: known)) ∧
      ∀ e, (next (.error e)).Obeys known
  | setResult _ next, known => next.Obeys (Slot.result :: known)
  | push _ next, known => ∀ r, (next r).Obeys known
  | pop next, known => ∀ frame, (next frame).Obeys known
  | depth next, known => ∀ n, (next n).Obeys known
  | allocate _ next, known => ∀ a, (next a).Obeys known
  | bindArgs _ _ next, known => ∀ r, (next r).Obeys known
  | observe next, known => ∀ h, (next h).Obeys known
  | spark _ next, known => (∀ b, next b = next false) ∧ (next false).Obeys known
  | interrupt _ next, known => next.Obeys known
  | log _ next, known => next.Obeys known
  | tick _ next, known => ∀ n, (next n).Obeys known

theorem Obeys.agrees {x : Action κ Step} (hx : x.Obeys known) :
    Exec.Agrees d (some known) Step.need x.perform := by
  induction x generalizing known with
  | done s =>
    intro m m' h
    refine .ok ?_
    cases s with
    | resume => exact h.of_subset (List.cons_subset.2 ⟨hx rfl, List.nil_subset _⟩)
    | block a => exact h.wait
    | _ => exact h.nothing
  | fail e => exact Exec.agrees_raise e
  | diverge => exact Exec.agrees_throw _
  | readRegister k i next ih =>
    intro m m' h
    unfold perform
    rw [h.read hx.1]
    exact ih _ (hx.2 _) m m' h
  | writeRegister i v next ih =>
    intro m m' h
    unfold perform
    cases hs : Slot.ofIndex v.kind i with
    | ok s =>
      have hput := h.put s.offset v
      rw [← (Slot.index_of_ofIndex hs).1] at hput
      exact ih _ (hx.1 s hs) _ _ hput
    | error e => exact ih _ (hx.2 e) m m' h
  | setResult a next ih => exact fun m m' h => ih hx _ _ (h.setResult a)
  | push frame next ih =>
    intro m m' h
    rcases h.push frame with ⟨m₁, m₁', hm, hm', h₁⟩ | ⟨e, hm, hm'⟩
    · simp only [perform, hm, hm']
      exact ih _ (hx _) _ _ h₁
    · simp only [perform, hm, hm']
      exact ih _ (hx _) _ _ h
  | pop next ih =>
    intro m m' h
    rcases h.pop? with ⟨frame, m₁, m₁', hm, hm', h₁⟩ | ⟨hm, hm'⟩
    · simp only [perform, hm, hm']
      exact ih _ (hx _) _ _ h₁
    · simp only [perform, hm, hm']
      exact ih _ (hx _) _ _ h
  | depth next ih =>
    intro m m' h
    unfold perform
    rw [h.stack]
    exact ih _ (hx _) m m' h
  | allocate c next ih =>
    intro m m' h
    obtain ⟨ha, h₁⟩ := h.onHeap (·.allocate c.cell)
    unfold perform
    unfold Machine.allocate
    dsimp only
    rw [ha]
    exact ih _ (hx _) _ _ h₁
  | bindArgs f args next ih =>
    intro m m' h
    unfold perform
    rw [h.heap]
    cases m.heap.bind f args with
    | error e => exact ih _ (hx _) m m' h
    | ok c =>
      obtain ⟨ha, h₁⟩ := h.onHeap (·.allocate c)
      unfold Machine.allocate
      dsimp only
      rw [ha]
      exact ih _ (hx _) _ _ h₁
  | observe next ih =>
    intro m m' h
    unfold perform
    rw [h.heap]
    exact ih _ (hx _) m m' h
  | spark a next ih =>
    intro m m' h
    unfold perform
    dsimp only
    -- Whether the spark is taken may differ, but the code does not look at it.
    rw [hx.1, hx.1 (m'.spark a).1]
    exact ih _ hx.2 _ _ (h.spark a)
  | interrupt b next ih =>
    intro m m' h
    refine ih hx _ _ ⟨?_, h.registers, h.free, h.counters, h.patient⟩
    exact congrArg (fun c : Core κ => { c with interrupted := b }) h.visible
  | log s next ih =>
    intro m m' h
    refine ih hx _ _ ⟨?_, h.registers, h.free, h.counters, h.patient⟩
    exact congrArg (fun c : Core κ => { c with journal := c.journal.note s }) h.visible
  | tick c next ih =>
    intro m m' h
    have hcount : m'.shared.journal.count c = m.shared.journal.count c := by rw [h.journal]
    unfold perform
    dsimp only
    rw [hcount]
    refine ih _ (hx _) _ _ ⟨?_, h.registers, h.free, h.counters, h.patient⟩
    exact congrArg (fun e : Core κ => { e with journal := e.journal.tick c }) h.visible

def identity : Action κ Step := do
  match ← register .boxed 1 with
  | .boxed a => giveBack a
  | _ => fail .enterPartial

theorem obeys_identity : (identity : Action κ Step).Obeys [Slot.result] := by
  refine ⟨fun s hs => ?_, fun r => ?_⟩
  · cases hs
    exact List.mem_singleton_self _
  · rcases r with e | v
    · trivial
    · cases v with
      | boxed a => exact fun _ => List.mem_cons_self
      | _ => trivial

end Action

end Bodies

def Dispatch.need : Dispatch κ → Need
  | .step s => s.need
  | .call c => some (c.arguments.map Prod.fst)

namespace Evaluation

open Exec

variable {d : Counters} {known : List Slot}

theorem agrees_stepped {need : Need} {x : Exec κ Step} (hx : Agrees d need Step.need x) :
    Agrees d need Dispatch.need (stepped x) :=
  hx.bind fun _ => agrees_pure _ rfl

theorem agrees_load {target : List Slot} (args : List Value) (slots : List Slot)
    (ht : target ⊆ (slots.zip args).map Prod.fst ++ known) :
    Agrees d (some known) (fun _ => some target) (load args slots : Exec κ Unit) := by
  induction args generalizing slots known with
  | nil =>
    rw [List.zip_nil_right] at ht
    cases slots <;> exact fun m m' h => .ok (h.of_subset ht)
  | cons v vs ih =>
    cases slots with
    | nil => exact fun m m' h => .ok (h.of_subset ht)
    | cons s ss =>
      intro m m' h
      rw [load_cons, load_cons]
      by_cases hk : s.kind = v.kind
      · rw [if_pos hk, if_pos hk]
        have hput := h.put s.offset v
        rw [← hk] at hput
        -- The slot just served joins those that are known.
        refine ih ss (fun t htm => ?_) _ _ hput
        have hmem := ht htm
        simp only [List.zip_cons_cons, List.map_cons, List.cons_append, List.mem_cons,
          List.mem_append] at hmem ⊢
        tauto
      · rw [if_neg hk, if_neg hk]
        exact .error h.nothing

theorem agrees_dispatchAt (f : Address) (args : List Value) (slots : List Slot) :
    Agrees d (some known) Dispatch.need (dispatchAt f args slots : Exec κ (Dispatch κ)) := by
  intro m m' h
  unfold dispatchAt
  rw [h.heap]
  cases m.heap.function? f with
  | none => exact .error h.nothing
  | some p =>
    obtain ⟨info, captured⟩ := p
    exact (agrees_load args slots (List.subset_append_left _ _)).bind
      (fun _ => agrees_pure (Dispatch.call ⟨info.code, captured, slots.zip args⟩) rfl) m m' h

theorem agrees_dispatchCall (f : Address) (args : List Value) :
    Agrees d (some known) Dispatch.need (dispatchCall f args : Exec κ (Dispatch κ)) :=
  (agrees_ofExcept _).bind fun _ => agrees_dispatchAt f args _

theorem agrees_dispatchExact (f : Address) (args : List Value) :
    Agrees d (some known) Dispatch.need (dispatchExact f args : Exec κ (Dispatch κ)) := by
  unfold dispatchExact
  split
  · exact agrees_dispatchAt f args []
  · split
    · exact Agrees.bind agrees_count fun _ => agrees_dispatchAt f args _
    · exact Agrees.bind agrees_count fun _ => (agrees_report _ _).bind fun _ =>
        (agrees_pushArguments args).bind fun _ => agrees_stepped (agrees_giveBack f)

theorem agrees_arityOf (f : Address) (n : Nat) :
    Agrees d (some known) (fun _ => some known) (arityOf f n : Exec κ Nat) := by
  intro m m' h
  unfold arityOf
  rw [h.heap]
  cases m.heap.function? f with
  | none => exact .error h.nothing
  | some p => exact .ok h

theorem agrees_bindArgs (f : Address) (args : List Value) :
    Agrees d (some known) (fun _ => some known) (bindArgs f args : Exec κ Address) := by
  intro m m' h
  unfold bindArgs
  rw [h.heap]
  cases m.heap.bind f args with
  | error e => exact .error h.nothing
  | ok c =>
    obtain ⟨ha, h₁⟩ := h.onHeap (·.allocate c)
    unfold Machine.allocate
    dsimp only
    rw [ha]
    exact .ok h₁

theorem agrees_dispatchFunction (f : Address) (args : List Value) :
    Agrees d (some known) Dispatch.need (dispatchFunction f args : Exec κ (Dispatch κ)) := by
  refine (agrees_arityOf f args.length).bind fun arity => ?_
  split
  · exact agrees_dispatchExact f args
  · split
    · exact Agrees.bind agrees_count fun _ => (agrees_bindArgs f args).bind fun pap =>
        (agrees_report _ _).bind fun _ => agrees_stepped (agrees_giveBack pap)
    · exact Agrees.bind agrees_count fun _ => (agrees_report _ _).bind fun _ =>
        (agrees_pushArguments _).bind fun _ => agrees_dispatchExact f _

theorem agrees_dispatchApply (callee : Address) (args : List Value) :
    Agrees d (some known) Dispatch.need (dispatchApply callee args : Exec κ (Dispatch κ)) := by
  intro m m' h
  unfold dispatchApply
  dsimp only
  rw [h.heap]
  by_cases hn : args.isEmpty = true
  · rw [if_pos hn, if_pos hn]
    cases m.heap.cell (m.heap.resolve callee) with
    | function _ _ => exact agrees_stepped (agrees_giveBack _) m m' h
    | unsaturated _ _ => exact agrees_stepped (agrees_giveBack _) m m' h
    | thunk _ => exact .ok h.nothing
    | data _ _ => exact .ok h.nothing
  · rw [if_neg hn, if_neg hn]
    cases m.heap.callee? (m.heap.resolve callee) with
    | none => exact .error h.nothing
    | some p => exact agrees_dispatchFunction p.1 _ m m' h

theorem agrees_popArguments (n : Nat) :
    Agrees d (some known) (fun _ => some known) (popArguments n : Exec κ (List Value)) := by
  induction n with
  | zero => exact agrees_pure [] rfl
  | succ n ih =>
    intro m m' h
    unfold popArguments
    rw [h.stack]
    cases m.context.stack.popArgument? with
    | none => exact .ok h
    | some p => exact ih.bind (fun vs => agrees_pure (p.1 :: vs) rfl) _ _ (h.setStack p.2)

theorem agrees_dispatchResult (result : Address) (v : Value) :
    Agrees d (some known) Dispatch.need (dispatchResult result v : Exec κ (Dispatch κ)) := by
  intro m m' h
  have hget (m : Machine κ) : (get : Exec κ _) m = .ok m m := rfl
  unfold dispatchResult
  rw [bind_of_ok (hget m), bind_of_ok (hget m'), h.heap]
  dsimp only
  cases m.heap.callee? (m.heap.resolve result) with
  | none => exact .error h.nothing
  | some p =>
    obtain ⟨f, bound⟩ := p
    refine (agrees_arityOf f _).bind (fun arity => ?_) m m' h
    split
    · exact (agrees_push _).bind fun _ => agrees_dispatchAt f bound []
    · refine (agrees_popArguments _).bind fun more => ?_
      split
      · exact agrees_dispatchCall f _
      · exact Agrees.bind agrees_count fun _ => (agrees_bindArgs f _).bind fun pap =>
          agrees_stepped (agrees_giveBack pap)

theorem agrees_dispatchArgument (v : Value) :
    Agrees d (some [Slot.result]) Dispatch.need (dispatchArgument v : Exec κ (Dispatch κ)) := by
  intro m m' h
  obtain ⟨p, hr, hr'⟩ := h.result (List.mem_cons_self)
  have hread : ∀ m : Machine κ, m.context.registers.result? = some p →
      dispatchArgument v m = dispatchResult p v m :=
    fun m hr => bind_of_ok (ofExcept_readClosure hr)
  rw [hread m hr, hread m' hr']
  exact agrees_dispatchResult p v m m' h

theorem agrees_dispatchStart (a : Address) (body : Suspension κ) :
    Agrees d (some known) Dispatch.need (dispatchStart a body) := by
  intro m m' h
  unfold dispatchStart
  rcases h.push (.update a) with ⟨m₁, m₁', hm, hm', h₁⟩ | ⟨e, hm, hm'⟩
  · rw [hm, hm']
    exact .ok h₁.nothing.count
  · rw [hm, hm']
    exact .error (h.resetThunk a _).nothing

theorem agrees_enterBusy (a : Address) :
    Agrees d (some known) Step.need (enterBusy a : Exec κ Step) := by
  intro m m' h
  unfold enterBusy
  dsimp only
  rw [h.waiting, h.heap, h.thread]
  cases m.shared.waiting.register? m.heap m.context.thread a with
  | none => exact .error (h.report _ _).nothing
  | some w =>
    have h₁ : Alike d none { m with shared := { m.shared with waiting := w } }
        { m' with shared := { m'.shared with waiting := w } } :=
      ⟨congrArg (fun c : Core κ => { c with waiting := w }) h.visible, h.wait.registers,
        fun hn => absurd rfl hn, h.counters, h.patient⟩
    exact .ok (h₁.count.report _ _)

theorem agrees_dispatchEnter (a : Address) :
    Agrees d (some known) Dispatch.need (dispatchEnter a : Exec κ (Dispatch κ)) := by
  intro m m' h
  unfold dispatchEnter
  dsimp only
  rw [onHeap_eq, onHeap_eq, h.heap, h.thread]
  have h₁ := h.setHeap (m.heap.enter m.context.thread a).2
  cases m.heap.cell a with
  | unsaturated f args => exact .error h.nothing
  | _ =>
    dsimp only
    cases (m.heap.enter m.context.thread a).1 with
    | value v => exact agrees_stepped (agrees_giveBack v) _ _ h₁
    | start body => exact agrees_dispatchStart a body _ _ h₁
    | busy => exact agrees_stepped (agrees_enterBusy a) _ _ h₁
    | loop => exact .error h₁.nothing

theorem agrees_enterStep (a : Address) :
    Agrees d (some known) Step.need (pure (.enter a) : Exec κ Step) :=
  fun _ _ h => .ok h.nothing

theorem agrees_updateThunk (a : Address) :
    Agrees d (some [Slot.result]) Step.need (updateThunk a : Exec κ Step) := by
  intro m m' h
  obtain ⟨p, hr, hr'⟩ := h.result (List.mem_cons_self)
  unfold updateThunk
  rw [Registers.readClosure_one, Registers.readClosure_one, hr, hr', h.heap, h.thread]
  dsimp only
  split
  · exact .error h.nothing
  · split
    · exact ((agrees_report _ _).bind fun _ => (agrees_push _).bind fun _ =>
        agrees_enterStep _) m m' h
    · cases m.heap.target? a with
      | some winner =>
        exact .ok ((((h.report _ _).setResult winner)).of_subset
          (List.cons_subset_cons _ (List.nil_subset _)))
      | none =>
        rw [onHeap_eq, onHeap_eq, h.heap]
        exact .ok ((((h.setHeap _).count).report _ _).wake a _)

theorem agrees_dispatchFrame (frame : Frame κ) :
    Agrees d (some [Slot.result]) Dispatch.need (dispatchFrame frame) := by
  cases frame with
  | apply v => exact agrees_dispatchArgument v
  | update a => exact agrees_stepped (agrees_updateThunk a)
  | case code captured =>
    intro m m' h
    obtain ⟨p, hr, hr'⟩ := h.result (List.mem_cons_self)
    unfold dispatchFrame
    dsimp only
    rw [hr, hr']
    exact .ok h
  | handler f => exact agrees_pure _ rfl

end Evaluation

section Settling

open Evaluation

variable {d : Counters} {known : List Slot} {m m' : Machine κ}

def Evaluation.Control.need : Control → Need
  | .entering _ | .applying _ _ => some []
  | .resuming => some [Slot.result]
  | .blocked _ | .halted _ | .endless => none

def Agree (d : Counters) (post : α → Need) (r r' : α × Machine κ) : Prop :=
  r'.1 = r.1 ∧ Alike d (post r.1) r.2 r'.2

theorem agree_unwindFrames (exception : Address) (frames : List (Frame κ)) (n : Nat)
    (h : Alike d (some []) m m') :
    Agree d (fun _ => some []) (unwindFrames exception frames n m)
      (unwindFrames exception frames n m') := by
  induction frames generalizing n m m' with
  | nil => exact ⟨rfl, h⟩
  | cons frame rest ih =>
    cases frame with
    | handler f =>
      have hc : Alike d (some [])
          (m.drop.count fun c => { c with exceptionsCaught := c.exceptionsCaught + 1 })
          (m'.drop.count fun c => { c with exceptionsCaught := c.exceptionsCaught + 1 }) :=
        h.drop.count
      exact ⟨rfl, (hc.setException none).report .trampoline fun m => ⟨.debug, "exception caught",
        [("exception", (m.heap.text? exception).getD "<endless>"), ("discarded", toString n)]⟩⟩
    | update a =>
      refine ih (n + 1) ?_
      have hd := h.drop
      dsimp only
      rw [hd.heap]
      split
      · exact hd.resetThunk a _
      · exact hd
    | apply v => exact ih (n + 1) h.drop
    | case code captured => exact ih (n + 1) h.drop

theorem agree_unwind (exception : Address) (h : Alike d (some []) m m') :
    Agree d (fun _ => some []) (unwind exception m) (unwind exception m') := by
  have hs := h.setException (some exception)
  have hu := agree_unwindFrames exception m.context.stack.frames 0 hs
  change Agree d _ (unwindFrames exception m.context.stack.frames 0 _)
    (unwindFrames exception m'.context.stack.frames 0 _)
  rw [h.stack]
  exact hu

theorem agree_of_unwind {exception : Address} (halted : Heap κ → Control)
    (hn : ∀ heap, (halted heap).need = none) (h : Alike d (some []) m m') :
    Agree d Control.need
      (match (unwind exception m).1 with
        | some step => controlOf step
        | none => halted (unwind exception m).2.heap, (unwind exception m).2)
      (match (unwind exception m').1 with
        | some step => controlOf step
        | none => halted (unwind exception m').2.heap, (unwind exception m').2) := by
  obtain ⟨hstep, hu⟩ := agree_unwind exception h
  rw [hstep, hu.heap]
  refine ⟨rfl, ?_⟩
  rcases unwindFrames_fst exception m.context.stack.frames 0 (m.setException (some exception)) with
    hf | ⟨f, args, hf⟩
  · have hf : (unwind exception m).1 = none := hf
    rw [hf]
    dsimp only
    rw [hn]
    exact hu.wait
  · have hf : (unwind exception m).1 = some (.apply f args) := hf
    rw [hf]
    exact hu

theorem agree_settle {r : Except Fault Step}
    (h : Alike d (match r with | .ok s => s.need | .error _ => some []) m m') :
    Agree d Control.need (settle r m) (settle r m') := by
  cases r with
  | ok s =>
    cases s with
    | throw exception =>
      change Agree d Control.need (throwValue exception m) (throwValue exception m')
      rw [throwValue_eq, throwValue_eq]
      refine agree_of_unwind (uncaught exception) (fun heap => ?_) h
      unfold uncaught
      cases heap.text? exception <;> rfl
    | _ => exact ⟨rfl, h⟩
  | error fault =>
    cases fault with
    | endless => exact ⟨rfl, h.wait⟩
    | error e =>
      change Agree d Control.need (raiseError e m) (raiseError e m')
      by_cases hc : e.isCatchable = true
      · obtain ⟨ha, h₁⟩ := (h.report .trampoline fun _ =>
          ⟨.debug, "raising runtime exception", [("error", e.message)]⟩).onHeap
            (·.allocate (.data ⟨e.exceptionName, 0⟩ []))
        have ha : (raised e m').1 = (raised e m).1 := ha
        have h₁ : Alike d (some []) (raised e m).2 (raised e m').2 := h₁
        rw [raiseError_eq hc, raiseError_eq hc, ha]
        exact agree_of_unwind (fun _ => .halted e) (fun _ => rfl) h₁
      · rw [raiseError_of_not_catchable hc, raiseError_of_not_catchable hc]
        exact ⟨rfl, h.wait⟩

end Settling

section Advancing

open Evaluation

variable {program : Program κ} {d : Counters} {known : List Slot} {m m' : Machine κ}

def Evaluation.Turn.need : Turn κ → Need
  | .next c => c.need
  | .over _ => none

def Program.Obeys (program : Program κ) (cs : List (Call κ)) : Prop :=
  ∀ c ∈ cs, (program.body c.code c.captured).Obeys (c.arguments.map Prod.fst)

theorem agree_follow {x : Exec κ Step} (hx : Agreed d Step.need (x m) (x m')) :
    Agree d Turn.need (follow x m) (follow x m') := by
  have hs : Agree d Control.need (settle (x.outcome m).1 (x.outcome m).2)
      (settle (x.outcome m').1 (x.outcome m').2) := by
    rcases hx.elim with ⟨a, m₁, m₁', hm, hm', h₁⟩ | ⟨e, m₁, m₁', hm, hm', h₁⟩
    · rw [Exec.outcome, Exec.outcome, hm, hm']
      exact agree_settle (r := .ok a) h₁
    · rw [Exec.outcome, Exec.outcome, hm, hm']
      exact agree_settle (r := .error e) h₁
  rw [follow_eq, follow_eq]
  exact ⟨congrArg Turn.next hs.1, hs.2⟩

theorem agree_dispatch {need : Need} {x : Exec κ (Dispatch κ)}
    (hx : Exec.Agrees d need Dispatch.need x) (h : Alike d need m m') :
    calls x m' = calls x m ∧ (program.Obeys (calls x m) →
      Agree d Turn.need (follow (x >>= finish program) m) (follow (x >>= finish program) m')) := by
  unfold calls
  rcases (hx m m' h).elim with ⟨a, m₁, m₁', hm, hm', h₁⟩ | ⟨e, m₁, m₁', hm, hm', h₁⟩
  · rw [hm, hm']
    cases a with
    | step s =>
      refine ⟨rfl, fun _ => agree_follow ?_⟩
      rw [Exec.bind_of_ok hm, Exec.bind_of_ok hm']
      exact .ok h₁
    | call c =>
      refine ⟨rfl, fun hp => agree_follow ?_⟩
      rw [Exec.bind_of_ok hm, Exec.bind_of_ok hm']
      exact (hp c (List.mem_singleton_self c)).agrees _ _ h₁
  · rw [hm, hm']
    refine ⟨rfl, fun _ => agree_follow ?_⟩
    rw [Exec.bind_of_error hm, Exec.bind_of_error hm']
    exact .error h₁

theorem Alike.release {need : Need} (h : Alike d need m m') :
    Alike d none m.release m'.release where
  visible := by
    have hv := congrArg (fun c : Core κ =>
      { c with stack := FrameStack.empty c.stack.limit, thread := .nobody }) h.visible
    exact hv
  registers _ hs := (List.not_mem_nil hs).elim
  free hn := absurd rfl hn
  counters := h.counters
  patient := h.patient

theorem agree_abandonFrames {need : Need} (frames : List (Frame κ)) (h : Alike d need m m') :
    Agree d (fun _ => need) (abandonFrames frames m) (abandonFrames frames m') := by
  induction frames generalizing m m' with
  | nil => exact ⟨rfl, h⟩
  | cons frame rest ih =>
    cases frame with
    | update a =>
      refine ih ?_
      have hd := h.drop
      dsimp only
      rw [hd.heap]
      split
      · exact hd.resetThunk a _
      · exact hd
    | _ => exact ih h.drop

theorem agree_advance (program : Program κ) (c : Control) (h : Alike d c.need m m') :
    callsOf c m' = callsOf c m ∧ (program.Obeys (callsOf c m) →
      Agree d Turn.need (advance program c m) (advance program c m')) := by
  have h₁ := h.reportControl c
  cases c with
  | entering a =>
    change _ ∧ (_ → Agree d Turn.need (follow (enter program a) _) (follow (enter program a) _))
    rw [enter_eq_finish]
    exact agree_dispatch (agrees_dispatchEnter a) h₁
  | applying f args =>
    change _ ∧ (_ → Agree d Turn.need (follow (apply program f args) _)
      (follow (apply program f args) _))
    rw [apply_eq_finish]
    exact agree_dispatch (agrees_dispatchApply f args) h₁
  | resuming =>
    unfold callsOf
    dsimp only
    rcases h₁.pop? with ⟨frame, m₂, m₂', hm, hm', h₂⟩ | ⟨hm, hm'⟩
    · rw [hm, hm', advance_of_pop? program hm, advance_of_pop? program hm', resumeFrame_eq_finish]
      exact agree_dispatch (agrees_dispatchFrame frame) h₂
    · obtain ⟨a, hr, hr'⟩ := h₁.result (List.mem_cons_self)
      rw [hm, hm', advance_of_pop?_eq_none program hm hr, advance_of_pop?_eq_none program hm' hr']
      exact ⟨rfl, fun _ => ⟨rfl, h₁.release⟩⟩
  | blocked a =>
    let thread (m : Machine κ) : Thread κ := ⟨m.context.thread, m.context.stack, .enter a⟩
    have hadvance (m : Machine κ) : advance program (.blocked a) m =
        (.over (.blocked (thread (reportControl (.blocked a) m)) a),
          (reportControl (.blocked a) m).release.report .trampoline fun _ =>
            ⟨.debug, "blocked on thunk",
              threadDetail (thread (reportControl (.blocked a) m)).id⟩) := rfl
    have ht : thread (reportControl (.blocked a) m') = thread (reportControl (.blocked a) m) := by
      simp only [thread, h₁.thread, h₁.stack]
    have hr := h₁.release.report .trampoline fun _ => ⟨.debug, "blocked on thunk",
      threadDetail (thread (reportControl (.blocked a) m)).id⟩
    rw [hadvance m, hadvance m', ht]
    exact ⟨rfl, fun _ => ⟨rfl, hr⟩⟩
  | halted e =>
    let halting (m : Machine κ) := (reportControl (.halted e) m).report .trampoline fun _ =>
      ⟨.debug, "halting", [("error", e.message)]⟩
    have hadvance (m : Machine κ) : advance program (.halted e) m =
        (.over (.halted e),
          (abandonFrames (halting m).context.stack.frames (halting m)).2.release) := rfl
    have h₂ : Alike d none (halting m) (halting m') := h₁.report _ _
    rw [hadvance m, hadvance m', h₂.stack]
    exact ⟨rfl, fun _ =>
      ⟨rfl, (agree_abandonFrames (halting m).context.stack.frames h₂).2.release⟩⟩
  | endless => exact ⟨rfl, fun _ => ⟨rfl, h₁⟩⟩

end Advancing

end GraphReduction
