import GraphReduction.Proofs.Calling
import GraphReduction.Proofs.Dispatch
import GraphReduction.Proofs.Halting

namespace GraphReduction

open Evaluation GraphReduction.Frame

variable {κ α β : Type} {program : Program κ} {n : Nat} {c : Control} {m m' m₁ : Machine κ}
  {e : RuntimeError}

def RuntimeError.Ordinary : RuntimeError → Prop
  | .stackOverflow _ | .registerExhausted .. | .nonTermination | .applyNonFunction .. | .enterPartial
  | .uncaught _ | .interrupted => True
  | _ => False

def Evaluation.Turn.halted? : Turn κ → Option RuntimeError
  | .next (.halted e) => some e
  | .over (.halted e) => some e
  | _ => none

/-- Whatever the program, the iteration is to run this code on that machine. -/
def Runs (n : Nat) (c : Control) (m : Machine κ) (code : κ) (captured : List Value)
    (m₁ : Machine κ) : Prop :=
  ∀ program : Program κ, iterate program n c m = follow (run program code captured) m₁

def Returns (program : Program κ) (n : Nat) (c : Control) (m : Machine κ) (e : RuntimeError) : Prop :=
  ∃ code captured m₁ m₂, Runs n c m code captured m₁ ∧
    run program code captured m₁ = .error (.error e) m₂

def blank : Program κ := ⟨fun _ _ => .setResult ⟨0⟩ (.done .resume)⟩

section Running

theorem run_blank (code : κ) (captured : List Value) (m : Machine κ) :
    run blank code captured m = .ok .resume (m.setResult ⟨0⟩) := rfl

theorem conventional_blank : (blank : Program κ).Conventional where
  disciplined _ _ := trivial
  returns code captured m m' h := by
    obtain rfl : m.setResult ⟨0⟩ = m' := by
      cases (run_blank code captured m).symm.trans h
      rfl
    simp [Machine.setResult, Machine.setRegisters]

theorem neverBlocks_blank : (blank : Program κ).NeverBlocks := by
  intro code captured m a m' h
  cases (run_blank code captured m).symm.trans h

theorem runs_follow (x : Program κ → Exec κ Step) (y : Exec κ (Dispatch κ))
    (hx : ∀ p, x p = y >>= finish p) (m : Machine κ) :
    (∃ code captured m₁, ∀ p, follow (x p) m = follow (run p code captured) m₁) ∨
      ∀ p, follow (x p) m = follow (x blank) m := by
  cases hy : y m with
  | error fault m₁ =>
    refine .inr fun p => follow_congr ?_
    rw [hx, hx, Exec.bind_of_error hy, Exec.bind_of_error hy]
  | ok d m₁ =>
    cases d with
    | step s =>
      refine .inr fun p => follow_congr ?_
      rw [hx, hx, Exec.bind_of_ok hy, Exec.bind_of_ok hy]
      rfl
    | call call =>
      refine .inl ⟨call.code, call.captured, m₁, fun p => follow_congr ?_⟩
      rw [hx, Exec.bind_of_ok hy]
      rfl

theorem runs_advance (c : Control) (m : Machine κ) :
    (∃ code captured m₁, ∀ p : Program κ, advance p c m = follow (run p code captured) m₁) ∨
      ∀ p : Program κ, advance p c m = advance blank c m := by
  cases c with
  | entering a => exact runs_follow (fun p => enter p a) _ (fun p => enter_eq_finish a) _
  | applying f args =>
    exact runs_follow (fun p => apply p f args) _ (fun p => apply_eq_finish f args) _
  | resuming =>
    cases hp : (reportControl .resuming m).pop? with
    | some popped =>
      obtain ⟨frame, m₁⟩ := popped
      simp only [advance_of_pop? _ hp]
      exact runs_follow (fun p => resumeFrame p frame) _ (fun p => resumeFrame_eq_finish frame) m₁
    | none =>
      refine .inr fun p => ?_
      unfold advance
      simp only [modify_bind, hp]
  | _ => exact .inr fun p => rfl

theorem runs_or_eq (n : Nat) (c : Control) (m : Machine κ) :
    (∃ code captured m₁, Runs n c m code captured m₁) ∨
      ∀ p : Program κ, iterate p n c m = iterate blank n c m := by
  obtain ⟨m₁, -, ⟨e, -, hi⟩ | ⟨pending, -, hi⟩ | hi⟩ := Halting.iterate_cases n c m
  · exact .inr fun p => by rw [hi, hi]; rfl
  · exact .inr fun p => by rw [hi, hi]
  · simp only [Runs, hi]
    exact runs_advance c m₁

end Running

section Settling

variable {x : Exec κ Step}

theorem eq_halted_of_settle {r : Except Fault Step} (h : (settle r m).1 = .halted e) :
    r = .error (.error e) ∨ ∃ text, e = .uncaught text := by
  rcases settle_cases r m with ⟨s, -, hs, hx⟩ | ⟨f, args, hx⟩ | hx | ⟨e', hx, he⟩ <;> rw [hx] at h
  · cases s with
    | throw a => exact absurd rfl (hs a)
    | _ => cases h
  · cases h
  · cases h
  · cases h
    exact he

theorem eq_resuming_of_settle {r : Except Fault Step} (h : (settle r m).1 = .resuming) :
    settle r m = (.resuming, m) ∧ r = .ok .resume := by
  rcases settle_cases r m with ⟨s, hr, hs, hx⟩ | ⟨f, args, hx⟩ | hx | ⟨e, hx, -⟩
  all_goals rw [hx] at h
  · cases s with
    | throw a => exact absurd rfl (hs a)
    | resume => exact ⟨hx, hr⟩
    | _ => cases h
  all_goals cases h

theorem halted_follow (h : (follow x m).1.halted? = some e) :
    (∃ m', x m = .error (.error e) m') ∨ ∃ text, e = .uncaught text := by
  rw [follow_eq] at h
  have hs : (settle (x.outcome m).1 (x.outcome m).2).1 = .halted e := by
    revert h
    cases (settle (x.outcome m).1 (x.outcome m).2).1 <;> simp [Turn.halted?]
  refine (eq_halted_of_settle hs).imp_left fun hr => ?_
  unfold Exec.outcome at hr
  split at hr
  · cases hr
  · next fault m' hx =>
    cases hr
    exact ⟨m', hx⟩

theorem resuming_follow (h : follow x m = (.next .resuming, m')) : x m = .ok .resume m' := by
  rw [follow_eq] at h
  obtain ⟨hc, hm⟩ := Prod.mk.inj h
  obtain ⟨hs, hr⟩ := eq_resuming_of_settle (Turn.next.inj hc)
  rw [hs] at hm
  unfold Exec.outcome at hr hm
  split at hr
  · next s m₁ hx =>
    cases hr
    rw [hx] at hm ⊢
    exact congrArg _ hm
  · cases hr

end Settling

section Failing

def Exec.Fails (P : RuntimeError → Prop) (x : Exec κ α) (m : Machine κ) : Prop :=
  ∀ e m', x m = .error (.error e) m' → P e

variable {P : RuntimeError → Prop} {x y : Exec κ α} {f : α → Exec κ β}

theorem Exec.Fails.congr (h : x m = y m₁) (hy : y.Fails P m₁) : x.Fails P m :=
  fun e m' hx => hy e m' (h ▸ hx)

theorem Exec.fails_of_ok {a : α} (h : x m = .ok a m') : x.Fails P m := by
  intro e m₁ hx
  rw [h] at hx
  cases hx

theorem Exec.fails_of_error {m' : Machine κ} (h : x m = .error (.error e) m') (he : P e) :
    x.Fails P m := by
  intro e' m₁ hx
  rw [h] at hx
  cases hx
  exact he

theorem Exec.Fails.bind (hx : x.Fails P m) (hf : ∀ a m', x m = .ok a m' → (f a).Fails P m') :
    (x >>= f).Fails P m := by
  cases h : x m with
  | ok a m₁ => exact (hf a m₁ h).congr (Exec.bind_of_ok h)
  | error fault m₁ =>
    intro e m' he
    rw [Exec.bind_of_error h] at he
    cases he
    exact hx e m₁ h

theorem Exec.fails_pushArguments (vs : List Value) (m : Machine κ) :
    (pushArguments vs).Fails RuntimeError.Ordinary m := by
  induction vs with
  | nil => exact fails_of_ok rfl
  | cons v vs ih =>
    refine ih.bind fun _ m₁ _ => ?_
    cases hp : m₁.push (.apply v) with
    | ok m₂ => exact fails_of_ok (push_of_ok hp)
    | error e =>
      refine fails_of_error (push_of_error hp) ?_
      rw [(Machine.push_eq_error hp).2]
      trivial

theorem ordinary_of_layoutAfter {before kinds : List Kind}
    (h : layoutAfter before kinds = .error e) : e.Ordinary := by
  induction kinds generalizing before with
  | nil => cases h
  | cons k ks ih =>
    simp only [layoutAfter, bind, Except.bind] at h
    split at h
    · next e₁ hs =>
      cases h
      unfold Slot.ofIndex at hs
      split at hs <;> cases hs
      trivial
    · split at h
      · next e₁ hr =>
        cases h
        exact ih hr
      · cases h

variable {g : Address} {args : List Value}

theorem fails_invokeAt {slots : List Slot} (hk : slots.map Slot.kind = args.map Value.kind)
    (m : Machine κ) : (invokeAt blank g args slots).Fails RuntimeError.Ordinary m := by
  cases hf : m.heap.function? g with
  | none =>
    have hx : invokeAt blank g args slots m =
        .error (.error (.applyNonFunction (m.heap.variant g).name args.length)) m := by
      simp only [invokeAt, hf]
      rfl
    exact Exec.fails_of_error hx trivial
  | some p => exact Exec.fails_of_ok ((invokeAt_eq_run hf hk).trans (run_blank _ _ _))

theorem fails_invoke (g : Address) (args : List Value) (m : Machine κ) :
    (invoke blank g args).Fails RuntimeError.Ordinary m := by
  cases hl : layoutFor (args.map Value.kind) with
  | ok slots => exact (fails_invokeAt (kinds_of_layoutFor hl) m).congr (invoke_of_layout hl)
  | error e => exact Exec.fails_of_error (invoke_of_error hl) (ordinary_of_layoutAfter (layoutFor_eq _ ▸ hl))

theorem fails_callExact (g : Address) (args : List Value) (m : Machine κ) :
    (callExact blank g args).Fails RuntimeError.Ordinary m := by
  by_cases hne : args = []
  · subst hne
    exact fails_invokeAt rfl m
  · rw [callExact_eq blank g hne]
    split
    · next s hs =>
      exact (fails_invokeAt (kinds_of_layoutFor (SchemaTable.layoutFor_of_lookup hs)) _).congr rfl
    · refine Exec.Fails.congr (y := Exec.pushArguments args >>= fun _ => Exec.giveBack g) rfl ?_
      exact (Exec.fails_pushArguments args _).bind fun _ _ _ => Exec.fails_of_ok rfl

theorem fails_applyFunction (hne : args ≠ []) (m : Machine κ) :
    (applyFunction blank g args).Fails RuntimeError.Ordinary m := by
  cases hf : m.heap.function? g with
  | none =>
    have hx : arityOf g args.length m =
        Exec.raise (.applyNonFunction (m.heap.variant g).name args.length) m := by
      rw [arityOf, hf]
    exact Exec.fails_of_error (Exec.bind_of_error hx) trivial
  | some p =>
    obtain ⟨info, captured⟩ := p
    rcases Nat.lt_trichotomy args.length info.arity with hl | hl | hl
    · obtain ⟨m', hx, -⟩ := applyFunction_of_lt hf hne hl
      exact Exec.fails_of_ok (hx blank)
    · refine (fails_callExact g args m).congr ?_
      rw [applyFunction_eq hf, if_pos hl]
    · rw [Exec.Fails, applyFunction_eq hf, if_neg (by omega), if_neg (by omega)]
      refine Exec.Fails.bind (Exec.fails_of_ok rfl) fun _ m₀ _ => ?_
      refine Exec.Fails.bind (Exec.fails_of_ok rfl) fun _ m₁ _ => ?_
      exact (Exec.fails_pushArguments _ m₁).bind fun _ m₂ _ => fails_callExact g _ m₂

theorem fails_apply (callee : Address) (args : List Value) (m : Machine κ) :
    (Evaluation.apply blank callee args).Fails RuntimeError.Ordinary m := by
  by_cases hne : args = []
  · subst hne
    cases hc : m.heap.cell (m.heap.resolve callee) with
    | function info captured =>
      exact Exec.fails_of_ok (apply_nil (Heap.callee?_eq_some_iff.2 (.inl ⟨_, _, hc, rfl, rfl⟩)))
    | unsaturated f bound =>
      exact Exec.fails_of_ok (apply_nil (Heap.callee?_eq_some_iff.2 (.inr hc)))
    | _ =>
      have hx : Evaluation.apply blank callee [] m = .ok (.enter (m.heap.resolve callee)) m := by
        simp only [Evaluation.apply, List.isEmpty_nil, hc]
        rfl
      exact Exec.fails_of_ok hx
  · cases hc : m.heap.callee? (m.heap.resolve callee) with
    | none =>
      have hn : ¬ args.isEmpty = true := by simpa using hne
      have hx : Evaluation.apply blank callee args m = .error (.error (.applyNonFunction
          (m.heap.variant (m.heap.resolve callee)).name args.length)) m := by
        simp only [Evaluation.apply, if_neg hn, hc]
        rfl
      exact Exec.fails_of_error hx trivial
    | some p =>
      exact (fails_applyFunction (List.append_ne_nil_of_right_ne_nil p.2 hne) m).congr
        (apply_of_callee? hne hc)

theorem fails_applyFrame {v : Value} {p : Address} (hf : m.heap.Flat)
    (hr : m.context.registers.result? = some p) :
    (applyFrame blank v).Fails RuntimeError.Ordinary m := by
  cases hp : m.heap.callee? (m.heap.resolve p) with
  | none => exact Exec.fails_of_error (applyFrame_of_callee?_eq_none hr hp) trivial
  | some q =>
    obtain ⟨g, bound⟩ := q
    obtain ⟨info, captured, hg, hb⟩ := Heap.function?_of_callee? hf hp
    refine Exec.Fails.congr (applyFrame_eq hr hp hg) ?_
    by_cases hz : info.arity = 0
    · rw [if_pos hz]
      have hnil : bound = [] := hb.resolve_right (by omega)
      subst hnil
      refine Exec.Fails.bind ?_ fun _ m' _ => fails_invokeAt rfl m'
      exact Exec.fails_pushArguments [v] m
    · rw [if_neg hz]
      obtain ⟨m₁, s, hpop, hc, -⟩ := popArguments_ok (info.arity - (bound.length + 1)) m
      refine Exec.Fails.congr (Exec.bind_of_ok hpop) ?_
      let more := (arguments m.context.stack.frames).take (info.arity - (bound.length + 1))
      change Exec.Fails _ (if (bound ++ v :: more).length = info.arity then _ else _) m₁
      have hmore : more.length ≤ info.arity - (bound.length + 1) := List.length_take_le _ _
      have hg₁ : m₁.heap.function? g = some (info, captured) := by
        rw [show m₁.heap = m.heap from congrArg Core.heap hc, hg]
      split
      · exact fails_invoke g _ m₁
      · next hl =>
        have hlt : (bound ++ v :: more).length < info.arity := by
          rw [List.length_append, List.length_cons] at hl ⊢
          rcases hb with rfl | hb
          · simp only [List.length_nil] at hl hmore ⊢
            omega
          · omega
        obtain ⟨m₂, hbind, -⟩ := bindArgs_ok (m := m₁.count fun c =>
          { c with partialApplications := c.partialApplications + 1 }) hg₁
          (List.append_ne_nil_of_right_ne_nil bound (List.cons_ne_nil v more)) hlt
        exact Exec.fails_of_ok (Exec.bind_of_ok hbind)

theorem fails_start (a : Address) (body : Suspension κ) (m : Machine κ) :
    (start blank a body).Fails RuntimeError.Ordinary m := by
  cases hp : m.push (.update a) with
  | error e =>
    have hx : start blank a body m = .error (.error e) (m.resetThunk a fun _ => none) := by
      simp only [start, hp]
    refine Exec.fails_of_error hx ?_
    rw [(Machine.push_eq_error hp).2]
    trivial
  | ok m₁ =>
    have hx : start blank a body m = .ok .resume
        ((m₁.count fun c => { c with thunkEntries := c.thunkEntries + 1 }).setResult ⟨0⟩) := by
      simp only [start, hp]
      rfl
    exact Exec.fails_of_ok hx

theorem fails_enter (a : Address) (m : Machine κ) :
    (enter blank a).Fails RuntimeError.Ordinary m := by
  rcases enter_spec blank a m with ⟨_, _, -, hx⟩ | ⟨-, hx⟩ | ⟨v, -, hx⟩ | ⟨-, hx⟩ |
    ⟨t, -, -, hx⟩ | ⟨body, -, hx⟩
  · exact Exec.fails_of_error hx trivial
  · exact Exec.fails_of_ok hx
  · exact Exec.fails_of_ok hx
  · exact Exec.fails_of_error hx trivial
  · cases hw : m.shared.waiting.register? m.heap m.context.thread a with
    | none =>
      obtain ⟨m₁, hb, -⟩ := enterBusy_of_cycle hw
      exact Exec.fails_of_error (hx.trans hb) trivial
    | some w =>
      obtain ⟨m₁, hb, -⟩ := enterBusy_of_register? hw
      exact Exec.fails_of_ok (hx.trans hb)
  · exact (fails_start a body _).congr hx

end Failing

section Halting

def Faults (c : Control) (m : Machine κ) (e : RuntimeError) : Prop :=
  c = .halted e ∨ e.Ordinary ∨
    (c = .resuming ∧ m.context.registers.result? = none ∧
      (e = .emptyRegister .boxed 1 ∨ e = .unexpectedEmptyStack "returning a value")) ∨
    ∃ a rest, c = .resuming ∧ m.context.stack.frames = .update a :: rest ∧
      ¬ m.heap.isThunk a = true ∧ e = .updateNonThunk (m.heap.variant a).name

theorem faults_of_polled (hp : Polled m m₁) (h : Faults c m₁ e) : Faults c m e := by
  rwa [Faults, hp.registers, hp.stack, hp.heap] at h

theorem faults_follow {x : Exec κ Step} (hx : x.Fails (Faults c m) m₁)
    (h : (follow x m₁).1.halted? = some e) : Faults c m e := by
  rcases halted_follow h with ⟨m', hx'⟩ | ⟨text, rfl⟩
  · exact hx e m' hx'
  · exact .inr (.inl trivial)

theorem fails_resumeFrame {frame : Frame κ} {rest : List (Frame κ)} (hf : m.heap.Flat)
    (hs : m.context.stack.frames = frame :: rest) (hh : m₁.heap = m.heap)
    (hr : m₁.context.registers = m.context.registers) :
    (resumeFrame blank frame).Fails (Faults .resuming m) m₁ := by
  cases frame with
  | apply v =>
    cases hres : m₁.context.registers.result? with
    | none =>
      have hread := Registers.readClosure_one m₁.context.registers
      rw [hres] at hread
      have hx : Exec.ofExcept (m₁.context.registers.readClosure 1) m₁ =
          .error (.error (.emptyRegister .boxed 1)) m₁ := by
        rw [hread]
        rfl
      refine Exec.fails_of_error (Exec.bind_of_error hx) ?_
      exact .inr (.inr (.inl ⟨rfl, hr ▸ hres, .inl rfl⟩))
    | some p =>
      intro e m' hx
      exact .inr (.inl (fails_applyFrame (hh ▸ hf) hres e m' hx))
  | update a =>
    intro e m' hx
    rcases updateThunk_spec a m₁ with ⟨e₁, m₂, hu, -, he⟩ | ⟨p, s, m₂, -, -, -, -, hu, -⟩ |
      ⟨p, w, m₂, -, -, -, hu, -⟩ | ⟨p, m₂, -, -, -, -, hu, -⟩ <;>
      cases hu.symm.trans hx
    rcases he with ⟨hres, rfl⟩ | ⟨hn, rfl⟩ | ⟨-, -, rfl⟩
    · exact .inr (.inr (.inl ⟨rfl, hr ▸ hres, .inl rfl⟩))
    · rw [hh] at hn ⊢
      exact .inr (.inr (.inr ⟨a, rest, rfl, hs, hn, rfl⟩))
    · exact .inr (.inl trivial)
  | case code captured => exact Exec.fails_of_ok (run_blank code captured m₁)
  | handler f => exact Exec.fails_of_ok rfl

theorem faults_advance (hf : m.heap.Flat) (h : (advance blank c m).1.halted? = some e) :
    Faults c m e := by
  have hpoll : Polled m (reportControl c m) := .report m c
  cases c with
  | entering a => exact faults_follow (fun e m' hx => .inr (.inl (fails_enter a _ e m' hx))) h
  | applying f args =>
    exact faults_follow (fun e m' hx => .inr (.inl (fails_apply f args _ e m' hx))) h
  | resuming =>
    cases hs : (reportControl .resuming m).context.stack.frames with
    | cons frame rest =>
      obtain ⟨m₁, s, hpop, hc, -⟩ := Machine.exists_pop? hs
      rw [advance_of_pop? _ hpop] at h
      rw [hpoll.stack] at hs
      exact faults_follow (fails_resumeFrame hf hs ((congrArg Core.heap hc).trans hpoll.heap)
        ((congrArg Core.registers hc).trans hpoll.registers)) h
    | nil =>
      have hnone := Machine.pop?_eq_none hs
      cases hr : (reportControl .resuming m).context.registers.result? with
      | some p =>
        rw [advance_of_pop?_eq_none _ hnone hr] at h
        cases h
      | none =>
        rw [advance_of_result?_eq_none _ hnone hr] at h
        cases h
        exact .inr (.inr (.inl ⟨rfl, hpoll.registers ▸ hr, .inr rfl⟩))
  | halted e₁ =>
    cases h
    exact .inl rfl
  | blocked a => cases h
  | endless => cases h

theorem returns_or_faults (hf : m.heap.Flat) (h : (iterate program n c m).1.halted? = some e) :
    Returns program n c m e ∨ Faults c m e := by
  obtain ⟨m₁, hpoll, ⟨e₁, he, hi⟩ | ⟨pending, -, hi⟩ | hi⟩ := Halting.iterate_cases n c m
  · rw [hi program] at h
    cases h
    rcases he with rfl | he
    · exact .inr (.inr (.inl trivial))
    · refine .inr (faults_of_polled hpoll ?_)
      cases c with
      | resuming =>
        have hread := Registers.readClosure_one m₁.context.registers
        cases hr : m₁.context.registers.result? with
        | some p =>
          simp only [suspensionPoint, hread, hr] at he
          cases he
        | none =>
          simp only [suspensionPoint, hread, hr] at he
          cases he
          exact .inr (.inr (.inl ⟨rfl, hr, .inl rfl⟩))
      | halted e₂ =>
        cases he
        exact .inl rfl
      | _ => cases he
  · rw [hi program] at h
    cases h
  · rw [hi program] at h
    rcases runs_advance c m₁ with ⟨code, captured, m₂, hrun⟩ | hsame
    · rw [hrun program] at h
      rcases halted_follow h with ⟨m₃, hx⟩ | ⟨text, rfl⟩
      · exact .inl ⟨code, captured, m₂, m₃, fun p => (hi p).trans (hrun p), hx⟩
      · exact .inr (.inr (.inl trivial))
    · rw [hsame program] at h
      exact .inr (faults_of_polled hpoll (faults_advance (hpoll.heap ▸ hf) h))

end Halting

section Resulting

theorem result_of_ends {x : Exec κ Step}
    (hx : x.Ends fun s m => s = .resume → m.context.registers.result? ≠ none)
    (h : follow x m = (.next .resuming, m')) : m'.context.registers.result? ≠ none :=
  hx m _ m' (resuming_follow h) rfl

theorem result_enter {a : Address} (h : follow (enter blank a) m = (.next .resuming, m')) :
    m'.context.registers.result? ≠ none := by
  have hends := (conventional_blank (κ := κ)).ends
  have hx := resuming_follow h
  rcases enter_cases blank a m with ⟨v, he⟩ | ⟨e, he⟩ | ⟨t, -, -, he⟩ | ⟨body, -, he⟩
  · exact ends_giveBack hends v m _ m' (he.symm.trans hx) rfl
  · exact absurd rfl (Exec.ends_raise (P := fun s _ => s ≠ .resume) e m _ m' (he.symm.trans hx))
  · cases hw : m.shared.waiting.register? m.heap m.context.thread a with
    | none =>
      obtain ⟨m₁, hb, -⟩ := enterBusy_of_cycle hw
      cases (he.trans hb).symm.trans hx
    | some w =>
      obtain ⟨m₁, hb, -⟩ := enterBusy_of_register? hw
      cases (he.trans hb).symm.trans hx
  · exact ends_start hends a body _ _ m' (he.symm.trans hx) rfl

theorem result_resumeFrame {frame : Frame κ} (hr : m.context.registers.result? ≠ none)
    (h : follow (resumeFrame blank frame) m = (.next .resuming, m')) :
    m'.context.registers.result? ≠ none := by
  have hends := (conventional_blank (κ := κ)).ends
  cases frame with
  | apply v => exact result_of_ends (ends_applyFrame hends v) h
  | case code captured => exact result_of_ends (hends.run code captured) h
  | handler f =>
    cases resuming_follow h
    exact hr
  | update a =>
    have hx : updateThunk a m = .ok .resume m' := resuming_follow h
    rcases updateThunk_spec a m with ⟨e, m₁, hu, -⟩ | ⟨p, s, m₁, -, -, -, -, hu, -⟩ |
      ⟨p, w, m₁, -, -, -, hu, hc⟩ | ⟨p, m₁, hp, -, -, -, hu, hc⟩ <;> cases hu.symm.trans hx
    · rw [show m'.context.registers = _ from congrArg Core.registers hc]
      simp
    · rw [show m'.context.registers = m.context.registers from congrArg Core.registers hc, hp]
      exact nofun

theorem result_iterate
    (hret : ∀ code captured m₁ m₂, Runs n c m code captured m₁ →
      run program code captured m₁ = .ok .resume m₂ → m₂.context.registers.result? ≠ none)
    (hr : c = .resuming → m.context.registers.result? ≠ none)
    (h : iterate program n c m = (.next .resuming, m')) :
    m'.context.registers.result? ≠ none := by
  obtain ⟨m₁, hpoll, ⟨e, -, hi⟩ | ⟨pending, -, hi⟩ | hi⟩ := Halting.iterate_cases n c m
  · cases (hi program).symm.trans h
  · cases (hi program).symm.trans h
  · rw [hi program] at h
    rw [← hpoll.registers] at hr
    rcases runs_advance c m₁ with ⟨code, captured, m₂, hrun⟩ | hsame
    · rw [hrun program] at h
      exact hret code captured m₂ m' (fun p => (hi p).trans (hrun p)) (resuming_follow h)
    · rw [hsame program] at h
      cases c with
      | entering a => exact result_enter h
      | applying f args =>
        exact result_of_ends (ends_apply conventional_blank.ends f args) h
      | resuming =>
        have hreport : Polled m₁ (reportControl .resuming m₁) := .report m₁ _
        cases hs : (reportControl .resuming m₁).context.stack.frames with
        | cons frame rest =>
          obtain ⟨m₂, s, hpop, hc, -⟩ := Machine.exists_pop? hs
          rw [advance_of_pop? _ hpop] at h
          refine result_resumeFrame ?_ h
          rw [show m₂.context.registers = m₁.context.registers from
            (congrArg Core.registers hc).trans hreport.registers]
          exact hr rfl
        | nil =>
          have hnone := Machine.pop?_eq_none hs
          cases hres : (reportControl .resuming m₁).context.registers.result? with
          | some p =>
            rw [advance_of_pop?_eq_none _ hnone hres] at h
            cases h
          | none =>
            rw [advance_of_result?_eq_none _ hnone hres] at h
            cases h
      | _ => cases h

end Resulting

end GraphReduction
