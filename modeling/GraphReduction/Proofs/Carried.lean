import GraphReduction.Proofs.Closed

namespace GraphReduction

open Evaluation

variable {κ : Type}

namespace Exec

variable {α β : Type} {x : Exec κ α} {f : α → Exec κ β} {P : α → Machine κ → Prop}
  {Q : β → Machine κ → Prop} {m : Machine κ}

def Carries (x : Exec κ α) (P : α → Machine κ → Prop) (m : Machine κ) : Prop :=
  Carried m (x.outcome m).2 ∧ ∀ a, (x.outcome m).1 = .ok a → P a (x.outcome m).2

theorem Carries.bind (hx : x.Carries P m)
    (hf : ∀ a m', Carried m m' → P a m' → (f a).Carries Q m') : (x >>= f).Carries Q m := by
  obtain ⟨hm, hp⟩ := hx
  cases h : x m with
  | ok a m' =>
    rw [outcome_of_ok h] at hm hp
    have hb : (x >>= f).outcome m = (f a).outcome m' := by
      rw [outcome, bind_of_ok h, outcome]
    obtain ⟨hm', hq⟩ := hf a m' hm (hp a rfl)
    rw [Carries, hb]
    exact ⟨hm.trans hm', hq⟩
  | error e m' =>
    rw [outcome_of_error h] at hm
    rw [Carries, outcome_of_error (bind_of_error h)]
    exact ⟨hm, fun b hb => by cases hb⟩

theorem carries_of_ok {a : α} {m' : Machine κ} (h : x m = .ok a m') (hm : Carried m m')
    (hp : P a m') : x.Carries P m := by
  rw [Carries, outcome_of_ok h]
  refine ⟨hm, fun b hb => ?_⟩
  cases hb
  exact hp

theorem carries_of_error {e : Fault} {m' : Machine κ} (h : x m = .error e m')
    (hm : Carried m m') : x.Carries P m := by
  rw [Carries, outcome_of_error h]
  exact ⟨hm, fun b hb => by cases hb⟩

theorem Carries.congr {y : Exec κ α} {m' : Machine κ} (h : x m = y m') (hm : Carried m m')
    (hy : y.Carries P m') : x.Carries P m := by
  have ho : x.outcome m = y.outcome m' := by rw [outcome, outcome, h]
  rw [Carries, ho]
  exact ⟨hm.trans hy.1, hy.2⟩

theorem carries_pure {a : α} (hm : m.Closed) (hp : P a m) : (pure a : Exec κ α).Carries P m :=
  carries_of_ok rfl (.refl hm) hp

theorem carries_raise (e : RuntimeError) (hm : m.Closed) : (raise e : Exec κ α).Carries P m :=
  carries_of_error rfl (.refl hm)

theorem carries_ofExcept {r : Except RuntimeError α} (hm : m.Closed)
    (hp : ∀ a, r = .ok a → P a m) : (ofExcept r : Exec κ α).Carries P m := by
  cases r with
  | ok a => exact carries_pure hm (hp a rfl)
  | error e => exact carries_raise e hm

theorem carries_report (target : Target) (remark : Machine κ → Remark) (hm : m.Closed) :
    (report target remark).Carries (fun _ _ => True) m :=
  carries_of_ok rfl (.of_core hm (m.core_report target remark)) trivial

theorem carries_count (c : Counters → Counters) (hm : m.Closed) :
    (count c : Exec κ Unit).Carries (fun _ _ => True) m :=
  carries_of_ok rfl (.of_core hm (m.core_count c)) trivial

theorem carries_push {frame : Frame κ} (hm : m.Closed) (hf : frame.Within m.heap.size) :
    (push frame).Carries (fun _ _ => True) m := by
  cases h : m.push frame with
  | ok m' => exact carries_of_ok (push_of_ok h) (.push hm hf h) trivial
  | error e => exact carries_of_error (push_of_error h) (.refl hm)

theorem carries_pushArguments {vs : List Value} (hm : m.Closed) (hv : AllWithin m.heap.size vs) :
    (pushArguments vs : Exec κ Unit).Carries (fun _ _ => True) m := by
  induction vs with
  | nil => exact carries_pure hm trivial
  | cons v vs ih =>
    obtain ⟨hv, hvs⟩ := List.forall_mem_cons.1 hv
    exact (ih hvs).bind fun _ m' hm' _ => carries_push hm'.closed (hv.mono hm'.size_le)

def Names (s : Step) (m : Machine κ) : Prop := s.Within m.heap.size

theorem carries_giveBack {a : Address} (hm : m.Closed) (ha : a.index < m.heap.size) :
    (giveBack a : Exec κ Step).Carries Names m :=
  carries_of_ok rfl (.of_put hm (i := 0) (v := .boxed a) ha rfl) trivial

end Exec

theorem Action.Disciplined.suffix {α : Type} {x : Action κ α} (h : x.Disciplined) (m : Machine κ) :
    m.context.stack.frames <:+ (x.perform.outcome m).2.context.stack.frames := by
  induction x generalizing m with
  | pop next => exact absurd h id
  | readRegister k i next ih => exact ih _ (h _) m
  | writeRegister i v next ih =>
    unfold perform
    cases Slot.ofIndex v.kind i with
    | ok s => exact ih _ (h _) (m.setRegisters (m.context.registers.put s.offset v))
    | error e => exact ih _ (h _) m
  | setResult a next ih => exact ih h (m.setResult a)
  | push frame next ih =>
    unfold perform
    cases hp : m.push frame with
    | ok m' =>
      obtain ⟨s, hs, hc⟩ := Machine.push_eq_ok hp
      simp only [Exec.outcome, hp]
      refine List.IsSuffix.trans ?_ (ih _ (h.2 _) m')
      rw [show m'.context.stack = s from congrArg Core.stack hc, (FrameStack.frames_of_push hs).1]
      exact List.suffix_cons _ _
    | error e =>
      simp only [Exec.outcome, hp]
      exact ih _ (h.2 _) m
  | depth next ih => exact ih _ (h _) m
  | allocate c next ih => exact ih _ (h _) (m.allocate c.cell).2
  | bindArgs f args next ih =>
    unfold perform
    cases hb : m.heap.bind f args with
    | ok c =>
      simp only [Exec.outcome, hb]
      exact ih _ (h _) (m.allocate c).2
    | error e =>
      simp only [Exec.outcome, hb]
      exact ih _ (h _) m
  | observe next ih => exact ih _ (h _) m
  | spark a next ih => exact ih _ (h _) (m.spark a).2
  | interrupt b next ih => exact ih h { m with context := { m.context with interrupted := b } }
  | log s next ih =>
    exact ih h { m with shared := { m.shared with journal := m.shared.journal.note s } }
  | tick c next ih =>
    exact ih _ (h _) { m with shared := { m.shared with journal := m.shared.journal.tick c } }
  | _ => exact List.suffix_rfl

namespace Evaluation

open Exec

variable {program : Program κ} {m : Machine κ}

theorem carries_of_closedAt (hp : program.Disciplined) {code : κ} {captured : List Value}
    (h : program.ClosedAt code captured m) : (run program code captured).Carries Names m :=
  ⟨⟨h.1, ((hp code captured).isQuiet m).grown.size_le,
    fun _ ha => ha.trans ((hp code captured).suffix m)⟩, h.2⟩

theorem carries_run (hp : program.Disciplined) (hc : program.Closed) {code : κ}
    {captured : List Value} (hm : m.Closed) (hv : AllWithin m.heap.size captured) :
    (run program code captured).Carries Names m :=
  carries_of_closedAt hp (hc code captured m hm hv)

theorem carries_load {args : List Value} {slots : List Slot} (hm : m.Closed)
    (hv : AllWithin m.heap.size args) :
    (load args slots : Exec κ Unit).Carries (fun _ _ => True) m := by
  induction args generalizing slots m with
  | nil => exact carries_pure hm trivial
  | cons v vs ih =>
    obtain ⟨hv, hvs⟩ := List.forall_mem_cons.1 hv
    cases slots with
    | nil => exact carries_pure hm trivial
    | cons s ss =>
      by_cases hk : s.kind = v.kind
      · have hl : load (v :: vs) (s :: ss) m =
            load vs ss (m.setRegisters (m.context.registers.put s.offset v)) := by
          rw [load_cons, if_pos hk]
        have hput : Carried m (m.setRegisters (m.context.registers.put s.offset v)) :=
          .of_put hm hv rfl
        exact .congr hl hput (ih hput.closed hvs)
      · have hl : load (v :: vs) (s :: ss) m = Exec.raise (.registerKind s.kind s.index) m := by
          rw [load_cons, if_neg hk]
        exact carries_of_error hl (.refl hm)

variable (hp : program.Disciplined) (hc : program.Closed)
include hp hc

theorem carries_invokeAt {f : Address} {args : List Value} {slots : List Slot} (hm : m.Closed)
    (hv : AllWithin m.heap.size args) : (invokeAt program f args slots).Carries Names m := by
  cases hf : m.heap.function? f with
  | none => exact carries_of_error (by simp only [invokeAt, hf]; rfl) (.refl hm)
  | some q =>
    have hx : invokeAt program f args slots m =
        (load args slots >>= fun _ => run program q.1.code q.2) m := by
      simp only [invokeAt, hf]
      rfl
    refine .congr hx (.refl hm) ((carries_load hm hv).bind fun _ m' hm' _ => ?_)
    exact carries_run hp hc hm'.closed ((hm.heap.function? hf).mono hm'.size_le)

theorem carries_invoke {f : Address} {args : List Value} (hm : m.Closed)
    (hv : AllWithin m.heap.size args) : (invoke program f args).Carries Names m := by
  refine (carries_ofExcept (P := fun _ _ => True) hm fun _ _ => trivial).bind fun slots m' hm' _ => ?_
  exact carries_invokeAt hp hc hm'.closed (hv.mono hm'.size_le)

theorem carries_callExact {f : Address} {args : List Value} (hm : m.Closed)
    (hf : f.index < m.heap.size) (hv : AllWithin m.heap.size args) :
    (callExact program f args).Carries Names m := by
  unfold callExact
  split
  · exact carries_invokeAt hp hc hm hv
  · split
    · refine (carries_count _ hm).bind fun _ m₁ h₁ _ => ?_
      exact carries_invokeAt hp hc h₁.closed (hv.mono h₁.size_le)
    · refine (carries_count _ hm).bind fun _ m₁ h₁ _ => ?_
      refine (carries_report _ _ h₁.closed).bind fun _ m₂ h₂ _ => ?_
      have h₂ := h₁.trans h₂
      refine (carries_pushArguments h₂.closed (hv.mono h₂.size_le)).bind fun _ m₃ h₃ _ => ?_
      exact carries_giveBack h₃.closed (Nat.lt_of_lt_of_le hf (h₂.trans h₃).size_le)

omit hp hc in
theorem carries_arityOf {f : Address} {n : Nat} (hm : m.Closed) :
    (arityOf f n : Exec κ Nat).Carries (fun _ _ => True) m := by
  cases hf : m.heap.function? f with
  | none => exact carries_of_error (by simp only [arityOf, hf]; rfl) (.refl hm)
  | some q => exact carries_of_ok (a := q.1.arity) (by simp only [arityOf, hf]) (.refl hm) trivial

omit hp hc in
theorem carries_bindArgs {f : Address} {args : List Value} (hm : m.Closed)
    (hv : AllWithin m.heap.size args) :
    (bindArgs f args : Exec κ Address).Carries (fun a m => a.index < m.heap.size) m := by
  cases hb : m.heap.bind f args with
  | error e => exact carries_of_error (by simp only [bindArgs, hb]; rfl) (.refl hm)
  | ok c =>
    obtain ⟨hcarried, hlt⟩ := Carried.allocate hm (hm.heap.bind hv hb)
    exact carries_of_ok (by simp only [bindArgs, hb]) hcarried hlt

theorem carries_applyFunction {f : Address} {args : List Value} (hm : m.Closed)
    (hf : f.index < m.heap.size) (hv : AllWithin m.heap.size args) :
    (applyFunction program f args).Carries Names m := by
  refine (carries_arityOf hm).bind fun arity m₁ h₁ _ => ?_
  split
  · exact carries_callExact hp hc h₁.closed (Nat.lt_of_lt_of_le hf h₁.size_le) (hv.mono h₁.size_le)
  · split
    · refine (carries_count _ h₁.closed).bind fun _ m₂ h₂ _ => ?_
      have h₂ := h₁.trans h₂
      refine (carries_bindArgs h₂.closed (hv.mono h₂.size_le)).bind fun pap m₃ h₃ hpap => ?_
      refine (carries_report _ _ h₃.closed).bind fun _ m₄ h₄ _ => ?_
      exact carries_giveBack h₄.closed (Nat.lt_of_lt_of_le hpap h₄.size_le)
    · refine (carries_count _ h₁.closed).bind fun _ m₂ h₂ _ => ?_
      refine (carries_report _ _ h₂.closed).bind fun _ m₃ h₃ _ => ?_
      have h₃ := (h₁.trans h₂).trans h₃
      have hv₃ := hv.mono h₃.size_le
      refine (carries_pushArguments h₃.closed
        fun v h => hv₃ v (List.mem_of_mem_drop h)).bind fun _ m₄ h₄ _ => ?_
      have h₄ := h₃.trans h₄
      exact carries_callExact hp hc h₄.closed (Nat.lt_of_lt_of_le hf h₄.size_le)
        fun v h => hv.mono h₄.size_le v (List.mem_of_mem_take h)

theorem carries_apply {callee : Address} {args : List Value} (hm : m.Closed)
    (hf : callee.index < m.heap.size) (hv : AllWithin m.heap.size args) :
    (apply program callee args).Carries Names m := by
  have hlt := hm.heap.lt_size_resolve hf
  by_cases hn : args.isEmpty = true
  · cases hcell : m.heap.cell (m.heap.resolve callee) with
    | function info captured =>
      exact .congr (y := giveBack (m.heap.resolve callee)) (by simp only [apply, if_pos hn, hcell])
        (.refl hm) (carries_giveBack hm hlt)
    | unsaturated f bound =>
      exact .congr (y := giveBack (m.heap.resolve callee)) (by simp only [apply, if_pos hn, hcell])
        (.refl hm) (carries_giveBack hm hlt)
    | thunk state =>
      exact carries_of_ok (a := .enter (m.heap.resolve callee))
        (by simp only [apply, if_pos hn, hcell]) (.refl hm) hlt
    | data d fields =>
      exact carries_of_ok (a := .enter (m.heap.resolve callee))
        (by simp only [apply, if_pos hn, hcell]) (.refl hm) hlt
  · cases hq : m.heap.callee? (m.heap.resolve callee) with
    | none => exact carries_of_error (by simp only [apply, if_neg hn, hq]; rfl) (.refl hm)
    | some q =>
      obtain ⟨hfun, hbound⟩ := hm.heap.callee? hq
      exact .congr (by simp only [apply, if_neg hn, hq]) (.refl hm)
        (carries_applyFunction hp hc hm hfun (hbound.append hv))

omit hp hc in
theorem carries_popArguments (n : Nat) (hm : m.Closed) :
    (popArguments n : Exec κ (List Value)).Carries (fun vs m => AllWithin m.heap.size vs) m := by
  induction n generalizing m with
  | zero => exact carries_pure hm (allWithin_nil _)
  | succ n ih =>
    cases hs : m.context.stack.popArgument? with
    | none => exact carries_of_ok (by simp only [popArguments, hs]) (.refl hm) (allWithin_nil _)
    | some q =>
      obtain ⟨v, s⟩ := q
      have hframes : m.context.stack.frames = .apply v :: s.frames := by
        unfold FrameStack.popArgument? at hs
        split at hs
        · next hpop =>
          cases hs
          exact (FrameStack.frames_of_pop? hpop).1
        · cases hs
      have hall := hm.frames
      rw [hframes] at hall
      obtain ⟨hv, hrest⟩ := List.forall_mem_cons.1 hall
      have hv : v.Within m.heap.size := hv
      have hpopped : Carried m (m.setStack s) := by
        refine .of_stack hm rfl hrest fun a ha => ?_
        rw [hframes] at ha
        exact ha.of_cons.resolve_right (by simp)
      have hx : popArguments (n + 1) m =
          (popArguments n >>= fun vs => pure (v :: vs) : Exec κ (List Value)) (m.setStack s) := by
        simp only [popArguments, hs]
      refine .congr hx hpopped ((ih hpopped.closed).bind fun vs m' hm' hvs => ?_)
      exact carries_pure hm'.closed (.cons (hv.mono hm'.size_le) hvs)

theorem carries_applyFrame {v : Value} (hm : m.Closed) (hv : v.Within m.heap.size) :
    (applyFrame program v).Carries Names m := by
  have hread : Carries (fun m => ofExcept (m.context.registers.readClosure 1) m : Exec κ Address)
      (fun a m => a.index < m.heap.size) m := by
    refine .congr (y := ofExcept (m.context.registers.readClosure 1)) rfl (.refl hm)
      (carries_ofExcept hm fun a ha => ?_)
    rw [Registers.readClosure_one] at ha
    cases hr : m.context.registers.result? with
    | none =>
      rw [hr] at ha
      cases ha
    | some p =>
      rw [hr] at ha
      cases ha
      exact hm.registers 0 _ hr
  refine hread.bind fun result m₁ h₁ hresult => ?_
  have hget : Carries (get : Exec κ (Machine κ)) (fun m m' => m' = m) m₁ :=
    carries_of_ok rfl (.refl h₁.closed) rfl
  refine hget.bind fun m₂ m₃ h₃ he => ?_
  subst he
  dsimp only
  cases hq : m₃.heap.callee? (m₃.heap.resolve result) with
  | none => exact carries_raise _ h₃.closed
  | some q =>
    obtain ⟨f, bound⟩ := q
    have hbound := (h₃.closed.heap.callee? hq).2
    refine (carries_arityOf h₃.closed).bind fun arity m₄ h₄ _ => ?_
    have hv₄ := hv.mono ((h₁.trans h₃).trans h₄).size_le
    have hframe : (.apply v : Frame κ).Within m₄.heap.size := hv₄
    split
    · refine (carries_push h₄.closed hframe).bind fun _ m₅ h₅ _ => ?_
      exact carries_invokeAt hp hc h₅.closed (hbound.mono (h₄.trans h₅).size_le)
    · refine (carries_popArguments _ h₄.closed).bind fun more m₅ h₅ hmore => ?_
      have hargs : AllWithin m₅.heap.size (bound ++ v :: more) :=
        (hbound.mono (h₄.trans h₅).size_le).append (.cons (hv₄.mono h₅.size_le) hmore)
      split
      · exact carries_invoke hp hc h₅.closed hargs
      · refine (carries_count _ h₅.closed).bind fun _ m₆ h₆ _ => ?_
        refine (carries_bindArgs h₆.closed (hargs.mono h₆.size_le)).bind fun pap m₇ h₇ hpap => ?_
        exact carries_giveBack h₇.closed hpap

omit hp hc in
theorem carried_resetThunk (a : Address) (remark : Nat → Option Remark) (hm : m.Closed) :
    Carried m (m.resetThunk a remark) := by
  have hcore := m.core_resetThunk a remark
  have hh : (m.resetThunk a remark).heap = (m.heap.reset a).2 := congrArg Core.heap hcore
  refine .of_heap hm ?_ ?_ (congrArg Core.registers hcore) (congrArg Core.stack hcore)
  · exact hh ▸ hm.heap.reset a
  · exact Nat.le_of_eq (by rw [hh, Heap.size_reset])

omit hp hc in
theorem carried_started {a : Address} {m₁ : Machine κ} (body : Suspension κ) (hm : m.Closed)
    (ha : a.index < m.heap.size) (hpush : m.push (.update a) = .ok m₁) :
    ∃ m₂, Carried m m₂ ∧ m₂.context.stack = m₁.context.stack ∧
      start program a body m = run program body.code body.captured m₂ := by
  let m₂ := m₁.count fun c => { c with thunkEntries := c.thunkEntries + 1 }
  have hframe : (.update a : Frame κ).Within m.heap.size := ha
  have h₁ : Carried m m₁ := .push hm hframe hpush
  refine ⟨m₂, h₁.trans (.of_core h₁.closed rfl), rfl, ?_⟩
  simp only [start, hpush, m₂]

theorem carries_start {a : Address} {body : Suspension κ} (hm : m.Closed)
    (ha : a.index < m.heap.size) (hv : AllWithin m.heap.size body.captured) :
    (start program a body).Carries Names m := by
  cases hpush : m.push (.update a) with
  | error e =>
    exact carries_of_error (e := .error e) (by simp only [start, hpush])
      (carried_resetThunk a (fun _ => none) hm)
  | ok m₁ =>
    obtain ⟨m₂, h₂, -, hx⟩ := carried_started body hm ha hpush
    exact .congr hx h₂ (carries_run hp hc h₂.closed (hv.mono h₂.size_le))

omit hp hc in
theorem carried_acquire {a : Address} {body : Suspension κ} (hm : m.Closed)
    (hcell : m.heap.cell a = .thunk (.unevaluated body)) :
    Carried m (m.setHeap
      (m.heap.write a (.thunk (.underEvaluation m.context.thread body [])))) ∧
      AllWithin m.heap.size body.captured := by
  have hbody := hm.heap a
  rw [hcell] at hbody
  refine ⟨.of_heap hm (hm.heap.write hbody) ?_ rfl rfl, hbody⟩
  exact Nat.le_of_eq (Heap.size_write _ _ _).symm

omit hp hc in
theorem carries_enterBusy {a : Address} (hm : m.Closed) (ha : a.index < m.heap.size) :
    (enterBusy a : Exec κ Step).Carries Names m := by
  cases hw : m.shared.waiting.register? m.heap m.context.thread a with
  | none =>
    obtain ⟨m₁, hx, hcore⟩ := enterBusy_of_cycle hw
    exact carries_of_error hx (.of_core hm hcore)
  | some w =>
    obtain ⟨m₁, hx, hcore⟩ := enterBusy_of_register? hw
    have hh : m₁.heap = m.heap := congrArg Core.heap hcore
    have h₁ : Carried m m₁ := by
      refine .of_heap hm ?_ ?_ (congrArg Core.registers hcore) (congrArg Core.stack hcore)
      · exact hh ▸ hm.heap
      · exact Nat.le_of_eq (by rw [hh])
    exact carries_of_ok hx h₁ (Nat.lt_of_lt_of_le ha h₁.size_le)

theorem carries_enter {a : Address} (hm : m.Closed) (ha : a.index < m.heap.size) :
    (enter program a).Carries Names m := by
  rcases enter_spec program a m with ⟨_, _, -, hx⟩ | ⟨-, hx⟩ | ⟨v, hv, hx⟩ | ⟨-, hx⟩ |
    ⟨t, -, -, hx⟩ | ⟨body, hcell, hx⟩
  · exact .congr hx (.refl hm) (carries_raise _ hm)
  · exact .congr hx (.refl hm) (carries_giveBack hm ha)
  · exact .congr hx (.refl hm) (carries_giveBack hm (hm.heap.target? hv))
  · exact .congr hx (.refl hm) (carries_raise _ hm)
  · exact .congr hx (.refl hm) (carries_enterBusy hm ha)
  · obtain ⟨hacquire, hbody⟩ := carried_acquire hm hcell
    exact .congr hx hacquire (carries_start hp hc hacquire.closed
      (Nat.lt_of_lt_of_le ha hacquire.size_le) (hbody.mono hacquire.size_le))

omit hp hc in
theorem carries_updateThunk {a : Address} (hm : m.Closed) (ha : a.index < m.heap.size) :
    (updateThunk a : Exec κ Step).Carries Names m := by
  rcases updateThunk_spec a m with ⟨e, m', hx, hcore, -⟩ | ⟨p, s, m', hr, -, -, hs, hx, hcore⟩ |
    ⟨p, w, m', -, -, hw, hx, hcore⟩ | ⟨p, m', hr, -, -, -, hx, hcore⟩
  · exact carries_of_error hx (.of_core hm hcore)
  · have hframes := (FrameStack.frames_of_push hs).1
    have hpushed : Carried m m' := by
      refine .of_stack hm hcore ?_ fun b hb => hframes ▸ hb.cons _
      rw [hframes]
      exact List.forall_mem_cons.2 ⟨ha, hm.frames⟩
    have hlt := hm.heap.lt_size_resolve (hm.registers 0 p hr)
    exact carries_of_ok hx hpushed (Nat.lt_of_lt_of_le hlt hpushed.size_le)
  · exact carries_of_ok hx (.of_put hm (i := 0) (v := .boxed w) (hm.heap.target? hw) hcore) trivial
  · have hlt := hm.heap.lt_size_resolve (hm.registers 0 p hr)
    have hh : m'.heap = (m.heap.settle a (m.heap.resolve p)).2 := congrArg Core.heap hcore
    refine carries_of_ok hx (.of_heap hm ?_ ?_ (congrArg Core.registers hcore)
      (congrArg Core.stack hcore)) trivial
    · exact hh ▸ hm.heap.settle a hlt
    · exact Nat.le_of_eq (by rw [hh, Heap.size_settle])

theorem carries_resumeFrame {frame : Frame κ} (hm : m.Closed) (hf : frame.Within m.heap.size) :
    (resumeFrame program frame).Carries Names m := by
  cases frame with
  | apply v => exact carries_applyFrame hp hc hm hf
  | update a => exact carries_updateThunk hm hf
  | case code captured => exact carries_run hp hc hm hf
  | handler f => exact carries_pure hm trivial

end Evaluation

section Settling

variable {m m' : Machine κ} {exception : Address}

def Evaluation.Control.Final : Control → Prop
  | .halted _ => True
  | .endless => True
  | _ => False

structure Onward (m : Machine κ) (c : Control) (m' : Machine κ) : Prop where
  closed : m'.Closed
  size_le : m.heap.size ≤ m'.heap.size
  within : c.Within m'.heap.size
  based : c.Final ∨
    ∀ a, Frame.Based a m.context.stack.frames → Frame.Based a m'.context.stack.frames

theorem Onward.of_carried {c : Control} {m₁ : Machine κ} (h : Carried m m₁)
    (hc : Onward m₁ c m') : Onward m c m' :=
  ⟨hc.closed, Nat.le_trans h.size_le hc.size_le, hc.within,
    hc.based.imp_right fun hb a ha => hb a (h.based a ha)⟩

theorem closed_discard {frame : Frame κ} {rest : List (Frame κ)} (remark : Nat → Option Remark)
    (hm : m.Closed) (hf : m.context.stack.frames = frame :: rest) :
    (Halting.discard remark frame m).Closed ∧
      m.heap.size = (Halting.discard remark frame m).heap.size ∧
      (Halting.discard remark frame m).context.stack.frames = rest := by
  obtain ⟨s, hcore, hs⟩ := exists_drop hf
  have hh : m.drop.heap = m.heap := congrArg Core.heap hcore
  have hrest : m.drop.context.stack.frames = rest :=
    (congrArg (fun c => c.stack.frames) hcore).trans hs
  have hdrop : m.drop.Closed := by
    refine ⟨hh ▸ hm.heap, ?_, ?_⟩
    · rw [hh, show m.drop.context.registers = m.context.registers from congrArg Core.registers hcore]
      exact hm.registers
    · have hall := hm.frames
      rw [hf] at hall
      rw [hh, hrest]
      exact (List.forall_mem_cons.1 hall).2
  cases frame with
  | update a =>
    change (if m.drop.heap.isThunk a then m.drop.resetThunk a remark else m.drop).Closed ∧
      _ = (if m.drop.heap.isThunk a then m.drop.resetThunk a remark else m.drop).heap.size ∧
      (if m.drop.heap.isThunk a then m.drop.resetThunk a remark else m.drop).context.stack.frames = _
    split
    · have hr := m.drop.core_resetThunk a remark
      refine ⟨(carried_resetThunk a remark hdrop).closed, ?_, ?_⟩
      · rw [show (m.drop.resetThunk a remark).heap = (m.drop.heap.reset a).2 from
          congrArg Core.heap hr, Heap.size_reset, hh]
      · exact (congrArg (fun c => c.stack.frames) hr).trans hrest
    · exact ⟨hdrop, by rw [hh], hrest⟩
  | _ => exact ⟨hdrop, congrArg Heap.size hh.symm, hrest⟩

theorem closed_abandonFrames (frames : List (Frame κ)) (hm : m.Closed)
    (hf : m.context.stack.frames = frames) :
    (abandonFrames frames m).2.Closed ∧ m.heap.size = (abandonFrames frames m).2.heap.size := by
  induction frames generalizing m with
  | nil => exact ⟨hm, rfl⟩
  | cons frame rest ih =>
    obtain ⟨hd, hs, hr⟩ := closed_discard (fun _ => none) hm hf
    obtain ⟨hc, hs'⟩ := ih hd hr
    cases frame <;> exact ⟨hc, hs.trans hs'⟩

theorem closed_unwindFrames (frames : List (Frame κ)) (n : Nat) (hm : m.Closed)
    (hf : m.context.stack.frames = frames) (he : exception.index < m.heap.size) :
    (unwindFrames exception frames n m).2.Closed ∧
      m.heap.size = (unwindFrames exception frames n m).2.heap.size ∧
      ∀ step, (unwindFrames exception frames n m).1 = some step →
        (controlOf step).Within m.heap.size ∧ ∀ a, Frame.Based a frames →
          Frame.Based a (unwindFrames exception frames n m).2.context.stack.frames := by
  induction frames generalizing n m with
  | nil => exact ⟨hm, rfl, nofun⟩
  | cons frame rest ih =>
    obtain ⟨hd, hs, hr⟩ := closed_discard resetRemark hm hf
    cases frame with
    | handler f =>
      have hcore : (unwindFrames exception (.handler f :: rest) n m).2.core =
          { m.drop.core with exception := none } := by
        change (Machine.report _ _ _).core = _
        rw [Machine.core_report]
        rfl
      have hh : (unwindFrames exception (.handler f :: rest) n m).2.heap = m.drop.heap :=
        congrArg Core.heap hcore
      have hstack : (unwindFrames exception (.handler f :: rest) n m).2.context.stack =
          m.drop.context.stack := congrArg Core.stack hcore
      refine ⟨(Carried.of_heap hd ?_ ?_ (congrArg Core.registers hcore) hstack).closed, ?_, ?_⟩
      · exact hh ▸ hd.heap
      · exact Nat.le_of_eq (by rw [hh]; rfl)
      · rw [hh]
        exact hs
      · intro step hstep
        cases hstep
        have hall := hm.frames
        rw [hf] at hall
        have hfun : f.index < m.heap.size := (List.forall_mem_cons.1 hall).1
        refine ⟨⟨hfun, .cons he (allWithin_nil _)⟩, fun a ha => ?_⟩
        rw [hstack, show m.drop.context.stack.frames = rest from hr]
        exact ha.of_cons.resolve_right (by simp)
    | _ =>
      obtain ⟨hc, hs', hstep⟩ := ih (n + 1) hd hr (hs ▸ he)
      refine ⟨hc, hs.trans hs', fun step h => ?_⟩
      obtain ⟨hw, hb⟩ := hstep step h
      refine ⟨hs ▸ hw, fun a ha => ?_⟩
      rcases ha.of_cons with ha | ⟨-, rfl⟩
      · exact hb a ha
      -- With the last frame gone there was no handler to find.
      · cases h

theorem Evaluation.Control.Final.within {c : Control} (hc : c.Final) (n : Nat) : c.Within n := by
  cases c with
  | halted e => trivial
  | endless => trivial
  | _ => exact hc.elim

theorem onward_unwind {c : Control} (hm : m.Closed) (he : exception.index < m.heap.size)
    (hc : c.Final) :
    Onward m
      (match (unwind exception m).1 with
        | some step => controlOf step
        | none => c)
      (unwind exception m).2 := by
  let m₁ := m.setException (some exception)
  have h₁ : Carried m m₁ := .of_heap hm hm.heap (Nat.le_refl _) rfl rfl
  obtain ⟨hclosed, hs, hstep⟩ := closed_unwindFrames m₁.context.stack.frames 0 h₁.closed rfl he
  have hs : m.heap.size = (unwind exception m).2.heap.size := hs
  cases hu : (unwind exception m).1 with
  | none => exact ⟨hclosed, Nat.le_of_eq hs, hc.within _, .inl hc⟩
  | some step =>
    obtain ⟨hw, hb⟩ := hstep step hu
    exact ⟨hclosed, Nat.le_of_eq hs, hs ▸ hw, .inr hb⟩

theorem onward_settle {r : Except Fault Step} (hm : m.Closed)
    (hr : ∀ s, r = .ok s → s.Within m.heap.size) :
    Onward m (settle r m).1 (settle r m).2 := by
  have hrefl {c : Control} (hc : c.Within m.heap.size) : Onward m c m :=
    ⟨hm, Nat.le_refl _, hc, .inr fun _ => id⟩
  cases r with
  | ok step =>
    have hs := hr step rfl
    cases step with
    | throw exception =>
      change Onward m (throwValue exception m).1 (throwValue exception m).2
      rw [throwValue_eq]
      refine onward_unwind hm hs ?_
      unfold uncaught
      split <;> trivial
    | _ => exact hrefl hs
  | error fault =>
    cases fault with
    | endless => exact hrefl trivial
    | error e =>
      change Onward m (raiseError e m).1 (raiseError e m).2
      by_cases hc : e.isCatchable = true
      · rw [raiseError_eq hc]
        let m₁ := m.report .trampoline fun _ =>
          ⟨.debug, "raising runtime exception", [("error", e.message)]⟩
        have h₁ : Carried m m₁ := .of_core hm (Machine.core_report _ _ _)
        obtain ⟨h₂, hlt⟩ := Carried.allocate (c := .data ⟨e.exceptionName, 0⟩ []) h₁.closed
          (allWithin_nil _)
        exact .of_carried (h₁.trans h₂) (onward_unwind h₂.closed hlt trivial)
      · rw [raiseError_of_not_catchable hc]
        exact hrefl trivial

theorem onward_follow {x : Exec κ Step} (hx : x.Carries Exec.Names m) :
    Onward m (settle (x.outcome m).1 (x.outcome m).2).1
      (settle (x.outcome m).1 (x.outcome m).2).2 :=
  .of_carried hx.1 (onward_settle hx.1.closed hx.2)

theorem final_settle_error (fault : Fault) (hf : m.context.stack.frames = []) :
    (settle (.error fault) m).1.Final := by
  have hunwind (e : Address) (m₁ : Machine κ) (hs : m₁.context.stack.frames = []) :
      (unwind e m₁).1 = none := by
    change (unwindFrames e m₁.context.stack.frames 0 (m₁.setException (some e))).1 = none
    rw [hs]
    rfl
  cases fault with
  | endless => trivial
  | error e =>
    change (raiseError e m).1.Final
    by_cases hc : e.isCatchable = true
    · rw [raiseError_eq hc, hunwind]
      · trivial
      · have hs : (raised e m).2.context.stack = m.context.stack :=
          congrArg Core.stack (Machine.core_report m .trampoline fun _ =>
            ⟨.debug, "raising runtime exception", [("error", e.message)]⟩)
        rw [hs, hf]
    · rw [raiseError_of_not_catchable hc]
      trivial

end Settling

end GraphReduction
