import GraphReduction.Proofs.Handover
import GraphReduction.Proofs.Uniform

/-!
Iterations on twins go the same way, as long as neither run comes to what lies under its frames.
-/
namespace GraphReduction

open Evaluation Exec GraphReduction.Frame

variable {κ α : Type}

inductive Dispatch.Twin (ρ : Renaming) : Dispatch κ → Dispatch κ → Prop where
  | step {s s' : Step} : s.Twin ρ s' → Twin ρ (.step s) (.step s')
  | call {code : κ} {vs vs' : List Value} {args args' : List (Slot × Value)} : AllTwin ρ vs vs' →
      args'.map Prod.fst = args.map Prod.fst →
      Twin ρ (.call ⟨code, vs, args⟩) (.call ⟨code, vs', args'⟩)

inductive Evaluation.Control.Twin (ρ : Renaming) : Control → Control → Prop where
  | entering {a a' : Address} : ρ.rel a a' → Twin ρ (.entering a) (.entering a')
  | applying {f f' : Address} {vs vs' : List Value} : ρ.rel f f' → AllTwin ρ vs vs' →
      Twin ρ (.applying f vs) (.applying f' vs')
  | resuming : Twin ρ .resuming .resuming

def Evaluation.Control.Dead (h : Heap κ) : Control → Prop
  | .blocked a => (h.owner? a).isSome
  | .halted _ | .endless => True
  | _ => False

section Dispatching

variable {P : Footing} {ρ : Renaming} {need : Need} {known target : List Slot} {m m' : Machine κ}

namespace Evaluation

theorem matches_stepped {x x' : Exec κ Step} (hx : Matches P ρ need Step.Twin Step.need x x') :
    Matches P ρ need Dispatch.Twin Dispatch.need (stepped x) (stepped x') :=
  hx.bind fun _ _ _ _ hs => matches_pure (.step hs) rfl

theorem matches_load {args args' : List Value} (hargs : AllTwin ρ args args') (slots : List Slot)
    (ht : target ⊆ (slots.zip args).map Prod.fst ++ known) :
    Matches P ρ (some known) (fun _ _ _ => True) (fun _ => some target)
      (load args slots : Exec κ Unit) (load args' slots) := by
  induction hargs generalizing slots known with
  | nil =>
    rw [List.zip_nil_right] at ht
    cases slots <;> exact fun m m' h => .ok le_rfl trivial (h.of_subset ht)
  | @cons v v' vs vs' hv _ ih =>
    cases slots with
    | nil => exact fun m m' h => .ok le_rfl trivial (h.of_subset ht)
    | cons s ss =>
      intro m m' h
      rw [load_cons, load_cons, hv.kind_eq]
      by_cases hk : s.kind = v.kind
      · rw [if_pos hk, if_pos hk]
        have hput := h.put s.offset hv
        rw [← hk] at hput
        refine ih ss (fun t htm => ?_) _ _ hput
        have hmem := ht htm
        simp only [List.zip_cons_cons, List.map_cons, List.cons_append, List.mem_cons,
          List.mem_append] at hmem ⊢
        tauto
      · rw [if_neg hk, if_neg hk]
        exact .error le_rfl (.refl _) h.nothing

theorem zip_fst_eq {slots : List Slot} {args args' : List Value} (h : AllTwin ρ args args') :
    (slots.zip args').map Prod.fst = (slots.zip args).map Prod.fst := by
  induction h generalizing slots with
  | nil => rfl
  | cons _ _ ih =>
    cases slots with
    | nil => rfl
    | cons s ss => simp only [List.zip_cons_cons, List.map_cons, ih]

theorem matches_dispatchAt {f f' : Address} (hf : ρ.rel f f') {args args' : List Value}
    (hargs : AllTwin ρ args args') (slots : List Slot) :
    Matches P ρ (some known) Dispatch.Twin Dispatch.need
      (dispatchAt f args slots : Exec κ (Dispatch κ)) (dispatchAt f' args' slots) := by
  intro m m' h
  unfold dispatchAt
  rcases h.heap.function? hf with ⟨hn, hn'⟩ | ⟨info, captured, captured', hs, hs', hcaptured⟩
  · rw [hn, hn', h.heap.variant_eq hf, hargs.length_eq]
    exact .error le_rfl (.refl _) h.nothing
  · rw [hs, hs']
    refine (matches_load hargs slots (List.subset_append_left _ _)).bind
      (fun σ _ _ hle _ => ?_) m m' h
    exact matches_pure (.call (AllTwin.mono hle hcaptured) (zip_fst_eq hargs)) rfl

theorem matches_dispatchCall {f f' : Address} (hf : ρ.rel f f') {args args' : List Value}
    (hargs : AllTwin ρ args args') :
    Matches P ρ (some known) Dispatch.Twin Dispatch.need
      (dispatchCall f args : Exec κ (Dispatch κ)) (dispatchCall f' args') := by
  unfold dispatchCall
  rw [hargs.kinds_eq]
  cases layoutFor (args.map Value.kind) with
  | error e => exact fun m m' h => .error le_rfl (.refl _) h.nothing
  | ok slots => exact matches_dispatchAt hf hargs slots

theorem lookup_eq {args args' : List Value} (hargs : AllTwin ρ args args') (t : SchemaTable) :
    t.lookup args' = t.lookup args := by
  rw [SchemaTable.lookup_eq_find?, SchemaTable.lookup_eq_find?, hargs.kinds_eq, hargs.length_eq]

theorem matches_dispatchExact {f f' : Address} (hf : ρ.rel f f') {args args' : List Value}
    (hargs : AllTwin ρ args args') :
    Matches P ρ (some known) Dispatch.Twin Dispatch.need
      (dispatchExact f args : Exec κ (Dispatch κ)) (dispatchExact f' args') := by
  unfold dispatchExact
  rw [hargs.isEmpty_eq, lookup_eq hargs, hargs.length_eq]
  split
  · exact matches_dispatchAt hf hargs []
  · split
    · next schema _ =>
      exact (matches_count _).bind fun σ _ _ hle _ =>
        matches_dispatchAt (hle _ _ hf) (AllTwin.mono hle hargs) schema.slots
    · refine (matches_count _).bind fun σ _ _ hle _ => (matches_report _ _ _).bind
        fun τ _ _ hle₁ _ => ?_
      have hle := le_trans hle hle₁
      refine (matches_pushArguments (AllTwin.mono hle hargs)).bind fun υ _ _ hle₂ _ => ?_
      exact matches_stepped (matches_giveBack (hle₂ _ _ (hle _ _ hf)))

theorem matches_arityOf {f f' : Address} (hf : ρ.rel f f') (n : Nat) :
    Matches P ρ (some known) (fun _ k k' => k = k') (fun _ => some known)
      (arityOf f n : Exec κ Nat) (arityOf f' n) := by
  intro m m' h
  unfold arityOf
  rcases h.heap.function? hf with ⟨hn, hn'⟩ | ⟨info, captured, captured', hs, hs', -⟩
  · rw [hn, hn', h.heap.variant_eq hf]
    exact .error le_rfl (.refl _) h.nothing
  · rw [hs, hs']
    exact .ok le_rfl rfl h

theorem matches_bindArgs {f f' : Address} (hf : ρ.rel f f') {args args' : List Value}
    (hargs : AllTwin ρ args args') :
    Matches P ρ (some known) Renaming.rel (fun _ => some known)
      (bindArgs f args : Exec κ Address) (bindArgs f' args') := by
  intro m m' h
  unfold bindArgs
  rcases h.heap.bind hf hargs with ⟨e, hb, hb'⟩ | ⟨c, c', hb, hb', hc⟩
  · rw [hb, hb']
    exact .error le_rfl (.refl _) h.nothing
  · rw [hb, hb']
    obtain ⟨σ, hle, hrel, h₁⟩ := h.allocate hc (Heap.grown_bind hb)
    exact .ok hle hrel h₁

theorem matches_dispatchFunction {f f' : Address} (hf : ρ.rel f f') {args args' : List Value}
    (hargs : AllTwin ρ args args') :
    Matches P ρ (some known) Dispatch.Twin Dispatch.need
      (dispatchFunction f args : Exec κ (Dispatch κ)) (dispatchFunction f' args') := by
  unfold dispatchFunction
  rw [← hargs.length_eq]
  refine (matches_arityOf hf _).bind fun σ arity _ hle he => ?_
  subst he
  have hf := hle _ _ hf
  have hargs := AllTwin.mono hle hargs
  split
  · exact matches_dispatchExact hf hargs
  · split
    · refine (matches_count _).bind fun σ₁ _ _ hle₁ _ =>
        (matches_bindArgs (hle₁ _ _ hf) (AllTwin.mono hle₁ hargs)).bind fun σ₂ pap pap' _ hpap =>
          (matches_report _ _ _).bind fun σ₃ _ _ hle₃ _ => ?_
      exact matches_stepped (matches_giveBack (hle₃ _ _ hpap))
    · refine (matches_count _).bind fun σ₁ _ _ hle₁ _ => (matches_report _ _ _).bind
        fun σ₂ _ _ hle₂ _ => ?_
      have hle := le_trans hle₁ hle₂
      have hargs := AllTwin.mono hle hargs
      refine (matches_pushArguments (List.forall₂_drop arity hargs)).bind fun σ₃ _ _ hle₃ _ => ?_
      exact matches_dispatchExact (hle₃ _ _ (hle _ _ hf))
        (AllTwin.mono hle₃ (List.forall₂_take arity hargs))

theorem matches_dispatchApply {f f' : Address} (hf : ρ.rel f f') {args args' : List Value}
    (hargs : AllTwin ρ args args') :
    Matches P ρ (some known) Dispatch.Twin Dispatch.need
      (dispatchApply f args : Exec κ (Dispatch κ)) (dispatchApply f' args') := by
  intro m m' h
  have hr := h.heap.resolve hf
  unfold dispatchApply
  dsimp only
  rw [hargs.isEmpty_eq, ← hargs.length_eq]
  by_cases hn : args.isEmpty = true
  · rw [if_pos hn, if_pos hn]
    obtain ⟨c, c', hc, hc', hcells⟩ := h.heap.exists_cells hr
    rw [hc, hc']
    cases hcells with
    | function | unsaturated => exact matches_stepped (matches_giveBack hr) m m' h
    | _ => exact .ok le_rfl (.step (.enter hr)) h.nothing
  · rw [if_neg hn, if_neg hn]
    rcases h.heap.callee? hr with ⟨hc, hc'⟩ | ⟨g, g', bound, bound', hc, hc', hg, hbound⟩
    · rw [hc, hc', h.heap.variant_eq hr]
      exact .error le_rfl (.refl _) h.nothing
    · rw [hc, hc']
      exact matches_dispatchFunction hg (List.rel_append hbound hargs) m m' h

section Waiting

variable {fs fs' : List (Frame κ)}

theorem arguments_base' (hw : P.waiting = []) : arguments (P.base' : List (Frame κ)) = [] := by
  rw [Footing.base', hw]
  rfl

def Above (P : Footing) (n : Nat) (fs : List (Frame κ)) : Prop :=
  P.waiting = [] ∨ n ≤ (arguments fs).length ∨ underArguments fs ≠ []

theorem matched_popArguments (n : Nat) (h : m.Twin P ρ (some known) m')
    (hs : m.context.stack.frames = fs ++ P.base) (hs' : m'.context.stack.frames = fs' ++ P.base')
    (hfs : List.Forall₂ (Frame.Twin ρ) fs fs') (hn : Above P n fs) :
    Matched P ρ AllTwin (fun _ => some known) (popArguments n m) (popArguments n m') := by
  induction n generalizing m m' fs fs' with
  | zero => exact .ok le_rfl .nil h
  | succ n ih =>
    have hnone (hp : m.context.stack.popArgument? = none)
        (hp' : m'.context.stack.popArgument? = none) : Matched P ρ AllTwin (fun _ => some known)
          (popArguments (n + 1) m) (popArguments (n + 1) m') := by
      simp only [popArguments, hp, hp']
      exact .ok le_rfl .nil h
    cases hfs with
    | nil =>
      have hw : P.waiting = [] := hn.resolve_right fun hr =>
        hr.elim (fun hl => absurd hl (Nat.not_succ_le_zero n)) fun hu => hu rfl
      exact hnone (FrameStack.popArgument?_eq_none (by rw [hs]; rfl))
        (FrameStack.popArgument?_eq_none (by rw [hs']; exact arguments_base' hw))
    | @cons frame frame' rest rest' hframe hrest =>
      cases hframe with
      | @apply v v' hv =>
        obtain ⟨s, hp, hf, hl⟩ := FrameStack.exists_popArgument? hs
        obtain ⟨s', hp', hf', hl'⟩ := FrameStack.exists_popArgument? hs'
        have hnext : Above P n rest := hn.imp_right (Or.imp_left Nat.le_of_succ_le_succ)
        have hrec := ih (h.setStack hf hf' hrest hl hl') hf hf' hrest hnext
        simp only [popArguments, hp, hp']
        exact matched_bind hrec fun σ vs vs' hle hvs => matches_pure (.cons (hv.mono hle) hvs) rfl
      | _ =>
        exact hnone (FrameStack.popArgument?_eq_none (by rw [hs]; rfl))
          (FrameStack.popArgument?_eq_none (by rw [hs']; rfl))

def Decided (P : Footing) (m : Machine κ) (callee : Address) (fs : List (Frame κ)) : Prop :=
  ∀ f bound info captured, m.heap.callee? (m.heap.resolve callee) = some (f, bound) →
    m.heap.function? f = some (info, captured) → Above P (info.arity - (bound.length + 1)) fs

theorem matched_dispatchResult {p p' : Address} {v v' : Value} (h : m.Twin P ρ (some known) m')
    (hs : m.context.stack.frames = fs ++ P.base) (hs' : m'.context.stack.frames = fs' ++ P.base')
    (hfs : List.Forall₂ (Frame.Twin ρ) fs fs') (hp : ρ.rel p p') (hv : v.Twin ρ v')
    (hn : Decided P m p fs) :
    Matched P ρ Dispatch.Twin Dispatch.need (dispatchResult p v m) (dispatchResult p' v' m') := by
  have hget (m : Machine κ) : (get : Exec κ _) m = .ok m m := rfl
  have hr := h.heap.resolve hp
  unfold dispatchResult
  rw [bind_of_ok (hget m), bind_of_ok (hget m')]
  dsimp only
  rcases h.heap.callee? hr with ⟨hc, hc'⟩ | ⟨f, f', bound, bound', hc, hc', hf, hbound⟩
  · rw [hc, hc', h.heap.variant_eq hr]
    exact .error le_rfl (.error (.refl _)) h.nothing
  rw [hc, hc']
  dsimp only
  rw [← hbound.length_eq]
  rcases h.heap.function? hf with ⟨hi, hi'⟩ | ⟨info, captured, captured', hi, hi', -⟩
  · have hfail : ∀ {m : Machine κ} {f : Address}, m.heap.function? f = none →
        ∀ n, (arityOf f n : Exec κ Nat) m =
          .error (.error (.applyNonFunction (m.heap.variant f).name n)) m := by
      intro m f hn n
      rw [arityOf, hn]
      rfl
    rw [bind_of_error (hfail hi _), bind_of_error (hfail hi' _), h.heap.variant_eq hf]
    exact .error le_rfl (.refl _) h.nothing
  rw [bind_of_ok (arityOf_eq hi), bind_of_ok (arityOf_eq hi')]
  split
  · exact ((matches_push (.apply hv)).bind fun σ _ _ hle _ =>
      matches_dispatchAt (hle _ _ hf) (AllTwin.mono hle hbound) []) m m' h
  · refine matched_bind (matched_popArguments _ h hs hs' hfs (hn f bound info captured hc hi))
      fun σ more more' hle hmore => ?_
    have hf := hle _ _ hf
    have hargs : AllTwin σ (bound ++ v :: more) (bound' ++ v' :: more') :=
      List.rel_append (AllTwin.mono hle hbound) (.cons (hv.mono hle) hmore)
    rw [← hargs.length_eq]
    split
    · exact matches_dispatchCall hf hargs
    · exact (matches_count _).bind fun σ₁ _ _ hle₁ _ =>
        (matches_bindArgs (hle₁ _ _ hf) (AllTwin.mono hle₁ hargs)).bind fun _ _ _ _ hpap =>
          matches_stepped (matches_giveBack hpap)

theorem matched_dispatchArgument {v v' : Value} (h : m.Twin P ρ (some [Slot.result]) m')
    (hs : m.context.stack.frames = fs ++ P.base) (hs' : m'.context.stack.frames = fs' ++ P.base')
    (hfs : List.Forall₂ (Frame.Twin ρ) fs fs') (hv : v.Twin ρ v')
    (hn : ∀ p, m.context.registers.result? = some p → Decided P m p fs) :
    Matched P ρ Dispatch.Twin Dispatch.need (dispatchArgument v m) (dispatchArgument v' m') := by
  obtain ⟨p, p', hr, hr', hp⟩ := h.result List.mem_cons_self
  have hread : ∀ {m : Machine κ} {p : Address} {v : Value},
      m.context.registers.result? = some p → dispatchArgument v m = dispatchResult p v m :=
    fun hr => bind_of_ok (ofExcept_readClosure hr)
  rw [hread hr, hread hr']
  exact matched_dispatchResult h hs hs' hfs hp hv (hn p hr)

end Waiting

section Thunks

variable {a a' : Address}

theorem matches_dispatchStart (ha : ρ.rel a a') {code : κ} {vs vs' : List Value}
    (hvs : AllTwin ρ vs vs') :
    Matches P ρ (some known) Dispatch.Twin Dispatch.need (dispatchStart a ⟨code, vs⟩)
      (dispatchStart a' ⟨code, vs'⟩) := by
  intro m m' h
  unfold dispatchStart
  rcases h.push (.update ha) with ⟨m₁, m₁', hm, hm', h₁⟩ | ⟨l, l', hm, hm'⟩
  · rw [hm, hm']
    exact .ok le_rfl (.call hvs rfl) (h₁.nothing.count _)
  · rw [hm, hm']
    exact .error le_rfl (.error (.overflow l l')) (h.resetThunk ha _ _).nothing

theorem enterBusy_cases (a : Address) (m : Machine κ) :
    (∃ m₁, enterBusy a m = .ok (.block a) m₁ ∧ m₁.heap = m.heap) ∨
      ∃ m₁, enterBusy a m = .error (.error .nonTermination) m₁ ∧ m₁.core = m.core := by
  unfold enterBusy
  dsimp only
  cases m.shared.waiting.register? m.heap m.context.thread a with
  | none => exact .inr ⟨_, rfl, m.core_report _ _⟩
  | some w => exact .inl ⟨_, rfl, congrArg Core.heap (Machine.core_report _ _ _)⟩

theorem matched_dispatchEnter (h : m.Twin P ρ (some known) m') (ha : ρ.rel a a') :
    (∃ m₁, dispatchEnter a m = .ok (.step (.block a)) m₁ ∧ (m₁.heap.owner? a).isSome) ∨
      Matched P ρ Dispatch.Twin Dispatch.need (dispatchEnter a m) (dispatchEnter a' m') := by
  obtain ⟨c, c', hc, hc', hcells⟩ := h.heap.exists_cells ha
  have hk := CellOperations.keeps_enter m.heap m.context.thread a
  unfold dispatchEnter
  dsimp only
  rw [onHeap_eq, onHeap_eq]
  simp only [Heap.enter, hc, hc'] at hk ⊢
  cases hcells with
  | function | data => exact .inr (matches_stepped (matches_giveBack ha) m m' h)
  | unsaturated => exact .inr (.error le_rfl (.error (.refl _)) h.nothing)
  | evaluated hv => exact .inr (matches_stepped (matches_giveBack hv) m m' h)
  | unevaluated code hvs =>
    refine .inr (matches_dispatchStart ha hvs _ _ (h.write ha hc hc' (.underEvaluation _ _ _ _ code hvs)
      hk ?_))
    rintro o body blocked ⟨⟩
    rfl
  | underEvaluation t t' blocked blocked' code hvs =>
    have ht' : t' = m'.context.thread :=
      h.owners a a' t' ha (Heap.owner?_eq_some_iff.2 ⟨_, _, hc'⟩)
    simp only [if_pos ht']
    by_cases ht : t = m.context.thread
    · simp only [if_pos ht]
      exact .inr (.error le_rfl (.error (.refl _)) h.nothing)
    · simp only [if_neg ht]
      rcases enterBusy_cases a m with ⟨m₁, hb, hh⟩ | ⟨m₁, hb, hm₁⟩
      · refine .inl ⟨m₁, bind_of_ok hb, ?_⟩
        rw [hh, Heap.owner?_eq_some_iff.2 ⟨_, _, hc⟩]
        rfl
      · right
        have herror : stepped (enterBusy a) m = .error (.error .nonTermination) m₁ :=
          bind_of_error hb
        rw [show m.setHeap m.heap = m from rfl, herror]
        exact .error le_rfl (.refl _) (h.nothing.of_core_eq hm₁ rfl)

theorem matches_updateThunk (ha : ρ.rel a a') :
    Matches P ρ (some [Slot.result]) Step.Twin Step.need (updateThunk a : Exec κ Step)
      (updateThunk a') := by
  intro m m' h
  obtain ⟨p, p', hr, hr', hp⟩ := h.result List.mem_cons_self
  have hv := h.heap.resolve hp
  unfold updateThunk
  rw [Registers.readClosure_one, Registers.readClosure_one, hr, hr', h.heap.isThunk_eq ha,
    h.heap.variant_eq ha]
  dsimp only
  rw [h.heap.isValue_eq hv]
  split
  · exact .error le_rfl (.refl _) h.nothing
  · split
    · refine ((matches_report _ _ _).bind fun σ _ _ hle _ => (matches_push (.update (hle _ _ ha))).bind
        fun τ _ _ hle₁ _ => ?_) m m' h
      exact fun _ _ h => .ok le_rfl (.enter (hle₁ _ _ (hle _ _ hv))) h.nothing
    · next hvalue =>
      rcases h.heap.target? ha with ⟨hn, hn'⟩ | ⟨b, b', hb, hb', hrel⟩
      · rw [hn, hn', onHeap_eq, onHeap_eq]
        have hvalued := h.heap.directed.valued_of_isValue (h.heap.lt_size _ _ hv).1
          (by simpa using hvalue)
        exact .ok le_rfl .resume ((((h.settle ha hv hn hvalued).count _).report _ _ _).wake _ _)
      · rw [hb, hb']
        exact matches_giveBack hrel _ _ (h.report _ _ _)

end Thunks

theorem matched_dispatchFrame {frame frame' : Frame κ} {fs fs' : List (Frame κ)}
    (h : m.Twin P ρ (some [Slot.result]) m') (hf : frame.Twin ρ frame')
    (hs : m.context.stack.frames = fs ++ P.base) (hs' : m'.context.stack.frames = fs' ++ P.base')
    (hfs : List.Forall₂ (Frame.Twin ρ) fs fs')
    (hn : ∀ v p, frame = .apply v → m.context.registers.result? = some p → Decided P m p fs) :
    Matched P ρ Dispatch.Twin Dispatch.need (dispatchFrame frame m) (dispatchFrame frame' m') := by
  cases hf with
  | apply hv => exact matched_dispatchArgument h hs hs' hfs hv fun p => hn _ p rfl
  | update ha => exact matches_stepped (matches_updateThunk ha) m m' h
  | handler _ => exact .ok le_rfl (.step .resume) h
  | case code hvs =>
    obtain ⟨p, p', hr, hr', -⟩ := h.result List.mem_cons_self
    unfold dispatchFrame
    dsimp only
    rw [hr, hr']
    exact .ok le_rfl (.call hvs rfl) h

end Evaluation

end Dispatching

/-- The first run is dead, or both go on as twins. -/
inductive Abreast (P : Footing) : Control × Machine κ → Control × Machine κ → Prop where
  | dead {c : Control} {m : Machine κ} {q : Control × Machine κ} : c.Dead m.heap →
      Abreast P (c, m) q
  | twins {ρ : Renaming} {c c' : Control} {m m' : Machine κ} : c.Twin ρ c' →
      m.Twin P ρ c.need m' → Abreast P (c, m) (c', m')

section Settling

open Evaluation

variable {P : Footing} {ρ : Renaming} {need : Need} {m m' : Machine κ} {a a' : Address}
  {program : Program κ}

theorem twin_unwindFrames (a a' : Address) {fs fs' : List (Frame κ)}
    (hfs : List.Forall₂ (Frame.Twin ρ) fs fs')
    (n n' : Nat) (h : m.Twin P ρ (some []) m') (hs : m.context.stack.frames = fs ++ P.base)
    (hs' : m'.context.stack.frames = fs' ++ P.base') :
    (unwindFrames a (fs ++ P.base) n m).1 = none ∨
      ∃ f f', (unwindFrames a (fs ++ P.base) n m).1 = some (.apply f [.boxed a]) ∧
        (unwindFrames a' (fs' ++ P.base') n' m').1 = some (.apply f' [.boxed a']) ∧ ρ.rel f f' ∧
        (unwindFrames a (fs ++ P.base) n m).2.Twin P ρ (some [])
          (unwindFrames a' (fs' ++ P.base') n' m').2 := by
  induction hfs generalizing n n' m m' with
  | nil => exact .inl rfl
  | @cons frame frame' rest rest' hframe hrest ih =>
    obtain ⟨hd, hds, hds'⟩ := h.drop hs hs' hrest
    cases hframe with
    | apply _ => exact ih (n + 1) (n' + 1) hd hds hds'
    | case _ _ => exact ih (n + 1) (n' + 1) hd hds hds'
    | handler hf =>
      have hcaught := (hd.count fun c => { c with exceptionsCaught := c.exceptionsCaught + 1 })
        |>.setException none none
      refine .inr ⟨_, _, rfl, rfl, hf, ?_⟩
      exact hcaught.report .trampoline
        (fun m => ⟨.debug, "exception caught",
          [("exception", (m.heap.text? a).getD "<endless>"), ("discarded", toString n)]⟩)
        (fun m => ⟨.debug, "exception caught",
          [("exception", (m.heap.text? a').getD "<endless>"), ("discarded", toString n')]⟩)
    | @update b b' hb =>
      have hstack {m : Machine κ} {b : Address} :
          (m.resetThunk b resetRemark).context.stack = m.context.stack :=
        congrArg Core.stack (m.core_resetThunk b resetRemark)
      have hthunk := hd.heap.isThunk_eq hb
      simp only [List.cons_append, unwindFrames, modify_bind, hthunk]
      split
      · exact ih (n + 1) (n' + 1) (hd.resetThunk hb _ _) (by rw [hstack, hds])
          (by rw [hstack, hds'])
      · exact ih (n + 1) (n' + 1) hd hds hds'

theorem abreast_of_unwind (halted halted' : Heap κ → Control)
    (hd : ∀ h h' : Heap κ, (halted h).Dead h')
    (h : m.Twin P ρ (some []) m') (ha : ρ.rel a a') :
    Abreast P
      (match (unwind a m).1 with
        | some step => controlOf step
        | none => halted (unwind a m).2.heap, (unwind a m).2)
      (match (unwind a' m').1 with
        | some step => controlOf step
        | none => halted' (unwind a' m').2.heap, (unwind a' m').2) := by
  obtain ⟨fs, fs', hs, hs', hfs⟩ := h.frames
  have hu := twin_unwindFrames a a' hfs 0 0 (h.setException (some a) (some a')) hs hs'
  rw [← hs, ← hs'] at hu
  rcases hu with hnone | ⟨f, f', hsome, hsome', hf, ht⟩
  · have hnone : (unwind a m).1 = none := hnone
    rw [hnone]
    exact .dead (hd _ _)
  · have hsome : (unwind a m).1 = _ := hsome
    have hsome' : (unwind a' m').1 = _ := hsome'
    rw [hsome, hsome']
    exact .twins (.applying hf (.cons (.boxed ha) .nil)) ht

theorem dead_uncaught (a : Address) (h h' : Heap κ) : (uncaught a h).Dead h' := by
  unfold uncaught
  cases h.text? a <;> trivial

theorem abreast_raiseError (h : m.Twin P ρ (some []) m') {e e' : RuntimeError} (he : e.Akin e') :
    Abreast P (raiseError e m) (raiseError e' m') := by
  by_cases hc : e.isCatchable = true
  · have hreport := h.report .trampoline
      (fun _ => ⟨.debug, "raising runtime exception", [("error", e.message)]⟩)
      (fun _ => ⟨.debug, "raising runtime exception", [("error", e'.message)]⟩)
    have hcell : (Cell.data ⟨e.exceptionName, 0⟩ [] : Cell κ).Twin ρ
        (.data ⟨e'.exceptionName, 0⟩ []) := by
      rw [he.name]
      exact .data _ .nil
    obtain ⟨σ, -, hrel, h₁⟩ := hreport.allocate hcell
      (Heap.grown_allocation _ (.data ⟨e.exceptionName, 0⟩ []))
    have hrel : σ.rel (raised e m).1 (raised e' m').1 := hrel
    have h₁ : (raised e m).2.Twin P σ (some []) (raised e' m').2 := h₁
    rw [raiseError_eq hc, raiseError_eq (he.catchable.trans hc)]
    exact abreast_of_unwind (fun _ => .halted e) (fun _ => .halted e') (fun _ _ => trivial) h₁ hrel
  · rw [raiseError_of_not_catchable hc]
    exact .dead trivial

theorem abreast_follow {x x' : Exec κ Step}
    (hx : Matched P ρ Step.Twin Step.need (x m) (x' m')) :
    ∃ p p', follow x m = (.next p.1, p.2) ∧ follow x' m' = (.next p'.1, p'.2) ∧
      Abreast P p p' := by
  refine ⟨settle (x.outcome m).1 (x.outcome m).2, settle (x'.outcome m').1 (x'.outcome m').2,
    follow_eq x m, follow_eq x' m', ?_⟩
  rw [Exec.outcome, Exec.outcome]
  generalize x m = r at hx
  generalize x' m' = r' at hx
  cases hx with
  | ok hle hs ht =>
    cases hs with
    | resume => exact .twins .resuming ht
    | enter ha => exact .twins (.entering ha) ht
    | apply hf hvs => exact .twins (.applying hf hvs) ht
    | throw ha =>
      change Abreast P (throwValue _ _) (throwValue _ _)
      rw [throwValue_eq, throwValue_eq]
      exact abreast_of_unwind (uncaught _) (uncaught _) (dead_uncaught _) ht ha
  | error hle he ht =>
    cases he with
    | endless => exact .dead trivial
    | error he => exact abreast_raiseError ht he

end Settling

section Iterating

open Evaluation

variable {P : Footing} {ρ : Renaming} {need : Need} {m m' : Machine κ} {a a' : Address}
  {program : Program κ} {x x' : Exec κ (Dispatch κ)}

theorem abreast_dispatch
    (hx : (∃ b m₁, x m = .ok (.step (.block b)) m₁ ∧ (m₁.heap.owner? b).isSome) ∨
      Matched P ρ Dispatch.Twin Dispatch.need (x m) (x' m'))
    (hρ : ∀ a, a.index < P.size → ρ.rel a a)
    (ho : program.Obeys (calls x m)) (hu : program.Uniform P.size (calls x m)) :
    ∃ p p', follow (x >>= finish program) m = (.next p.1, p.2) ∧
      follow (x' >>= finish program) m' = (.next p'.1, p'.2) ∧ Abreast P p p' := by
  rcases hx with ⟨b, m₁, hb, hown⟩ | hx
  · refine ⟨(.blocked b, m₁), (settle _ _), ?_, follow_eq _ _, .dead hown⟩
    have hfollow : (x >>= finish program) m = .ok (.block b) m₁ := Exec.bind_of_ok hb
    rw [follow_eq, Exec.outcome, hfollow]
    rfl
  · apply abreast_follow (ρ := ρ)
    unfold calls at ho hu
    generalize hr : x m = r at hx ho hu
    generalize hr' : x' m' = r' at hx
    cases hx with
    | error hle he ht =>
      rw [Exec.bind_of_error hr, Exec.bind_of_error hr']
      exact .error hle he ht
    | ok hle hd ht =>
      rw [Exec.bind_of_ok hr, Exec.bind_of_ok hr']
      cases hd with
      | step hs => exact .ok hle hs ht
      | @call code vs vs' args args' hvs hargs =>
        have hmem := List.mem_singleton_self (⟨code, vs, args⟩ : Call κ)
        have htwin := hu _ hmem _ _ (fun b hb => hle _ _ (hρ b hb)) hvs
        exact (htwin.matches (ho _ hmem) _ _ ht).of_le hle

/-- The work is done down to what lies under it: a result is handed over with nothing, or only with
arguments that its callee needs more of, in between. -/
def Landed (P : Footing) (c : Control) (m : Machine κ) : Prop :=
  c = .resuming ∧ ∃ vs, m.context.stack.frames = vs.map .apply ++ P.base ∧
    (vs = [] ∨ P.waiting ≠ [] ∧ ∃ p f bound info captured, m.context.registers.result? = some p ∧
      m.heap.callee? (m.heap.resolve p) = some (f, bound) ∧
      m.heap.function? f = some (info, captured) ∧ bound.length + vs.length < info.arity)

theorem abreast_advance {c c' : Control} (h : m.Twin P ρ c.need m') (hc : c.Twin ρ c')
    (hl : ¬ Landed P c m) (ho : program.Obeys (callsOf c m))
    (hu : program.Uniform P.size (callsOf c m)) :
    ∃ p p', advance program c m = (.next p.1, p.2) ∧ advance program c' m' = (.next p'.1, p'.2) ∧
      Abreast P p p' := by
  have h₁ : (reportControl c m).Twin P ρ c.need (reportControl c' m') :=
    h.of_core_eq (m.core_reportControl c) (m'.core_reportControl c')
  cases hc with
  | @entering a a' ha =>
    change ∃ p p', follow (enter program a) _ = _ ∧ follow (enter program a') _ = _ ∧ _
    rw [enter_eq_finish, enter_eq_finish]
    exact abreast_dispatch ((matched_dispatchEnter h₁ ha).imp_left fun hb => ⟨a, hb⟩) h.old ho hu
  | @applying f f' vs vs' hf hvs =>
    change ∃ p p', follow (apply program f vs) _ = _ ∧ follow (apply program f' vs') _ = _ ∧ _
    rw [apply_eq_finish, apply_eq_finish]
    exact abreast_dispatch (.inr (matches_dispatchApply hf hvs _ _ h₁)) h.old ho hu
  | resuming =>
    obtain ⟨fs, fs', hs, hs', hfs⟩ := h₁.frames
    have hcore := m.core_reportControl .resuming
    have hstack : (reportControl .resuming m).context.stack = m.context.stack :=
      congrArg Core.stack hcore
    cases hfs with
    | nil => exact absurd ⟨rfl, [], by rw [← hstack, hs]; rfl, .inl rfl⟩ hl
    | @cons frame frame' rest rest' hframe hrest =>
      obtain ⟨m₂, s, hp, hc₂, hf₂, hl₂⟩ := Machine.exists_pop? hs
      obtain ⟨m₂', s', hp', hc₂', hf₂', hl₂'⟩ := Machine.exists_pop? hs'
      have h₂ : m₂.Twin P ρ (some [Slot.result]) m₂' :=
        (h₁.setStack hf₂ hf₂' hrest hl₂ hl₂').of_core_eq hc₂ hc₂'
      have hst : m₂.context.stack = s := congrArg Core.stack hc₂
      have hst' : m₂'.context.stack = s' := congrArg Core.stack hc₂'
      have hheap : m₂.heap = m.heap := (congrArg Core.heap hc₂).trans (congrArg Core.heap hcore)
      have hregs : m₂.context.registers = m.context.registers :=
        (congrArg Core.registers hc₂).trans (congrArg Core.registers hcore)
      unfold callsOf at ho hu
      dsimp only at ho hu
      rw [hp] at ho hu
      rw [advance_of_pop? program hp, advance_of_pop? program hp', resumeFrame_eq_finish,
        resumeFrame_eq_finish]
      refine abreast_dispatch (.inr (matched_dispatchFrame h₂ hframe (hst ▸ hf₂)
        (hst' ▸ hf₂') hrest ?_)) h.old ho hu
      rintro v p rfl hr f bound info captured hc hf
      rw [hheap] at hc hf
      rw [hregs] at hr
      by_contra hn
      rw [Above, not_or, not_or, not_not, Nat.not_le] at hn
      obtain ⟨hw, hlen, hu⟩ := hn
      have hrest : (arguments rest).map .apply = rest := by
        have hparts := map_arguments_append rest
        rwa [hu, List.append_nil] at hparts
      refine hl ⟨rfl, v :: arguments rest, ?_,
        .inr ⟨hw, p, f, bound, info, captured, hr, hc, hf, ?_⟩⟩
      · rw [← hstack, hs, List.map_cons, hrest]
      · rw [List.length_cons]
        omega

theorem iterate_of_calm (program : Program κ) (hm : m.Calm) (n : Nat) (c : Control) :
    ∃ m₁ q, m₁.core = { m.core with scheduler := q } ∧ q.Patient ∧
      iterate program n c m = advance program c m₁ ∧ iterateCalls n c m = callsOf c m₁ := by
  obtain ⟨m₁, q, hd, ⟨trace, rfl⟩, hq⟩ := decision_of_patient n c hm.patient
  have hc : c.minding m = c := by rw [Control.minding, hm.interrupted, if_neg Bool.false_ne_true]
  rw [hc] at hd
  exact ⟨_, q, rfl, hq, by rw [iterate_eq, hd], by rw [iterateCalls, hd]⟩

theorem Landed.of_core {c : Control} {m₁ : Machine κ} {q : Scheduler κ} (hl : Landed P c m₁)
    (hm : m₁.core = { m.core with scheduler := q }) : Landed P c m := by
  have hheap : m₁.heap = m.heap := congrArg Core.heap hm
  have hstack : m₁.context.stack = m.context.stack := congrArg Core.stack hm
  have hregs : m₁.context.registers = m.context.registers := congrArg Core.registers hm
  rw [Landed, hheap, hstack, hregs] at hl
  exact hl

theorem abreast_iterate {c c' : Control} (h : m.Twin P ρ c.need m') (hc : c.Twin ρ c')
    (hl : ¬ Landed P c m) (n n' : Nat) (ho : program.Obeys (iterateCalls n c m))
    (hu : program.Uniform P.size (iterateCalls n c m)) :
    ∃ p p', iterate program n c m = (.next p.1, p.2) ∧
      iterate program n' c' m' = (.next p'.1, p'.2) ∧
      Abreast P p p' := by
  obtain ⟨m₁, q, hm, hq, hi, hcalls⟩ := iterate_of_calm program h.calm n c
  obtain ⟨m₁', q', hm', hq', hi', -⟩ := iterate_of_calm program h.calm' n' c'
  rw [hcalls] at ho hu
  rw [hi, hi']
  exact abreast_advance (h.of_core hm hm' hq hq') hc (fun hl₁ => hl (hl₁.of_core hm)) ho hu

end Iterating

end GraphReduction
