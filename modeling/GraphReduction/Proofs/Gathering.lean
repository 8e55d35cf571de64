import GraphReduction.Proofs.Application
import GraphReduction.Proofs.Landing

namespace GraphReduction

open Evaluation GraphReduction.Frame

variable {κ : Type} {program : Program κ} {m m' m₁ : Machine κ} {f f' : Address}
  {info : FunctionInfo κ} {captured args args' : List Value} {rest : List (Frame κ)} {n : Nat}

theorem calls_congr {x y : Exec κ (Dispatch κ)} (h : x m = y m') : calls x m = calls y m' := by
  rw [calls, calls, h]

section Overflowing

def Exec.Overflows {α : Type} (x : Exec κ α) (m : Machine κ) : Prop :=
  ∃ (m₁ : Machine κ) (ws : List Value) (l : Nat), x m = .error (.error (.stackOverflow l)) m₁ ∧
    m₁.context.stack.frames = ws.map .apply ++ m.context.stack.frames

theorem Exec.pushArguments_cases (vs : List Value) (m : Machine κ) :
    (∃ m₁ s, Exec.pushArguments vs m = .ok () m₁ ∧ m₁.core = { m.core with stack := s } ∧
      s.frames = vs.map .apply ++ m.context.stack.frames ∧ s.limit = m.context.stack.limit) ∨
    Exec.Overflows (Exec.pushArguments vs) m := by
  induction vs with
  | nil => exact .inl ⟨m, m.context.stack, rfl, rfl, rfl, rfl⟩
  | cons v vs ih =>
    rcases ih with ⟨m₁, s₁, he, hc, hf, hl⟩ | ⟨m₁, ws, l, he, hf⟩
    · have hs : m₁.context.stack = s₁ := congrArg Core.stack hc
      by_cases hroom : m₁.context.stack.frames.length < m₁.context.stack.limit
      · obtain ⟨m₂, s, hp, hc₂, hf₂, hl₂⟩ := Machine.exists_push (.apply v) hroom
        refine .inl ⟨m₂, s, ?_, by rw [hc₂, hc], ?_, by rw [hl₂, hs, hl]⟩
        · rw [Exec.pushArguments, Exec.bind_of_ok he, Exec.push_of_ok hp]
        · rw [hf₂, hs, hf]
          rfl
      · refine .inr ⟨m₁, vs, m₁.context.stack.limit, ?_, by rw [hs, hf]⟩
        rw [Exec.pushArguments, Exec.bind_of_ok he,
          Exec.push_of_error (Machine.push_of_full _ (Nat.le_of_not_lt hroom))]
    · exact .inr ⟨m₁, ws, l, by rw [Exec.pushArguments, Exec.bind_of_error he], hf⟩

theorem unwindFrames_of_no_handler (a : Address) {frames : List (Frame κ)}
    (h : ∀ f, Frame.handler f ∉ frames) (n : Nat) (m : Machine κ) :
    (unwindFrames a frames n m).1 = none := by
  induction frames generalizing n m with
  | nil => rfl
  | cons frame rest ih =>
    have hrest : ∀ f, Frame.handler f ∉ rest := fun f hf => h f (List.mem_cons_of_mem _ hf)
    cases frame with
    | handler f => exact absurd List.mem_cons_self (h f)
    | _ => exact ih hrest (n + 1) _

theorem dead_of_error (program : Program κ) {x : Exec κ (Dispatch κ)} {e : RuntimeError}
    (hx : x m = .error (.error e) m₁) (h : ∀ f, Frame.handler f ∉ m₁.context.stack.frames) :
    ∃ c m₂, follow (x >>= finish program) m = (.next c, m₂) ∧ c.Dead m₂.heap := by
  refine ⟨(raiseError e m₁).1, (raiseError e m₁).2, ?_, ?_⟩
  · rw [follow_eq, Exec.outcome, Exec.bind_of_error hx]
    rfl
  by_cases hc : e.isCatchable = true
  · have hcore : (m₁.report .trampoline fun _ =>
        ⟨.debug, "raising runtime exception", [("error", e.message)]⟩).core = m₁.core :=
      Machine.core_report _ _ _
    have hs : (raised e m₁).2.context.stack = m₁.context.stack := congrArg Core.stack hcore
    have hu : (unwind (raised e m₁).1 (raised e m₁).2).1 = none :=
      unwindFrames_of_no_handler _ (hs ▸ h) 0 _
    rw [raiseError_eq hc, hu]
    trivial
  · rw [raiseError_of_not_catchable hc]
    trivial

end Overflowing

section Dispatching

theorem dispatchCall_nil (f : Address) :
    (dispatchCall f [] : Exec κ (Dispatch κ)) = dispatchAt f [] [] :=
  rfl

theorem dispatchExact_cases (f : Address) (args : List Value) (m : Machine κ) :
    (∃ m₁, m₁.core = m.core ∧ dispatchExact f args m = dispatchCall f args m₁) ∨
    (∃ m₁ s, dispatchExact f args m = .ok (.step .resume) m₁ ∧
      m₁.core = { m.core with stack := s, registers := m.context.registers.setResult f } ∧
      s.frames = args.map .apply ++ m.context.stack.frames ∧ s.limit = m.context.stack.limit) ∨
    Exec.Overflows (dispatchExact f args) m := by
  unfold dispatchExact
  by_cases hn : args.isEmpty = true
  · rw [if_pos hn, List.isEmpty_iff.1 hn, dispatchCall_nil]
    exact .inl ⟨m, rfl, rfl⟩
  rw [if_neg hn]
  cases hl : SchemaTable.standard.lookup args with
  | some schema =>
    refine .inl ⟨m.count fun c => { c with fastPathCalls := c.fastPathCalls + 1 }, rfl, ?_⟩
    rw [dispatchCall, SchemaTable.layoutFor_of_lookup hl]
    rfl
  | none =>
    right
    let m₀ := (m.count fun c => { c with genericCalls := c.genericCalls + 1 }).report .apply
      fun m => ⟨.trace, "generic apply",
        [("function", closureText m f), ("args", toString args.length)]⟩
    have hm₀ : m₀.core = m.core := by simp [m₀]
    have hs₀ : m₀.context.stack = m.context.stack := congrArg Core.stack hm₀
    rcases Exec.pushArguments_cases args m₀ with ⟨m₁, s, hp, hc, hf, hlim⟩ | ⟨m₁, ws, l, hp, hf⟩
    · refine .inl ⟨m₁.setResult f, s, ?_, ?_, by rw [hf, hs₀], by rw [hlim, hs₀]⟩
      · change (Exec.pushArguments args >>= fun _ => stepped (Exec.giveBack f)) m₀ = _
        rw [Exec.bind_of_ok hp]
        rfl
      · rw [Machine.core_setResult, hc, hm₀]
        rfl
    · refine .inr ⟨m₁, ws, l, ?_, by rw [hf, hs₀]⟩
      change (Exec.pushArguments args >>= fun _ => stepped (Exec.giveBack f)) m₀ = _
      exact Exec.bind_of_error hp

theorem dispatchFunction_of_le (hf : m.heap.function? f = some (info, captured))
    (hl : info.arity ≤ args.length)
    (hroom : m.context.stack.frames.length + (args.drop info.arity).length ≤
      m.context.stack.limit) :
    ∃ m₀ s₀, m₀.core = { m.core with stack := s₀ } ∧ s₀.limit = m.context.stack.limit ∧
      s₀.frames = (args.drop info.arity).map .apply ++ m.context.stack.frames ∧
      dispatchFunction f args m = dispatchExact f (args.take info.arity) m₀ := by
  have hstart : dispatchFunction f args m =
      (if args.length = info.arity then dispatchExact f args
      else if args.length < info.arity then do
        Exec.count fun c => { c with partialApplications := c.partialApplications + 1 }
        let pap ← bindArgs f args
        Exec.report .apply fun m => ⟨.trace, "under-application", [("pap", closureText m pap)]⟩
        stepped (Exec.giveBack pap)
      else do
        Exec.count fun c => { c with overApplications := c.overApplications + 1 }
        Exec.report .apply fun m => ⟨.trace, "over-application",
          [("function", closureText m f), ("extra", toString (args.length - info.arity))]⟩
        Exec.pushArguments (args.drop info.arity)
        dispatchExact f (args.take info.arity)) m := by
    rw [dispatchFunction, Exec.bind_of_ok (arityOf_eq hf)]
  by_cases he : args.length = info.arity
  · refine ⟨m, m.context.stack, rfl, rfl, ?_, ?_⟩
    · rw [← he, List.drop_length]
      rfl
    · rw [hstart, if_pos he, ← he, List.take_length]
  · let m₁ := (m.count fun c => { c with overApplications := c.overApplications + 1 }).report .apply
      fun m => ⟨.trace, "over-application",
        [("function", closureText m f), ("extra", toString (args.length - info.arity))]⟩
    have hm₁ : m₁.core = m.core := by simp [m₁]
    have hs₁ : m₁.context.stack = m.context.stack := congrArg Core.stack hm₁
    obtain ⟨m₀, s₀, hp, hc, hs, hlim⟩ :=
      Exec.pushArguments_ok (args.drop info.arity) m₁ (by rwa [hs₁])
    refine ⟨m₀, s₀, by rw [hc, hm₁], by rw [hlim, hs₁], by rw [hs, hs₁], ?_⟩
    rw [hstart, if_neg he, if_neg (Nat.not_lt.2 hl)]
    change (Exec.pushArguments (args.drop info.arity) >>= fun _ =>
      dispatchExact f (args.take info.arity)) m₁ = _
    rw [Exec.bind_of_ok hp]

theorem dispatchFunction_cases (hf : m.heap.function? f = some (info, captured))
    (hl : info.arity ≤ args.length)
    (hroom : m.context.stack.frames.length + (args.drop info.arity).length ≤
      m.context.stack.limit) :
    (∃ m₁ s, m₁.core = { m.core with stack := s } ∧ s.limit = m.context.stack.limit ∧
      s.frames = (args.drop info.arity).map .apply ++ m.context.stack.frames ∧
      dispatchFunction f args m = dispatchCall f (args.take info.arity) m₁) ∨
    (∃ m₁ s, dispatchFunction f args m = .ok (.step .resume) m₁ ∧
      m₁.core = { m.core with stack := s, registers := m.context.registers.setResult f } ∧
      s.frames = args.map .apply ++ m.context.stack.frames ∧ s.limit = m.context.stack.limit) ∨
    Exec.Overflows (dispatchFunction f args) m := by
  obtain ⟨m₀, s₀, hc₀, hl₀, hf₀, hx⟩ := dispatchFunction_of_le hf hl hroom
  have hs₀ : m₀.context.stack = s₀ := congrArg Core.stack hc₀
  have hregs : m₀.context.registers = m.context.registers := congrArg Core.registers hc₀
  have hall : (args.take info.arity).map .apply ++ s₀.frames =
      args.map .apply ++ m.context.stack.frames := by
    rw [hf₀, ← List.append_assoc, ← List.map_append, List.take_append_drop]
  rw [hx]
  rcases dispatchExact_cases f (args.take info.arity) m₀ with
    ⟨m₁, hc, he⟩ | ⟨m₁, s, he, hc, hs, hlim⟩ | ⟨m₁, ws, l, he, hs⟩
  · exact .inl ⟨m₁, s₀, hc.trans hc₀, hl₀, hf₀, he⟩
  · refine .inr (.inl ⟨m₁, s, he, by rw [hc, hc₀, hregs], ?_, by rw [hlim, hs₀, hl₀]⟩)
    rw [hs, hs₀, hall]
  · refine .inr (.inr ⟨m₁, ws ++ args.drop info.arity, l, hx.trans he, ?_⟩)
    rw [hs, hs₀, hf₀, ← List.append_assoc, ← List.map_append]

end Dispatching

section Collecting

/-- A callee is handed over to arguments that wait above other frames. With those that it is bound
to they are `args`, for the function `f`. -/
def Gathered (m : Machine κ) (f : Address) (info : FunctionInfo κ) (args : List Value)
    (rest : List (Frame κ)) : Prop :=
  ∃ p bound v vs captured, m.context.registers.result? = some p ∧
    m.heap.callee? (m.heap.resolve p) = some (f, bound) ∧
    m.heap.function? f = some (info, captured) ∧ (bound = [] ∨ bound.length < info.arity) ∧
    m.context.stack.frames = .apply v :: (vs.map .apply ++ rest) ∧ args = bound ++ v :: vs

theorem dispatchArgument_eq {v : Value} {p : Address} {bound : List Value}
    (hr : m.context.registers.result? = some p)
    (hp : m.heap.callee? (m.heap.resolve p) = some (f, bound))
    (hf : m.heap.function? f = some (info, captured)) :
    dispatchArgument v m =
      (if info.arity = 0 then do
        Exec.push (.apply v)
        dispatchAt f bound []
      else do
        let more ← popArguments (info.arity - (bound.length + 1))
        let args := bound ++ v :: more
        if args.length = info.arity then dispatchCall f args
        else
          Exec.count fun c => { c with partialApplications := c.partialApplications + 1 }
          let pap ← bindArgs f args
          stepped (Exec.giveBack pap)) m := by
  have hget : (get : Exec κ (Machine κ)) m = .ok m m := rfl
  refine (Exec.bind_of_ok (ofExcept_readClosure hr)).trans ?_
  refine (Exec.bind_of_ok hget).trans ?_
  simp only [hp]
  rw [Exec.bind_of_ok (arityOf_eq hf)]

variable (program) (hg : Gathered m f info args rest) (hm : m.Calm) (hrest : arguments rest = [])
include hg hm hrest

theorem Gathered.iterate_of_lt (hl : args.length < info.arity) (n : Nat) :
    ∃ m₁ s q, iterate program n .resuming m = (.next .resuming, m₁) ∧
      m₁.core = { m.core with
        heap := (m.heap.allocate (.unsaturated f args)).2
        registers := m.context.registers.setResult ⟨m.heap.size⟩
        stack := s
        scheduler := q } ∧
      q.Patient ∧ s.frames = rest ∧ s.limit = m.context.stack.limit := by
  obtain ⟨p, bound, v, vs, captured, hr, hp, hf, -, hs, rfl⟩ := hg
  obtain ⟨m₀, s₀, q, hc₀, hq, hs₀, hl₀, hi, -⟩ := iterate_resuming_of_calm program hm hs n
  have hheap : m₀.heap = m.heap := congrArg Core.heap hc₀
  have hregs : m₀.context.registers = m.context.registers := congrArg Core.registers hc₀
  have hstack : m₀.context.stack = s₀ := congrArg Core.stack hc₀
  have hargs : arguments m₀.context.stack.frames = vs := by
    rw [hstack, hs₀, arguments_map_append, hrest, List.append_nil]
  rw [← hheap] at hp hf
  rw [← hregs] at hr
  obtain ⟨m₁, s, happly, hc, hsf, hsl⟩ := applyFrame_of_lt (v := v) hr hp hf (by rwa [hargs])
  have hunder : underArguments rest = rest := by
    have hparts := map_arguments_append rest
    rwa [hrest] at hparts
  rw [hargs, hheap, hregs, hc₀] at hc
  refine ⟨m₁, s, q, ?_, hc, hq, ?_, ?_⟩
  · rw [hi, ← resumeFrame_eq_finish]
    exact follow_of_resume (happly program)
  · rw [hsf, hstack, hs₀, underArguments_map_append, hunder]
  · rw [hsl, hstack, hl₀]

theorem Gathered.iterate_of_le (hl : info.arity ≤ args.length) (n : Nat) :
    ∃ m₁ s q, m₁.core = { m.core with stack := s, scheduler := q } ∧ q.Patient ∧
      s.frames = (args.drop info.arity).map .apply ++ rest ∧ s.limit = m.context.stack.limit ∧
      iterate program n .resuming m =
        follow (dispatchCall f (args.take info.arity) >>= finish program) m₁ ∧
      iterateCalls n .resuming m = calls (dispatchCall f (args.take info.arity)) m₁ := by
  obtain ⟨p, bound, v, vs, captured, hr, hp, hf, hb, hs, rfl⟩ := hg
  obtain ⟨m₀, s₀, q, hc₀, hq, hs₀, hl₀, hi, hcalls⟩ := iterate_resuming_of_calm program hm hs n
  have hheap : m₀.heap = m.heap := congrArg Core.heap hc₀
  have hregs : m₀.context.registers = m.context.registers := congrArg Core.registers hc₀
  have hstack : m₀.context.stack = s₀ := congrArg Core.stack hc₀
  rw [← hheap] at hp hf
  rw [← hregs] at hr
  have hx := dispatchArgument_eq (v := v) hr hp hf
  have hdispatch {m₁ : Machine κ} {as : List Value}
      (hd : dispatchArgument v m₀ = dispatchCall f as m₁) :
      iterate program n .resuming m = follow (dispatchCall f as >>= finish program) m₁ ∧
        iterateCalls n .resuming m = calls (dispatchCall f as) m₁ := by
    rw [hi, hcalls]
    exact ⟨follow_congr (Exec.bind_congr hd), calls_congr hd⟩
  by_cases hz : info.arity = 0
  · obtain rfl := hb.resolve_right (hz ▸ Nat.not_lt_zero _)
    -- The frame that was just popped has room again.
    have hroom : m₀.context.stack.frames.length < m₀.context.stack.limit := by
      have hd := m.context.stack.depth_le_limit
      rw [m.context.stack.depth_eq, hs, List.length_cons] at hd
      rw [hstack, hs₀, hl₀]
      omega
    obtain ⟨m₁, s, hpush, hc, hsf, hsl⟩ := Machine.exists_push (.apply v) hroom
    rw [if_pos hz, Exec.bind_of_ok (Exec.push_of_ok hpush)] at hx
    refine ⟨m₁, s, q, by rw [hc, hc₀], hq, ?_, by rw [hsl, hstack, hl₀], ?_⟩
    · rw [hsf, hstack, hs₀, hz]
      rfl
    · rw [hz, List.take_zero]
      exact hdispatch hx
  · obtain ⟨m₁, s, hpop, hc, hsf, hsl⟩ := popArguments_ok (info.arity - (bound.length + 1)) m₀
    have hlt : bound.length < info.arity :=
      hb.elim (fun h => by rw [h]; exact Nat.pos_of_ne_zero hz) id
    have hargs : arguments m₀.context.stack.frames = vs := by
      rw [hstack, hs₀, arguments_map_append, hrest, List.append_nil]
    have hunder : underArguments m₀.context.stack.frames = rest := by
      have hparts := map_arguments_append rest
      rw [hrest] at hparts
      rwa [hstack, hs₀, underArguments_map_append]
    rw [hargs] at hpop hsf
    have hlen : (bound ++ v :: vs.take (info.arity - (bound.length + 1))).length = info.arity := by
      simp only [List.length_append, List.length_cons, List.length_take] at hl ⊢
      omega
    rw [if_neg hz, Exec.bind_of_ok hpop, if_pos hlen, ← Application.take_append_cons v vs hlt] at hx
    refine ⟨m₁, s, q, by rw [hc, hc₀], hq, ?_, by rw [hsl, hstack, hl₀], hdispatch hx⟩
    rw [hsf, hunder, Application.drop_append_cons v vs hlt]

end Collecting

section Meeting

variable {P : Footing} {ρ : Renaming}

def Machine.TwinBelow (P : Footing) (ρ : Renaming) (m m' : Machine κ) : Prop :=
  ∃ s s', (m.setStack s).Twin P ρ (some []) (m'.setStack s') ∧
    s.limit = m.context.stack.limit ∧ s'.limit = m'.context.stack.limit

theorem Machine.TwinBelow.twin (h : m.TwinBelow P ρ m') {m₁' : Machine κ} {s s' : FrameStack κ}
    {q q' : Scheduler κ} {fs fs' : List (Frame κ)}
    (hc : m₁.core = { m.core with stack := s, scheduler := q })
    (hc' : m₁'.core = { m'.core with stack := s', scheduler := q' }) (hq : q.Patient)
    (hq' : q'.Patient) (hs : s.frames = fs ++ P.base) (hs' : s'.frames = fs' ++ P.base')
    (hfs : List.Forall₂ (Frame.Twin ρ) fs fs') (hl : s.limit = m.context.stack.limit)
    (hl' : s'.limit = m'.context.stack.limit) : m₁.Twin P ρ (some []) m₁' := by
  obtain ⟨s₀, s₀', ht, hl₀, hl₀'⟩ := h
  exact (ht.setStack hs hs' hfs (hl.trans hl₀.symm) (hl'.trans hl₀'.symm)).of_core hc hc' hq hq'

theorem Machine.TwinBelow.of_core (h : m.TwinBelow P ρ m') {r : Registers} {s : FrameStack κ}
    {q : Scheduler κ}
    (hc : m₁.core = { m.core with registers := r, stack := s, scheduler := q }) (hq : q.Patient)
    (hl : s.limit = m.context.stack.limit) : m₁.TwinBelow P ρ m' := by
  obtain ⟨s₀, s₀', ht, hl₀, hl₀'⟩ := h
  have hr : ((m.setStack s₀).setRegisters r).Twin P ρ (some []) (m'.setStack s₀') :=
    { ht with
      registers := fun _ hm => (List.not_mem_nil hm).elim
      calm := ⟨ht.calm.1, ht.calm.2⟩ }
  have hlim : s₀.limit = m₁.context.stack.limit := by
    rw [show m₁.context.stack = s from congrArg Core.stack hc, hl, hl₀]
  have hcore : (m₁.setStack s₀).core =
      { ((m.setStack s₀).setRegisters r).core with scheduler := q } := by
    rw [Machine.core_setStack, hc]
    rfl
  exact ⟨s₀, s₀', hr.of_core hcore rfl hq ht.calm'.patient, hlim, hl₀'⟩

theorem Machine.TwinBelow.heap (h : m.TwinBelow P ρ m') : m.heap.Twin ρ m'.heap := by
  obtain ⟨s, s', ht, -⟩ := h
  exact ht.heap

theorem Machine.TwinBelow.calm (h : m.TwinBelow P ρ m') : m.Calm ∧ m'.Calm := by
  obtain ⟨s, s', ht, -⟩ := h
  exact ⟨⟨ht.calm.1, ht.calm.2⟩, ht.calm'.1, ht.calm'.2⟩

theorem Machine.TwinBelow.old (h : m.TwinBelow P ρ m') {a : Address} (ha : a.index < P.size) :
    ρ.rel a a := by
  obtain ⟨s, s', ht, -⟩ := h
  exact ht.old a ha

theorem frames_map_apply {vs vs' : List Value} (h : AllTwin ρ vs vs') :
    List.Forall₂ (Frame.Twin (κ := κ) ρ) (vs.map .apply) (vs'.map .apply) := by
  induction h with
  | nil => exact .nil
  | cons hv _ ih => exact .cons (.apply hv) ih

theorem gathered_of_function (hf : m.heap.function? f = some (info, captured))
    (hr : m.context.registers.result? = some f)
    (hs : m.context.stack.frames = args.map .apply ++ rest) (hne : args ≠ []) :
    Gathered m f info args rest := by
  obtain ⟨v, vs, rfl⟩ := List.exists_cons_of_ne_nil hne
  have hc := Heap.callee?_of_function? hf
  exact ⟨f, [], v, vs, captured, hr, by rw [Heap.resolve_of_callee? hc, hc], hf, .inl rfl, hs, rfl⟩

theorem handler_not_mem_base (P : Footing) (ws : List Value) (g : Address) :
    Frame.handler g ∉ ws.map .apply ++ (P.base : List (Frame κ)) := by
  intro hg
  rcases List.mem_append.1 hg with hg | hg
  · obtain ⟨w, -, hw⟩ := List.mem_map.1 hg
    cases hw
  · cases List.mem_singleton.1 hg

theorem Gathered.function? (h : Gathered m f info args rest) :
    ∃ captured, m.heap.function? f = some (info, captured) := by
  obtain ⟨-, -, -, -, captured, -, -, hf, -⟩ := h
  exact ⟨captured, hf⟩

theorem Gathered.ne_nil (h : Gathered m f info args rest) : args ≠ [] := by
  obtain ⟨-, bound, v, vs, -, -, -, -, -, -, rfl⟩ := h
  exact List.append_ne_nil_of_right_ne_nil _ (List.cons_ne_nil v vs)

theorem Machine.TwinBelow.built (h : m.TwinBelow P ρ m') {m₁' : Machine κ} {s s' : FrameStack κ}
    {q q' : Scheduler κ}
    (hf : ρ.rel f f') (hargs : AllTwin ρ args args')
    (hi : m.heap.function? f = some (info, captured)) (hne : args ≠ [])
    (hlt : args.length < info.arity)
    (hc : m₁.core = { m.core with
      heap := (m.heap.allocate (.unsaturated f args)).2
      registers := m.context.registers.setResult ⟨m.heap.size⟩
      stack := s
      scheduler := q })
    (hc' : m₁'.core = { m'.core with
      heap := (m'.heap.allocate (.unsaturated f' args')).2
      registers := m'.context.registers.setResult ⟨m'.heap.size⟩
      stack := s'
      scheduler := q' }) (hq : q.Patient) (hq' : q'.Patient) (hs : s.frames = P.base)
    (hs' : s'.frames = P.base') (hl : s.limit = m.context.stack.limit)
    (hl' : s'.limit = m'.context.stack.limit) :
    ∃ σ, m₁.Twin P σ (some [Slot.result]) m₁' := by
  have h₀ : (({ m with scheduler := q } : Machine κ).setStack s).Twin P ρ (some [])
      (({ m' with scheduler := q' } : Machine κ).setStack s') :=
    h.twin rfl rfl hq hq' (hs.trans (List.nil_append _).symm)
      (hs'.trans (List.nil_append _).symm) .nil hl hl'
  have hg : m.heap.Grown (m.heap.allocate (.unsaturated f args)).2 :=
    Heap.grown_bind (Heap.bind_of_function? hi hne hlt)
  obtain ⟨σ, -, hrel, h₁⟩ := h₀.allocate (.unsaturated hf hargs) hg
  exact ⟨σ, (h₁.setResult hrel).of_core_eq hc hc'⟩

theorem abreast_of_gathered (h : m.TwinBelow P ρ m') (hw : P.waiting = [])
    (hg : Gathered m f info args P.base) (hg' : Gathered m' f' info args' P.base')
    (hf : ρ.rel f f') (hargs : AllTwin ρ args args') (n n' : Nat)
    (ho : program.Obeys (iterateCalls n .resuming m))
    (hu : program.Uniform P.size (iterateCalls n .resuming m)) :
    ∃ p p', iterate program n .resuming m = (.next p.1, p.2) ∧
      iterate program n' .resuming m' = (.next p'.1, p'.2) ∧ Abreast P p p' := by
  obtain ⟨hcalm, hcalm'⟩ := h.calm
  have hbase : arguments (P.base' : List (Frame κ)) = [] := arguments_base' hw
  obtain ⟨captured, hi⟩ := hg.function?
  by_cases hlt : args.length < info.arity
  · obtain ⟨m₁, s, q, hit, hc, hq, hs, hl⟩ := hg.iterate_of_lt program hcalm rfl hlt n
    obtain ⟨m₁', s', q', hit', hc', hq', hs', hl'⟩ :=
      hg'.iterate_of_lt program hcalm' hbase (hargs.length_eq ▸ hlt) n'
    obtain ⟨σ, ht⟩ := h.built hf hargs hi hg.ne_nil hlt hc hc' hq hq' hs hs' hl hl'
    exact ⟨_, _, hit, hit', .twins .resuming ht⟩
  · have hle := Nat.le_of_not_lt hlt
    obtain ⟨m₁, s, q, hc, hq, hs, hl, hit, hcalls⟩ := hg.iterate_of_le program hcalm rfl hle n
    obtain ⟨m₁', s', q', hc', hq', hs', hl', hit', -⟩ :=
      hg'.iterate_of_le program hcalm' hbase (hargs.length_eq ▸ hle) n'
    have ht : m₁.Twin P ρ (some []) m₁' :=
      h.twin hc hc' hq hq' hs hs' (frames_map_apply (List.forall₂_drop _ hargs)) hl hl'
    rw [hcalls] at ho hu
    rw [hit, hit']
    exact abreast_dispatch (.inr (matches_dispatchCall hf (List.forall₂_take _ hargs) _ _ ht))
      ht.old ho hu

theorem iterate_applying_of_calm (program : Program κ) (hm : m.Calm) (n : Nat) (c : Address)
    (xs : List Value) :
    ∃ m₁ q, m₁.core = { m.core with scheduler := q } ∧ q.Patient ∧
      iterate program n (.applying c xs) m =
        follow (dispatchApply c xs >>= finish program) m₁ ∧
      iterateCalls n (.applying c xs) m = calls (dispatchApply c xs) m₁ := by
  obtain ⟨m₀, q, hc, hq, hi, hcalls⟩ := iterate_of_calm program hm n (.applying c xs)
  refine ⟨reportControl (.applying c xs) m₀, q, ?_, hq, ?_, hcalls⟩
  · rw [m₀.core_reportControl, hc]
  · rw [hi, ← apply_eq_finish]
    rfl

theorem dispatchApply_of_callee? {c : Address} {bound xs : List Value} (hne : xs ≠ [])
    (hc : m.heap.callee? (m.heap.resolve c) = some (f, bound)) :
    dispatchApply c xs m = dispatchFunction f (bound ++ xs) m := by
  have hn : ¬ xs.isEmpty = true := by simpa using hne
  simp only [dispatchApply, if_neg hn, hc]

theorem abreast_of_applying (h : m.TwinBelow P ρ m') (hw : P.waiting = [])
    (hs : m.context.stack.frames = P.base) {c : Address} {bound xs : List Value} (hne : xs ≠ [])
    (hcallee : m.heap.callee? (m.heap.resolve c) = some (f, bound))
    (hi : m.heap.function? f = some (info, captured))
    (hb : bound = [] ∨ bound.length < info.arity)
    (hroom : xs.length < m.context.stack.limit)
    (hg' : Gathered m' f' info args' P.base') (hf : ρ.rel f f')
    (hargs : AllTwin ρ (bound ++ xs) args') (n n' : Nat)
    (ho : program.Obeys (iterateCalls n (.applying c xs) m))
    (hu : program.Uniform P.size (iterateCalls n (.applying c xs) m)) :
    ∃ p, iterate program n (.applying c xs) m = (.next p.1, p.2) ∧
      ((p.1.Dead p.2.heap) ∨
        (p.1 = .resuming ∧ Gathered p.2 f info (bound ++ xs) P.base ∧ p.2.TwinBelow P ρ m') ∨
        ∃ p', iterate program n' .resuming m' = (.next p'.1, p'.2) ∧ Abreast P p p') := by
  obtain ⟨hcalm, hcalm'⟩ := h.calm
  have hbase : arguments (P.base' : List (Frame κ)) = [] := arguments_base' hw
  obtain ⟨m₀, q, hc₀, hq, hit, hcalls⟩ := iterate_applying_of_calm program hcalm n c xs
  have hheap : m₀.heap = m.heap := congrArg Core.heap hc₀
  have hregs : m₀.context.registers = m.context.registers := congrArg Core.registers hc₀
  have hstack : m₀.context.stack = m.context.stack := congrArg Core.stack hc₀
  have hx := dispatchApply_of_callee? hne (hheap.symm ▸ hcallee)
  by_cases hlt : (bound ++ xs).length < info.arity
  · obtain ⟨m₁, happly, hc⟩ := applyFunction_of_lt (hheap.symm ▸ hi)
      (List.append_ne_nil_of_right_ne_nil bound hne) hlt
    obtain ⟨m₁', s', q', hit', hc', hq', hs', hl'⟩ :=
      hg'.iterate_of_lt program hcalm' hbase (hargs.length_eq ▸ hlt) n'
    have hnext : iterate program n (.applying c xs) m = (.next .resuming, m₁) := by
      rw [hit, follow_congr (Exec.bind_congr hx), ← applyFunction_eq_finish]
      exact follow_of_resume (happly program)
    rw [hheap, hregs, hc₀] at hc
    obtain ⟨σ, ht⟩ := h.built hf hargs hi (List.append_ne_nil_of_right_ne_nil bound hne) hlt hc hc'
      hq hq' hs hs' rfl hl'
    exact ⟨_, hnext, .inr (.inr ⟨_, hit', .twins .resuming ht⟩)⟩
  have hle := Nat.le_of_not_lt hlt
  have hdrop : m₀.context.stack.frames.length + ((bound ++ xs).drop info.arity).length ≤
      m₀.context.stack.limit := by
    have hone : (P.base : List (Frame κ)).length = 1 := rfl
    rw [hstack, hs, List.length_drop, List.length_append]
    rcases hb with rfl | hb
    · rw [hone, List.length_nil]
      omega
    · omega
  rcases dispatchFunction_cases (hheap.symm ▸ hi) hle hdrop with
    ⟨m₁, s, hc, hl, hsf, hd⟩ | ⟨m₁, s, hd, hc, hsf, hl⟩ | ⟨m₁, ws, l, hd, hsf⟩
  · obtain ⟨m₁', s', q', hc', hq', hs', hl', hit', -⟩ :=
      hg'.iterate_of_le program hcalm' hbase (hargs.length_eq ▸ hle) n'
    rw [hstack, hs] at hsf
    rw [hc₀] at hc
    have ht : m₁.Twin P ρ (some []) m₁' :=
      h.twin hc hc' hq hq' hsf hs' (frames_map_apply (List.forall₂_drop _ hargs))
        (hl.trans (congrArg _ hstack)) hl'
    rw [hcalls, calls_congr (hx.trans hd)] at ho hu
    obtain ⟨p, p', hp, hp', hab⟩ :=
      abreast_dispatch (.inr (matches_dispatchCall hf (List.forall₂_take _ hargs) _ _ ht))
        ht.old ho hu
    refine ⟨p, ?_, .inr (.inr ⟨p', hit'.trans hp', hab⟩)⟩
    rw [hit, follow_congr (Exec.bind_congr (hx.trans hd)), hp]
  · have hheap₁ : m₁.heap = m.heap := (congrArg Core.heap hc).trans hheap
    have hstack₁ : m₁.context.stack = s := congrArg Core.stack hc
    have hregs₁ : m₁.context.registers = m₀.context.registers.setResult f :=
      congrArg Core.registers hc
    have hnext : iterate program n (.applying c xs) m = (.next .resuming, m₁) := by
      rw [hit]
      exact follow_of_resume (Exec.bind_of_ok (hx.trans hd))
    have hgathered : Gathered m₁ f info (bound ++ xs) P.base := by
      refine gathered_of_function (hheap₁.symm ▸ hi) ?_ ?_
        (List.append_ne_nil_of_right_ne_nil bound hne)
      · rw [hregs₁, Registers.result?_setResult]
      · rw [hstack₁, hsf, hstack, hs]
    rw [hc₀] at hc
    exact ⟨(.resuming, m₁), hnext,
      .inr (.inl ⟨rfl, hgathered, h.of_core hc hq (hl.trans (congrArg _ hstack))⟩)⟩
  · have hnone : ∀ g, Frame.handler g ∉ m₁.context.stack.frames := by
      rw [hsf, hstack, hs]
      exact handler_not_mem_base P ws
    obtain ⟨c₁, m₂, hnext, hdead⟩ := dead_of_error program (hx.trans hd) hnone
    exact ⟨(c₁, m₂), hit.trans hnext, .inl hdead⟩

end Meeting

end GraphReduction
