import GraphReduction.Proofs.CallingConvention
import GraphReduction.Proofs.Cells
import GraphReduction.Proofs.Machine

namespace GraphReduction

variable {κ : Type}

namespace Frame

def arguments : List (Frame κ) → List Value
  | .apply v :: rest => v :: arguments rest
  | _ => []

def underArguments : List (Frame κ) → List (Frame κ)
  | .apply _ :: rest => underArguments rest
  | frames => frames

theorem map_arguments_append (frames : List (Frame κ)) :
    (arguments frames).map .apply ++ underArguments frames = frames := by
  induction frames with
  | nil => rfl
  | cons frame rest ih => cases frame <;> simp [arguments, underArguments, ih]

theorem arguments_map_append (vs : List Value) (frames : List (Frame κ)) :
    arguments (vs.map .apply ++ frames) = vs ++ arguments frames := by
  induction vs with
  | nil => rfl
  | cons v vs ih => simp [arguments, ih]

theorem underArguments_map_append (vs : List Value) (frames : List (Frame κ)) :
    underArguments (vs.map .apply ++ frames) = underArguments frames := by
  induction vs with
  | nil => rfl
  | cons v vs ih => simp [underArguments, ih]

theorem eq_cons_of_arguments {frames : List (Frame κ)} {v : Value} {vs : List Value}
    (h : arguments frames = v :: vs) :
    ∃ rest, frames = .apply v :: rest ∧ arguments rest = vs ∧
      underArguments frames = underArguments rest := by
  cases frames with
  | nil => cases h
  | cons frame rest =>
    cases frame with
    | apply w =>
      obtain ⟨rfl, hr⟩ := List.cons.inj h
      exact ⟨rest, rfl, hr, rfl⟩
    | _ => cases h

end Frame

namespace FrameStack

variable {s : FrameStack κ}

theorem exists_popArgument? {v : Value} {rest : List (Frame κ)} (h : s.frames = .apply v :: rest) :
    ∃ t, s.popArgument? = some (v, t) ∧ t.frames = rest ∧ t.limit = s.limit := by
  obtain ⟨t, ht, hf, hl⟩ := exists_pop? h
  exact ⟨t, by rw [popArgument?, ht], hf, hl⟩

theorem popArgument?_eq_none (h : Frame.arguments s.frames = []) : s.popArgument? = none := by
  unfold popArgument?
  split
  · next v t hs =>
    rw [(frames_of_pop? hs).1] at h
    cases h
  · rfl

end FrameStack

namespace Exec

theorem pushArguments_ok (vs : List Value) (m : Machine κ)
    (h : m.context.stack.frames.length + vs.length ≤ m.context.stack.limit) :
    ∃ m' s, pushArguments vs m = .ok () m' ∧ m'.core = { m.core with stack := s } ∧
      s.frames = vs.map .apply ++ m.context.stack.frames ∧ s.limit = m.context.stack.limit := by
  induction vs with
  | nil => exact ⟨m, m.context.stack, rfl, rfl, rfl, rfl⟩
  | cons v vs ih =>
    rw [List.length_cons] at h
    obtain ⟨m₁, s₁, he, hc, hf, hl⟩ := ih (by omega)
    have hs : m₁.context.stack = s₁ := congrArg Core.stack hc
    obtain ⟨m', s, hp, hc', hf', hl'⟩ := Machine.exists_push (m := m₁) (.apply v) (by
      rw [hs, hf, hl, List.length_append, List.length_map]
      omega)
    refine ⟨m', s, ?_, ?_, ?_, ?_⟩
    · rw [pushArguments, bind_of_ok he, push_of_ok hp]
    · rw [hc', hc]
    · rw [hf', hs, hf]
      rfl
    · rw [hl', hs, hl]

end Exec

namespace Evaluation

open GraphReduction.Frame

variable {program : Program κ} {m : Machine κ}

theorem load_eq {args : List Value} {slots : List Slot}
    (hk : slots.map Slot.kind = args.map Value.kind) :
    load args slots m = .ok () (m.setRegisters (m.context.registers.loaded args slots)) := by
  induction args generalizing slots m with
  | nil => cases slots <;> rfl
  | cons v vs ih =>
    cases slots with
    | nil => cases hk
    | cons s ss =>
      simp only [List.map_cons, List.cons.injEq] at hk
      rw [load_cons, if_pos hk.1, ih hk.2]
      rfl

theorem invokeAt_eq_run {f : Address} {info : FunctionInfo κ} {captured args : List Value}
    {slots : List Slot} (hf : m.heap.function? f = some (info, captured))
    (hk : slots.map Slot.kind = args.map Value.kind) :
    invokeAt program f args slots m =
      run program info.code captured
        (m.setRegisters (m.context.registers.loaded args slots)) := by
  simp only [invokeAt, hf]
  rw [Exec.bind_of_ok (load_eq hk)]
  rfl

theorem arityOf_eq {f : Address} {n : Nat} {info : FunctionInfo κ} {captured : List Value}
    (hf : m.heap.function? f = some (info, captured)) : arityOf f n m = .ok info.arity m := by
  rw [arityOf, hf]

theorem bindArgs_ok {f : Address} {info : FunctionInfo κ} {captured args : List Value}
    (hf : m.heap.function? f = some (info, captured)) (hne : args ≠ [])
    (hl : args.length < info.arity) :
    ∃ m', bindArgs f args m = .ok ⟨m.heap.size⟩ m' ∧
      m'.core = { m.core with heap := (m.heap.allocate (.unsaturated f args)).2 } := by
  simp only [bindArgs, Heap.bind_of_function? hf hne hl]
  exact ⟨_, rfl, m.core_allocate _⟩

theorem popArguments_ok (n : Nat) (m : Machine κ) :
    ∃ m' s, popArguments n m = .ok ((arguments m.context.stack.frames).take n) m' ∧
      m'.core = { m.core with stack := s } ∧
      s.frames = ((arguments m.context.stack.frames).drop n).map .apply ++
        underArguments m.context.stack.frames ∧
      s.limit = m.context.stack.limit := by
  induction n generalizing m with
  | zero => exact ⟨m, m.context.stack, rfl, rfl, (map_arguments_append _).symm, rfl⟩
  | succ n ih =>
    cases ha : arguments m.context.stack.frames with
    | nil =>
      refine ⟨m, m.context.stack, ?_, rfl, ?_, rfl⟩
      · simp only [popArguments, FrameStack.popArgument?_eq_none ha]
        rfl
      · have hm := map_arguments_append m.context.stack.frames
        rw [ha] at hm
        exact hm.symm
    | cons v vs =>
      obtain ⟨rest, hf, hr, hu⟩ := eq_cons_of_arguments ha
      obtain ⟨t, ht, htf, htl⟩ := FrameStack.exists_popArgument? hf
      obtain ⟨m', s, he, hc, hsf, hsl⟩ := ih (m.setStack t)
      have hst : (m.setStack t).context.stack = t := rfl
      rw [hst, htf, hr] at he hsf
      refine ⟨m', s, ?_, ?_, ?_, ?_⟩
      · simp only [popArguments, ht]
        rw [Exec.bind_of_ok he]
        rfl
      · rw [hc, Machine.core_setStack]
      · rw [hsf, hu, List.drop_succ_cons]
      · rw [hsl, hst, htl]

def callByLayout (program : Program κ) (f : Address) (args : List Value) (slots : List Slot) :
    Exec κ Step := do
  Exec.count fun c => { c with fastPathCalls := c.fastPathCalls + 1 }
  invokeAt program f args slots

def callByFrames (f : Address) (args : List Value) : Exec κ Step := do
  Exec.count fun c => { c with genericCalls := c.genericCalls + 1 }
  Exec.report .apply fun m => ⟨.trace, "generic apply",
    [("function", closureText m f), ("args", toString args.length)]⟩
  Exec.pushArguments args
  Exec.giveBack f

theorem callExact_eq (program : Program κ) (f : Address) {args : List Value} (hne : args ≠ []) :
    callExact program f args = match SchemaTable.standard.lookup args with
      | some s => callByLayout program f args s.slots
      | none => callByFrames f args := by
  have hn : ¬ args.isEmpty = true := by simpa using hne
  rw [callExact, if_neg hn]
  rfl

theorem callByLayout_eq (program : Program κ) {f : Address} {args captured : List Value}
    {info : FunctionInfo κ} {slots : List Slot} (hf : m.heap.function? f = some (info, captured))
    (hl : layoutFor (args.map Value.kind) = .ok slots) :
    ∃ n, callByLayout program f args slots m = run program info.code captured n ∧
      n.core = { m.core with registers := m.context.registers.loaded args slots } := by
  have hk := kinds_of_layoutFor hl
  exact ⟨_, invokeAt_eq_run (m := m.count _) hf hk, rfl⟩

theorem callByFrames_eq (f : Address) {args : List Value}
    (hroom : m.context.stack.frames.length + args.length ≤ m.context.stack.limit) :
    ∃ n s, callByFrames f args m = .ok .resume n ∧
      n.core = { m.core with stack := s, registers := m.context.registers.setResult f } ∧
      s.frames = args.map .apply ++ m.context.stack.frames ∧ s.limit = m.context.stack.limit := by
  let m₁ := (m.count fun c => { c with genericCalls := c.genericCalls + 1 }).report .apply
    fun m => ⟨.trace, "generic apply",
      [("function", closureText m f), ("args", toString args.length)]⟩
  have hm₁ : m₁.core = m.core := by simp [m₁]
  have hs₁ : m₁.context.stack = m.context.stack := congrArg Core.stack hm₁
  obtain ⟨m₂, s, he, hc, hframes, hlimit⟩ := Exec.pushArguments_ok args m₁ (by rwa [hs₁])
  refine ⟨m₂.setResult f, s, ?_, ?_, by rw [hframes, hs₁], by rw [hlimit, hs₁]⟩
  · change (Exec.pushArguments args >>= fun _ => Exec.giveBack f) m₁ = _
    rw [Exec.bind_of_ok he]
    rfl
  · rw [Machine.core_setResult, hc, hm₁]
    rfl

theorem callExact_cases {f : Address} {args : List Value} (hne : args ≠ [])
    (hroom : m.context.stack.frames.length + args.length ≤ m.context.stack.limit) :
    (∃ m' slots, m'.core = m.core ∧ layoutFor (args.map Value.kind) = .ok slots ∧
      ∀ program : Program κ, callExact program f args m = invokeAt program f args slots m') ∨
    (∃ m' s, m'.core =
        { m.core with stack := s, registers := m.context.registers.setResult f } ∧
      s.frames = args.map .apply ++ m.context.stack.frames ∧ s.limit = m.context.stack.limit ∧
      ∀ program : Program κ, callExact program f args m = .ok .resume m') := by
  cases hl : SchemaTable.standard.lookup args with
  | some schema =>
    left
    refine ⟨m.count fun c => { c with fastPathCalls := c.fastPathCalls + 1 }, schema.slots, rfl,
      SchemaTable.layoutFor_of_lookup hl, fun program => ?_⟩
    rw [callExact_eq program f hne, hl]
    rfl
  | none =>
    right
    obtain ⟨m', s, he, hcore, hframes, hlimit⟩ := callByFrames_eq f hroom
    refine ⟨m', s, hcore, hframes, hlimit, fun program => ?_⟩
    rw [callExact_eq program f hne, hl]
    exact he

theorem invoke_of_layout {f : Address} {args : List Value} {slots : List Slot}
    (h : layoutFor (args.map Value.kind) = .ok slots) :
    invoke program f args m = invokeAt program f args slots m := by
  rw [invoke, h]
  rfl

theorem invoke_of_error {f : Address} {args : List Value} {e : RuntimeError}
    (h : layoutFor (args.map Value.kind) = .error e) :
    invoke program f args m = Exec.raise e m := by
  rw [invoke, h]
  rfl

theorem applyFunction_eq {f : Address} {args captured : List Value} {info : FunctionInfo κ}
    (hf : m.heap.function? f = some (info, captured)) :
    applyFunction program f args m =
      (if args.length = info.arity then callExact program f args
      else if args.length < info.arity then do
        Exec.count fun c => { c with partialApplications := c.partialApplications + 1 }
        let pap ← bindArgs f args
        Exec.report .apply fun m => ⟨.trace, "under-application", [("pap", closureText m pap)]⟩
        Exec.giveBack pap
      else do
        Exec.count fun c => { c with overApplications := c.overApplications + 1 }
        Exec.report .apply fun m => ⟨.trace, "over-application",
          [("function", closureText m f), ("extra", toString (args.length - info.arity))]⟩
        Exec.pushArguments (args.drop info.arity)
        callExact program f (args.take info.arity)) m := by
  rw [applyFunction, Exec.bind_of_ok (arityOf_eq hf)]

theorem applyFunction_of_lt {f : Address} {args captured : List Value} {info : FunctionInfo κ}
    (hf : m.heap.function? f = some (info, captured)) (hne : args ≠ [])
    (hl : args.length < info.arity) :
    ∃ m', (∀ program : Program κ, applyFunction program f args m = .ok .resume m') ∧
      m'.core = { m.core with
        heap := (m.heap.allocate (.unsaturated f args)).2
        registers := m.context.registers.setResult ⟨m.heap.size⟩ } := by
  let m₁ := m.count fun c => { c with partialApplications := c.partialApplications + 1 }
  obtain ⟨m₂, hbind, hc₂⟩ := bindArgs_ok (show m₁.heap.function? f = _ from hf) hne hl
  let m₃ := m₂.report .apply fun m =>
    ⟨.trace, "under-application", [("pap", closureText m ⟨m₁.heap.size⟩)]⟩
  refine ⟨m₃.setResult ⟨m₁.heap.size⟩, fun program => ?_, ?_⟩
  · rw [applyFunction_eq hf, if_neg (Nat.ne_of_lt hl), if_pos hl]
    change (bindArgs f args >>= fun pap => _) m₁ = _
    rw [Exec.bind_of_ok hbind]
    rfl
  · rw [Machine.core_setResult, Machine.core_report, hc₂]
    rfl

theorem apply_nil {c f : Address} {bound : List Value}
    (hc : m.heap.callee? (m.heap.resolve c) = some (f, bound)) :
    apply program c [] m = Exec.giveBack (m.heap.resolve c) m := by
  rcases Heap.callee?_eq_some_iff.1 hc with ⟨info, captured, hcell, -⟩ | hcell <;>
    simp only [apply, List.isEmpty_nil, hcell] <;> rfl

theorem apply_of_callee? {c f : Address} {bound args : List Value} (hne : args ≠ [])
    (hc : m.heap.callee? (m.heap.resolve c) = some (f, bound)) :
    apply program c args m = applyFunction program f (bound ++ args) m := by
  have hn : ¬ args.isEmpty = true := by simpa using hne
  simp only [apply, if_neg hn, hc]

theorem ofExcept_readClosure {p : Address} (hr : m.context.registers.result? = some p) :
    (Exec.ofExcept (m.context.registers.readClosure 1) : Exec κ Address) m = .ok p m := by
  rw [Registers.readClosure_one, hr]
  rfl

theorem applyFrame_eq {v : Value} {p f : Address} {bound captured : List Value}
    {info : FunctionInfo κ} (hr : m.context.registers.result? = some p)
    (hp : m.heap.callee? (m.heap.resolve p) = some (f, bound))
    (hf : m.heap.function? f = some (info, captured)) :
    applyFrame program v m =
      (if info.arity = 0 then do
        Exec.push (.apply v)
        invokeAt program f bound []
      else do
        let more ← popArguments (info.arity - (bound.length + 1))
        if (bound ++ v :: more).length = info.arity then invoke program f (bound ++ v :: more)
        else
          Exec.count fun c => { c with partialApplications := c.partialApplications + 1 }
          let pap ← bindArgs f (bound ++ v :: more)
          Exec.giveBack pap) m := by
  have hget : (get : Exec κ (Machine κ)) m = .ok m m := rfl
  refine (Exec.bind_of_ok (ofExcept_readClosure hr)).trans ?_
  rw [Exec.bind_of_ok hget]
  simp only [hp]
  rw [Exec.bind_of_ok (arityOf_eq hf)]

theorem applyFrame_of_lt {v : Value} {p f : Address} {bound captured : List Value}
    {info : FunctionInfo κ} (hr : m.context.registers.result? = some p)
    (hp : m.heap.callee? (m.heap.resolve p) = some (f, bound))
    (hf : m.heap.function? f = some (info, captured))
    (hl : (bound ++ v :: arguments m.context.stack.frames).length < info.arity) :
    ∃ m' s, (∀ program : Program κ, applyFrame program v m = .ok .resume m') ∧
      m'.core = { m.core with
        heap :=
          (m.heap.allocate (.unsaturated f (bound ++ v :: arguments m.context.stack.frames))).2
        registers := m.context.registers.setResult ⟨m.heap.size⟩
        stack := s } ∧
      s.frames = underArguments m.context.stack.frames ∧ s.limit = m.context.stack.limit := by
  let args := bound ++ v :: arguments m.context.stack.frames
  have hlen := hl
  rw [List.length_append, List.length_cons] at hlen
  obtain ⟨m₁, s, hpop, hc₁, hs, hlim⟩ := popArguments_ok (info.arity - (bound.length + 1)) m
  rw [List.take_of_length_le (by omega)] at hpop
  rw [List.drop_of_length_le (by omega)] at hs
  have hh₁ : m₁.heap = m.heap := congrArg Core.heap hc₁
  let m₂ := m₁.count fun c => { c with partialApplications := c.partialApplications + 1 }
  have hf₂ : m₂.heap.function? f = some (info, captured) := by
    rw [show m₂.heap = m.heap from hh₁, hf]
  obtain ⟨m₃, hbind, hc₃⟩ := bindArgs_ok hf₂
    (List.append_ne_nil_of_right_ne_nil bound (List.cons_ne_nil v _)) hl
  refine ⟨m₃.setResult ⟨m₂.heap.size⟩, s, fun program => ?_, ?_, hs, hlim⟩
  · rw [applyFrame_eq hr hp hf, if_neg (by omega), Exec.bind_of_ok hpop,
      if_neg (Nat.ne_of_lt hl)]
    change (bindArgs f args >>= Exec.giveBack) m₂ = _
    rw [Exec.bind_of_ok hbind]
    rfl
  · rw [Machine.core_setResult, hc₃, show m₂.core = _ from hc₁, show m₂.heap = m.heap from hh₁]
    rfl

theorem applyFrame_of_callee?_eq_none {v : Value} {p : Address}
    (hr : m.context.registers.result? = some p)
    (hp : m.heap.callee? (m.heap.resolve p) = none) :
    applyFrame program v m =
      Exec.raise (.applyNonFunction (m.heap.variant (m.heap.resolve p)).name 1) m := by
  have hget : (get : Exec κ (Machine κ)) m = .ok m m := rfl
  refine (Exec.bind_of_ok (ofExcept_readClosure hr)).trans ?_
  rw [Exec.bind_of_ok hget]
  simp only [hp]

end Evaluation

end GraphReduction
