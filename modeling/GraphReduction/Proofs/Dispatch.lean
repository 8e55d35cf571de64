import GraphReduction.Proofs.Entering

namespace GraphReduction

variable {κ : Type}

structure Call (κ : Type) where
  code : κ
  captured : List Value
  arguments : List (Slot × Value)
  deriving DecidableEq

inductive Dispatch (κ : Type) where
  | step (s : Step)
  | call (c : Call κ)

namespace Evaluation

section Definitions

def stepped (x : Exec κ Step) : Exec κ (Dispatch κ) := do return .step (← x)

def finish (program : Program κ) : Dispatch κ → Exec κ Step
  | .step s => pure s
  | .call c => run program c.code c.captured

def dispatchAt (f : Address) (args : List Value) (slots : List Slot) : Exec κ (Dispatch κ) :=
    fun m =>
  match m.heap.function? f with
  | none => Exec.raise (.applyNonFunction (m.heap.variant f).name args.length) m
  | some (info, captured) =>
    (do
      load args slots
      pure (Dispatch.call ⟨info.code, captured, slots.zip args⟩)) m

def dispatchCall (f : Address) (args : List Value) : Exec κ (Dispatch κ) := do
  let slots ← Exec.ofExcept (layoutFor (args.map Value.kind))
  dispatchAt f args slots

def dispatchExact (f : Address) (args : List Value) : Exec κ (Dispatch κ) :=
  if args.isEmpty then dispatchAt f args []
  else
    match SchemaTable.standard.lookup args with
    | some schema => do
      Exec.count fun c => { c with fastPathCalls := c.fastPathCalls + 1 }
      dispatchAt f args schema.slots
    | none => do
      Exec.count fun c => { c with genericCalls := c.genericCalls + 1 }
      Exec.report .apply fun m => ⟨.trace, "generic apply",
        [("function", closureText m f), ("args", toString args.length)]⟩
      Exec.pushArguments args
      stepped (Exec.giveBack f)

def dispatchFunction (f : Address) (args : List Value) : Exec κ (Dispatch κ) := do
  let arity ← arityOf f args.length
  if args.length = arity then dispatchExact f args
  else if args.length < arity then
    Exec.count fun c => { c with partialApplications := c.partialApplications + 1 }
    let pap ← bindArgs f args
    Exec.report .apply fun m => ⟨.trace, "under-application", [("pap", closureText m pap)]⟩
    stepped (Exec.giveBack pap)
  else
    Exec.count fun c => { c with overApplications := c.overApplications + 1 }
    Exec.report .apply fun m => ⟨.trace, "over-application",
      [("function", closureText m f), ("extra", toString (args.length - arity))]⟩
    Exec.pushArguments (args.drop arity)
    dispatchExact f (args.take arity)

def dispatchApply (callee : Address) (args : List Value) : Exec κ (Dispatch κ) := fun m =>
  let callee := m.heap.resolve callee
  if args.isEmpty then
    stepped (match m.heap.cell callee with
      | .function _ _ | .unsaturated _ _ => Exec.giveBack callee
      | .thunk _ | .data _ _ => pure (.enter callee)) m
  else
    match m.heap.callee? callee with
    | some (f, bound) => dispatchFunction f (bound ++ args) m
    | none => Exec.raise (.applyNonFunction (m.heap.variant callee).name args.length) m

def dispatchResult (result : Address) (argument : Value) : Exec κ (Dispatch κ) := do
  let m ← get
  let callee := m.heap.resolve result
  match m.heap.callee? callee with
  | none => Exec.raise (.applyNonFunction (m.heap.variant callee).name 1)
  | some (f, bound) =>
    let arity ← arityOf f (bound.length + 1)
    if arity = 0 then
      Exec.push (.apply argument)
      dispatchAt f bound []
    else
      let more ← popArguments (arity - (bound.length + 1))
      let args := bound ++ argument :: more
      if args.length = arity then dispatchCall f args
      else
        Exec.count fun c => { c with partialApplications := c.partialApplications + 1 }
        let pap ← bindArgs f args
        stepped (Exec.giveBack pap)

def dispatchArgument (argument : Value) : Exec κ (Dispatch κ) := do
  let result ← fun m => Exec.ofExcept (m.context.registers.readClosure 1) m
  dispatchResult result argument

def dispatchStart (a : Address) (body : Suspension κ) : Exec κ (Dispatch κ) := fun m =>
  match m.push (.update a) with
  | .error e => .error (.error e) (m.resetThunk a fun _ => none)
  | .ok m =>
    .ok (.call ⟨body.code, body.captured, []⟩)
      (m.count fun c => { c with thunkEntries := c.thunkEntries + 1 })

def dispatchEnter (a : Address) : Exec κ (Dispatch κ) := fun m =>
  match m.heap.cell a with
  | .unsaturated _ _ => Exec.raise .enterPartial m
  | _ =>
    let me := m.context.thread
    match m.onHeap (·.enter me a) with
    | (.value v, m) => stepped (Exec.giveBack v) m
    | (.start body, m) => dispatchStart a body m
    | (.busy, m) => stepped (enterBusy a) m
    | (.loop, m) => Exec.raise .nonTermination m

def dispatchFrame : Frame κ → Exec κ (Dispatch κ)
  | .apply v => dispatchArgument v
  | .update a => stepped (updateThunk a)
  | .case code captured => fun m =>
    let loaded := m.context.registers.result?.map fun a => (Slot.result, Value.boxed a)
    .ok (.call ⟨code, captured, loaded.toList⟩) m
  | .handler _ => pure (.step .resume)

def calls (x : Exec κ (Dispatch κ)) (m : Machine κ) : List (Call κ) :=
  match x m with
  | .ok (.call c) _ => [c]
  | _ => []

def callsOf (c : Control) (m : Machine κ) : List (Call κ) :=
  let m := reportControl c m
  match c with
  | .entering a => calls (dispatchEnter a) m
  | .applying f args => calls (dispatchApply f args) m
  | .resuming =>
    match m.pop? with
    | some (frame, m) => calls (dispatchFrame frame) m
    | none => []
  | _ => []

end Definitions

section Equations

variable {program : Program κ} {m : Machine κ} {x : Exec κ Step} {y : Exec κ (Dispatch κ)}

theorem stepped_bind (x : Exec κ Step) : stepped x >>= finish program = x := by
  unfold stepped
  rw [bind_assoc]
  simp only [pure_bind, finish, bind_pure]

theorem eq_finish_of_stepped (x' : Exec κ Step) (hx : x m = x' m) (hy : y m = stepped x' m) :
    x m = (y >>= finish program) m := by
  rw [Exec.bind_congr hy, stepped_bind, hx]

theorem eq_finish_of_eq (x' : Exec κ Step) (y' : Exec κ (Dispatch κ)) (hx : x m = x' m)
    (hy : y m = y' m) (h : x' = y' >>= finish program) :
    x m = (y >>= finish program) m := by
  rw [Exec.bind_congr hy, hx, h]

theorem invokeAt_eq_finish (f : Address) (args : List Value) (slots : List Slot) :
    invokeAt program f args slots = dispatchAt f args slots >>= finish program := by
  funext m
  cases hf : m.heap.function? f with
  | none =>
    let e := RuntimeError.applyNonFunction (m.heap.variant f).name args.length
    exact eq_finish_of_stepped (Exec.raise e) (by simp only [invokeAt, hf, e])
      (by simp only [dispatchAt, hf]; rfl)
  | some p =>
    obtain ⟨info, captured⟩ := p
    refine eq_finish_of_eq (do load args slots; run program info.code captured)
      (do
        load args slots
        pure (Dispatch.call ⟨info.code, captured, slots.zip args⟩))
      (by simp only [invokeAt, hf]; rfl) (by simp only [dispatchAt, hf]) ?_
    simp only [bind_assoc, pure_bind, finish]

theorem invoke_eq_finish (f : Address) (args : List Value) :
    invoke program f args = dispatchCall f args >>= finish program := by
  simp only [invoke, dispatchCall, bind_assoc, invokeAt_eq_finish]

theorem callExact_eq_finish (f : Address) (args : List Value) :
    callExact program f args = dispatchExact f args >>= finish program := by
  unfold callExact dispatchExact
  split
  · exact invokeAt_eq_finish f args []
  · cases SchemaTable.standard.lookup args with
    | some schema => simp only [bind_assoc, invokeAt_eq_finish]
    | none => simp only [bind_assoc, stepped_bind]

theorem applyFunction_eq_finish (f : Address) (args : List Value) :
    applyFunction program f args = dispatchFunction f args >>= finish program := by
  unfold applyFunction dispatchFunction
  rw [bind_assoc]
  refine bind_congr fun arity => ?_
  by_cases heq : args.length = arity
  · rw [if_pos heq, if_pos heq, callExact_eq_finish]
  · rw [if_neg heq, if_neg heq]
    by_cases hlt : args.length < arity
    · rw [if_pos hlt, if_pos hlt]
      simp only [bind_assoc, stepped_bind]
    · rw [if_neg hlt, if_neg hlt]
      simp only [bind_assoc, callExact_eq_finish]

theorem apply_eq_finish (callee : Address) (args : List Value) :
    apply program callee args = dispatchApply callee args >>= finish program := by
  funext m
  by_cases hn : args.isEmpty = true
  · refine eq_finish_of_stepped _ ?_ (if_pos hn)
    refine (if_pos hn).trans ?_
    cases m.heap.cell (m.heap.resolve callee) <;> rfl
  · cases hc : m.heap.callee? (m.heap.resolve callee) with
    | none =>
      let callee' := m.heap.resolve callee
      let e := RuntimeError.applyNonFunction (m.heap.variant callee').name args.length
      exact eq_finish_of_stepped (Exec.raise e) (by simp only [apply, if_neg hn, hc]; rfl)
        (by simp only [dispatchApply, if_neg hn, hc]; rfl)
    | some p =>
      exact eq_finish_of_eq _ _ (by simp only [apply, if_neg hn, hc])
        (by simp only [dispatchApply, if_neg hn, hc]) (applyFunction_eq_finish p.1 (p.2 ++ args))

theorem applyFrame_eq_finish (v : Value) :
    applyFrame program v = dispatchArgument v >>= finish program := by
  refine Eq.trans ?_ (bind_assoc _ _ _).symm
  refine bind_congr fun result => ?_
  refine Eq.trans ?_ (bind_assoc _ _ _).symm
  refine bind_congr fun m => ?_
  dsimp only
  cases m.heap.callee? (m.heap.resolve result) with
  | none => rfl
  | some p =>
    obtain ⟨f, bound⟩ := p
    dsimp only
    rw [bind_assoc]
    refine bind_congr fun arity => ?_
    by_cases hz : arity = 0
    · rw [if_pos hz, if_pos hz, bind_assoc]
      simp only [invokeAt_eq_finish]
    · rw [if_neg hz, if_neg hz, bind_assoc]
      refine bind_congr fun more => ?_
      split
      · exact invoke_eq_finish f _
      · simp only [bind_assoc, stepped_bind]

theorem start_eq_finish (a : Address) (body : Suspension κ) :
    start program a body = dispatchStart a body >>= finish program := by
  funext m
  cases hp : m.push (.update a) with
  | error e =>
    have hd : dispatchStart a body m = .error (.error e) (m.resetThunk a fun _ => none) := by
      simp only [dispatchStart, hp]
    rw [Exec.bind_of_error hd]
    simp only [start, hp]
  | ok m₁ =>
    have hd : dispatchStart a body m = .ok (.call ⟨body.code, body.captured, []⟩)
        (m₁.count fun c => { c with thunkEntries := c.thunkEntries + 1 }) := by
      simp only [dispatchStart, hp]
    rw [Exec.bind_of_ok hd]
    simp only [start, hp]
    rfl

theorem enter_eq_finish (a : Address) :
    enter program a = dispatchEnter a >>= finish program := by
  funext m
  cases hc : m.heap.cell a with
  | unsaturated f args =>
    exact eq_finish_of_stepped (Exec.raise .enterPartial) (by simp only [enter, hc])
      (by simp only [dispatchEnter, hc]; rfl)
  | function info captured =>
    exact eq_finish_of_stepped (Exec.giveBack a)
      (by simp only [enter, hc, onHeap_eq, Heap.enter]; rfl)
      (by simp only [dispatchEnter, hc, onHeap_eq, Heap.enter]; rfl)
  | data constructor fields =>
    exact eq_finish_of_stepped (Exec.giveBack a)
      (by simp only [enter, hc, onHeap_eq, Heap.enter]; rfl)
      (by simp only [dispatchEnter, hc, onHeap_eq, Heap.enter]; rfl)
  | thunk state =>
    cases state with
    | unevaluated body =>
      let h := m.heap.write a (.thunk (.underEvaluation m.context.thread body []))
      have hd : dispatchEnter a m = dispatchStart a body (m.setHeap h) := by
        simp only [dispatchEnter, hc, onHeap_eq, Heap.enter, h]
      rw [Exec.bind_congr hd, enter_eq_start program hc, start_eq_finish]
    | evaluated v =>
      exact eq_finish_of_stepped (Exec.giveBack v)
        (by simp only [enter, hc, onHeap_eq, Heap.enter]; rfl)
        (by simp only [dispatchEnter, hc, onHeap_eq, Heap.enter]; rfl)
    | underEvaluation t body blocked =>
      by_cases ht : t = m.context.thread
      · exact eq_finish_of_stepped (Exec.raise .nonTermination)
          (by simp only [enter, hc, onHeap_eq, Heap.enter, if_pos ht]; rfl)
          (by simp only [dispatchEnter, hc, onHeap_eq, Heap.enter, if_pos ht]; rfl)
      · exact eq_finish_of_stepped (enterBusy a)
          (by simp only [enter, hc, onHeap_eq, Heap.enter, if_neg ht]; rfl)
          (by simp only [dispatchEnter, hc, onHeap_eq, Heap.enter, if_neg ht]; rfl)

theorem resumeFrame_eq_finish (frame : Frame κ) :
    resumeFrame program frame = dispatchFrame frame >>= finish program := by
  cases frame with
  | apply v => exact applyFrame_eq_finish v
  | update a => exact (stepped_bind _).symm
  | case code captured => rfl
  | handler f => rfl

end Equations

end Evaluation

end GraphReduction
