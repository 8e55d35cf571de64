import GraphReduction.Proofs.Calling

namespace GraphReduction

namespace Registers

variable {r q : Registers} {args : List Value} {slots : List Slot}

theorem setResult_eq_put (r : Registers) (a : Address) :
    r.setResult a = r.put Slot.result.offset (.boxed a) := rfl

theorem get?_setResult_of_ne {s : Slot} (a : Address) (hs : s ≠ Slot.result) :
    (r.setResult a).get? s = r.get? s := by
  rw [setResult_eq_put, get?_put]
  exact if_neg hs

theorem get?_loaded_congr {s : Slot} (hk : slots.map Slot.kind = args.map Value.kind)
    (h : s ∈ slots ∨ r.get? s = q.get? s) :
    (r.loaded args slots).get? s = (q.loaded args slots).get? s := by
  induction args generalizing r q slots with
  | nil =>
    obtain rfl : slots = [] := by simpa using hk
    exact h.resolve_left List.not_mem_nil
  | cons v vs ih =>
    cases slots with
    | nil => cases hk
    | cons t ts =>
      simp only [List.map_cons, List.cons.injEq] at hk
      refine ih hk.2 ?_
      rw [get?_put, get?_put]
      by_cases hst : s = ⟨v.kind, t.offset⟩
      · exact .inr (by rw [if_pos hst, if_pos hst])
      · rcases h with hm | he
        · rcases List.mem_cons.1 hm with rfl | hm
          · exact absurd (by rw [← hk.1]) hst
          · exact .inl hm
        · exact .inr (by rw [if_neg hst, if_neg hst, he])

end Registers

namespace Evaluation

open GraphReduction.Frame

variable {κ : Type} {f : Address} {args captured : List Value}
  {slots : List Slot} {info : FunctionInfo κ} {m : Machine κ}

/-- Two machines on which the same call is about to run its code. They may differ in counters,
trace and storage of the stack, and in the result register if it holds no argument. -/
structure SameCall (args : List Value) (slots : List Slot) (m n : Machine κ) : Prop where
  core : n.core = { m.core with registers := n.context.registers, stack := n.context.stack }
  frames : n.context.stack.frames = m.context.stack.frames
  limit : n.context.stack.limit = m.context.stack.limit
  holds_left : m.context.registers.Holds args
  holds_right : n.context.registers.Holds args
  registers : ∀ s, s ∈ slots ∨ s ≠ Slot.result →
    m.context.registers.get? s = n.context.registers.get? s

theorem applyFrame_gathers (program : Program κ) {v : Value} {vs : List Value} {below : List (Frame κ)}
    (hr : m.context.registers.result? = some f)
    (hf : m.heap.function? f = some (info, captured)) (harity : (v :: vs).length = info.arity)
    (hframes : m.context.stack.frames = vs.map .apply ++ below)
    (hl : layoutFor ((v :: vs).map Value.kind) = .ok slots) :
    ∃ n s, applyFrame program v m = run program info.code captured n ∧
      n.core = { m.core with
        stack := s, registers := m.context.registers.loaded (v :: vs) slots } ∧
      s.frames = below ∧ s.limit = m.context.stack.limit := by
  have hc : m.heap.callee? (m.heap.resolve f) = some (f, []) := by
    rw [Heap.resolve_of_callee? (Heap.callee?_of_function? hf)]
    exact Heap.callee?_of_function? hf
  have ha : arguments m.context.stack.frames = vs ++ arguments below := by
    rw [hframes, arguments_map_append]
  have hn : info.arity - (([] : List Value).length + 1) = vs.length := by
    rw [← harity, List.length_cons, List.length_nil]
    omega
  have hz : info.arity ≠ 0 := by
    rw [← harity, List.length_cons]
    exact Nat.succ_ne_zero _
  obtain ⟨m₁, s, hpop, hcore, hsf, hsl⟩ := popArguments_ok vs.length m
  rw [ha, List.take_left] at hpop
  have hbelow : s.frames = below := by
    rw [hsf, ha, List.drop_left, hframes, underArguments_map_append, map_arguments_append]
  have hheap : m₁.heap = m.heap := congrArg Core.heap hcore
  have hregisters : m₁.context.registers = m.context.registers := congrArg Core.registers hcore
  refine ⟨m₁.setRegisters (m.context.registers.loaded (v :: vs) slots), s, ?_, ?_, hbelow, hsl⟩
  · rw [applyFrame_eq hr hc hf, if_neg hz, hn, Exec.bind_of_ok hpop, List.nil_append,
      if_pos harity, invoke_of_layout hl, invokeAt_eq_run (hheap ▸ hf) (kinds_of_layoutFor hl),
      hregisters]
  · change { m₁.core with registers := m.context.registers.loaded (v :: vs) slots } = _
    rw [hcore]

theorem advance_of_callByFrames (program : Program κ) {n : Machine κ} {s : FrameStack κ} (hne : args ≠ [])
    (hf : m.heap.function? f = some (info, captured)) (harity : args.length = info.arity)
    (hcore : n.core = { m.core with stack := s, registers := m.context.registers.setResult f })
    (hframes : s.frames = args.map .apply ++ m.context.stack.frames)
    (hl : layoutFor (args.map Value.kind) = .ok slots) :
    ∃ p t, advance program .resuming n = follow (run program info.code captured) p ∧
      p.core = { m.core with
        stack := t, registers := (m.context.registers.setResult f).loaded args slots } ∧
      t.frames = m.context.stack.frames ∧ t.limit = s.limit := by
  obtain ⟨v, vs, rfl⟩ := List.exists_cons_of_ne_nil hne
  have hremark := hcore ▸ n.core_reportControl .resuming
  have hstack : (reportControl .resuming n).context.stack = s := congrArg Core.stack hremark
  have htop : (reportControl .resuming n).context.stack.frames =
      .apply v :: (vs.map .apply ++ m.context.stack.frames) := by
    rw [hstack, hframes]
    rfl
  obtain ⟨n₁, s₁, hpop, hcore₁, hf₁, hl₁⟩ := Machine.exists_pop? htop
  rw [hremark] at hcore₁
  have hheap : n₁.heap = m.heap := congrArg Core.heap hcore₁
  have hregisters : n₁.context.registers = m.context.registers.setResult f :=
    congrArg Core.registers hcore₁
  have hstack₁ : n₁.context.stack = s₁ := congrArg Core.stack hcore₁
  obtain ⟨p, t, hrun, hcore₂, hft, hlt⟩ := applyFrame_gathers program (m := n₁)
    (by rw [hregisters, Registers.result?_setResult]) (hheap ▸ hf) harity (hstack₁ ▸ hf₁) hl
  refine ⟨p, t, ?_, ?_, hft, by rw [hlt, hstack₁, hl₁, hstack]⟩
  · rw [advance_of_pop? program hpop]
    exact follow_congr hrun
  · rw [hcore₂, hcore₁, hregisters]

theorem sameCall_of_core {p q : Machine κ} {t : FrameStack κ}
    (hl : layoutFor (args.map Value.kind) = .ok slots)
    (hp : p.core = { m.core with registers := m.context.registers.loaded args slots })
    (hq : q.core = { m.core with
      stack := t, registers := (m.context.registers.setResult f).loaded args slots })
    (hframes : t.frames = m.context.stack.frames) (hlimit : t.limit = m.context.stack.limit) :
    SameCall args slots p q := by
  have hpr : p.context.registers = m.context.registers.loaded args slots :=
    congrArg Core.registers hp
  have hqr : q.context.registers = (m.context.registers.setResult f).loaded args slots :=
    congrArg Core.registers hq
  have hps : p.context.stack = m.context.stack := congrArg Core.stack hp
  have hqs : q.context.stack = t := congrArg Core.stack hq
  refine ⟨?_, by rw [hqs, hps, hframes], by rw [hqs, hps, hlimit], ?_, ?_, fun s hs => ?_⟩
  · rw [hq, hp, hqr, hqs]
  · rw [hpr]
    exact holds_loaded _ hl
  · rw [hqr]
    exact holds_loaded _ hl
  · rw [hpr, hqr]
    exact Registers.get?_loaded_congr (kinds_of_layoutFor hl)
      (hs.imp_right fun hne => (Registers.get?_setResult_of_ne f hne).symm)

theorem routes_agree (lists : List (List Kind)) (args : List Value) :
    (((SchemaTable.ofKinds lists).lookup args).isSome ↔
      args.map Value.kind ∈ lists ∧ 0 < args.length ∧ args.length ≤ maxSchemaLength) ∧
    (args ≠ [] → ∀ (program : Program κ) (f : Address), callExact program f args =
      match (SchemaTable.ofKinds SchemaTable.standardKinds).lookup args with
        | some s => callByLayout program f args s.slots
        | none => callByFrames f args) ∧
    ∀ s, (SchemaTable.ofKinds lists).lookup args = some s →
      s.kinds = args.map Value.kind ∧ layoutFor (args.map Value.kind) = .ok s.slots ∧
      ∀ (program : Program κ) (f : Address) (info : FunctionInfo κ) (captured : List Value)
        (m : Machine κ), m.heap.function? f = some (info, captured) → args.length = info.arity →
        m.context.stack.frames.length + args.length ≤ m.context.stack.limit →
        ∃ fast waiting slow,
          callByLayout program f args s.slots m = run program info.code captured fast ∧
          callByFrames f args m = .ok .resume waiting ∧
          advance program .resuming waiting = follow (run program info.code captured) slow ∧
          fast.core = { m.core with registers := m.context.registers.loaded args s.slots } ∧
          SameCall args s.slots fast slow := by
  refine ⟨?_, fun hne program f => callExact_eq program f hne, fun s hs => ?_⟩
  · rw [Option.isSome_iff_exists]
    constructor
    · rintro ⟨s, hs⟩
      obtain ⟨hm, hb, -, -⟩ := SchemaTable.lookup_eq_some_iff.1 hs
      exact ⟨hm, hb⟩
    · rintro ⟨hm, hp, hle⟩
      have hbank : (args.map Value.kind).length ≤ registersPerKind := by
        rw [List.length_map]
        exact Nat.le_trans hle (by decide)
      obtain ⟨slots, hl⟩ := exists_layoutFor hbank
      exact ⟨⟨_, slots⟩, SchemaTable.lookup_eq_some_iff.2 ⟨hm, ⟨hp, hle⟩, rfl, hl⟩⟩
  · obtain ⟨-, ⟨hp, -⟩, hk, hl⟩ := SchemaTable.lookup_eq_some_iff.1 hs
    refine ⟨hk, hl, fun program f info captured m hf harity hroom => ?_⟩
    have hne : args ≠ [] := List.ne_nil_of_length_pos hp
    obtain ⟨fast, hfast, hcore⟩ := callByLayout_eq program hf hl
    obtain ⟨waiting, t, hwait, hcoreWaiting, hframes, hlimit⟩ := callByFrames_eq f hroom
    obtain ⟨slow, t', hslow, hcoreSlow, hframes', hlimit'⟩ :=
      advance_of_callByFrames program hne hf harity hcoreWaiting hframes hl
    exact ⟨fast, waiting, slow, hfast, hwait, hslow, hcore,
      sameCall_of_core hl hcore hcoreSlow hframes' (hlimit'.trans hlimit)⟩

section Tables

def mixedKinds : List (List Kind) := [[], .replicate 7 .boxed, [.int, .char]]

def indexing : Machine Unit where
  shared := {
    heap := ⟨#[.function ⟨"index", 2, ()⟩ [.bool true]]⟩
    waiting := .empty
    lastThread := 1
    journal := .empty
    trace := .empty default }
  scheduler := .standalone
  context := { (Context.new 0 3 : Context Unit) with
    stack := .holding [.apply (.long 9)] 2 }

theorem routes_agree_indexing :
    (SchemaTable.ofKinds mixedKinds).lookup [.int 4, .char 'z'] =
      some ⟨[.int, .char], [⟨.int, 0⟩, ⟨.char, 0⟩]⟩ ∧
    ∀ program : Program Unit, ∃ fast waiting slow,
      callByLayout program ⟨0⟩ [.int 4, .char 'z'] [⟨.int, 0⟩, ⟨.char, 0⟩] indexing =
        run program () [.bool true] fast ∧
      callByFrames ⟨0⟩ [.int 4, .char 'z'] indexing = .ok .resume waiting ∧
      advance program .resuming waiting = follow (run program () [.bool true]) slow ∧
      fast.core = { indexing.core with registers :=
        indexing.context.registers.loaded [.int 4, .char 'z'] [⟨.int, 0⟩, ⟨.char, 0⟩] } ∧
      SameCall [.int 4, .char 'z'] [⟨.int, 0⟩, ⟨.char, 0⟩] fast slow := by
  have hs : (SchemaTable.ofKinds mixedKinds).lookup [.int 4, .char 'z'] =
      some ⟨[.int, .char], [⟨.int, 0⟩, ⟨.char, 0⟩]⟩ := by decide
  obtain ⟨-, -, hroutes⟩ := routes_agree (κ := Unit) mixedKinds [.int 4, .char 'z']
  exact ⟨hs, fun program => (hroutes _ hs).2.2 program ⟨0⟩ ⟨"index", 2, ()⟩ [.bool true] indexing
    rfl rfl (by decide)⟩

end Tables

end Evaluation

end GraphReduction
