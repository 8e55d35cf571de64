import GraphReduction.Proofs.Calling

/-!
Applying a function to arguments that arrive in parts: in the dispatcher's call, in an unsaturated
application, or in apply frames on the stack. How they are cut makes no difference to the next
thing that happens.
-/
namespace GraphReduction.Application

open Evaluation GraphReduction.Frame

variable {κ : Type}

inductive Event (κ : Type) where
  | call (info : FunctionInfo κ) (captured args : List Value) (frames : List (Frame κ))
  | refused (e : RuntimeError) (frames : List (Frame κ))
  | unsaturated (function : Address) (args : List Value) (frames : List (Frame κ))

def outcome (f : Address) (info : FunctionInfo κ) (captured args : List Value)
    (frames : List (Frame κ)) : Event κ :=
  if args.length < info.arity then .unsaturated f args frames
  else
    match layoutFor ((args.take info.arity).map Value.kind) with
    | .ok _ =>
      .call info captured (args.take info.arity) ((args.drop info.arity).map .apply ++ frames)
    | .error e => .refused e ((args.drop info.arity).map .apply ++ frames)

structure Kept (m m' : Machine κ) : Prop where
  old : ∀ b, b.index < m.heap.size → m'.heap.cell b = m.heap.cell b
  new : ∀ b, m.heap.size ≤ b.index → b.index < m'.heap.size →
    ∃ f args, m'.heap.cell b = .unsaturated f args
  size_le : m.heap.size ≤ m'.heap.size
  rest : ∃ h r s q, m'.core = { m.core with heap := h, registers := r, stack := s, scheduler := q }
  limit : m'.context.stack.limit = m.context.stack.limit

inductive Silent : Nat → Control → Machine κ → Nat → Control → Machine κ → Prop where
  | refl (n : Nat) (c : Control) (m : Machine κ) : Silent n c m n c m
  | step {n n' : Nat} {c c₁ c' : Control} {m m₁ m' : Machine κ} :
      (∀ program : Program κ, iterate program n c m = (.next c₁, m₁)) →
      Silent (n + 1) c₁ m₁ n' c' m' → Silent n c m n' c' m'

/-- The event takes place in the iteration at hand, or for an unsaturated application has just
taken place: it is the result for the frame on top. -/
def Happens (n : Nat) (c : Control) (m : Machine κ) : Event κ → Prop
  | .call info captured args frames => ∃ m', Kept m m' ∧ m'.context.registers.Holds args ∧
      m'.context.stack.frames = frames ∧
      ∀ program : Program κ, iterate program n c m = follow (run program info.code captured) m'
  | .refused e frames => ∃ m', Kept m m' ∧ m'.context.stack.frames = frames ∧
      ∀ program : Program κ, iterate program n c m = follow (Exec.raise e) m'
  | .unsaturated f args frames => c = .resuming ∧ m.context.stack.frames = frames ∧
      ∃ p, m.context.registers.result? = some p ∧ m.heap.cell p = .unsaturated f args

def Arrives (n : Nat) (c : Control) (m : Machine κ) (event : Event κ) : Prop :=
  ∃ n' c' m', Silent n c m n' c' m' ∧ Kept m m' ∧ Happens n' c' m' event

/-- For `k` iterations no interrupt is seen, and no poll that falls due is answered with yes. -/
def Undisturbed (k n : Nat) (m : Machine κ) : Prop :=
  m.context.interrupted = false ∧
    ∀ i < k, n + i ≠ 0 → (n + i) % pollInterval = 0 → m.scheduler.poll.1 = false

section Kept

variable {m m₁ m₂ : Machine κ}

theorem Kept.refl (m : Machine κ) : Kept m m where
  old _ _ := rfl
  new b hm hm' := by omega
  size_le := Nat.le_refl _
  rest := ⟨_, _, _, _, rfl⟩
  limit := rfl

theorem Kept.trans (h₁ : Kept m m₁) (h₂ : Kept m₁ m₂) : Kept m m₂ where
  old b hb := (h₂.old b (Nat.lt_of_lt_of_le hb h₁.size_le)).trans (h₁.old b hb)
  new b hb hb₂ := by
    by_cases hb₁ : b.index < m₁.heap.size
    · obtain ⟨f, args, hc⟩ := h₁.new b hb hb₁
      exact ⟨f, args, (h₂.old b hb₁).trans hc⟩
    · exact h₂.new b (Nat.le_of_not_lt hb₁) hb₂
  size_le := Nat.le_trans h₁.size_le h₂.size_le
  rest := by
    obtain ⟨_, _, _, _, hr₁⟩ := h₁.rest
    obtain ⟨h, r, s, q, hr₂⟩ := h₂.rest
    exact ⟨h, r, s, q, by rw [hr₂, hr₁]⟩
  limit := h₂.limit.trans h₁.limit

theorem Kept.of_core {r : Registers} {s : FrameStack κ} {q : Scheduler κ}
    (hc : m₁.core = { m.core with registers := r, stack := s, scheduler := q })
    (hl : s.limit = m.context.stack.limit) : Kept m m₁ := by
  have hh : m₁.heap = m.heap := congrArg Core.heap hc
  have hs : m₁.context.stack = s := congrArg Core.stack hc
  constructor
  case old => exact fun b _ => by rw [hh]
  case new => exact fun b hm hm' => by rw [hh] at hm'; omega
  case size_le => exact Nat.le_of_eq (by rw [hh])
  case rest => exact ⟨_, r, s, q, hc⟩
  case limit => rw [hs, hl]

theorem Kept.of_allocate {f : Address} {args : List Value} {r : Registers}
    (hc : m₁.core =
      { m.core with heap := (m.heap.allocate (.unsaturated f args)).2, registers := r }) :
    Kept m m₁ := by
  have hh : m₁.heap = (m.heap.allocate (.unsaturated f args)).2 := congrArg Core.heap hc
  have hs : m₁.context.stack = m.context.stack := congrArg Core.stack hc
  constructor
  case old => exact fun b hb => by rw [hh, Heap.cell_allocate_of_lt hb]
  case new =>
    intro b hb hb'
    rw [hh, Heap.size_allocate] at hb'
    refine ⟨f, args, ?_⟩
    rw [hh, Heap.cell_allocate, if_pos (by omega)]
  case size_le =>
    rw [hh, Heap.size_allocate]
    omega
  case rest => exact ⟨_, r, _, _, hc⟩
  case limit => rw [hs]

end Kept

section Iterating

variable {k n : Nat} {m : Machine κ}

theorem Undisturbed.iterate (hu : Undisturbed (k + 1) n m) (hk : k < pollInterval) :
    ∃ q, Undisturbed k (n + 1) { m with scheduler := q } ∧
      ∀ (program : Program κ) c,
        Evaluation.iterate program n c m = advance program c { m with scheduler := q } := by
  obtain ⟨hi, hp⟩ := hu
  have hni : ¬ m.context.interrupted = true := by simp [hi]
  by_cases hd : n = 0 ∨ n % pollInterval ≠ 0
  · refine ⟨m.scheduler, ⟨hi, fun i hik hne hmod => ?_⟩, fun program c => ?_⟩
    · apply hp (i + 1) (by omega)
      · omega
      · rw [← hmod]
        congr 1
        omega
    · rw [Evaluation.iterate, if_neg hni, if_pos hd]
  · rw [not_or, Decidable.not_not] at hd
    have hpoll : m.scheduler.poll.1 = false := hp 0 (by omega) (by omega) (by simpa using hd.2)
    refine ⟨m.scheduler.poll.2, ⟨hi, fun i hik _ hmod => ?_⟩, fun program c => ?_⟩
    · have hd2 := hd.2
      unfold pollInterval at hd2 hk hmod
      omega
    · have hn : ¬ (n = 0 ∨ n % pollInterval ≠ 0) := by
        rw [not_or, Decidable.not_not]
        exact hd
      rw [Evaluation.iterate, if_neg hni, if_neg hn, ← Prod.eta m.scheduler.poll, hpoll]
      rfl

theorem advance_applying (program : Program κ) (c : Address) (args : List Value) (m : Machine κ) :
    advance program (.applying c args) m =
      follow (apply program c args) (reportControl (.applying c args) m) := rfl

theorem advance_resuming {frame : Frame κ} {rest : List (Frame κ)}
    (h : m.context.stack.frames = frame :: rest) :
    ∃ m' s, m'.core = { m.core with stack := s } ∧ s.frames = rest ∧
      s.limit = m.context.stack.limit ∧
      ∀ program : Program κ,
        advance program .resuming m = follow (resumeFrame program frame) m' := by
  have hs : (reportControl .resuming m).context.stack = m.context.stack :=
    congrArg Core.stack (m.core_reportControl .resuming)
  obtain ⟨m', s, hp, hc, hf, hl⟩ := Machine.exists_pop? (by rwa [hs])
  refine ⟨m', s, by rw [hc, m.core_reportControl], hf, by rw [hl, hs], fun program => ?_⟩
  exact advance_of_pop? program hp

end Iterating

section Arriving

variable {n : Nat} {c : Control} {m m' : Machine κ} {f : Address} {info : FunctionInfo κ}
  {captured args : List Value} {frames : List (Frame κ)}

theorem Kept.function? (hk : Kept m m') (hf : m.heap.function? f = some (info, captured)) :
    m'.heap.function? f = some (info, captured) := by
  have hs := Heap.lt_size_of_callee? (Heap.callee?_of_function? hf)
  rw [Heap.function?_eq_some_iff] at hf ⊢
  rw [hk.old f hs, hf]

theorem arrives_of_call {slots : List Slot} (hk : Kept m m')
    (hf : m.heap.function? f = some (info, captured))
    (hl : layoutFor (args.map Value.kind) = .ok slots) (hs : m'.context.stack.frames = frames)
    (hi : ∀ program : Program κ,
      iterate program n c m = follow (invokeAt program f args slots) m') :
    Arrives n c m (.call info captured args frames) := by
  have hload : Kept m' (m'.setRegisters (m'.context.registers.loaded args slots)) :=
    Kept.of_core rfl rfl
  refine ⟨n, c, m, .refl n c m, Kept.refl m, _, hk.trans hload, holds_loaded _ hl, hs, ?_⟩
  intro program
  rw [hi program]
  exact follow_congr (invokeAt_eq_run (hk.function? hf) (kinds_of_layoutFor hl))

theorem built_of_core {m₁ m₂ : Machine κ}
    (hc : m₂.core = { m₁.core with
      heap := (m₁.heap.allocate (.unsaturated f args)).2
      registers := m₁.context.registers.setResult ⟨m₁.heap.size⟩ }) :
    Kept m₁ m₂ ∧ m₂.context.stack = m₁.context.stack ∧
      m₂.context.registers.result? = some ⟨m₁.heap.size⟩ ∧
      m₂.heap.cell ⟨m₁.heap.size⟩ = .unsaturated f args := by
  have hh : m₂.heap = (m₁.heap.allocate (.unsaturated f args)).2 := congrArg Core.heap hc
  have hr : m₂.context.registers = m₁.context.registers.setResult ⟨m₁.heap.size⟩ :=
    congrArg Core.registers hc
  refine ⟨Kept.of_allocate hc, congrArg Core.stack hc, ?_, ?_⟩
  · rw [hr, Registers.result?_setResult]
  · rw [hh, Heap.cell_allocate, if_pos rfl]

theorem Arrives.of_silent {c' : Control} {event : Event κ} (hk : Kept m m')
    (hi : ∀ program : Program κ, iterate program n c m = (.next c', m'))
    (h : Arrives (n + 1) c' m' event) : Arrives n c m event := by
  obtain ⟨n₂, c₂, m₂, hs, hk₂, he⟩ := h
  exact ⟨n₂, c₂, m₂, .step hi hs, hk.trans hk₂, he⟩

end Arriving

theorem take_append_cons {α : Type} {xs : List α} {n : Nat} (y : α) (ys : List α)
    (h : xs.length < n) :
    (xs ++ y :: ys).take n = xs ++ y :: ys.take (n - (xs.length + 1)) := by
  have hn : n - xs.length = n - (xs.length + 1) + 1 := by omega
  rw [List.take_append, List.take_of_length_le (Nat.le_of_lt h), hn, List.take_succ_cons]

theorem drop_append_cons {α : Type} {xs : List α} {n : Nat} (y : α) (ys : List α)
    (h : xs.length < n) :
    (xs ++ y :: ys).drop n = ys.drop (n - (xs.length + 1)) := by
  have hn : n - xs.length = n - (xs.length + 1) + 1 := by omega
  rw [List.drop_append, List.drop_of_length_le (Nat.le_of_lt h), hn, List.drop_succ_cons,
    List.nil_append]

section Resuming

variable {n : Nat} {m : Machine κ} {p f : Address} {bound captured : List Value}
  {info : FunctionInfo κ}

theorem iterate_resuming_apply {v : Value} {rest : List (Frame κ)} (hu : Undisturbed 1 n m)
    (hs : m.context.stack.frames = .apply v :: rest) :
    ∃ m₁, Kept m m₁ ∧ m₁.heap = m.heap ∧ m₁.context.registers = m.context.registers ∧
      m₁.context.stack.frames = rest ∧
      ∀ program : Program κ, iterate program n .resuming m = follow (applyFrame program v) m₁ := by
  obtain ⟨q, -, hit⟩ := hu.iterate (by decide)
  obtain ⟨m₁, s₁, hc₁, hf₁, hl₁, hadv⟩ := advance_resuming (m := { m with scheduler := q }) hs
  have hs₁ : m₁.context.stack = s₁ := congrArg Core.stack hc₁
  refine ⟨m₁, Kept.of_core (by rw [hc₁]; rfl) hl₁, congrArg Core.heap hc₁,
    congrArg Core.registers hc₁, by rw [hs₁, hf₁], fun program => ?_⟩
  exact (hit program _).trans (hadv program)

theorem arrives_of_constant {v : Value} {rest : List (Frame κ)} (hu : Undisturbed 1 n m)
    (hr : m.context.registers.result? = some p)
    (hp : m.heap.callee? (m.heap.resolve p) = some (f, []))
    (hf : m.heap.function? f = some (info, captured)) (ha : info.arity = 0)
    (hs : m.context.stack.frames = .apply v :: rest) :
    Arrives n .resuming m (.call info captured [] m.context.stack.frames) := by
  obtain ⟨m₁, hk₁, hh₁, hr₁, hf₁, hiter⟩ := iterate_resuming_apply hu hs
  have hroom := m.context.stack.depth_le_limit
  rw [m.context.stack.depth_eq, hs, List.length_cons] at hroom
  -- The frame that was just popped has room again.
  obtain ⟨m₂, s₂, hpush, hc₂, hf₂, hl₂⟩ := Machine.exists_push (m := m₁) (.apply v) (by
    rw [hf₁, hk₁.limit]
    omega)
  have hk : Kept m m₂ := hk₁.trans (Kept.of_core (by rw [hc₂]) hl₂)
  have hlay : layoutFor (([] : List Value).map Value.kind) = .ok [] := rfl
  refine arrives_of_call hk hf hlay ?_ fun program => ?_
  · rw [show m₂.context.stack = s₂ from congrArg Core.stack hc₂, hf₂, hf₁, hs]
  · rw [hiter]
    apply follow_congr
    rw [← hh₁] at hp hf
    rw [applyFrame_eq (by rw [hr₁, hr]) hp hf, if_pos ha,
      Exec.bind_of_ok (Exec.push_of_ok hpush)]

theorem arrives_of_missing {v : Value} {rest : List (Frame κ)} (hu : Undisturbed 1 n m)
    (hr : m.context.registers.result? = some p)
    (hp : m.heap.callee? (m.heap.resolve p) = some (f, bound))
    (hf : m.heap.function? f = some (info, captured))
    (hl : (bound ++ v :: arguments rest).length < info.arity)
    (hs : m.context.stack.frames = .apply v :: rest) :
    Arrives n .resuming m
      (.unsaturated f (bound ++ v :: arguments rest) (underArguments rest)) := by
  obtain ⟨m₁, hk₁, hh₁, hr₁, hf₁, hiter⟩ := iterate_resuming_apply hu hs
  rw [← hh₁] at hp hf
  rw [← hr₁] at hr
  obtain ⟨m₂, s₂, happly, hc₂, hf₂, hl₂⟩ := applyFrame_of_lt hr hp hf (v := v) (by rwa [hf₁])
  rw [hf₁] at hc₂ hf₂
  let m₃ := m₁.setStack s₂
  have hc₃ : m₂.core = { m₃.core with
      heap := (m₃.heap.allocate (.unsaturated f (bound ++ v :: arguments rest))).2
      registers := m₃.context.registers.setResult ⟨m₃.heap.size⟩ } := hc₂
  obtain ⟨hk₂, hs₃, hr₂, hcell⟩ := built_of_core hc₃
  have hk₃ : Kept m m₃ := hk₁.trans (Kept.of_core (by rw [Machine.core_setStack]) hl₂)
  refine Arrives.of_silent (hk₃.trans hk₂) (fun program => ?_)
    ⟨n + 1, .resuming, _, .refl _ _ _, Kept.refl _, rfl, by rw [hs₃]; exact hf₂, _, hr₂, hcell⟩
  rw [hiter]
  exact follow_of_resume (happly program)

theorem arrives_of_gathering {v : Value} {rest : List (Frame κ)} (hu : Undisturbed 1 n m)
    (hr : m.context.registers.result? = some p)
    (hp : m.heap.callee? (m.heap.resolve p) = some (f, bound))
    (hf : m.heap.function? f = some (info, captured)) (hb : bound.length < info.arity)
    (hs : m.context.stack.frames = .apply v :: rest) :
    Arrives n .resuming m
      (outcome f info captured (bound ++ v :: arguments rest) (underArguments rest)) := by
  by_cases hl : (bound ++ v :: arguments rest).length < info.arity
  · rw [outcome, if_pos hl]
    exact arrives_of_missing hu hr hp hf hl hs
  have htake := take_append_cons v (arguments rest) hb
  have hdrop := drop_append_cons v (arguments rest) hb
  obtain ⟨m₁, hk₁, hh₁, hr₁, hf₁, hiter⟩ := iterate_resuming_apply hu hs
  let k := info.arity - (bound.length + 1)
  obtain ⟨m₂, s₂, hpop, hc₂, hf₂, hl₂⟩ := popArguments_ok k m₁
  rw [hf₁] at hpop hf₂
  have hs₂ : m₂.context.stack = s₂ := congrArg Core.stack hc₂
  have hk : Kept m m₂ := hk₁.trans (Kept.of_core (by rw [hc₂]) hl₂)
  have hlen : (bound ++ v :: (arguments rest).take k).length = info.arity := by
    simp only [List.length_append, List.length_cons, List.length_take] at hl ⊢
    omega
  have happly : ∀ program : Program κ, applyFrame program v m₁ =
      invoke program f (bound ++ v :: (arguments rest).take k) m₂ := by
    intro program
    rw [applyFrame_eq (by rw [hr₁, hr]) (hh₁ ▸ hp) (hh₁ ▸ hf), if_neg (by omega),
      Exec.bind_of_ok hpop, if_pos hlen]
  rw [outcome, if_neg hl, htake, hdrop]
  cases hlay : layoutFor ((bound ++ v :: (arguments rest).take k).map Value.kind) with
  | ok slots =>
    refine arrives_of_call hk hf hlay (by rw [hs₂, hf₂]) fun program => ?_
    rw [hiter]
    apply follow_congr
    rw [happly, invoke_of_layout hlay]
  | error e =>
    refine ⟨n, .resuming, m, .refl _ _ _, Kept.refl m, m₂, hk, by rw [hs₂, hf₂],
      fun program => ?_⟩
    rw [hiter]
    apply follow_congr
    rw [happly, invoke_of_error hlay]

theorem arrives_of_waiting (hu : Undisturbed 1 n m)
    (hr : m.context.registers.result? = some p)
    (hp : m.heap.callee? (m.heap.resolve p) = some (f, bound))
    (hf : m.heap.function? f = some (info, captured))
    (hb : bound = [] ∨ bound.length < info.arity)
    (hne : arguments m.context.stack.frames ≠ []) :
    Arrives n .resuming m (outcome f info captured (bound ++ arguments m.context.stack.frames)
      (underArguments m.context.stack.frames)) := by
  have hparts := map_arguments_append m.context.stack.frames
  obtain ⟨v, vs, ha⟩ := List.exists_cons_of_ne_nil hne
  obtain ⟨rest, hs, hvs, hu'⟩ := eq_cons_of_arguments ha
  rw [ha, ← hvs, hu']
  by_cases hl : bound.length < info.arity
  · exact arrives_of_gathering hu hr hp hf hl hs
  · obtain rfl := hb.resolve_right hl
    have ha0 : info.arity = 0 := by
      rw [List.length_nil] at hl
      omega
    have hev : outcome f info captured ([] ++ v :: arguments rest) (underArguments rest) =
        .call info captured [] m.context.stack.frames := by
      rw [outcome, if_neg (by omega), ha0, ← hparts, ha, hvs, hu']
      rfl
    rw [hev]
    exact arrives_of_constant hu hr hp hf ha0 hs

theorem arrives_of_resuming (hu : Undisturbed 1 n m)
    (hr : m.context.registers.result? = some p) (hp : m.heap.callee? p = some (f, bound))
    (hf : m.heap.function? f = some (info, captured))
    (hb : bound = [] ∨ bound.length < info.arity)
    (hne : bound ++ arguments m.context.stack.frames ≠ []) :
    Arrives n .resuming m (outcome f info captured (bound ++ arguments m.context.stack.frames)
      (underArguments m.context.stack.frames)) := by
  cases ha : arguments m.context.stack.frames with
  | nil =>
    have hparts := map_arguments_append m.context.stack.frames
    rw [ha, List.append_nil] at hne
    have hl := hb.resolve_left hne
    have hcell := (Heap.callee?_eq_some_iff.1 hp).resolve_left
      fun ⟨_, _, _, _, hnil⟩ => hne hnil
    rw [List.append_nil, outcome, if_pos hl]
    rw [ha] at hparts
    exact ⟨n, .resuming, m, .refl _ _ _, Kept.refl m, rfl, hparts.symm, p, hr, hcell⟩
  | cons v vs =>
    rw [← ha]
    refine arrives_of_waiting hu hr ?_ hf hb (by rw [ha]; exact List.cons_ne_nil v vs)
    rw [Heap.resolve_of_callee? hp]
    exact hp

end Resuming

section Applying

variable {n : Nat} {c : Control} {m m₁ : Machine κ} {f : Address} {captured args : List Value}
  {info : FunctionInfo κ}

theorem Undisturbed.of_core {k : Nat} (hu : Undisturbed k n m) (hs : m₁.scheduler = m.scheduler)
    (hi : m₁.context.interrupted = m.context.interrupted) : Undisturbed k n m₁ := by
  rw [Undisturbed, hs, hi]
  exact hu

theorem arrives_of_callExact (hk : Kept m m₁) (hu : Undisturbed 1 (n + 1) m₁)
    (hf : m.heap.function? f = some (info, captured)) (ha : args.length = info.arity)
    (hroom : m₁.context.stack.frames.length + args.length ≤ m₁.context.stack.limit)
    (hit : ∀ program : Program κ, iterate program n c m = follow (callExact program f args) m₁) :
    Arrives n c m (outcome f info captured (args ++ arguments m₁.context.stack.frames)
      (underArguments m₁.context.stack.frames)) := by
  have hparts := map_arguments_append m₁.context.stack.frames
  have hlen : ¬ (args ++ arguments m₁.context.stack.frames).length < info.arity := by
    rw [List.length_append]
    omega
  have hevent {slots : List Slot} (hl : layoutFor (args.map Value.kind) = .ok slots) :
      outcome f info captured (args ++ arguments m₁.context.stack.frames)
        (underArguments m₁.context.stack.frames) =
      .call info captured args m₁.context.stack.frames := by
    rw [outcome, if_neg hlen, ← ha, List.take_left, List.drop_left, hl, hparts]
  by_cases hne : args = []
  · subst hne
    rw [hevent (rfl : layoutFor [] = .ok [])]
    exact arrives_of_call hk hf (rfl : layoutFor [] = .ok []) rfl hit
  · rcases callExact_cases (f := f) hne hroom with
      ⟨m₂, slots, hc₂, hl, hcall⟩ | ⟨m₂, s, hc₂, hs, hlim, hcall⟩
    · rw [hevent hl]
      have hk₂ : Kept m₁ m₂ := Kept.of_core hc₂ rfl
      refine arrives_of_call (hk.trans hk₂) hf hl ?_ fun program => ?_
      · rw [show m₂.context.stack = m₁.context.stack from congrArg Core.stack hc₂]
      · rw [hit]
        exact follow_congr (hcall program)
    · have hk₂ : Kept m₁ m₂ := Kept.of_core hc₂ hlim
      have hs₂ : m₂.context.stack = s := congrArg Core.stack hc₂
      have hr₂ : m₂.context.registers = m₁.context.registers.setResult f :=
        congrArg Core.registers hc₂
      have hf₂ := (hk.trans hk₂).function? hf
      have hu₂ : Undisturbed 1 (n + 1) m₂ :=
        hu.of_core (congrArg Core.scheduler hc₂) (congrArg Core.interrupted hc₂)
      refine Arrives.of_silent (hk.trans hk₂) (fun program => ?_)
        (?_ : Arrives (n + 1) .resuming m₂ _)
      · rw [hit]
        exact follow_of_resume (hcall program)
      · have harr := arrives_of_resuming hu₂ (by rw [hr₂, Registers.result?_setResult])
          (Heap.callee?_of_function? hf₂) hf₂ (.inl rfl)
          (by rw [hs₂, hs, arguments_map_append]; simp [hne])
        rwa [hs₂, hs, arguments_map_append, underArguments_map_append, List.nil_append] at harr

theorem arrives_of_overApplication (hk : Kept m m₁) (hu : Undisturbed 1 (n + 1) m₁)
    (hf : m.heap.function? f = some (info, captured)) (hl : info.arity < args.length)
    (hroom : m₁.context.stack.frames.length + args.length ≤ m₁.context.stack.limit)
    (hit : ∀ program : Program κ,
      iterate program n c m = follow (applyFunction program f args) m₁) :
    Arrives n c m (outcome f info captured (args ++ arguments m₁.context.stack.frames)
      (underArguments m₁.context.stack.frames)) := by
  have hf₁ := hk.function? hf
  let counted := m₁.count fun c => { c with overApplications := c.overApplications + 1 }
  let m₂ := counted.report .apply fun m => ⟨.trace, "over-application",
    [("function", closureText m f), ("extra", toString (args.length - info.arity))]⟩
  have hc₂ : m₂.core = m₁.core := Machine.core_report _ _ _
  have hs₂ : m₂.context.stack = m₁.context.stack := congrArg Core.stack hc₂
  have hdrop := List.length_drop (i := info.arity) (l := args)
  have htake : (args.take info.arity).length = info.arity := by
    rw [List.length_take]
    omega
  obtain ⟨m₃, s, hpush, hc₃, hs, hlim⟩ := Exec.pushArguments_ok (args.drop info.arity) m₂ (by
    rw [hs₂]
    omega)
  have hs₃ : m₃.context.stack = s := congrArg Core.stack hc₃
  have hcore : m₃.core = { m₁.core with stack := s } := by rw [hc₃, hc₂]
  have hk₃ : Kept m₁ m₃ := Kept.of_core hcore (by rw [hlim, hs₂])
  have harr := arrives_of_callExact (hk.trans hk₃)
    (hu.of_core (congrArg Core.scheduler hcore) (congrArg Core.interrupted hcore)) hf htake
    (by
      rw [hs₃, hs, hlim, hs₂, List.length_append, List.length_map]
      omega)
    (fun program => by
      rw [hit]
      apply follow_congr
      rw [applyFunction_eq hf₁, if_neg (by omega), if_neg (by omega)]
      change (Exec.pushArguments (args.drop info.arity) >>= fun _ => _) m₂ = _
      rw [Exec.bind_of_ok hpush])
  rwa [hs₃, hs, hs₂, arguments_map_append, underArguments_map_append, ← List.append_assoc,
    List.take_append_drop] at harr

theorem arrives_of_applyFunction (hk : Kept m m₁) (hu : Undisturbed 1 (n + 1) m₁)
    (hf : m.heap.function? f = some (info, captured)) (hne : args ≠ [])
    (hroom : m₁.context.stack.frames.length + args.length ≤ m₁.context.stack.limit)
    (hit : ∀ program : Program κ,
      iterate program n c m = follow (applyFunction program f args) m₁) :
    Arrives n c m (outcome f info captured (args ++ arguments m₁.context.stack.frames)
      (underArguments m₁.context.stack.frames)) := by
  have hf₁ := hk.function? hf
  rcases Nat.lt_trichotomy args.length info.arity with hl | hl | hl
  · obtain ⟨m₂, happly, hc₂⟩ := applyFunction_of_lt hf₁ hne hl
    obtain ⟨hk₂, hs₂, hr₂, hcell⟩ := built_of_core hc₂
    refine Arrives.of_silent (hk.trans hk₂) (fun program => ?_) (?_ : Arrives (n + 1) .resuming m₂ _)
    · rw [hit]
      exact follow_of_resume (happly program)
    · rw [← hs₂]
      exact arrives_of_resuming
        (hu.of_core (congrArg Core.scheduler hc₂) (congrArg Core.interrupted hc₂))
        hr₂ (Heap.callee?_eq_some_iff.2 (.inr hcell))
        (hk₂.function? hf₁) (.inr hl) (List.append_ne_nil_of_left_ne_nil hne _)
  · refine arrives_of_callExact hk hu hf hl hroom fun program => ?_
    rw [hit]
    apply follow_congr
    rw [applyFunction_eq hf₁, if_pos hl]
  · exact arrives_of_overApplication hk hu hf hl hroom hit

theorem arrives_of_applying {callee : Address} {bound xs : List Value} (hu : Undisturbed 2 n m)
    (hc : m.heap.callee? (m.heap.resolve callee) = some (f, bound))
    (hf : m.heap.function? f = some (info, captured))
    (hb : bound = [] ∨ bound.length < info.arity)
    (hroom : m.context.stack.frames.length + (bound ++ xs).length ≤ m.context.stack.limit)
    (hne : bound ++ xs ++ arguments m.context.stack.frames ≠ []) :
    Arrives n (.applying callee xs) m
      (outcome f info captured (bound ++ xs ++ arguments m.context.stack.frames)
        (underArguments m.context.stack.frames)) := by
  obtain ⟨q, hu', hit⟩ := hu.iterate (by decide)
  let m₁ := reportControl (.applying callee xs) { m with scheduler := q }
  have hc₁ : m₁.core = { m.core with scheduler := q } := Machine.core_reportControl _ _
  have hh₁ : m₁.heap = m.heap := congrArg Core.heap hc₁
  have hs₁ : m₁.context.stack = m.context.stack := congrArg Core.stack hc₁
  have hk₁ : Kept m m₁ := Kept.of_core hc₁ rfl
  have hu₁ : Undisturbed 1 (n + 1) m₁ :=
    hu'.of_core (congrArg Core.scheduler hc₁) (congrArg Core.interrupted hc₁)
  rw [← hh₁] at hc
  by_cases hx : xs = []
  · subst hx
    let p := m₁.heap.resolve callee
    have hk₂ : Kept m₁ (m₁.setResult p) := Kept.of_core (m₁.core_setResult p) rfl
    refine Arrives.of_silent (hk₁.trans hk₂) (fun program => ?_)
      (?_ : Arrives (n + 1) .resuming (m₁.setResult p) _)
    · rw [hit, advance_applying]
      exact follow_of_resume (apply_nil hc)
    · rw [List.append_nil] at hne ⊢
      have hu₂ : Undisturbed 1 (n + 1) (m₁.setResult p) := hu₁.of_core rfl rfl
      have harr := arrives_of_resuming hu₂
        (Registers.result?_setResult _ _) hc ((hk₁.trans hk₂).function? hf) hb (by
          change bound ++ arguments m₁.context.stack.frames ≠ []
          rwa [hs₁])
      change Arrives _ _ _ (outcome _ _ _ (bound ++ arguments m₁.context.stack.frames)
        (underArguments m₁.context.stack.frames)) at harr
      rwa [hs₁] at harr
  · rw [← hs₁] at hroom ⊢
    refine arrives_of_applyFunction hk₁ hu₁ hf (List.append_ne_nil_of_right_ne_nil _ hx) hroom
      fun program => ?_
    rw [hit, advance_applying]
    exact follow_congr (apply_of_callee? hx hc)

end Applying

section Splitting

variable {n₁ n₂ : Nat} {m : Machine κ} {c f : Address} {bound xs ys : List Value}

/-- Arguments of an application may as well wait in apply frames on the stack. -/
theorem splitting_arrives (hh : m.heap.Flat)
    (hc : m.heap.callee? (m.heap.resolve c) = some (f, bound))
    (hu₁ : Undisturbed 2 n₁ m) (hu₂ : Undisturbed 2 n₂ m)
    (hroom : m.context.stack.frames.length + (bound ++ xs ++ ys).length ≤ m.context.stack.limit)
    (hne : bound ++ xs ++ ys ++ arguments m.context.stack.frames ≠ []) :
    ∃ info captured m₂, m.heap.function? f = some (info, captured) ∧
      Exec.pushArguments ys m = .ok () m₂ ∧
      m₂.context.stack.frames = ys.map .apply ++ m.context.stack.frames ∧
      let event := outcome f info captured (bound ++ xs ++ ys ++ arguments m.context.stack.frames)
        (underArguments m.context.stack.frames)
      Arrives n₁ (.applying c (xs ++ ys)) m event ∧ Arrives n₂ (.applying c xs) m₂ event := by
  obtain ⟨info, captured, hf, hb⟩ := Heap.function?_of_callee? hh hc
  have hlen : (bound ++ xs ++ ys).length = (bound ++ xs).length + ys.length := List.length_append
  obtain ⟨m₂, s, hpush, hcore, hs, hl⟩ := Exec.pushArguments_ok ys m (by omega)
  have hh₂ : m₂.heap = m.heap := congrArg Core.heap hcore
  have hs₂ : m₂.context.stack = s := congrArg Core.stack hcore
  have hargs : arguments s.frames = ys ++ arguments m.context.stack.frames := by
    rw [hs, arguments_map_append]
  have hunder : underArguments s.frames = underArguments m.context.stack.frames := by
    rw [hs, underArguments_map_append]
  refine ⟨info, captured, m₂, hf, hpush, by rw [hs₂, hs], ?_, ?_⟩
  · rw [List.append_assoc bound xs ys] at hroom hne ⊢
    exact arrives_of_applying hu₁ hc hf hb hroom hne
  · have hu : Undisturbed 2 n₂ m₂ :=
      hu₂.of_core (congrArg Core.scheduler hcore) (congrArg Core.interrupted hcore)
    rw [← hh₂] at hc hf
    rw [List.append_assoc (bound ++ xs) ys, ← hargs] at hne ⊢
    rw [← hunder]
    have hroom₂ : m₂.context.stack.frames.length + (bound ++ xs).length ≤
        m₂.context.stack.limit := by
      rw [hs₂, hs, hl, List.length_append, List.length_map]
      omega
    have harr := arrives_of_applying hu hc hf hb hroom₂ (by rwa [hs₂])
    rwa [hs₂] at harr

def halfway : Machine Unit where
  shared := {
    heap := ⟨#[.function ⟨"pair", 2, ()⟩ [], .unsaturated ⟨0⟩ [.bool true]]⟩
    waiting := .empty
    lastThread := 1
    journal := .empty
    trace := .empty default }
  scheduler := .manual ⟨.answers [true], 0, [], []⟩
  context := { (Context.new 0 8 : Context Unit) with
    thread := ⟨1⟩
    stack := .holding [.apply (.char 'z'), .handler ⟨0⟩] 6 }

theorem splitting_arrives_halfway :
    ∃ info captured m₂, halfway.heap.function? ⟨0⟩ = some (info, captured) ∧
      Exec.pushArguments [.long 4, .long 5] halfway = .ok () m₂ ∧
      m₂.context.stack.frames =
        [.long 4, .long 5].map .apply ++ [.apply (.char 'z'), .handler ⟨0⟩] ∧
      let event := outcome ⟨0⟩ info captured
        [.bool true, .int 3, .long 4, .long 5, .char 'z'] [.handler ⟨0⟩]
      Arrives 0 (.applying ⟨1⟩ [.int 3, .long 4, .long 5]) halfway event ∧
        Arrives 7 (.applying ⟨1⟩ [.int 3]) m₂ event := by
  have hflat : halfway.heap.Flat := by
    intro a f args ha
    obtain ⟨i⟩ := a
    have hs : i < halfway.heap.size := Heap.lt_size_of_cell_ne_default fun hd => by
      rw [hd] at ha
      cases ha
    match i, hs with
    | 0, _ => cases ha
    | 1, _ =>
      cases ha
      exact ⟨_, _, rfl, by decide, by decide⟩
  have hu₁ : Undisturbed 2 0 halfway := by
    refine ⟨rfl, fun i hi hn hm => ?_⟩
    unfold pollInterval at hm
    omega
  have hu₂ : Undisturbed 2 7 halfway := by
    refine ⟨rfl, fun i hi hn hm => ?_⟩
    unfold pollInterval at hm
    omega
  have hcallee : halfway.heap.callee? (halfway.heap.resolve ⟨1⟩) = some (⟨0⟩, [.bool true]) := rfl
  have hroom : halfway.context.stack.frames.length +
      ([.bool true] ++ [.int 3] ++ [.long 4, .long 5] : List Value).length ≤
        halfway.context.stack.limit := by decide
  have hne : ([.bool true] ++ [.int 3] ++ [.long 4, .long 5] : List Value) ++
      arguments halfway.context.stack.frames ≠ [] := by decide
  exact splitting_arrives hflat hcallee hu₁ hu₂ hroom hne

end Splitting

end GraphReduction.Application
