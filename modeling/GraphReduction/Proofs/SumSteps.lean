import GraphReduction.Proofs.SumStages

namespace GraphReduction.SharedSum

open Evaluation

variable {n : Int64} {roots k : Nat} {h h' : Heap Code} {t : ThreadId} {c c' : Control}
  {m m' : Machine Code} {q q' : RunQueue Code} {pending pending' : Pending}

section Remaining

def ready (h : Heap Code) : Bool := (h.target? shared).isSome

/-- More iterations than a thread has before it, apart from those for which nobody has entered the
shared thunk yet. -/
def rank (e : Bool) : Pending → List (Frame Code) → Nat
  | .enter a, _ => if a = shared then (if e then 5 else 6) else 14
  | .apply _ args, _ => 2 * (longOf args[2]?).toNatClampNeg + 6
  | .resume _, .apply _ :: .apply _ :: .apply v :: _ => 2 * (longOf v).toNatClampNeg + 5
  | .resume _, .update a :: _ => if a = shared then 4 else 2
  | .resume _, .case _ _ :: _ => 3
  | .resume _, _ => 1

def reserve (n : Int64) (h : Heap Code) : Nat :=
  if h.isFresh shared then 2 * n.toNatClampNeg + 2 else 0

theorem Change.fresh {entered updated : List Address} {released : List (Thread Code)}
    (hc : Change n t h h' entered updated released) (hf : h'.isFresh shared = true) :
    h.isFresh shared = true := by
  rw [Heap.isFresh_iff] at hf ⊢
  obtain ⟨body, hb⟩ := hf
  cases hc with
  | same => exact ⟨body, hb⟩
  | grown x => exact ⟨body, cell_grown_eq_thunk.1 hb⟩
  | @entered a hc _ =>
    by_cases ha : a = shared
    · exact ⟨_, ha ▸ hc⟩
    · exact ⟨body, by rwa [Heap.cell_write_of_ne ha] at hb⟩
  | @updated a v blocked hc _ _ =>
    by_cases ha : a = shared
    · subst ha
      rw [Heap.cell_write_thunk hc] at hb
      cases hb
    · exact ⟨body, by rwa [Heap.cell_write_of_ne ha] at hb⟩

theorem Change.reserve_le {entered updated : List Address} {released : List (Thread Code)}
    (hc : Change n t h h' entered updated released) : reserve n h' ≤ reserve n h := by
  unfold reserve
  split
  · next hf => rw [if_pos (hc.fresh hf)]
  · exact Nat.zero_le _

variable (e : Bool) {frames : List (Frame Code)}

theorem rank_enter_shared : rank e (.enter shared) frames = if e then 5 else 6 := by
  simp [rank]

theorem rank_enter_shared_le (frames : List (Frame Code)) :
    rank e (.enter shared) frames ≤ 6 := by
  cases e <;> simp [rank]

theorem rank_enter_rootOf (ht : IsRoot roots t) : rank e (.enter (rootOf t)) frames = 14 := by
  simp [rank, ht.ne_shared]

theorem rank_call {f : Address} (hk : k ≤ n.toNatClampNeg) :
    rank e (.apply f (arguments n k)) frames = 2 * k + 6 := by
  simp [rank, arguments, longOf, Value.long?, toNat_ofNat hk]

theorem rank_unpack {v : Address} (hk : k ≤ n.toNatClampNeg) :
    rank e (.resume v) ((arguments n k).map .apply ++ frames) = 2 * k + 5 := by
  simp [rank, arguments, longOf, Value.long?, toNat_ofNat hk]

theorem rank_resume_below (roots : Nat) (t : ThreadId) (v : Address) :
    rank e (.resume v) (below roots t) ≤ 3 := by
  unfold below
  split <;> simp [rank]

end Remaining

structure Working (n : Int64) (roots : Nat) (h : Heap Code) (context : Context Code) (c : Control)
    (pending : Pending) : Prop where
  point : resumePoint? context.registers c = some pending
  stage : At n roots h context.thread pending context.stack.frames
  room : 6 ≤ context.stack.limit
  free : context.interrupted = false
  blocked : ∀ a, c = .blocked a → a = shared ∧ Begun h shared

def starting (h : Heap Code) : Control → List Address
  | .entering a => if h.isFresh a then [a] else []
  | _ => []

theorem starting_eq_nil {a : Address} {state : ThunkState Code} (hc : h.cell a = .thunk state)
    (hne : ∀ body, state ≠ .unevaluated body) : starting h (.entering a) = [] := by
  refine if_neg fun hf => ?_
  obtain ⟨body, hb⟩ := Heap.isFresh_iff.1 hf
  exact hne body (Cell.thunk.inj (hc.symm.trans hb))

structure Stride (n : Int64) (roots : Nat) (c : Control) (m : Machine Code) (q : RunQueue Code)
    (pending : Pending) (entered updated : List Address) (released : List (Thread Code))
    (c' : Control) (m' : Machine Code) (q' : RunQueue Code) (pending' : Pending) : Prop where
  change : Change n m.context.thread m.heap m'.heap entered updated released
  entering : entered = starting m.heap c
  scheduler : m'.scheduler = .pool q'
  threads : q'.threads = q.threads ++ released
  sparks : ∀ a ∈ q'.sparks, a ∈ q.sparks ∨ a = shared
  tally : m'.tally = m.tally + (UInt64.ofNat entered.length, UInt64.ofNat updated.length)
  thread : m'.context.thread = m.context.thread
  working : Working n roots m'.heap m'.context c' pending'
  rank_lt : rank (ready m'.heap) pending' m'.context.stack.frames + reserve n m'.heap +
      7 * q'.sparks.length <
    rank (ready m.heap) pending m.context.stack.frames + reserve n m.heap + 7 * q.sparks.length

inductive Deed (n : Int64) (roots k : Nat) (c : Control) (m : Machine Code) (q : RunQueue Code)
    (pending : Pending) : Turn Code → Machine Code → Prop where
  | yields {m' : Machine Code} : k ≠ 0 → (∀ a, c ≠ .blocked a) →
      m'.heap = m.heap → m'.scheduler = .pool q → m'.tally = m.tally →
      Deed n roots k c m q pending
        (.over (.yielded ⟨m.context.thread, m.context.stack, pending⟩)) m'
  | strides {c' : Control} {m' : Machine Code} {q' : RunQueue Code} {pending' : Pending}
      {entered updated : List Address} {released : List (Thread Code)} :
      Stride n roots c m q pending entered updated released c' m' q' pending' →
      Deed n roots k c m q pending (.next c') m'
  | waits {m' : Machine Code} : (∀ a, c ≠ .blocked a) → starting m.heap c = [] →
      ready m.heap = false →
      m'.heap = m.heap → m'.scheduler = .pool q → m'.tally = m.tally →
      Working n roots m'.heap m'.context (.blocked shared) pending →
      m'.context.thread = m.context.thread → m'.context.stack = m.context.stack →
      Deed n roots k c m q pending (.next (.blocked shared)) m'
  | leaves {m' : Machine Code} : c = .blocked shared → pending = .enter shared →
      m'.heap = m.heap → m'.scheduler = .pool q → m'.tally = m.tally →
      Deed n roots k c m q pending
        (.over (.blocked ⟨m.context.thread, m.context.stack, .enter shared⟩ shared)) m'
  | finishes {v : Address} {m' : Machine Code} : c = .resuming →
      IsLong m.heap v (content n (goal roots m.context.thread)) →
      Settled m.heap (goal roots m.context.thread) →
      m'.heap = m.heap → m'.scheduler = .pool q → m'.tally = m.tally →
      Deed n roots k c m q pending (.over (.finished v)) m'

theorem Stride.of_core {entered updated : List Address} {released : List (Thread Code)}
    (r : Registers) (s : FrameStack Code) (hw : Working n roots m.heap m.context c pending)
    (hcore : m'.core = { m.core with
      heap := h', scheduler := .pool q', registers := r, stack := s })
    (hchange : Change n m.context.thread m.heap h' entered updated released)
    (hentering : entered = starting m.heap c)
    (hthreads : q'.threads = q.threads ++ released)
    (hsparks : ∀ a ∈ q'.sparks, a ∈ q.sparks ∨ a = shared)
    (htally : m'.tally = m.tally + (UInt64.ofNat entered.length, UInt64.ofNat updated.length))
    (hpoint : resumePoint? r c' = some pending') (hblocked : ∀ a, c' ≠ .blocked a)
    (hstage : At n roots h' m.context.thread pending' s.frames)
    (hlimit : s.limit = m.context.stack.limit)
    (hrank : rank (ready h') pending' s.frames + reserve n h' + 7 * q'.sparks.length <
      rank (ready m.heap) pending m.context.stack.frames + reserve n m.heap +
        7 * q.sparks.length) :
    Stride n roots c m q pending entered updated released c' m' q' pending' := by
  have hheap : m'.heap = h' := congrArg Core.heap hcore
  have hstack : m'.context.stack = s := congrArg Core.stack hcore
  have hthread : m'.context.thread = m.context.thread := congrArg Core.thread hcore
  have hregisters : m'.context.registers = r := congrArg Core.registers hcore
  subst hheap
  constructor
  case change => exact hchange
  case entering => exact hentering
  case scheduler => exact congrArg Core.scheduler hcore
  case threads => exact hthreads
  case sparks => exact hsparks
  case tally => exact htally
  case thread => exact hthread
  case working =>
    constructor
    case point => rwa [hregisters]
    case stage => rwa [hthread, hstack]
    case room => exact hstack ▸ hlimit ▸ hw.room
    case free => exact (congrArg Core.interrupted hcore).trans hw.free
    case blocked => exact fun a ha => absurd ha (hblocked a)
  case rank_lt => rwa [hstack]

section Entering

variable {x : Int64}

theorem owner_of_update {a : Address} {rest : List (Frame Code)} (ho : m.Owning)
    (hf : m.context.stack.frames = .update a :: rest) :
    m.heap.owner? a = some m.context.thread := by
  refine (ho.2 a).1 ?_
  rw [hf]
  exact List.mem_cons_self

theorem updates_below (ha : .update shared ∈ below roots t) : False := by
  unfold below at ha
  split at ha
  · next ht => simp [ht.ne_shared.symm] at ha
  · cases ha

theorem length_below_le (roots : Nat) (t : ThreadId) : (below roots t).length ≤ 2 := by
  unfold below
  split <;> simp

theorem offered (q : RunQueue Code) (h : Heap Code) :
    ∃ q', ((Scheduler.pool q).spark h shared).2 = .pool q' ∧ q'.threads = q.threads ∧
      (∀ a ∈ q'.sparks, a ∈ q.sparks ∨ a = shared) ∧ q'.sparks.length ≤ q.sparks.length + 1 := by
  refine ⟨(q.offer h shared).2, rfl, ?_⟩
  unfold RunQueue.offer
  split
  · exact ⟨rfl, fun a ha => .inl ha, Nat.le_succ _⟩
  · split
    · exact ⟨rfl, fun a ha => by simpa using ha, by simp⟩
    · exact ⟨rfl, fun a ha => .inl ha, Nat.le_succ _⟩

theorem stride_outset (hw : Working n roots m.heap m.context (.entering (rootOf m.context.thread))
      (.enter (rootOf m.context.thread)))
    (hq : m.scheduler = .pool q) (ht : IsRoot roots m.context.thread)
    (hf : m.context.stack.frames = [])
    (hc : m.heap.cell (rootOf m.context.thread) =
      .thunk (.unevaluated (suspension n (rootOf m.context.thread)))) :
    ∃ m' q', advance program (.entering (rootOf m.context.thread)) m =
        (.next (.entering shared), m') ∧
      Stride n roots (.entering (rootOf m.context.thread)) m q (.enter (rootOf m.context.thread))
        [rootOf m.context.thread] [] [] (.entering shared) m' q' (.enter shared) := by
  have hroom := hw.room
  obtain ⟨m₁, s₁, hadv, hc₁, hf₁, hl₁, ht₁⟩ := advance_start hc (by rw [hf]; simp; omega)
  have hstack₁ : m₁.context.stack = s₁ := congrArg Core.stack hc₁
  rw [suspension_rootOf ht] at hadv
  obtain ⟨m', s, hrun, hc', hf', hl'⟩ := run_root (m := m₁)
    (Int64.ofNat (m.context.thread.number - 1)) (by rw [hstack₁, hf₁, hf, hl₁]; simp; omega)
  obtain ⟨q', hq', hthreads, hsparks, hlength⟩ := offered q m₁.heap
  have hscheduler : m₁.scheduler = .pool q := (congrArg Core.scheduler hc₁).trans hq
  have hframes : s.frames = below roots m.context.thread := by
    rw [hf', hstack₁, hf₁, hf, below, if_pos ht]
  have hchange := Change.entered hc fun _ => rfl
  refine ⟨m', q', (hadv program).trans (follow_of_ok (m := m₁) hrun (fun _ h => by cases h)),
    .of_core m.context.registers s hw ?_ hchange ?_ ?_ ?_ ?_ rfl (fun _ h => by cases h) ?_ ?_ ?_⟩
  · rw [hc', hc₁, hscheduler, hq']
    rfl
  · exact (if_pos (Heap.isFresh_iff.2 ⟨_, hc⟩)).symm
  · rw [hthreads, List.append_nil]
  · exact hsparks
  · exact ((respects_run_tally program _ _).tally hrun).trans ht₁
  · rw [hframes]
    exact .demand
  · rw [hl', hstack₁, hl₁]
  · have hle := hchange.reserve_le
    have hrank := rank_enter_shared_le (ready (m.heap.write (rootOf m.context.thread)
      (.thunk (.underEvaluation m.context.thread (suspension n (rootOf m.context.thread)) []))))
      s.frames
    rw [rank_enter_rootOf _ ht]
    omega

theorem stride_begin (hn : 0 ≤ n)
    (hw : Working n roots m.heap m.context (.entering shared) (.enter shared))
    (hq : m.scheduler = .pool q) (hf : m.context.stack.frames = below roots m.context.thread)
    (hc : m.heap.cell shared = .thunk (.unevaluated (suspension n shared))) :
    ∃ m', advance program (.entering shared) m =
        (.next (.applying function (arguments n n.toNatClampNeg)), m') ∧
      Stride n roots (.entering shared) m q (.enter shared) [shared] [] []
        (.applying function (arguments n n.toNatClampNeg)) m' q
        (.apply function (arguments n n.toNatClampNeg)) := by
  have hroom := hw.room
  have hlength := length_below_le roots m.context.thread
  obtain ⟨m', s, hadv, hc', hf', hl', ht'⟩ := advance_start hc (by rw [hf]; omega)
  have hrun : Evaluation.run program (.total function n) [] m' =
      .ok (.apply function (arguments n n.toNatClampNeg)) m' := by
    rw [arguments_top hn]
    rfl
  refine ⟨m', (hadv program).trans (follow_of_ok (m := m') hrun nofun),
    .of_core m.context.registers s hw ?_ (.entered hc fun hne => absurd rfl hne) ?_
      (List.append_nil _).symm (fun a ha => .inl ha) ht' rfl nofun ?_ hl' ?_⟩
  · rw [hc', ← hq]
    rfl
  · exact (if_pos (Heap.isFresh_iff.2 ⟨_, hc⟩)).symm
  · rw [hf', hf]
    exact .call (Nat.le_refl _)
  · have hfresh : reserve n m.heap = 2 * n.toNatClampNeg + 2 := if_pos (Heap.isFresh_iff.2 ⟨_, hc⟩)
    have hstale : reserve n (m.heap.write shared
        (.thunk (.underEvaluation m.context.thread (suspension n shared) []))) = 0 := by
      refine if_neg fun hf => ?_
      obtain ⟨body, hb⟩ := Heap.isFresh_iff.1 hf
      rw [Heap.cell_write_thunk hc] at hb
      cases hb
    have hready : ready m.heap = false := by
      rw [ready, Heap.target?, hc]
      rfl
    rw [rank_call _ (Nat.le_refl _), hfresh, hstale, hready, rank_enter_shared]
    simp only [Bool.false_eq_true, if_false]
    omega

theorem stride_value {a v : Address}
    (hw : Working n roots m.heap m.context (.entering a) (.enter a))
    (hq : m.scheduler = .pool q) (hv : m.heap.target? a = some v)
    (hat : At n roots m.heap m.context.thread (.resume v) m.context.stack.frames)
    (hrank : rank (ready m.heap) (.resume v) m.context.stack.frames <
      rank (ready m.heap) (.enter a) m.context.stack.frames) :
    ∃ m', advance program (.entering a) m = (.next .resuming, m') ∧
      Stride n roots (.entering a) m q (.enter a) [] [] [] .resuming m' q (.resume v) := by
  obtain ⟨m', hadv, hc', ht'⟩ := advance_value program hv
  refine ⟨m', hadv, .of_core (m.context.registers.setResult v) m.context.stack hw ?_ .same ?_
    (List.append_nil _).symm (fun a ha => .inl ha) ?_ ?_ nofun hat rfl ?_⟩
  · rw [hc', ← hq]
    rfl
  · exact (starting_eq_nil (Heap.target?_eq_some_iff.1 hv) nofun).symm
  · rw [ht']
    exact (add_zero _).symm
  · exact congrArg (Option.map Pending.resume) (Registers.result?_setResult _ _)
  · omega

end Entering

section Calling

theorem lookup_arguments (n : Int64) (k : Nat) :
    SchemaTable.standard.lookup (arguments n k) = none := by
  have hkinds : (arguments n k).map Value.kind = [.boxed, .long, .long] := rfl
  have hnone : SchemaTable.standard.find? [.boxed, .long, .long] = none := by decide +kernel
  rw [SchemaTable.lookup_eq_find?, hkinds, hnone, ite_self]

theorem stride_call (hs : Stored n roots m.heap)
    (hw : Working n roots m.heap m.context (.applying function (arguments n k))
      (.apply function (arguments n k)))
    (hq : m.scheduler = .pool q) (hk : k ≤ n.toNatClampNeg)
    (hf : m.context.stack.frames = .update shared :: below roots m.context.thread) :
    ∃ m', advance program (.applying function (arguments n k)) m = (.next .resuming, m') ∧
      Stride n roots (.applying function (arguments n k)) m q (.apply function (arguments n k))
        [] [] [] .resuming m' q (.resume function) := by
  have hroom : m.context.stack.frames.length + (arguments n k).length ≤ m.context.stack.limit := by
    have hlength := length_below_le roots m.context.thread
    have hlimit := hw.room
    rw [hf, List.length_cons, show (arguments n k).length = 3 from rfl]
    omega
  have hne : arguments n k ≠ [] := List.cons_ne_nil _ _
  obtain ⟨m', s, hadv, hc', hf', hl', ht'⟩ :=
    advance_call program hne hs.function? rfl (lookup_arguments n k) hroom
  refine ⟨m', hadv, .of_core (m.context.registers.setResult function) s hw ?_ .same rfl
    (List.append_nil _).symm (fun a ha => .inl ha) ?_ ?_ nofun ?_ hl' ?_⟩
  · rw [hc', ← hq]
    rfl
  · rw [ht']
    exact (add_zero _).symm
  · exact congrArg (Option.map Pending.resume) (Registers.result?_setResult _ _)
  · rw [hf', hf]
    exact .unpack hk
  · rw [hf', rank_call _ hk, rank_unpack _ hk]
    omega

theorem layoutFor_arguments (n : Int64) (k : Nat) :
    layoutFor ((arguments n k).map Value.kind) = .ok [⟨.boxed, 0⟩, ⟨.long, 0⟩, ⟨.long, 1⟩] := rfl

theorem advance_arguments {s : Step} (hs : Stored n roots m.heap)
    (hr : m.context.registers.result? = some function)
    (hf : m.context.stack.frames =
      (arguments n k).map .apply ++ .update shared :: below roots m.context.thread) :
    ∃ m₁ st, m₁.core = { m.core with stack := st, registers := m₁.context.registers } ∧
      m₁.context.registers.Holds (arguments n k) ∧
      st.frames = .update shared :: below roots m.context.thread ∧
      st.limit = m.context.stack.limit ∧
      ∀ m', Evaluation.run program .sum [] m₁ = .ok s m' → (∀ a, s ≠ .throw a) →
        advance program .resuming m = (.next (controlOf s), m') ∧ m'.tally = m.tally := by
  obtain ⟨m₁, st, hc₁, hst, hl, hrun⟩ := advance_gather program (s := s) hf hr hs.function? rfl
    (layoutFor_arguments n k)
  have hregisters : m₁.context.registers = m.context.registers.loaded (arguments n k) _ :=
    congrArg Core.registers hc₁
  refine ⟨m₁, st, ?_, ?_, hst, hl, hrun⟩
  · rw [hc₁, hregisters]
    rfl
  · rw [hregisters]
    exact holds_loaded _ (layoutFor_arguments n k)

theorem stride_again (hs : Stored n roots m.heap)
    (hw : Working n roots m.heap m.context .resuming (.resume function))
    (hq : m.scheduler = .pool q) (hk : k + 1 ≤ n.toNatClampNeg)
    (hr : m.context.registers.result? = some function)
    (hf : m.context.stack.frames =
      (arguments n (k + 1)).map .apply ++ .update shared :: below roots m.context.thread) :
    ∃ m', advance program .resuming m = (.next (.applying function (arguments n k)), m') ∧
      Stride n roots .resuming m q (.resume function) [] [] []
        (.applying function (arguments n k)) m' q (.apply function (arguments n k)) := by
  obtain ⟨m', st, hc', hholds, hst, hl, hrun⟩ := advance_arguments hs hr hf
  obtain ⟨hadv, ht'⟩ := hrun m' (run_sum_again hk hholds) nofun
  refine ⟨m', hadv, .of_core m'.context.registers st hw ?_ .same rfl
    (List.append_nil _).symm (fun a ha => .inl ha) ?_ rfl nofun ?_ hl ?_⟩
  · rw [hc', ← hq]
    rfl
  · rw [ht']
    exact (add_zero _).symm
  · rw [hst]
    exact .call (Nat.le_of_succ_le hk)
  · rw [hst, hf, rank_call _ (Nat.le_of_succ_le hk), rank_unpack _ hk]
    omega

theorem stride_last (hs : Stored n roots m.heap)
    (hw : Working n roots m.heap m.context .resuming (.resume function))
    (hq : m.scheduler = .pool q) (hr : m.context.registers.result? = some function)
    (hf : m.context.stack.frames =
      (arguments n 0).map .apply ++ .update shared :: below roots m.context.thread) :
    ∃ m', advance program .resuming m = (.next .resuming, m') ∧
      Stride n roots .resuming m q (.resume function) [] [] [] .resuming m' q
        (.resume ⟨m.heap.size⟩) := by
  obtain ⟨m₁, st, hc₁, hholds, hst, hl, hrun⟩ := advance_arguments hs hr hf
  have hheap : m₁.heap = m.heap := congrArg Core.heap hc₁
  obtain ⟨hadv, ht'⟩ := hrun _ (run_sum_last hholds) nofun
  have hchange : Change n m.context.thread m.heap _ [] [] [] := .grown (grandTotal n)
  refine ⟨_, hadv, .of_core (m₁.context.registers.setResult ⟨m.heap.size⟩) st hw ?_ hchange rfl
    (List.append_nil _).symm (fun a ha => .inl ha) ?_ ?_ nofun ?_ hl ?_⟩
  · rw [hheap, Machine.core_setResult, Machine.core_allocate, hc₁, ← hq]
    rfl
  · rw [ht']
    exact (add_zero _).symm
  · exact congrArg (Option.map Pending.resume) (Registers.result?_setResult _ _)
  · rw [hst]
    exact .sum (isLong_allocate _ _)
  · have hle := hchange.reserve_le
    rw [hst, hf, rank_unpack _ (Nat.zero_le _)]
    simp only [rank, if_true]
    omega

end Calling

section Resuming

variable {v : Address}

theorem wake_pool (q : RunQueue Code) (a : Address) (released : List (Thread Code)) :
    ∃ q', (Scheduler.pool q).wake a released = .pool q' ∧ q'.threads = q.threads ++ released ∧
      q'.sparks = q.sparks := by
  cases released with
  | nil => exact ⟨q, rfl, (List.append_nil _).symm, rfl⟩
  | cons t rest => exact ⟨q.requeue (t :: rest), rfl, rfl, rfl⟩

theorem stride_update {a : Address} {rest : List (Frame Code)} (hs : Stored n roots m.heap)
    (ho : m.Owning) (hw : Working n roots m.heap m.context .resuming (.resume v))
    (hq : m.scheduler = .pool q) (hr : m.context.registers.result? = some v)
    (hf : m.context.stack.frames = .update a :: rest) (hv : IsLong m.heap v (content n a))
    (hready : a ≠ shared → Settled m.heap shared)
    (hat : ∀ h', m.heap.Later h' → Settled h' a →
      At n roots h' m.context.thread (.resume v) rest)
    (hrank : ∀ e, rank e (.resume v) rest <
      rank (ready m.heap) (.resume v) m.context.stack.frames) :
    ∃ m' q' released, advance program .resuming m = (.next .resuming, m') ∧
      Stride n roots .resuming m q (.resume v) [] [a] released .resuming m' q' (.resume v) := by
  obtain ⟨body, blocked, hc⟩ := Heap.owner?_eq_some_iff.1 (owner_of_update ho hf)
  have hbody : body = suspension n a ∧ (a ≠ shared → blocked = []) := by
    cases hs.kept a _ hc with
    | underEvaluation hb => exact ⟨rfl, fun hne => (hb hne).2⟩
  obtain ⟨rfl, hblocked⟩ := hbody
  have hthunk : m.heap.isThunk a = true := by
    rw [Heap.isThunk, Heap.thunk?_eq_some_iff.2 hc]
    rfl
  have htarget : m.heap.target? a = none := by rw [Heap.target?, hc]
  have hsettle : m.heap.settle a (m.heap.resolve v) =
      (blocked.reverse, m.heap.write a (.thunk (.evaluated v))) := by
    rw [Heap.settle, hc, hv.resolve]
  obtain ⟨m', s, hadv, hc', hf', hl', ht'⟩ :=
    advance_update program hf hr hthunk hv.isValue htarget
  obtain ⟨q', hq', hthreads, hsparks⟩ := wake_pool q a blocked.reverse
  have hchange := Change.updated (t := m.context.thread) hc hv fun hne =>
    ⟨hready hne, hblocked hne⟩
  have hsettled := (hchange.settled.2 a).2 (.inr List.mem_cons_self)
  refine ⟨m', q', blocked.reverse, hadv, .of_core m.context.registers s hw ?_ hchange rfl
    hthreads ?_ ?_ ?_ (fun _ h => by cases h) ?_ hl' ?_⟩
  · rw [hc', hsettle, hq, hq']
    rfl
  · rw [hsparks]
    exact fun b hb => .inl hb
  · exact ht'
  · exact congrArg (Option.map Pending.resume) hr
  · rw [hf']
    exact hat _ hchange.later hsettled
  · have hle := hchange.reserve_le
    have hlt := hrank (ready (m.heap.write a (.thunk (.evaluated v))))
    rw [hf', hsparks]
    omega

theorem stride_next (hw : Working n roots m.heap m.context .resuming (.resume v))
    (hq : m.scheduler = .pool q) (hr : m.context.registers.result? = some v)
    (ht : IsRoot roots m.context.thread)
    (hf : m.context.stack.frames = below roots m.context.thread)
    (hv : IsLong m.heap v (grandTotal n)) (hsettled : Settled m.heap shared) :
    ∃ m', advance program .resuming m = (.next .resuming, m') ∧
      Stride n roots .resuming m q (.resume v) [] [] [] .resuming m' q
        (.resume ⟨m.heap.size⟩) := by
  have hframes : m.context.stack.frames =
      .case .addOffset [.long (Int64.ofNat (m.context.thread.number - 1))] ::
        [.update (rootOf m.context.thread)] := by
    rw [hf, below, if_pos ht]
  obtain ⟨m₁, s, hadv, hc₁, hs, hl, ht₁⟩ := advance_frame program hframes
  have hheap : m₁.heap = m.heap := congrArg Core.heap hc₁
  have hregisters : m₁.context.registers = m.context.registers := congrArg Core.registers hc₁
  have hrun := run_addOffset (m := m₁) (Int64.ofNat (m.context.thread.number - 1))
    (hregisters ▸ hr) (hheap ▸ hv)
  have hchange : Change n m.context.thread m.heap _ [] [] [] :=
    .grown (grandTotal n + Int64.ofNat (m.context.thread.number - 1))
  refine ⟨_, hadv.trans (follow_of_resume (m := m₁) hrun),
    .of_core (m.context.registers.setResult ⟨m.heap.size⟩) s hw ?_ hchange rfl
    (List.append_nil _).symm (fun a ha => .inl ha) ?_ ?_ (fun _ h => by cases h) ?_ hl ?_⟩
  · rw [hheap, Machine.core_setResult, Machine.core_allocate, hc₁, ← hq]
    rfl
  · exact (((respects_run_tally program _ _).tally hrun).trans ht₁).trans (add_zero _).symm
  · exact congrArg (Option.map Pending.resume) (Registers.result?_setResult _ _)
  · rw [hs]
    refine .answer ht ?_ (hsettled.later hchange.later)
    rw [content_rootOf ht]
    exact isLong_allocate _ _
  · have hle := hchange.reserve_le
    rw [hs, hframes]
    simp only [rank, if_neg ht.ne_shared]
    omega

end Resuming

section Iterating

variable {turn : Turn Code} {a : Address} {frames : List (Frame Code)}

theorem At.enter (ha : At n roots h t (.enter a) frames) :
    (IsRoot roots t ∧ a = rootOf t ∧ frames = []) ∨ (a = shared ∧ frames = below roots t) := by
  cases ha with
  | outset ht => exact .inl ⟨ht, rfl, rfl⟩
  | demand => exact .inr ⟨rfl, rfl⟩

theorem At.apply {args : List Value} (ha : At n roots h t (.apply a args) frames) :
    ∃ k ≤ n.toNatClampNeg, a = function ∧ args = arguments n k ∧
      frames = .update shared :: below roots t := by
  cases ha with
  | call hk => exact ⟨_, hk, rfl, rfl, rfl⟩

structure Does (n : Int64) (roots k : Nat) (c : Control) (m : Machine Code) (q : RunQueue Code)
    (pending : Pending) (result : Turn Code × Machine Code) : Prop where
  deed : Deed n roots k c m q pending result.1 result.2
  free : result.2.context.interrupted = false

theorem Does.of_stride {entered updated : List Address} {released : List (Thread Code)}
    (hadv : advance program c m = (.next c', m'))
    (hstride : Stride n roots c m q pending entered updated released c' m' q' pending') :
    Does n roots k c m q pending (advance program c m) := by
  rw [hadv]
  exact ⟨.strides hstride, hstride.working.free⟩

theorem does_outset (hq : m.scheduler = .pool q) (hs : Stored n roots m.heap) (ho : m.Owning)
    (ht : IsRoot roots m.context.thread) (hf : m.context.stack.frames = [])
    (hw : Working n roots m.heap m.context (.entering (rootOf m.context.thread))
      (.enter (rootOf m.context.thread))) :
    Does n roots k (.entering (rootOf m.context.thread)) m q (.enter (rootOf m.context.thread))
      (advance program (.entering (rootOf m.context.thread)) m) := by
  obtain ⟨s, hc, hk⟩ := hs.state (a := rootOf m.context.thread) (Nat.succ_pos _)
    (Nat.succ_le_succ ht.2)
  cases hk with
  | unevaluated =>
    obtain ⟨m₁, q', hadv, hstride⟩ := stride_outset hw hq ht hf hc
    exact .of_stride hadv hstride
  | @underEvaluation u blocked hb =>
    -- Only the thread itself could have entered its root, and it has no update frame.
    have hu : u = m.context.thread := by
      have hroot := congrArg Address.index (hb ht.ne_shared).1
      obtain ⟨i⟩ := u
      exact congrArg ThreadId.mk (Nat.succ.inj hroot)
    have howner := (ho.2 (rootOf m.context.thread)).2
      (Heap.owner?_eq_some_iff.2 ⟨_, _, hu ▸ hc⟩)
    rw [hf] at howner
    cases howner
  | @evaluated v hv _ =>
    have htarget := Heap.target?_eq_some_iff.2 hc
    have hgoal : goal roots m.context.thread = rootOf m.context.thread := if_pos ht
    have hsettled : Settled m.heap (rootOf m.context.thread) := by
      rw [Settled, htarget]
      rfl
    obtain ⟨m₁, hadv, hstride⟩ := stride_value hw hq htarget
      (by rw [hf]; exact .close (by rwa [hgoal]) (by rwa [hgoal]))
      (by rw [hf, rank_enter_rootOf _ ht]; simp [rank])
    exact .of_stride hadv hstride

theorem does_demand (hn : 0 ≤ n) (hq : m.scheduler = .pool q) (hs : Stored n roots m.heap)
    (ho : m.Owning) (hf : m.context.stack.frames = below roots m.context.thread)
    (hw : Working n roots m.heap m.context (.entering shared) (.enter shared))
    (hwait : ∀ u, m.heap.owner? shared = some u → u ≠ m.context.thread →
      ∃ w, m.shared.waiting.register? m.heap m.context.thread shared = some w) :
    Does n roots k (.entering shared) m q (.enter shared)
      (advance program (.entering shared) m) := by
  obtain ⟨s, hc, hk⟩ := hs.state (a := shared) (Nat.le_refl _) (Nat.le_add_left _ _)
  cases hk with
  | unevaluated =>
    obtain ⟨m₁, hadv, hstride⟩ := stride_begin hn hw hq hf hc
    exact .of_stride hadv hstride
  | @underEvaluation u blocked hb =>
    have howner : m.heap.owner? shared = some u := Heap.owner?_eq_some_iff.2 ⟨_, _, hc⟩
    -- The thread has no update frame of the shared thunk, so somebody else evaluates it.
    have hne : u ≠ m.context.thread := by
      rintro rfl
      have hmem := (ho.2 shared).2 howner
      rw [hf] at hmem
      exact updates_below (Frame.mem_updates.1 hmem)
    obtain ⟨w, hregister⟩ := hwait u howner hne
    obtain ⟨m₁, hadv, hc₁, ht₁⟩ := advance_wait program howner hne hregister
    have hheap : m₁.heap = m.heap := congrArg Core.heap hc₁
    have hthread : m₁.context.thread = m.context.thread := congrArg Core.thread hc₁
    have hstack : m₁.context.stack = m.context.stack := congrArg Core.stack hc₁
    have hfree := (congrArg Core.interrupted hc₁).trans hw.free
    have hready : ready m.heap = false := by
      rw [ready, Heap.target?, hc]
      rfl
    rw [hadv]
    refine ⟨.waits (fun _ h => by cases h) (starting_eq_nil hc (fun _ h => by cases h)) hready hheap
      ((congrArg Core.scheduler hc₁).trans hq) ht₁ ⟨rfl, ?_, ?_, hfree, ?_⟩ hthread hstack, hfree⟩
    · rw [hheap, hthread, hstack]
      exact hw.stage
    · rw [hstack]
      exact hw.room
    · rw [hheap]
      rintro b ⟨⟩
      exact ⟨rfl, _, hc, (fun _ h => by cases h)⟩
  | @evaluated v hv _ =>
    have htarget := Heap.target?_eq_some_iff.2 hc
    have hready : ready m.heap = true := by
      rw [ready, htarget]
      rfl
    obtain ⟨m₁, hadv, hstride⟩ := stride_value hw hq htarget (by rw [hf]; exact .of_sum hv hready)
      (by
        have hle := rank_resume_below (ready m.heap) roots m.context.thread v
        rw [hf, rank_enter_shared, if_pos hready]
        omega)
    exact .of_stride hadv hstride

theorem does_resuming (hq : m.scheduler = .pool q) (hs : Stored n roots m.heap) (ho : m.Owning)
    {v : Address} (hr : m.context.registers.result? = some v)
    (hw : Working n roots m.heap m.context .resuming (.resume v)) :
    Does n roots k .resuming m q (.resume v) (advance program .resuming m) := by
  generalize hf : m.context.stack.frames = frames
  have hstage := hw.stage
  rw [hf] at hstage
  -- The top of the stack tells the stages apart.
  cases hstage with
  | @unpack k hk =>
    cases k with
    | zero =>
      obtain ⟨m₁, hadv, hstride⟩ := stride_last hs hw hq hr hf
      exact .of_stride hadv hstride
    | succ k =>
      obtain ⟨m₁, hadv, hstride⟩ := stride_again hs hw hq hk hr hf
      exact .of_stride hadv hstride
  | sum hv =>
    obtain ⟨m₁, q', released, hadv, hstride⟩ := stride_update hs ho hw hq hr hf hv
      (fun hne => absurd rfl hne) (fun h' hl hsettled => .of_sum (hv.later hl) hsettled)
      (fun e => by
        have hle := rank_resume_below e roots m.context.thread v
        have hrank : rank (ready m.heap) (.resume v) m.context.stack.frames = 4 := by
          rw [hf]
          rfl
        omega)
    exact .of_stride hadv hstride
  | next ht hv hsettled =>
    obtain ⟨m₁, hadv, hstride⟩ := stride_next hw hq hr ht hf hv hsettled
    exact .of_stride hadv hstride
  | answer ht hv hsettled =>
    have hgoal : goal roots m.context.thread = rootOf m.context.thread := if_pos ht
    obtain ⟨m₁, q', released, hadv, hstride⟩ := stride_update hs ho hw hq hr hf hv
      (fun _ => hsettled)
      (fun h' hl hdone => .close (by rw [hgoal]; exact hv.later hl) (by rwa [hgoal]))
      (fun e => by
        rw [hf]
        simp [rank, ht.ne_shared])
    exact .of_stride hadv hstride
  | close hv hsettled =>
    obtain ⟨m₁, hadv, hheap, hscheduler, hfree, ht⟩ := advance_finish program hf hr
    rw [hadv]
    exact ⟨.finishes rfl hv hsettled hheap (hscheduler.trans hq) ht, hfree.trans hw.free⟩

theorem suspensionPoint_of_working (hw : Working n roots m.heap m.context c pending) :
    suspensionPoint c m = .ok pending ∨ ∃ a, c = .blocked a := by
  have hpoint := hw.point
  cases c with
  | entering a => exact .inl (congrArg Except.ok (Option.some.inj hpoint))
  | applying f args => exact .inl (congrArg Except.ok (Option.some.inj hpoint))
  | resuming =>
    left
    obtain ⟨v, hv, rfl⟩ := Option.map_eq_some_iff.1 hpoint
    simp only [suspensionPoint, Registers.readClosure_one, hv]
  | blocked a => exact .inr ⟨a, rfl⟩
  | halted e => cases hpoint
  | endless => cases hpoint

theorem does_advance (hn : 0 ≤ n) (hq : m.scheduler = .pool q) (hs : Stored n roots m.heap)
    (ho : m.Owning) (hw : Working n roots m.heap m.context c pending)
    (hwait : ∀ u, m.heap.owner? shared = some u → u ≠ m.context.thread →
      ∃ w, m.shared.waiting.register? m.heap m.context.thread shared = some w) :
    Does n roots k c m q pending (advance program c m) := by
  have hpoint := hw.point
  cases c with
  | entering a =>
    cases hpoint
    rcases hw.stage.enter with ⟨ht, rfl, hf⟩ | ⟨rfl, hf⟩
    · exact does_outset hq hs ho ht hf hw
    · exact does_demand hn hq hs ho hf hw hwait
  | applying f args =>
    cases hpoint
    obtain ⟨k, hk, rfl, rfl, hf⟩ := hw.stage.apply
    obtain ⟨m₁, hadv, hstride⟩ := stride_call hs hw hq hk hf
    exact .of_stride hadv hstride
  | resuming =>
    obtain ⟨v, hv, rfl⟩ := Option.map_eq_some_iff.1 hpoint
    exact does_resuming hq hs ho hv hw
  | blocked a =>
    cases hpoint
    obtain ⟨rfl, -⟩ := hw.blocked a rfl
    obtain ⟨m₁, hadv, hheap, hscheduler, hfree, ht⟩ := advance_blocked program shared m
    rw [hadv]
    exact ⟨.leaves rfl rfl hheap (hscheduler.trans hq) ht, hfree.trans hw.free⟩
  | halted e => cases hpoint
  | endless => cases hpoint

theorem does_iterate (hn : 0 ≤ n) (hq : m.scheduler = .pool q) (hs : Stored n roots m.heap)
    (ho : m.Owning) (hw : Working n roots m.heap m.context c pending)
    (hwait : ∀ u, m.heap.owner? shared = some u → u ≠ m.context.thread →
      ∃ w, m.shared.waiting.register? m.heap m.context.thread shared = some w) :
    Does n roots k c m q pending (iterate program k c m) := by
  have hpoint := suspensionPoint_of_working hw
  have hhalt : ∀ e, suspensionPoint c m = .error (.halted e) → c = .halted e := by
    intro e he
    rcases hpoint with hp | ⟨a, rfl⟩
    · rw [hp] at he
      cases he
    · cases he
  rcases iterate_pool program k hq hw.free hhalt with ⟨hk, pending', hp, hi⟩ | hi
  · rw [hi]
    rcases hpoint with hp' | ⟨a, rfl⟩
    · cases hp.symm.trans hp'
      obtain ⟨m₁, hy, hheap, hscheduler, hfree, ht⟩ := yieldThread_eq pending m
      rw [hy]
      refine ⟨.yields hk ?_ hheap (hscheduler.trans hq) ht, hfree.trans hw.free⟩
      rintro a rfl
      cases hp
    · cases hp
  · rw [hi]
    exact does_advance hn hq hs ho hw hwait

end Iterating

end GraphReduction.SharedSum
