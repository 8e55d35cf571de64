import GraphReduction.Proofs.Iteration

namespace GraphReduction

open Evaluation GraphReduction.Frame

variable {κ : Type} {program : Program κ}

namespace Heap

def wakeAt (h : Heap κ) (a : Address) : Wake κ := ⟨a, parkedAt (h.cell a)⟩

end Heap

namespace Halting

variable {m m' m₁ m₂ : Machine κ} {as bs xs ys : List Address} {a : Address} {e : RuntimeError}

section Undoing

structure Undone (as : List Address) (m m' : Machine κ) : Prop where
  thread : m'.context.thread = m.context.thread
  size_le : m.heap.size ≤ m'.heap.size
  undone : ∀ a ∈ as, ∃ body blocked,
    m.heap.cell a = .thunk (.underEvaluation m.context.thread body blocked) ∧
      m'.heap.cell a = .thunk (.unevaluated body)
  kept : ∀ a, a.index < m.heap.size → a ∉ as → m'.heap.cell a = m.heap.cell a
  fresh : ∀ a, m.heap.size ≤ a.index → m'.heap.owner? a = none
  told : m.scheduler.Told (as.map m.heap.wakeAt) m'.scheduler

namespace Undone

theorem of_grown (ht : m'.context.thread = m.context.thread) (hg : m.heap.Grown m'.heap)
    (hs : m.scheduler.Told [] m'.scheduler) : Undone [] m m' where
  thread := ht
  size_le := hg.size_le
  undone := nofun
  kept a ha _ := hg.old a ha
  fresh a ha := by
    rw [hg.owner?, Heap.owner?]
    split
    · next hc => exact absurd (Heap.lt_size_of_cell_eq_thunk hc) (Nat.not_lt.2 ha)
    · rfl
  told := hs

theorem of_eq (ht : m'.context.thread = m.context.thread) (hh : m'.heap = m.heap)
    (hs : m'.scheduler = m.scheduler) : Undone [] m m' :=
  of_grown ht (hh ▸ .refl _) (hs ▸ .refl _)

theorem of_quiet (hq : Quiet m m') : Undone [] m m' := of_grown hq.thread hq.grown hq.told

theorem lt_size (h : Undone as m m') (ha : a ∈ as) : a.index < m.heap.size := by
  obtain ⟨body, blocked, hc, -⟩ := h.undone a ha
  exact Heap.lt_size_of_cell_eq_thunk hc

theorem owner? (h : Undone as m m') {u : ThreadId} (a : Address) :
    m'.heap.owner? a = some u ↔ m.heap.owner? a = some u ∧ a ∉ as := by
  by_cases ha : a ∈ as
  · obtain ⟨body, blocked, -, hc⟩ := h.undone a ha
    simp [Heap.owner?, hc, ha]
  · by_cases hs : a.index < m.heap.size
    · simp [Heap.owner?, h.kept a hs ha, ha]
    · have hnone : m.heap.owner? a ≠ some u := by
        intro hu
        obtain ⟨body, blocked, hc⟩ := Heap.owner?_eq_some_iff.1 hu
        exact hs (Heap.lt_size_of_cell_eq_thunk hc)
      simp [h.fresh a (Nat.le_of_not_lt hs), hnone]

theorem trans (h₁ : Undone as m m₁) (h₂ : Undone bs m₁ m₂) : Undone (as ++ bs) m m₂ := by
  -- A thunk that is taken back once is not under evaluation afterwards.
  have hold : ∀ a ∈ bs, a ∉ as ∧ a.index < m.heap.size := by
    intro a ha
    obtain ⟨body, blocked, hc, -⟩ := h₂.undone a ha
    have ho : m₁.heap.owner? a = some m₁.context.thread :=
      Heap.owner?_eq_some_iff.2 ⟨body, blocked, hc⟩
    obtain ⟨ho', hn⟩ := (h₁.owner? a).1 ho
    obtain ⟨body', blocked', hc'⟩ := Heap.owner?_eq_some_iff.1 ho'
    exact ⟨hn, Heap.lt_size_of_cell_eq_thunk hc'⟩
  have hcell : ∀ a ∈ bs, m₁.heap.cell a = m.heap.cell a := fun a ha =>
    h₁.kept a (hold a ha).2 (hold a ha).1
  constructor
  case thread => exact h₂.thread.trans h₁.thread
  case size_le => exact Nat.le_trans h₁.size_le h₂.size_le
  case undone =>
    intro a ha
    rcases List.mem_append.1 ha with ha | ha
    · obtain ⟨body, blocked, hc, hc₁⟩ := h₁.undone a ha
      have hb : a ∉ bs := fun hb => (hold a hb).1 ha
      have hs := Nat.lt_of_lt_of_le (h₁.lt_size ha) h₁.size_le
      exact ⟨body, blocked, hc, (h₂.kept a hs hb).trans hc₁⟩
    · obtain ⟨body, blocked, hc, hc₂⟩ := h₂.undone a ha
      rw [hcell a ha, h₁.thread] at hc
      exact ⟨body, blocked, hc, hc₂⟩
  case kept =>
    intro a hs ha
    rw [List.mem_append, not_or] at ha
    rw [h₂.kept a (Nat.lt_of_lt_of_le hs h₁.size_le) ha.2, h₁.kept a hs ha.1]
  case fresh =>
    intro a hs
    refine Option.eq_none_iff_forall_ne_some.2 fun u hu => ?_
    have hu₁ := ((h₂.owner? a).1 hu).1
    rw [h₁.fresh a hs] at hu₁
    cases hu₁
  case told =>
    have hw : bs.map m₁.heap.wakeAt = bs.map m.heap.wakeAt :=
      List.map_congr_left fun a ha => by rw [Heap.wakeAt, Heap.wakeAt, hcell a ha]
    rw [List.map_append, ← hw]
    exact h₁.told.trans h₂.told

theorem owns (h : Undone as m m') {t : ThreadId} (ho : m.heap.Owns t (xs ++ (as ++ ys))) :
    m'.heap.Owns t (xs ++ ys) := by
  have hp : (xs ++ (as ++ ys)).Perm (as ++ (xs ++ ys)) := List.perm_append_comm_assoc _ _ _
  obtain ⟨-, hn, hd⟩ := List.nodup_append.1 (hp.nodup_iff.1 ho.1)
  refine ⟨hn, fun a => ?_⟩
  rw [h.owner?, ← ho.2, hp.mem_iff, List.mem_append (s := as)]
  constructor
  · exact fun ha => ⟨.inr ha, fun has => hd a has a ha rfl⟩
  · rintro ⟨has | ha, hn⟩
    · exact absurd has hn
    · exact ha

theorem resetThunk {body : Suspension κ} {blocked : List (Thread κ)} (remark : Nat → Option Remark)
    (hc : m.heap.cell a = .thunk (.underEvaluation m.context.thread body blocked)) :
    Undone [a] m (m.resetThunk a remark) := by
  have hreset : m.heap.reset a =
      (blocked.reverse, m.heap.write a (.thunk (.unevaluated body))) := by
    simp only [Heap.reset, hc]
  have hcore := m.core_resetThunk a remark
  rw [hreset] at hcore
  have hh : (m.resetThunk a remark).heap = m.heap.write a (.thunk (.unevaluated body)) :=
    congrArg Core.heap hcore
  have hs : (m.resetThunk a remark).scheduler = m.scheduler.wake a blocked.reverse :=
    congrArg Core.scheduler hcore
  have hsize : (m.resetThunk a remark).heap.size = m.heap.size := by simp [hh, Heap.write, Heap.size]
  constructor
  case thread => exact congrArg Core.thread hcore
  case size_le => exact Nat.le_of_eq hsize.symm
  case undone =>
    intro b hb
    rw [List.mem_singleton.1 hb, hh, Heap.cell_write_thunk hc]
    exact ⟨body, blocked, hc, rfl⟩
  case kept =>
    intro b _ hb
    rw [hh, Heap.cell_write_of_ne fun hab => hb (List.mem_singleton.2 hab.symm)]
  case fresh =>
    intro b hb
    rw [Heap.owner?]
    split
    · next hcb => exact absurd (Heap.lt_size_of_cell_eq_thunk hcb) (by omega)
    · rfl
  case told =>
    rw [hs, List.map_singleton, Heap.wakeAt, hc]
    exact .wake ⟨a, blocked.reverse⟩ (.refl _)

end Undone

theorem owns_of_quiet (hq : Quiet m m')
    (ho : m.heap.Owns m.context.thread (xs ++ updates m.context.stack.frames)) :
    m'.heap.Owns m'.context.thread (xs ++ updates m'.context.stack.frames) := by
  rw [hq.thread, hq.updates]
  exact ho.congr fun a => by rw [hq.grown.owner?]

def discard (remark : Nat → Option Remark) : Frame κ → Machine κ → Machine κ
  | .update a, m => if m.drop.heap.isThunk a then m.drop.resetThunk a remark else m.drop
  | _, m => m.drop

theorem undone_discard {frame : Frame κ} {rest : List (Frame κ)} (remark : Nat → Option Remark)
    (hf : m.context.stack.frames = frame :: rest)
    (ho : m.heap.Owns m.context.thread (xs ++ updates (frame :: rest))) :
    Undone (updates [frame]) m (discard remark frame m) ∧
      (discard remark frame m).context.stack.frames = rest ∧
      (discard remark frame m).heap.Owns (discard remark frame m).context.thread
        (xs ++ updates rest) := by
  obtain ⟨s, hc, hs⟩ := exists_drop hf
  have ht : m.drop.context.thread = m.context.thread := congrArg Core.thread hc
  have hh : m.drop.heap = m.heap := congrArg Core.heap hc
  have hd : Undone [] m m.drop := .of_eq ht hh (congrArg Core.scheduler hc)
  have hr : m.drop.context.stack.frames = rest :=
    (congrArg (fun c => c.stack.frames) hc).trans hs
  cases frame with
  | update a =>
    have hown : m.heap.owner? a = some m.context.thread :=
      (ho.2 a).1 (List.mem_append_right _ List.mem_cons_self)
    obtain ⟨body, blocked, hcell⟩ := Heap.owner?_eq_some_iff.1 hown
    rw [← hh, ← ht] at hcell
    have hthunk : m.drop.heap.isThunk a = true := by simp [Heap.isThunk, Heap.thunk?, hcell]
    have hu : Undone [a] m (m.drop.resetThunk a remark) := hd.trans (.resetThunk remark hcell)
    rw [discard, if_pos hthunk]
    refine ⟨hu, ?_, ?_⟩
    · rw [show (m.drop.resetThunk a remark).context.stack = m.drop.context.stack from
        congrArg Core.stack (m.drop.core_resetThunk a remark), hr]
    · rw [hu.thread]
      exact hu.owns ho
  | _ =>
    refine ⟨hd, hr, ?_⟩
    rw [discard, hh, ht]
    · exact ho
    · intro b hb
      cases hb

theorem undone_abandonFrames (frames : List (Frame κ)) (hf : m.context.stack.frames = frames)
    (ho : m.heap.Owns m.context.thread (xs ++ updates frames)) :
    Undone (updates frames) m (abandonFrames frames m).2 ∧
      (abandonFrames frames m).2.context.stack.frames = [] := by
  induction frames generalizing m with
  | nil => exact ⟨.of_quiet (.refl m), hf⟩
  | cons frame rest ih =>
    obtain ⟨hu, hr, ho₁⟩ := undone_discard (fun _ => none) hf ho
    obtain ⟨hu₁, he⟩ := ih hr ho₁
    cases frame <;> exact ⟨hu.trans hu₁, he⟩

theorem undone_unwindFrames {exception : Address} (frames : List (Frame κ)) (n : Nat)
    (hf : m.context.stack.frames = frames)
    (ho : m.heap.Owns m.context.thread (xs ++ updates frames))
    (hn : (unwindFrames exception frames n m).1 = none) :
    Undone (updates frames) m (unwindFrames exception frames n m).2 ∧
      (unwindFrames exception frames n m).2.context.stack.frames = [] := by
  induction frames generalizing m n with
  | nil => exact ⟨.of_quiet (.refl m), hf⟩
  | cons frame rest ih =>
    obtain ⟨hu, hr, ho₁⟩ := undone_discard resetRemark hf ho
    cases frame with
    | handler f => cases hn
    | _ =>
      obtain ⟨hu₁, he⟩ := ih (n + 1) hr ho₁ hn
      exact ⟨hu.trans hu₁, he⟩

end Undoing

section Settling

theorem undone_unwind {exception : Address}
    (ho : m.heap.Owns m.context.thread (xs ++ updates m.context.stack.frames))
    (hn : (unwind exception m).1 = none) :
    Undone (updates m.context.stack.frames) m (unwind exception m).2 ∧
      (unwind exception m).2.context.stack.frames = [] := by
  have hq : Quiet m (m.setException (some exception)) := .of_core rfl rfl
  obtain ⟨hu, he⟩ := undone_unwindFrames (m := m.setException (some exception)) _ 0 rfl ho hn
  exact ⟨(Undone.of_quiet hq).trans hu, he⟩

theorem undone_uncaught (exception : Address) (halted : Machine κ → Control) (hq : Quiet m m₁)
    (ho : m.heap.Owns m.context.thread (xs ++ updates m.context.stack.frames))
    (hs : ((match (unwind exception m₁).1 with
      | some step => controlOf step
      | none => halted (unwind exception m₁).2), (unwind exception m₁).2) = (.halted e, m')) :
    ∃ as, updates m.context.stack.frames = as ++ updates m'.context.stack.frames ∧
      Undone as m m' := by
  obtain ⟨hc, rfl⟩ := Prod.mk.inj hs
  have ho₁ := owns_of_quiet hq ho
  rcases unwindFrames_fst exception _ 0 (m₁.setException (some exception)) with hn | ⟨f, args, hn⟩
  · obtain ⟨hu, he⟩ := undone_unwind ho₁ hn
    refine ⟨updates m.context.stack.frames, ?_, ?_⟩
    · rw [he, updates, List.append_nil]
    · rw [← hq.updates]
      exact (Undone.of_quiet hq).trans hu
  · have hn : (unwind exception m₁).1 = some (.apply f args) := hn
    rw [hn] at hc
    cases hc

theorem undone_settle {r : Except Fault Step}
    (ho : m.heap.Owns m.context.thread (xs ++ updates m.context.stack.frames))
    (hs : settle r m = (.halted e, m')) :
    ∃ as, updates m.context.stack.frames = as ++ updates m'.context.stack.frames ∧
      Undone as m m' := by
  -- An error that halts the thread leaves the thunks as they are, if it may not be caught, or
  -- else all of them have been taken back in the search for a handler.
  cases r with
  | ok step =>
    cases step with
    | throw exception =>
      have hs : throwValue exception m = (.halted e, m') := hs
      rw [throwValue_eq] at hs
      exact undone_uncaught exception (fun m => uncaught exception m.heap) (.refl m) ho hs
    | _ => cases hs
  | error fault =>
    cases fault with
    | endless => cases hs
    | error e₁ =>
      have hs : raiseError e₁ m = (.halted e, m') := hs
      by_cases hc : e₁.isCatchable = true
      · rw [raiseError_eq hc] at hs
        exact undone_uncaught (raised e₁ m).1 (fun _ => .halted e₁) (plain_raised e₁ m).toQuiet ho hs
      · rw [raiseError_of_not_catchable hc] at hs
        cases hs
        exact ⟨[], rfl, .of_quiet (.refl m)⟩

end Settling

section Attempting

inductive Acquired (m : Machine κ) : List Address → Machine κ → Prop
  | none : Acquired m [] m
  | one {a : Address} {body : Suspension κ} : m.heap.cell a = .thunk (.unevaluated body) →
    Acquired m [a] (m.setHeap (m.heap.write a (.thunk (.underEvaluation m.context.thread body []))))

/-- What the work of an iteration does before it comes to a step or an error: a thunk is entered
perhaps, some evaluations are taken back, and some are lost from the stack. -/
def Attempt (m : Machine κ) (lost entered : List Address) (m' : Machine κ) : Prop :=
  ∃ m₁ m₂ as, Polled m m₁ ∧ Acquired m₁ entered m₂ ∧ Undone as m₂ m' ∧
    entered ++ updates m.context.stack.frames =
      lost ++ (as ++ updates m'.context.stack.frames) ∧ (lost = [] ∨ entered = [])

theorem Attempt.of_polled {lost entered : List Address} (hp : Polled m m₁)
    (h : Attempt m₁ lost entered m') : Attempt m lost entered m' := by
  obtain ⟨m₂, m₃, as, hp₂, ha, hu, hs, hl⟩ := h
  exact ⟨m₂, m₃, as, hp.trans hp₂, ha, hu, hp.stack ▸ hs, hl⟩

theorem Attempt.of_undone (hu : Undone [] m m')
    (hs : updates m'.context.stack.frames = updates m.context.stack.frames) : Attempt m [] [] m' :=
  ⟨m, m, [], .refl m, .none, hu, hs.symm, .inl rfl⟩

theorem Attempt.of_quiet (hq : Quiet m m') : Attempt m [] [] m' :=
  .of_undone (.of_quiet hq) hq.updates

theorem attempt_enter (hp : program.Disciplined) (a : Address) (m : Machine κ) :
    ∃ entered, Attempt m [] entered ((enter program a).outcome m).2 := by
  rcases enter_cases program a m with
    ⟨v, hx⟩ | ⟨e, hx⟩ | ⟨t, -, -, hx⟩ | ⟨body, hcell, hx⟩
  · refine ⟨[], ?_⟩
    rw [Exec.outcome, hx]
    exact .of_quiet (Exec.isPlain_giveBack v m).toQuiet
  · refine ⟨[], ?_⟩
    rw [Exec.outcome, hx]
    exact .of_quiet (.refl m)
  · refine ⟨[], ?_⟩
    rw [Exec.outcome, hx]
    cases hw : m.shared.waiting.register? m.heap m.context.thread a with
    | none =>
      obtain ⟨m₁, hb, hcore⟩ := enterBusy_of_cycle hw
      rw [hb]
      exact .of_quiet (.of_core hcore rfl)
    | some w =>
      obtain ⟨m₁, hb, hcore⟩ := enterBusy_of_register? hw
      rw [hb]
      exact .of_undone (.of_eq (congrArg Core.thread hcore) (congrArg Core.heap hcore)
        (congrArg Core.scheduler hcore)) (congrArg (fun c => updates c.stack.frames) hcore)
  · let m₁ := m.setHeap (m.heap.write a (.thunk (.underEvaluation m.context.thread body [])))
    have hcell₁ : m₁.heap.cell a = .thunk (.underEvaluation m₁.context.thread body []) :=
      Heap.cell_write_thunk hcell
    refine ⟨[a], m, m₁, ?_⟩
    cases hpush : m₁.push (.update a) with
    | error e =>
      have hs : start program a body m₁ = .error (.error e) (m₁.resetThunk a fun _ => none) := by
        rw [start, hpush]
      have hcore := m₁.core_resetThunk a fun _ => none
      rw [Exec.outcome_of_error ((enter_eq_start program hcell).trans hs)]
      refine ⟨[a], .refl m, .one hcell, .resetThunk (fun _ => none) hcell₁, ?_, .inl rfl⟩
      exact congrArg (fun c => a :: updates c.stack.frames) hcore.symm
    | ok m₂ =>
      obtain ⟨s, hs, hc⟩ := Machine.push_eq_ok hpush
      let m₃ := m₂.count fun c => { c with thunkEntries := c.thunkEntries + 1 }
      have hx : start program a body m₁ = run program body.code body.captured m₃ := by
        rw [start, hpush]
      have hq : Quiet m₃ ((run program body.code body.captured).outcome m₃).2 :=
        (hp body.code body.captured).isQuiet m₃
      have hu : Undone [] m₁ m₃ := .of_eq (congrArg Core.thread hc) (congrArg Core.heap hc)
        (congrArg Core.scheduler hc)
      refine ⟨[], .refl m, .one hcell, ?_⟩
      rw [Exec.outcome, enter_eq_start program hcell, hx]
      refine ⟨hu.trans (.of_quiet hq), ?_, .inl rfl⟩
      have hframes : m₃.context.stack.frames = .update a :: m.context.stack.frames :=
        (congrArg (fun c => c.stack.frames) hc).trans (FrameStack.frames_of_push hs).1
      exact (congrArg updates hframes).symm.trans hq.updates.symm

/-- The thunk of an update frame that is about to be resumed without a result. -/
def stranded (c : Control) (m : Machine κ) : List Address :=
  match c, m.context.registers.result?, m.context.stack.frames with
  | .resuming, none, .update a :: _ => [a]
  | _, _, _ => []

theorem stranded_of_polled {c : Control} (hp : Polled m m₁) : stranded c m₁ = stranded c m := by
  simp only [stranded, hp.registers, hp.stack]

theorem Acquired.owns {entered : List Address} {t : ThreadId} {as : List Address}
    (ht : m.context.thread = t) (ho : m.heap.Owns t as) (h : Acquired m entered m') :
    m'.heap.Owns t (entered ++ as) := by
  cases h with
  | none => exact ho
  | one hc =>
    subst ht
    exact ho.acquire hc

theorem Acquired.cells {entered : List Address} (h : Acquired m entered m') :
    m'.scheduler = m.scheduler ∧ m'.heap.size = m.heap.size ∧
      (∀ a, a ∉ entered → m'.heap.cell a = m.heap.cell a) ∧
      ∀ a ∈ entered, ∃ body, m.heap.cell a = .thunk (.unevaluated body) ∧
        m'.heap.cell a = .thunk (.underEvaluation m.context.thread body []) := by
  cases h with
  | none => exact ⟨rfl, rfl, fun _ _ => rfl, nofun⟩
  | @one b body hc =>
    refine ⟨rfl, Array.size_setIfInBounds, fun a ha => Heap.cell_write_of_ne fun hab => ha ?_,
      fun a ha => ?_⟩
    · exact List.mem_singleton.2 hab.symm
    · rw [List.mem_singleton.1 ha]
      exact ⟨body, hc, Heap.cell_write_thunk hc⟩

theorem Acquired.thread {entered : List Address} (h : Acquired m entered m') :
    m'.context.thread = m.context.thread := by
  cases h <;> rfl

namespace Acquired

variable {entered freed : List Address}

theorem kept (ha : Acquired m entered m₁) (hu : Undone (entered ++ freed) m₁ m') {a : Address}
    (has : a.index < m.heap.size) (hfa : a ∉ freed) : m'.heap.cell a = m.heap.cell a := by
  obtain ⟨-, hsize, hcell, hentered⟩ := ha.cells
  by_cases hea : a ∈ entered
  · obtain ⟨body, hc, hc₁⟩ := hentered a hea
    obtain ⟨body', blocked, hc', hc₂⟩ := hu.undone a (List.mem_append_left _ hea)
    rw [hc₁] at hc'
    simp only [Cell.thunk.injEq, ThunkState.underEvaluation.injEq] at hc'
    exact hc₂.trans (by rw [hc, hc'.2.1])
  · have hk := hu.kept a (hsize ▸ has) fun h => (List.mem_append.1 h).elim hea hfa
    exact hk.trans (hcell a hea)

theorem told (ha : Acquired m entered m₁) (hu : Undone (entered ++ freed) m₁ m')
    (hnot : ∀ a ∈ freed, a ∉ entered) :
    m.scheduler.Told (entered.map (⟨·, []⟩) ++ freed.map m.heap.wakeAt) m'.scheduler := by
  obtain ⟨hsched, -, hcell, hentered⟩ := ha.cells
  have hnobody : entered.map m₁.heap.wakeAt = entered.map (⟨·, []⟩) :=
    List.map_congr_left fun a hea => by
      obtain ⟨body, -, hc⟩ := hentered a hea
      rw [Heap.wakeAt, hc]
      rfl
  have hothers : freed.map m₁.heap.wakeAt = freed.map m.heap.wakeAt :=
    List.map_congr_left fun a hfa => by rw [Heap.wakeAt, Heap.wakeAt, hcell a (hnot a hfa)]
  rw [← hnobody, ← hothers, ← List.map_append, ← hsched]
  exact hu.told

end Acquired

namespace Attempt

variable {lost entered : List Address}

theorem thread (h : Attempt m lost entered m') : m'.context.thread = m.context.thread := by
  obtain ⟨m₁, m₂, as, hp, ha, hu, -⟩ := h
  rw [hu.thread, ha.thread, hp.thread]

theorem owns (h : Attempt m lost entered m') (ho : m.Owning) :
    m'.heap.Owns m'.context.thread (lost ++ updates m'.context.stack.frames) := by
  rw [h.thread]
  obtain ⟨m₁, m₂, as, hp, ha, hu, hs, -⟩ := h
  have ho₁ : m₁.heap.Owns m.context.thread (updates m.context.stack.frames) := hp.heap ▸ ho
  have ho₂ := ha.owns hp.thread ho₁
  rw [hs] at ho₂
  exact hu.owns ho₂

theorem undone (h : Attempt m lost entered m₁) (hu : Undone bs m₁ m₂)
    (hb : updates m₁.context.stack.frames = bs ++ updates m₂.context.stack.frames) :
    Attempt m lost entered m₂ := by
  obtain ⟨m₃, m₄, as, hp, ha, hu₁, hs, hl⟩ := h
  refine ⟨m₃, m₄, as ++ bs, hp, ha, hu₁.trans hu, ?_, hl⟩
  rw [hs, hb, List.append_assoc]

theorem settle {r : Except Fault Step} (h : Attempt m lost entered m₁) (ho : m.Owning)
    (hs : Evaluation.settle r m₁ = (.halted e, m')) : Attempt m lost entered m' := by
  obtain ⟨bs, hb, hu⟩ := undone_settle (h.owns ho) hs
  exact h.undone hu hb

end Attempt

structure Stays (c : Control) (m : Machine κ) (c' : Control) (m' : Machine κ) : Prop where
  thread : m'.context.thread = m.context.thread
  owning : (∀ e, c' ≠ .halted e) → m'.Owning
  attempt : ∀ e, c' = .halted e → ∃ entered, Attempt m (stranded c m) entered m'

theorem Stays.of_polled {c c' : Control} (hp : Polled m m₁) (h : Stays c m₁ c' m') :
    Stays c m c' m' where
  thread := h.thread.trans hp.thread
  owning := h.owning
  attempt e he := by
    obtain ⟨entered, ha⟩ := h.attempt e he
    rw [stranded_of_polled hp] at ha
    exact ⟨entered, ha.of_polled hp⟩

theorem stays_follow {c c' : Control} {x : Exec κ Step} (hc : stranded c m = [])
    (ha : ∃ entered, Attempt m [] entered (x.outcome m₁).2) (ho : m.Owning)
    (h : follow x m₁ = (.next c', m')) : Stays c m c' m' := by
  obtain ⟨entered, ha⟩ := ha
  rw [follow_eq] at h
  obtain ⟨hc', hm'⟩ := Prod.mk.inj h
  have hs := settled_settle (x.outcome m₁).1 (ha.owns ho)
  rw [Turn.next.inj hc', hm'] at hs
  constructor
  case thread => exact hs.orderly.thread.trans ha.thread
  case owning => exact fun _ => hs.orderly.owning
  case attempt =>
    rintro e rfl
    rw [hc]
    exact ⟨entered, ha.settle ho (Prod.ext (Turn.next.inj hc') hm')⟩

theorem stays_resumeFrame {frame : Frame κ} {s : FrameStack κ} {c' : Control}
    (hp : program.Disciplined) (ho : m.Owning) (hf : m.context.stack.frames = frame :: s.frames)
    (hl : s.limit = m.context.stack.limit) (hcore : m₁.core = { m.core with stack := s })
    (h : follow (resumeFrame program frame) m₁ = (.next c', m')) : Stays .resuming m c' m' := by
  have hpop : Undone [] m m₁ := .of_eq (congrArg Core.thread hcore) (congrArg Core.heap hcore)
    (congrArg Core.scheduler hcore)
  have hframes : m₁.context.stack.frames = s.frames :=
    congrArg (fun c => c.stack.frames) hcore
  have hplain (hn : ∀ a, frame ≠ .update a) : Quiet m m₁ ∧ stranded .resuming m = [] := by
    refine ⟨.of_core hcore ?_, ?_⟩
    · rw [hf, updates_cons_of_ne _ hn]
    · unfold stranded
      split
      · next hu =>
        rw [hf] at hu
        exact absurd (List.cons.inj hu).1 (hn _)
      · rfl
  cases frame with
  | apply v =>
    obtain ⟨hq, hn⟩ := hplain nofun
    exact stays_follow hn ⟨[], .of_quiet (hq.trans (isQuiet_applyFrame hp v m₁))⟩ ho h
  | case code captured =>
    obtain ⟨hq, hn⟩ := hplain nofun
    exact stays_follow hn ⟨[], .of_quiet (hq.trans ((hp code captured).isQuiet m₁))⟩ ho h
  | handler f =>
    obtain ⟨hq, hn⟩ := hplain nofun
    have ha : Attempt m [] [] ((resumeFrame program (.handler f)).outcome m₁).2 := .of_quiet hq
    exact stays_follow hn ⟨[], ha⟩ ho h
  | update a =>
    cases hr : m.context.registers.result? with
    | some p =>
      have hr₁ : m₁.context.registers.result? = some p := by
        rw [show m₁.context.registers = m.context.registers from congrArg Core.registers hcore, hr]
      obtain ⟨step, m₂, hx, hord, hstep⟩ :=
        updateThunk_cases hr₁ (room_of_popped hf hl hcore) (owns_of_popped ho hf hcore rfl)
      have hord := hord.of_popped hcore
      have hx : resumeFrame program (.update a) m₁ = .ok step m₂ := hx
      rw [follow_eq, Exec.outcome_of_ok hx] at h
      rcases hstep with ⟨rfl, -⟩ | ⟨b, rfl⟩ <;> cases h <;>
        exact ⟨hord.thread, fun _ => hord.owning, nofun⟩
    | none =>
      -- The frame is gone, but its thunk was neither updated nor reset.
      have hr₁ : m₁.context.registers.result? = none := by
        rw [show m₁.context.registers = m.context.registers from congrArg Core.registers hcore, hr]
      have hx : resumeFrame program (.update a) m₁ =
          Exec.raise (.emptyRegister .boxed 1) m₁ := by
        simp only [resumeFrame, updateThunk, Registers.readClosure_one, hr₁]
      have hfollow : follow (resumeFrame program (.update a)) m₁ =
          (.next (.halted (.emptyRegister .boxed 1)), m₁) := (follow_congr hx).trans rfl
      rw [hfollow] at h
      cases h
      have hlost : stranded .resuming m = [a] := by simp only [stranded, hr, hf]
      refine ⟨hpop.thread, fun hn => absurd rfl (hn _), fun _ _ => ⟨[], ?_⟩⟩
      rw [hlost]
      refine ⟨m, m, [], .refl m, .none, hpop, ?_, .inr rfl⟩
      rw [hf, hframes]
      rfl

theorem stays_advance (hp : program.Disciplined) {c c' : Control} (ho : m.Owning)
    (h : advance program c m = (.next c', m')) : Stays c m c' m' := by
  have hpoll : Polled m (reportControl c m) := .report m c
  have ho₁ := hpoll.owning ho
  cases c with
  | entering a =>
    exact .of_polled hpoll (stays_follow rfl (attempt_enter hp a _) ho₁ h)
  | applying f args =>
    exact .of_polled hpoll
      (stays_follow rfl ⟨[], .of_quiet (isQuiet_apply hp f args _)⟩ ho₁ h)
  | resuming =>
    refine .of_polled hpoll ?_
    cases hf : (reportControl .resuming m).context.stack.frames with
    | cons frame rest =>
      obtain ⟨m₂, s, hpop, hcore, hs, hl⟩ := Machine.exists_pop? hf
      rw [advance_of_pop? program hpop] at h
      exact stays_resumeFrame hp ho₁ (hs ▸ hf) hl hcore h
    | nil =>
      have hnone := Machine.pop?_eq_none hf
      cases hr : (reportControl .resuming m).context.registers.result? with
      | some p =>
        rw [advance_of_pop?_eq_none program hnone hr] at h
        cases h
      | none =>
        rw [advance_of_result?_eq_none program hnone hr] at h
        cases h
        refine ⟨rfl, fun hn => absurd rfl (hn _), fun _ _ => ⟨[], ?_⟩⟩
        have hlost : stranded .resuming (reportControl .resuming m) = [] := by
          simp only [stranded, hf, hr]
        rw [hlost]
        exact .of_quiet (.refl _)
  | blocked a => cases h
  | halted e => cases h
  | endless => cases h

end Attempting

end Halting

end GraphReduction
