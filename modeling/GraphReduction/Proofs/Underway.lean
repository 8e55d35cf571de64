import GraphReduction.Proofs.Bodies
import GraphReduction.Proofs.Carried
import GraphReduction.Proofs.Lasting
import GraphReduction.Worker

namespace GraphReduction.WeakHead

open Evaluation CellOperations

variable {κ : Type} {program : Program κ}

section Definitions

inductive Place (κ : Type) where
  | ready (thread : Thread κ)
  | running (n : Nat) (control : Control)
  | waiting (thread : Thread κ) (thunk : Address)
  | returned (result : Except RuntimeError Address)

def Place.after (n : Nat) : Turn κ → Option (Place κ)
  | .next c => some (.running (n + 1) c)
  | .over (.finished v) => some (.returned (.ok v))
  | .over (.halted e) => some (.returned (.error e))
  | .over (.yielded t) => some (.ready t)
  | .over (.blocked t a) => some (.waiting t a)
  | .over .endless => none

structure Stage (κ : Type) where
  machine : Machine κ
  resumptions : List Resumption
  place : Place κ

/-- A worker goes on evaluating, and other threads do their operations on the heap between its
iterations. They may do what they like to the scheduler and to the rest of the shared state, and may
interrupt the worker. -/
inductive Progress (program : Program κ) : Stage κ → Stage κ → Prop where
  | begin (m : Machine κ) (rs : List Resumption) (t : Thread κ) :
      Progress program ⟨m, rs, .ready t⟩ ⟨(begin t m).2, rs, .running 0 (begin t m).1⟩
  | iterate {m : Machine κ} {rs : List Resumption} {n : Nat} {c : Control} {p : Place κ} :
      Place.after n (iterate program n c m).1 = some p →
      Progress program ⟨m, rs, .running n c⟩ ⟨(iterate program n c m).2, rs, p⟩
  | settled {m : Machine κ} {rs : List Resumption} {t : Thread κ} {a : Address} :
      m.heap.owner? a = none → Progress program ⟨m, rs, .waiting t a⟩ ⟨m, rs, .ready t⟩
  | others {m m' : Machine κ} {rs rs' : List Resumption} {p : Place κ} :
      Operations ⟨m.heap, rs⟩ ⟨m'.heap, rs'⟩ → (m.heap.Closed → m'.heap.Closed) →
      m'.context = { m.context with interrupted := m'.context.interrupted } →
      Progress program ⟨m, rs, p⟩ ⟨m', rs', p⟩

def Evaluates (program : Program κ) : Stage κ → Stage κ → Prop :=
  Relation.ReflTransGen (Progress program)

def Stage.start (m : Machine κ) (rs : List Resumption) (c : Address) (limit : Nat) : Stage κ :=
  ⟨{ m with shared := (m.shared.spawn c limit).2 }, rs, .ready (m.shared.spawn c limit).1⟩

end Definitions

section Agreeing

variable {h h' : Heap κ} {c v w : Address}

structure Agree (h : Heap κ) (c v : Address) : Prop where
  left : h.Valued c
  right : h.Valued v
  resolve : h.resolve c = h.resolve v

theorem Agree.later (ha : Agree h c v) (hl : h.Later h') : Agree h' c v :=
  ⟨ha.left.later hl, ha.right.later hl,
    by rw [ha.left.resolve_later hl, ha.right.resolve_later hl, ha.resolve]⟩

theorem agree_self (hc : h.Valued c) : Agree h c c := ⟨hc, hc, rfl⟩

theorem agree_of_target? (hd : h.Directed) (hv : h.target? c = some v) : Agree h c v :=
  ⟨.indirection hv (hd c v hv), hd c v hv, hd.resolve_of_target? hv⟩

theorem agree_settle {p : Address} (ho : Ordered ⟨h, []⟩) (hp : p.index < h.size)
    (hv : h.isValue (h.resolve p) = true) (hc : h.isThunk c = true) (ht : h.target? c = none) :
    Agree (h.settle c (h.resolve p)).2 c p := by
  -- The result that is published may itself be at the start of a chain.
  obtain ⟨ho', hl⟩ := ho.run (operated_settled ho.directed hp hv ht [])
  have hl : h.Later (h.settle c (h.resolve p)).2 := hl
  obtain ⟨hn, hleads⟩ := ho.directed.resolve_spec p
  have hvalue := ho.directed.valued_of_isValue (ho.directed.lt_size_of_leads hleads hp) hv
  have hpv : h.Valued p := .of_leads hleads hvalue
  have htarget : (h.settle c (h.resolve p)).2.target? c = some (h.resolve p) := by
    obtain ⟨s, hs⟩ := Option.isSome_iff_exists.1 hc
    have hcell := Heap.thunk?_eq_some_iff.1 hs
    rw [Heap.target?_eq_some_iff]
    cases s with
    | evaluated w =>
      rw [Heap.target?_eq_some_iff.2 hcell] at ht
      cases ht
    | _ => simp only [Heap.settle, hcell, Heap.cell_write_thunk hcell]
  have hcr := agree_of_target? ho'.directed htarget
  refine ⟨hcr.left, hpv.later hl, ?_⟩
  rw [hcr.resolve, hvalue.resolve_later hl, hpv.resolve_later hl,
    Heap.resolve_of_target?_eq_none hn]

end Agreeing

section Invariant

variable {c : Address} {m m' m₁ : Machine κ}

def Suspended (c : Address) (h : Heap κ) (t : Thread κ) : Prop :=
  (t.stack.frames = [] ∧ t.pending = .enter c) ∨
    (Frame.Based c t.stack.frames ∧ (∀ frame ∈ t.stack.frames, frame.Within h.size) ∧
      t.pending.Within h.size) ∨
    (t.stack.frames = [] ∧ ∃ v, t.pending = .resume v ∧ Agree h c v)

def Working (c : Address) (m : Machine κ) (control : Control) : Prop :=
  control.Final ∨
    (m.context.stack.frames = [] ∧ (control = .entering c ∨ control = .blocked c)) ∨
    (Frame.Based c m.context.stack.frames ∧ control.Within m.heap.size) ∨
    (m.context.stack.frames = [] ∧ control = .resuming ∧
      ∃ v, m.context.registers.result? = some v ∧ Agree m.heap c v)

def Standing (c : Address) (m : Machine κ) : Place κ → Prop
  | .ready t => Suspended c m.heap t
  | .running _ control => Working c m control
  | .waiting t _ => Suspended c m.heap t
  | .returned result => ∀ v, result = .ok v → Agree m.heap c v

structure Underway (c : Address) (s : Stage κ) : Prop where
  ordered : Ordered ⟨s.machine.heap, s.resumptions⟩
  closed : s.machine.Closed
  lt_size : c.index < s.machine.heap.size
  applicable : ∀ f args, s.machine.heap.cell c ≠ .unsaturated f args
  standing : Standing c s.machine s.place

theorem Suspended.later {h h' : Heap κ} {t : Thread κ} (hs : Suspended c h t) (hl : h.Later h') :
    Suspended c h' t := by
  rcases hs with hs | ⟨hb, hf, hp⟩ | ⟨hf, v, hp, ha⟩
  · exact .inl hs
  · exact .inr (.inl ⟨hb, fun frame h => (hf frame h).mono hl.size_le, hp.mono hl.size_le⟩)
  · exact .inr (.inr ⟨hf, v, hp, ha.later hl⟩)

theorem Working.later {control : Control} (hw : Working c m control) (hl : m.heap.Later m'.heap)
    (hr : m'.context.registers = m.context.registers) (hs : m'.context.stack = m.context.stack) :
    Working c m' control := by
  unfold Working
  rw [hr, hs]
  rcases hw with hw | hw | ⟨hb, hc⟩ | ⟨hf, hc, v, hv, ha⟩
  · exact .inl hw
  · exact .inr (.inl hw)
  · exact .inr (.inr (.inl ⟨hb, hc.mono hl.size_le⟩))
  · exact .inr (.inr (.inr ⟨hf, hc, v, hv, ha.later hl⟩))

theorem Standing.later {p : Place κ} (hp : Standing c m p) (hl : m.heap.Later m'.heap)
    (hr : m'.context.registers = m.context.registers) (hs : m'.context.stack = m.context.stack) :
    Standing c m' p := by
  cases p with
  | ready t => exact Suspended.later hp hl
  | running n control => exact Working.later hp hl hr hs
  | waiting t a => exact Suspended.later hp hl
  | returned result => exact fun v hv => (hp v hv).later hl

theorem applicable_later {h h' : Heap κ} (hl : h.Later h') (hlt : c.index < h.size)
    (hc : ∀ f args, h.cell c ≠ .unsaturated f args) (f : Address) (args : List Value) :
    h'.cell c ≠ .unsaturated f args := by
  intro he
  cases ht : h.isThunk c with
  | false => exact hc f args ((hl.fixed c hlt ht).symm.trans he)
  | true =>
    have ht' := hl.thunks c ht
    rw [Heap.isThunk, Heap.thunk?, he] at ht'
    cases ht'

theorem closed_release (hh : m.heap.Closed) : m.release.Closed where
  heap := hh
  registers i a ha := by
    change (Vector.replicate registersPerKind none).get i = some a at ha
    simp [Vector.get] at ha
  frames := nofun

theorem suspended_of_point {control : Control} {pending : Pending} (hm : m.Closed)
    (hw : Working c m control) (hp : suspensionPoint control m = .ok pending) :
    Suspended c m.heap ⟨m.context.thread, m.context.stack, pending⟩ := by
  cases control with
  | entering a =>
    cases hp
    rcases hw with hw | ⟨hf, he | he⟩ | ⟨hb, ha⟩ | ⟨-, he, -⟩
    · exact hw.elim
    · cases he
      exact .inl ⟨hf, rfl⟩
    · cases he
    · exact .inr (.inl ⟨hb, hm.frames, ha⟩)
    · cases he
  | applying f args =>
    cases hp
    rcases hw with hw | ⟨-, he | he⟩ | ⟨hb, ha⟩ | ⟨-, he, -⟩
    · exact hw.elim
    · cases he
    · cases he
    · exact .inr (.inl ⟨hb, hm.frames, ha⟩)
    · cases he
  | resuming =>
    have hread := Registers.readClosure_one m.context.registers
    cases hr : m.context.registers.result? with
    | none =>
      simp only [suspensionPoint, hread, hr] at hp
      cases hp
    | some r =>
      simp only [suspensionPoint, hread, hr] at hp
      cases hp
      rcases hw with hw | ⟨-, he | he⟩ | ⟨hb, -⟩ | ⟨hf, -, v, hv, ha⟩
      · exact hw.elim
      · cases he
      · cases he
      · exact .inr (.inl ⟨hb, hm.frames, hm.registers 0 r hr⟩)
      · rw [hr] at hv
        cases hv
        exact .inr (.inr ⟨hf, r, rfl, ha⟩)
  | _ => cases hp

theorem suspended_of_blocked {a : Address} (hm : m.Closed) (hw : Working c m (.blocked a)) :
    Suspended c m.heap ⟨m.context.thread, m.context.stack, .enter a⟩ := by
  rcases hw with hw | ⟨hf, he | he⟩ | ⟨hb, ha⟩ | ⟨-, he, -⟩
  · exact hw.elim
  · cases he
  · cases he
    exact .inl ⟨hf, rfl⟩
  · exact .inr (.inl ⟨hb, hm.frames, ha⟩)
  · cases he

theorem closed_released (hm : m.Closed) (hc : m'.core = m.release.core) : m'.Closed :=
  (Carried.of_core (closed_release hm.heap) hc).closed

theorem working_of_onward {control : Control} (ho : Onward m control m')
    (hb : Frame.Based c m.context.stack.frames) : Working c m' control :=
  ho.based.imp_right fun h => .inr (.inl ⟨h c hb, ho.within⟩)

end Invariant

section Iterating

variable {c : Address} {m m' m₁ m₂ : Machine κ} {x : Exec κ Step} {control : Control} {n : Nat}

def Arrives (c : Address) (n : Nat) (r : Turn κ × Machine κ) : Prop :=
  ∀ p, Place.after n r.1 = some p → r.2.Closed ∧ Standing c r.2 p

theorem arrives_next (hm : m.Closed) (hw : Working c m control) :
    Arrives c n (.next control, m) := by
  intro p hp
  cases hp
  exact ⟨hm, hw⟩

theorem arrives_follow (hx : x.Carries Exec.Names m)
    (hb : Frame.Based c m.context.stack.frames) : Arrives c n (follow x m) := by
  have ho := onward_follow hx
  exact follow_eq x m ▸ arrives_next ho.closed (working_of_onward ho hb)

theorem arrives_error {e : RuntimeError} (hx : x.Carries Exec.Names m)
    (he : x m = .error (.error e) m₁) (hf : m₁.context.stack.frames = []) :
    Arrives c n (follow x m) := by
  have ho := onward_follow hx
  rw [Exec.outcome_of_error he] at ho
  rw [follow_eq, Exec.outcome_of_error he]
  exact arrives_next ho.closed (.inl (final_settle_error _ hf))

theorem arrives_step {step : Step} (hx : x.Carries Exec.Names m) (hs : x m = .ok step m₁)
    (hn : ∀ e, step ≠ .throw e) (hw : Working c m₁ (controlOf step)) :
    Arrives c n (follow x m) := by
  have hclosed := hx.1.closed
  rw [Exec.outcome_of_ok hs] at hclosed
  have hf : follow x m = (.next (controlOf step), m₁) := by
    rw [follow_eq, Exec.outcome_of_ok hs]
    cases step with
    | throw e => exact absurd rfl (hn e)
    | _ => rfl
  exact hf ▸ arrives_next hclosed hw

theorem working_giveBack {v : Address} (hf : m.context.stack.frames = []) (ha : Agree m.heap c v) :
    Working c (m.setResult v) .resuming :=
  .inr (.inr (.inr ⟨hf, rfl, v, Registers.result?_setResult _ _, ha⟩))

variable (hp : program.Disciplined) (hc : program.Closed)
include hp hc

theorem arrives_enter (hd : m.heap.Directed) (hm : m.Closed) (hlt : c.index < m.heap.size)
    (happ : ∀ f args, m.heap.cell c ≠ .unsaturated f args) (hf : m.context.stack.frames = []) :
    Arrives c n (follow (enter program c) m) := by
  have hx := carries_enter hp hc hm hlt
  rcases enter_spec program c m with ⟨f, args, hcell, -⟩ | ⟨hn, he⟩ | ⟨v, hv, he⟩ | ⟨-, he⟩ |
    ⟨t, -, -, he⟩ | ⟨body, hcell, he⟩
  · exact absurd hcell (happ f args)
  · exact arrives_step hx he nofun (working_giveBack hf (agree_self (.value hlt hn)))
  · exact arrives_step hx he nofun (working_giveBack hf (agree_of_target? hd hv))
  · exact arrives_error hx he hf
  · cases hw : m.shared.waiting.register? m.heap m.context.thread c with
    | none =>
      obtain ⟨m₁, hb, hcore⟩ := enterBusy_of_cycle hw
      refine arrives_error hx (he.trans hb) ?_
      rw [show m₁.context.stack = m.context.stack from congrArg Core.stack hcore, hf]
    | some w =>
      obtain ⟨m₁, hb, hcore⟩ := enterBusy_of_register? hw
      refine arrives_step hx (he.trans hb) nofun (.inr (.inl ⟨?_, .inr rfl⟩))
      rw [show m₁.context.stack = m.context.stack from congrArg Core.stack hcore, hf]
  · obtain ⟨h₁, hbody⟩ := carried_acquire hm hcell
    let m₁ := m.setHeap (m.heap.write c (.thunk (.underEvaluation m.context.thread body [])))
    cases hpush : m₁.push (.update c) with
    | error e =>
      -- The evaluation is taken back when there is no room for the frame, and the thread halts.
      have hs : start program c body m₁ = .error (.error e) (m₁.resetThunk c fun _ => none) := by
        simp only [start, hpush]
      refine arrives_error hx (he.trans hs) ?_
      rw [show (m₁.resetThunk c fun _ => none).context.stack = m₁.context.stack from
        congrArg Core.stack (m₁.core_resetThunk c _)]
      exact hf
    | ok m₂ =>
      obtain ⟨m₃, h₃, hstack, hs⟩ :=
        carried_started body h₁.closed (Nat.lt_of_lt_of_le hlt h₁.size_le) hpush
      obtain ⟨s, hpushed, hcore⟩ := Machine.push_eq_ok hpush
      -- From here on the update frame of the closure is at the bottom of the stack.
      have hb : Frame.Based c m₃.context.stack.frames := by
        rw [hstack, show m₂.context.stack = s from congrArg Core.stack hcore,
          (FrameStack.frames_of_push hpushed).1, show m₁.context.stack.frames = [] from hf]
        exact List.suffix_rfl
      rw [follow_congr (he.trans hs)]
      exact arrives_follow (carries_run hp hc h₃.closed (hbody.mono (h₁.trans h₃).size_le)) hb

omit hp hc in
theorem arrives_updateThunk (ho : Ordered ⟨m.heap, []⟩) (hm : m.Closed) (hlt : c.index < m.heap.size)
    (hf : m.context.stack.frames = []) : Arrives c n (follow (updateThunk c) m) := by
  have hx : (updateThunk c : Exec κ Step).Carries Exec.Names m := carries_updateThunk hm hlt
  rcases updateThunk_spec c m with ⟨e, m', he, hcore, -⟩ | ⟨p, s, m', hr, -, -, hs, he, hcore⟩ |
    ⟨p, w, m', -, -, hw, he, hcore⟩ | ⟨p, m', hr, ha, hv, ht, he, hcore⟩
  · refine arrives_error hx he ?_
    rw [show m'.context.stack = m.context.stack from congrArg Core.stack hcore, hf]
  · have hnames : (Step.enter (m.heap.resolve p)).Within m'.heap.size := by
      have hstep := hx.2 (.enter (m.heap.resolve p))
      rw [Exec.outcome_of_ok he] at hstep
      exact hstep rfl
    refine arrives_step hx he nofun (.inr (.inr (.inl ⟨?_, hnames⟩)))
    rw [show m'.context.stack = s from congrArg Core.stack hcore,
      (FrameStack.frames_of_push hs).1, hf]
    exact List.suffix_rfl
  · have hh : m'.heap = m.heap := congrArg Core.heap hcore
    refine arrives_step hx he nofun (.inr (.inr (.inr ⟨?_, rfl, w, ?_, ?_⟩)))
    · rw [show m'.context.stack = m.context.stack from congrArg Core.stack hcore, hf]
    · rw [show m'.context.registers = m.context.registers.setResult w from
        congrArg Core.registers hcore, Registers.result?_setResult]
    · rw [hh]
      exact agree_of_target? ho.directed hw
  · have hh : m'.heap = (m.heap.settle c (m.heap.resolve p)).2 := congrArg Core.heap hcore
    refine arrives_step hx he nofun (.inr (.inr (.inr ⟨?_, rfl, p, ?_, ?_⟩)))
    · rw [show m'.context.stack = m.context.stack from congrArg Core.stack hcore, hf]
    · rw [show m'.context.registers = m.context.registers from congrArg Core.registers hcore, hr]
    · rw [hh]
      exact agree_settle ho (hm.registers 0 p hr) hv ha ht

theorem arrives_resume {frame : Frame κ} {rest : List (Frame κ)} (ho : Ordered ⟨m.heap, []⟩)
    (hm : m.Closed) (hlt : c.index < m.heap.size) (hf : m.context.stack.frames = frame :: rest)
    (hb : Frame.Based c m.context.stack.frames) {s : FrameStack κ}
    (hcore : m₂.core = { m.core with stack := s }) (hs : s.frames = rest) :
    Arrives c n (follow (resumeFrame program frame) m₂) := by
  have hh : m₂.heap = m.heap := congrArg Core.heap hcore
  have hstack : m₂.context.stack.frames = rest := (congrArg (fun c => c.stack.frames) hcore).trans hs
  have hall := hm.frames
  rw [hf] at hall hb
  obtain ⟨hframe, hrest⟩ := List.forall_mem_cons.1 hall
  have hm₂ : m₂.Closed := by
    refine ⟨hh ▸ hm.heap, ?_, ?_⟩
    · rw [hh, show m₂.context.registers = m.context.registers from congrArg Core.registers hcore]
      exact hm.registers
    · rw [hh, hstack]
      exact hrest
  rw [← hh] at hframe hlt ho
  -- The frame is the last one, which publishes the result, or it lies above the last one.
  rcases hb.of_cons with hb | ⟨rfl, rfl⟩
  · exact arrives_follow (carries_resumeFrame hp hc hm₂ hframe) (hstack ▸ hb)
  · exact arrives_updateThunk ho hm₂ hlt hstack

omit hp hc in
theorem arrives_halted (e : RuntimeError) (hm : m.Closed) :
    Arrives c n (advance program (.halted e) m) := by
  let m₁ := (reportControl (.halted e) m).report .trampoline fun _ =>
    ⟨.debug, "halting", [("error", e.message)]⟩
  have hm₁ : m₁.Closed :=
    (Carried.of_core hm ((Machine.core_report _ _ _).trans (m.core_reportControl _))).closed
  intro p hp
  cases hp
  exact ⟨closed_release (closed_abandonFrames _ hm₁ rfl).1.heap, nofun⟩

theorem arrives_advance (ho : Ordered ⟨m.heap, []⟩) (hm : m.Closed) (hlt : c.index < m.heap.size)
    (happ : ∀ f args, m.heap.cell c ≠ .unsaturated f args) (hw : Working c m control) :
    Arrives c n (advance program control m) := by
  let m₁ := reportControl control m
  have hcore : m₁.core = m.core := m.core_reportControl control
  have hh : m₁.heap = m.heap := congrArg Core.heap hcore
  have hm₁ : m₁.Closed := (Carried.of_core hm hcore).closed
  have hw₁ : Working c m₁ control :=
    hw.later (.of_eq hh) (congrArg Core.registers hcore) (congrArg Core.stack hcore)
  rw [← hh] at ho hlt happ
  cases control with
  | entering a =>
    rcases hw₁ with hw₁ | ⟨hf, he | he⟩ | ⟨hb, ha⟩ | ⟨-, he, -⟩
    · exact hw₁.elim
    · cases he
      exact arrives_enter hp hc ho.directed hm₁ hlt happ hf
    · cases he
    · exact arrives_follow (carries_enter hp hc hm₁ ha) hb
    · cases he
  | applying f args =>
    rcases hw₁ with hw₁ | ⟨-, he | he⟩ | ⟨hb, ha⟩ | ⟨-, he, -⟩
    · exact hw₁.elim
    · cases he
    · cases he
    · exact arrives_follow (carries_apply hp hc hm₁ ha.1 ha.2) hb
    · cases he
  | resuming =>
    rcases hw₁ with hw₁ | ⟨-, he | he⟩ | ⟨hb, -⟩ | ⟨hf, -, v, hv, ha⟩
    · exact hw₁.elim
    · cases he
    · cases he
    · cases hf : m₁.context.stack.frames with
      | nil => exact absurd (List.suffix_nil.1 (hf ▸ hb)) (List.cons_ne_nil _ _)
      | cons frame rest =>
        obtain ⟨m₂, s, hpop, hcore₂, hs₂, -⟩ := Machine.exists_pop? hf
        rw [advance_of_pop? program hpop]
        exact arrives_resume hp hc ho hm₁ hlt hf hb hcore₂ hs₂
    · rw [advance_of_pop?_eq_none program (Machine.pop?_eq_none hf) hv]
      intro p hp
      cases hp
      refine ⟨closed_release hm₁.heap, fun w hw => ?_⟩
      cases hw
      exact ha
  | blocked a =>
    intro p hp
    cases hp
    refine ⟨closed_released hm₁ (Machine.core_report _ _ _), ?_⟩
    exact (suspended_of_blocked hm₁ hw₁).later (.of_eq (congrArg Core.heap (Machine.core_report _ _ _)))
  | halted e => exact arrives_halted e hm
  | endless => exact nofun

theorem arrives_iterate (ho : Ordered ⟨m.heap, []⟩) (hm : m.Closed) (hlt : c.index < m.heap.size)
    (happ : ∀ f args, m.heap.cell c ≠ .unsaturated f args) (hw : Working c m control) :
    Arrives c n (iterate program n control m) := by
  obtain ⟨m₁, hpoll, hi⟩ := Halting.iterate_cases n control m
  have hm₁ : m₁.Closed := by
    refine (Carried.of_heap hm ?_ ?_ hpoll.registers hpoll.stack).closed
    · exact hpoll.heap ▸ hm.heap
    · exact Nat.le_of_eq (by rw [hpoll.heap])
  have hw₁ : Working c m₁ control :=
    hw.later (.of_eq hpoll.heap) hpoll.registers hpoll.stack
  rw [← hpoll.heap] at ho hlt happ
  rcases hi with ⟨e, -, hi⟩ | ⟨pending, hpoint, hi⟩ | hi
  · exact hi program ▸ arrives_halted e hm₁
  · rw [hi program]
    intro p hp
    cases hp
    refine ⟨closed_released hm₁ (Machine.core_report _ _ _), ?_⟩
    exact (suspended_of_point hm₁ hw₁ hpoint).later
      (.of_eq (congrArg Core.heap (Machine.core_report _ _ _)))
  · exact hi program ▸ arrives_advance hp hc ho hm₁ hlt happ hw₁

end Iterating

section Naming

variable {c : Address} {m m₁ : Machine κ} {control : Control} {n : Nat} {code : κ}
  {captured : List Value}

def relay : Program κ :=
  ⟨fun _ captured => .observe fun h => .done (if 0 < h.size then .apply ⟨0⟩ captured else .resume)⟩

theorem run_relay (code : κ) (captured : List Value) (m : Machine κ) :
    run relay code captured m =
      .ok (if 0 < m.heap.size then .apply ⟨0⟩ captured else .resume) m := rfl

theorem disciplined_relay : (relay : Program κ).Disciplined := fun _ _ _ => trivial

theorem closed_relay : (relay : Program κ).Closed := by
  intro code captured m hm hv
  rw [Program.ClosedAt, Exec.outcome_of_ok (run_relay code captured m)]
  refine ⟨hm, fun step hstep => ?_⟩
  cases hstep
  by_cases h : 0 < m.heap.size
  · rw [if_pos h]
    exact ⟨h, hv⟩
  · rw [if_neg h]
    trivial

theorem closed_of_runs (hr : Runs n control m code captured m₁) (ho : Ordered ⟨m.heap, []⟩)
    (hm : m.Closed) (hlt : c.index < m.heap.size)
    (happ : ∀ f args, m.heap.cell c ≠ .unsaturated f args) (hw : Working c m control) :
    m₁.Closed ∧ AllWithin m₁.heap.size captured ∧ Frame.Based c m₁.context.stack.frames := by
  have harrives := arrives_iterate disciplined_relay closed_relay (n := n) ho hm hlt happ hw
  have hgrown := (matures_iterate relay n control m).later.size_le
  rw [hr relay, follow_eq, Exec.outcome_of_ok (run_relay code captured m₁)] at harrives hgrown
  by_cases hpos : 0 < m₁.heap.size
  · rw [if_pos hpos] at harrives
    obtain ⟨hclosed, hstanding⟩ := harrives _ rfl
    rcases hstanding with hfinal | ⟨-, he | he⟩ | ⟨hb, hwithin⟩ | ⟨-, he, -⟩
    · exact hfinal.elim
    · cases he
    · cases he
    · exact ⟨hclosed, hwithin.2, hb⟩
    · cases he
  · rw [if_neg hpos] at hgrown
    exact absurd (Nat.lt_of_le_of_lt (Nat.zero_le _) (Nat.lt_of_lt_of_le hlt hgrown)) hpos

def KeepsClosed (program : Program κ) (n : Nat) (control : Control) (m : Machine κ) : Prop :=
  ∀ code captured m₁, Runs n control m code captured m₁ → m₁.Closed →
    AllWithin m₁.heap.size captured → program.ClosedAt code captured m₁

theorem KeepsClosed.arrives (hp : program.Disciplined) (hc : KeepsClosed program n control m)
    (ho : Ordered ⟨m.heap, []⟩) (hm : m.Closed) (hlt : c.index < m.heap.size)
    (happ : ∀ f args, m.heap.cell c ≠ .unsaturated f args) (hw : Working c m control) :
    Arrives c n (iterate program n control m) := by
  rcases runs_or_eq n control m with ⟨code, captured, m₁, hr⟩ | hsame
  · obtain ⟨hclosed, hv, hb⟩ := closed_of_runs hr ho hm hlt happ hw
    rw [hr program]
    exact arrives_follow (carries_of_closedAt hp (hc code captured m₁ hr hclosed hv)) hb
  · rw [hsame program, ← hsame relay]
    exact arrives_iterate disciplined_relay closed_relay ho hm hlt happ hw

/-- In no stage that the evaluation gets to does a body name a closure that does not exist. -/
def NamesExisting (program : Program κ) (s₀ : Stage κ) : Prop :=
  ∀ m rs n control, Evaluates program s₀ ⟨m, rs, .running n control⟩ →
    KeepsClosed program n control m

end Naming

section Running

variable {c : Address} {s s' : Stage κ} {m : Machine κ} {t : Thread κ}

theorem Suspended.frames {h : Heap κ} (ht : Suspended c h t) :
    ∀ frame ∈ t.stack.frames, frame.Within h.size := by
  rcases ht with ⟨hf, -⟩ | ⟨-, hf, -⟩ | ⟨hf, -⟩
  · simp [hf]
  · exact hf
  · simp [hf]

theorem Suspended.begin (hm : m.Closed) (ht : Suspended c m.heap t) :
    (begin t m).2.heap = m.heap ∧ (begin t m).2.Closed ∧
      Working c (begin t m).2 (begin t m).1 := by
  have hattached : (m.attach t).2.Closed := ⟨hm.heap, hm.registers, ht.frames⟩
  obtain ⟨id, stack, pending⟩ := t
  cases pending with
  | enter a =>
    refine ⟨rfl, hattached, ?_⟩
    rcases ht with ⟨hf, he⟩ | ⟨hb, -, ha⟩ | ⟨-, v, he, -⟩
    · cases he
      exact .inr (.inl ⟨hf, .inl rfl⟩)
    · exact .inr (.inr (.inl ⟨hb, ha⟩))
    · cases he
  | apply f args =>
    refine ⟨rfl, hattached, ?_⟩
    rcases ht with ⟨-, he⟩ | ⟨hb, -, ha⟩ | ⟨-, v, he, -⟩
    · cases he
    · exact .inr (.inr (.inl ⟨hb, ha⟩))
    · cases he
  | resume a =>
    have ha : a.index < m.heap.size := by
      rcases ht with ⟨-, he⟩ | ⟨-, -, ha⟩ | ⟨-, v, he, ha⟩
      · cases he
      · exact ha
      · cases he
        exact ha.right.lt_size
    refine ⟨rfl, (Carried.of_put (i := 0) (v := .boxed a) hattached ha rfl).closed, ?_⟩
    rcases ht with ⟨-, he⟩ | ⟨hb, -, -⟩ | ⟨hf, v, he, ha⟩
    · cases he
    · exact .inr (.inr (.inl ⟨hb, trivial⟩))
    · cases he
      exact working_giveBack (m := (m.attach ⟨id, stack, .resume a⟩).2) hf ha

theorem Underway.of_later {s : Stage κ} {m' : Machine κ} {rs : List Resumption} {p : Place κ}
    (hs : Underway c s) (ho : Ordered ⟨m'.heap, rs⟩) (hl : s.machine.heap.Later m'.heap)
    (hm : m'.Closed) (hp : Standing c m' p) : Underway c ⟨m', rs, p⟩ where
  ordered := ho
  closed := hm
  lt_size := Nat.lt_of_lt_of_le hs.lt_size hl.size_le
  applicable := applicable_later hl hs.lt_size hs.applicable
  standing := hp

theorem Underway.alone (hs : Underway c s) : Ordered ⟨s.machine.heap, []⟩ :=
  ⟨hs.ordered.directed, nofun⟩

theorem Underway.progress (hp : program.Disciplined)
    (hc : ∀ m rs n control, s = ⟨m, rs, .running n control⟩ → KeepsClosed program n control m)
    (hs : Underway c s) (h : Progress program s s') : Underway c s' ∧ s.machine.heap.Later s'.machine.heap := by
  cases h with
  | begin m rs t =>
    obtain ⟨hh, hclosed, hw⟩ := Suspended.begin hs.closed hs.standing
    have ho : Ordered ⟨(begin t m).2.heap, rs⟩ := hh ▸ hs.ordered
    exact ⟨hs.of_later ho (.of_eq hh) hclosed hw, .of_eq hh⟩
  | @iterate m rs n control p hafter =>
    obtain ⟨hclosed, hstanding⟩ := (hc m rs n control rfl).arrives hp hs.alone hs.closed
      hs.lt_size hs.applicable hs.standing p hafter
    have hop : Operated m.heap (iterate program n control m).2.heap :=
      operated_iterate hs.ordered.directed (hs.closed.registers 0) n control
    obtain ⟨ho, hl⟩ := hs.ordered.run (hop rs)
    exact ⟨hs.of_later ho hl hclosed hstanding, hl⟩
  | settled =>
    exact ⟨⟨hs.ordered, hs.closed, hs.lt_size, hs.applicable, hs.standing⟩, .refl _⟩
  | @others m m' rs rs' p hops hkeeps hcontext =>
    obtain ⟨ho, hl⟩ := hs.ordered.run hops
    have hregisters : m'.context.registers = m.context.registers :=
      (congrArg Context.registers hcontext).trans rfl
    have hstack : m'.context.stack = m.context.stack :=
      (congrArg Context.stack hcontext).trans rfl
    have hclosed : m'.Closed :=
      (Carried.of_heap hs.closed (hkeeps hs.closed.heap) hl.size_le hregisters hstack).closed
    exact ⟨hs.of_later ho hl hclosed (hs.standing.later hl hregisters hstack), hl⟩

theorem Underway.run (hp : program.Disciplined) (hc : NamesExisting program s) (hs : Underway c s)
    (h : Evaluates program s s') : Underway c s' ∧ s.machine.heap.Later s'.machine.heap := by
  induction h with
  | refl => exact ⟨hs, .refl _⟩
  | tail hrun h ih =>
    obtain ⟨hs', hl⟩ := ih.1.progress hp (fun m rs n control he => hc m rs n control (he ▸ hrun)) h
    exact ⟨hs', ih.2.trans hl⟩

theorem underway_start {rs : List Resumption} (limit : Nat) (ho : Ordered ⟨m.heap, rs⟩)
    (hm : m.Closed) (hlt : c.index < m.heap.size)
    (happ : ∀ f args, m.heap.cell c ≠ .unsaturated f args) :
    Underway c (.start m rs c limit) where
  ordered := ho
  closed := ⟨hm.heap, hm.registers, hm.frames⟩
  lt_size := hlt
  applicable := happ
  standing := .inl ⟨rfl, rfl⟩

end Running

end GraphReduction.WeakHead
