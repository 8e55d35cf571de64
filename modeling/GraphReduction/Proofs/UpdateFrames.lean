import GraphReduction.Proofs.Bodies
import GraphReduction.Proofs.Lasting
import GraphReduction.Proofs.PushLog
import GraphReduction.Proofs.Registry

namespace GraphReduction

open Evaluation GraphReduction.Frame

variable {κ α : Type} {program : Program κ} {n : Nat} {c : Control} {m m' m₁ : Machine κ}
  {turn : Turn κ} {code : κ} {captured : List Value}

section Running

theorem Runs.iterate_blank (h : Runs n c m code captured m₁) :
    iterate blank n c m = (.next .resuming, m₁.setResult ⟨0⟩) :=
  (h blank).trans (follow_of_resume (run_blank code captured m₁))

theorem Runs.matures (h : Runs n c m code captured m₁) : m.heap.Matures m₁.heap := by
  have hm := matures_iterate blank n c m
  rwa [h.iterate_blank] at hm

theorem thread_iterate (h : iterate program n c m = (turn, m')) (hc : turn.control ≠ none) :
    m'.context.thread = m.context.thread := by
  have hn := Registry.noted_iterate neverBlocks_blank n c m
  rcases runs_or_eq n c m with ⟨code, captured, m₁, hr⟩ | hsame
  · rw [hr.iterate_blank] at hn
    have hrun : (run program code captured).Respects Registry.Steady :=
      Registry.retreats_steady.run code captured
    have hs := Registry.retreats_steady.discards.follow (hrun m₁)
    rw [← hr program, h] at hs
    exact hs.thread.trans (hn.thread nofun)
  · rw [← hsame program, h] at hn
    exact hn.thread hc

end Running

section Upholding

def Heap.Upholds (h : Heap κ) (frames : List (Frame κ)) : Prop :=
  ∀ a ∈ updates frames, h.isThunk a = true

def Machine.Upheld (m : Machine κ) : Prop := m.heap.Upholds m.context.stack.frames

theorem Heap.Upholds.matures {h h' : Heap κ} {frames : List (Frame κ)} (hu : h.Upholds frames)
    (hm : h.Matures h') : h'.Upholds frames :=
  fun a ha => hm.later.thunks a (hu a ha)

structure Sheds (m m' : Machine κ) : Prop where
  updates : Frame.updates m'.context.stack.frames ⊆ Frame.updates m.context.stack.frames
  matures : m.heap.Matures m'.heap

theorem Sheds.upheld (hs : Sheds m m') (hm : m.Upheld) : m'.Upheld :=
  fun a ha => hs.matures.later.thunks a (hm a (hs.updates ha))

theorem Sheds.of_eq (hf : m'.context.stack.frames = m.context.stack.frames)
    (hh : m.heap.Matures m'.heap) : Sheds m m' :=
  ⟨by rw [hf]; exact List.Subset.refl _, hh⟩

theorem sheds_of_quiet (q : Quiet m m') : Sheds m m' :=
  ⟨by rw [q.updates]; exact List.Subset.refl _, q.grown.matures⟩

theorem tolerant_sheds : Machine.Tolerant (Sheds (κ := κ)) where
  plain p := sheds_of_quiet p.toQuiet
  trans h h' := ⟨List.Subset.trans h'.updates h.updates, h.matures.trans h'.matures⟩

theorem sheds_drop (m : Machine κ) : Sheds m m.drop := by
  unfold Machine.drop
  cases hf : m.context.stack.frames with
  | nil =>
    rw [Machine.pop?_eq_none hf]
    exact sheds_of_quiet (.refl m)
  | cons frame rest =>
    obtain ⟨m₁, s, hpop, hc, hs, -⟩ := Machine.exists_pop? hf
    rw [hpop]
    refine ⟨?_, .of_eq (congrArg Core.heap hc)⟩
    rw [show m₁.context.stack = s from congrArg Core.stack hc, hs, hf]
    cases frame <;> simp [Frame.updates]

theorem sheds_resetThunk (m : Machine κ) (a : Address) (remark : Nat → Option Remark) :
    Sheds m (m.resetThunk a remark) :=
  .of_eq (congrArg FrameStack.frames (congrArg Core.stack (m.core_resetThunk a remark)))
    (permits_matures.reset m a remark)

theorem discards_sheds : Machine.Discards (Sheds (κ := κ)) where
  toTolerant := tolerant_sheds
  discard remark frame m := by
    cases frame with
    | update a =>
      change Sheds m (if m.drop.heap.isThunk a then m.drop.resetThunk a remark else m.drop)
      split
      · exact tolerant_sheds.trans (sheds_drop m) (sheds_resetThunk _ a remark)
      · exact sheds_drop m
    | _ => exact sheds_drop m

theorem upheld_of_pushed {frame : Frame κ} {s : FrameStack κ} (hm : m.Upheld)
    (hs : m.context.stack.push frame = .ok s) (hc : m'.core = { m.core with stack := s })
    (hf : ∀ a, frame = .update a → m.heap.isThunk a = true) : m'.Upheld := by
  rw [Machine.Upheld, show m'.heap = m.heap from congrArg Core.heap hc,
    show m'.context.stack = s from congrArg Core.stack hc, (FrameStack.frames_of_push hs).1]
  intro a ha
  rcases List.mem_cons.1 (mem_updates.1 ha) with he | he
  · exact hf a he.symm
  · exact hm a (mem_updates.2 he)

theorem Action.upheld_perform (x : Action κ α) (hm : m.Upheld)
    (hx : ∀ p ∈ x.attempts m, ∀ a, p.frame = .update a → p.machine.heap.isThunk a = true) :
    (x.perform.outcome m).2.Upheld := by
  induction x generalizing m with
  | readRegister k i next ih => exact ih _ hm hx
  | writeRegister i v next ih =>
    unfold perform
    unfold attempts at hx
    cases hs : Slot.ofIndex v.kind i with
    | ok s =>
      rw [hs] at hx
      have hset : (m.setRegisters (m.context.registers.put s.offset v)).Upheld := hm
      exact ih _ hset hx
    | error e =>
      rw [hs] at hx
      exact ih _ hm hx
  | setResult a next ih =>
    have hset : (m.setResult a).Upheld := hm
    exact ih hset hx
  | push frame next ih =>
    unfold perform
    unfold attempts at hx
    obtain ⟨hp, hx⟩ := List.forall_mem_cons.1 hx
    cases hpush : m.push frame with
    | ok m₁ =>
      obtain ⟨s, hs, hc⟩ := Machine.push_eq_ok hpush
      simp only [Exec.outcome, hpush] at hx ⊢
      exact ih _ (upheld_of_pushed hm hs hc hp) hx
    | error e =>
      simp only [Exec.outcome, hpush] at hx ⊢
      exact ih _ hm hx
  | pop next ih =>
    have hdrop := (sheds_drop m).upheld hm
    unfold perform
    unfold attempts at hx
    unfold Machine.drop at hdrop
    cases hpop : m.context.stack.pop? with
    | none =>
      simp only [Machine.taken, Machine.pop?, Exec.outcome, hpop] at hx hdrop ⊢
      exact ih _ hdrop hx
    | some p =>
      simp only [Machine.taken, Machine.pop?, Exec.outcome, hpop] at hx hdrop ⊢
      exact ih _ hdrop hx
  | depth next ih => exact ih _ hm hx
  | allocate c next ih =>
    exact ih _ (hm.matures (m.heap.grown_allocation c).matures) hx
  | bindArgs f args next ih =>
    unfold perform
    unfold attempts at hx
    cases hb : m.heap.bind f args with
    | ok c =>
      simp only [Exec.outcome, hb] at hx ⊢
      exact ih _ (hm.matures (Heap.grown_bind hb).matures) hx
    | error e =>
      simp only [Exec.outcome, hb] at hx ⊢
      exact ih _ hm hx
  | observe next ih => exact ih _ hm hx
  | spark a next ih => exact ih _ hm hx
  | interrupt b next ih => exact ih hm hx
  | log line next ih => exact ih hm hx
  | tick c next ih => exact ih _ hm hx
  | _ => exact hm

theorem upheld_follow {x : Exec κ Step} (hx : (x.outcome m).2.Upheld) : (follow x m).2.Upheld :=
  (discards_sheds.settle _ _).upheld hx

theorem upheld_enter (a : Address) (hm : m.Upheld) : ((enter blank a).outcome m).2.Upheld := by
  rcases enter_cases blank a m with ⟨v, hx⟩ | ⟨e, hx⟩ | ⟨t, -, -, hx⟩ | ⟨body, hcell, hx⟩
  · rw [Exec.outcome, hx]
    exact hm
  · rw [Exec.outcome, hx]
    exact hm
  · cases hw : m.shared.waiting.register? m.heap m.context.thread a with
    | none =>
      obtain ⟨m₁, hb, hc⟩ := enterBusy_of_cycle hw
      rw [Exec.outcome_of_error (hx.trans hb)]
      exact (sheds_of_quiet (.of_core hc rfl)).upheld hm
    | some w =>
      obtain ⟨m₁, hb, hc⟩ := enterBusy_of_register? hw
      rw [Exec.outcome_of_ok (hx.trans hb)]
      refine (Sheds.of_eq ?_ (.of_eq (congrArg Core.heap hc))).upheld hm
      rw [show m₁.context.stack = m.context.stack from congrArg Core.stack hc]
  · let m₁ := m.setHeap (m.heap.write a (.thunk (.underEvaluation m.context.thread body [])))
    have hm₁ : m₁.Upheld := hm.matures (permits_matures.enter hcell)
    have ha : m₁.heap.isThunk a = true :=
      (permits_matures.enter hcell).later.thunks a (by rw [Heap.isThunk, Heap.thunk?, hcell]; rfl)
    rw [Exec.outcome, hx, ← Exec.outcome]
    cases hpush : m₁.push (.update a) with
    | error e =>
      have hs : start blank a body m₁ = .error (.error e) (m₁.resetThunk a fun _ => none) := by
        simp only [start, hpush]
      rw [Exec.outcome_of_error hs]
      exact (sheds_resetThunk m₁ a _).upheld hm₁
    | ok m₂ =>
      obtain ⟨s, hpushed, hc⟩ := Machine.push_eq_ok hpush
      have hs : start blank a body m₁ = .ok .resume
          ((m₂.count fun c => { c with thunkEntries := c.thunkEntries + 1 }).setResult ⟨0⟩) := by
        simp only [start, hpush]
        rfl
      have hm₂ : m₂.Upheld := upheld_of_pushed hm₁ hpushed hc fun b hb => by
        cases hb
        exact ha
      rw [Exec.outcome_of_ok hs]
      exact hm₂

theorem upheld_resumeFrame (frame : Frame κ) (hm : m.Upheld) :
    ((resumeFrame blank frame).outcome m).2.Upheld := by
  have hd := (conventional_blank (κ := κ)).disciplined
  cases frame with
  | apply v => exact (sheds_of_quiet (isQuiet_applyFrame hd v m)).upheld hm
  | case code captured =>
    exact (sheds_of_quiet ((hd code captured).isQuiet m)).upheld hm
  | handler f => exact hm
  | update a =>
    rw [show resumeFrame blank (.update a) = updateThunk a from rfl]
    rcases updateThunk_spec a m with ⟨e, m', hx, hc, -⟩ | ⟨p, s, m', -, ha, -, hs, hx, hc⟩ |
      ⟨p, w, m', -, -, -, hx, hc⟩ | ⟨p, m', -, -, -, -, hx, hc⟩
    · rw [Exec.outcome_of_error hx]
      exact (sheds_of_quiet (.of_core hc rfl)).upheld hm
    · rw [Exec.outcome_of_ok hx]
      refine upheld_of_pushed hm hs hc fun b hb => ?_
      cases hb
      exact ha
    · rw [Exec.outcome_of_ok hx]
      exact (sheds_of_quiet (.of_core hc rfl)).upheld hm
    · rw [Exec.outcome_of_ok hx]
      have hstack : m'.context.stack = m.context.stack := congrArg Core.stack hc
      have hheap : m'.heap = (m.heap.settle a (m.heap.resolve p)).2 := congrArg Core.heap hc
      refine (Sheds.of_eq (by rw [hstack]) ?_).upheld hm
      rw [hheap]
      exact m.heap.matures_settle a _

theorem upheld_advance (hm : m.Upheld) (hc : (advance blank c m).1.control ≠ none) :
    (advance blank c m).2.Upheld := by
  have hpoll : Polled m (reportControl c m) := .report m c
  have hm₁ := (sheds_of_quiet hpoll.quiet).upheld hm
  cases c with
  | entering a => exact upheld_follow (upheld_enter a hm₁)
  | applying f args =>
    exact upheld_follow ((sheds_of_quiet
      (isQuiet_apply conventional_blank.disciplined f args _)).upheld hm₁)
  | resuming =>
    have hdrop := (sheds_drop _).upheld hm₁
    cases hs : (reportControl .resuming m).context.stack.frames with
    | cons frame rest =>
      obtain ⟨m₂, s, hpop, -⟩ := Machine.exists_pop? hs
      rw [Machine.drop, hpop] at hdrop
      rw [advance_of_pop? _ hpop]
      exact upheld_follow (upheld_resumeFrame frame hdrop)
    | nil =>
      have hnone := Machine.pop?_eq_none hs
      cases hr : (reportControl .resuming m).context.registers.result? with
      | some p =>
        rw [advance_of_pop?_eq_none _ hnone hr] at hc
        exact absurd rfl hc
      | none =>
        rw [advance_of_result?_eq_none _ hnone hr]
        exact hm₁
  | halted e => exact absurd rfl hc
  | blocked a => exact absurd rfl hc
  | endless => exact hm₁

theorem stack_of_left {t : Thread κ} (h : iterate program n c m = (turn, m'))
    (ht : t ∈ turn.yielded ++ turn.blocked.map Prod.fst) : t.stack = m.context.stack := by
  obtain ⟨m₁, hpoll, ⟨e, -, hi⟩ | ⟨pending, -, hi⟩ | hi⟩ := Halting.iterate_cases n c m
  · cases (hi program).symm.trans h
    cases ht
  · cases (hi program).symm.trans h
    cases List.mem_singleton.1 ht
    exact hpoll.stack
  · rw [hi program] at h
    rcases turn with c' | outcome
    · cases ht
    · rcases Halting.advance_eq_over h with ⟨v, rfl⟩ | ⟨e, -, rfl⟩ | ⟨t₁, a, -, rfl, -, hs, -⟩ | rfl
      · cases ht
      · cases ht
      · cases List.mem_singleton.1 ht
        exact hs.trans hpoll.stack
      · cases ht

def PushesUpheld (program : Program κ) (n : Nat) (c : Control) (m : Machine κ) : Prop :=
  ∀ code captured m₁, Runs n c m code captured m₁ →
    ∀ p ∈ (program.body code captured).attempts m₁, ∀ a, p.frame = .update a →
      p.machine.heap.isThunk a = true

theorem upheld_iterate_blank (hm : m.Upheld) (h : iterate blank n c m = (turn, m'))
    (hc : turn.control ≠ none) : m'.Upheld := by
  obtain ⟨m₁, hpoll, ⟨e, -, hi⟩ | ⟨pending, -, hi⟩ | hi⟩ := Halting.iterate_cases n c m
  · cases (hi blank).symm.trans h
    exact absurd rfl hc
  · cases (hi blank).symm.trans h
    exact absurd rfl hc
  · rw [hi blank] at h
    have hadv := upheld_advance (c := c) ((sheds_of_quiet hpoll.quiet).upheld hm)
    rw [h] at hadv
    exact hadv hc

theorem upheld_iterate (hb : PushesUpheld program n c m) (hm : m.Upheld)
    (h : iterate program n c m = (turn, m')) (hc : turn.control ≠ none) : m'.Upheld := by
  rcases runs_or_eq n c m with ⟨code, captured, m₁, hr⟩ | hsame
  · have hset : (m₁.setResult ⟨0⟩).Upheld := upheld_iterate_blank hm hr.iterate_blank nofun
    have hm₁ : m₁.Upheld := hset
    have hf := upheld_follow ((program.body code captured).upheld_perform hm₁
      (hb code captured m₁ hr))
    rw [← show run program code captured = (program.body code captured).perform from rfl,
      ← hr program, h] at hf
    exact hf
  · exact upheld_iterate_blank hm ((hsame program).symm.trans h) hc

end Upholding

end GraphReduction
