import GraphReduction.Proofs.Halting

namespace GraphReduction

open Evaluation

variable {κ : Type} {program : Program κ} {R : Machine κ → Machine κ → Prop} {m m' : Machine κ}

section Bodies

/-- Relations between machines that allow all that a body can do. Frames, registers and counters are
the thread's own, and so is the flag; but bodies neither enter nor update thunks. -/
structure Machine.Bears (R : Machine κ → Machine κ → Prop) : Prop where
  refl : ∀ m : Machine κ, R m m
  trans : ∀ {m m₁ m₂ : Machine κ}, R m m₁ → R m₁ m₂ → R m m₂
  context : ∀ (m : Machine κ) (c : Context κ), c.thread = m.context.thread →
    Machine.tally { m with context := c } = m.tally → R m { m with context := c }
  allocate : ∀ (m : Machine κ) (c : Cell κ), m.heap.Grown (m.heap.allocate c).2 →
    R m (m.allocate c).2
  spark : ∀ (m : Machine κ) (a : Address), R m (m.spark a).2
  journal : ∀ (m : Machine κ) (j : Journal), R m { m with shared := { m.shared with journal := j } }

theorem Machine.exists_context_of_push {frame : Frame κ} (h : m.push frame = .ok m') :
    ∃ c, m' = { m with context := c } ∧ c.thread = m.context.thread ∧
      Machine.tally { m with context := c } = m.tally := by
  unfold Machine.push at h
  split at h <;> cases h
  exact ⟨_, rfl, rfl, rfl⟩

theorem Machine.exists_context_of_pop? {frame : Frame κ} (h : m.pop? = some (frame, m')) :
    ∃ c, m' = { m with context := c } ∧ c.thread = m.context.thread ∧
      Machine.tally { m with context := c } = m.tally := by
  unfold Machine.pop? at h
  split at h <;> cases h
  exact ⟨_, rfl, rfl, rfl⟩

theorem Action.respects_perform {α : Type} (hR : Machine.Bears R) (x : Action κ α) :
    x.perform.Respects R := by
  induction x with
  | done a => exact hR.refl
  | fail e => exact hR.refl
  | diverge => exact hR.refl
  | readRegister k i next ih => exact fun m => ih _ m
  | writeRegister i v next ih =>
    intro m
    unfold perform
    cases Slot.ofIndex v.kind i with
    | ok s =>
      let m₁ := m.setRegisters (m.context.registers.put s.offset v)
      have hput : R m m₁ := hR.context m m₁.context rfl rfl
      exact hR.trans hput (ih _ m₁)
    | error e => exact ih _ m
  | setResult a next ih =>
    intro m
    have hset : R m (m.setResult a) := hR.context m (m.setResult a).context rfl rfl
    exact hR.trans hset (ih _)
  | push frame next ih =>
    intro m
    unfold perform
    cases hp : m.push frame with
    | ok m₁ =>
      obtain ⟨c, rfl, hc, ht⟩ := Machine.exists_context_of_push hp
      simp only [Exec.outcome, hp]
      exact hR.trans (hR.context m c hc ht) (ih _ _)
    | error e =>
      simp only [Exec.outcome, hp]
      exact ih _ m
  | pop next ih =>
    intro m
    unfold perform
    cases hp : m.pop? with
    | none =>
      simp only [Exec.outcome, hp]
      exact ih _ m
    | some p =>
      obtain ⟨frame, m₁⟩ := p
      obtain ⟨c, rfl, hc, ht⟩ := Machine.exists_context_of_pop? hp
      simp only [Exec.outcome, hp]
      exact hR.trans (hR.context m c hc ht) (ih _ _)
  | depth next ih => exact fun m => ih _ m
  | allocate c next ih =>
    exact fun m => hR.trans (hR.allocate m c.cell (m.heap.grown_allocation c)) (ih _ _)
  | bindArgs f args next ih =>
    intro m
    unfold perform
    cases hb : m.heap.bind f args with
    | ok c =>
      simp only [Exec.outcome, hb]
      exact hR.trans (hR.allocate m c (Heap.grown_bind hb)) (ih _ _)
    | error e =>
      simp only [Exec.outcome, hb]
      exact ih _ m
  | observe next ih => exact fun m => ih _ m
  | spark a next ih => exact fun m => hR.trans (hR.spark m a) (ih _ _)
  | interrupt b next ih =>
    exact fun m => hR.trans (hR.context m { m.context with interrupted := b } rfl rfl) (ih _)
  | log line next ih => exact fun m => hR.trans (hR.journal m _) (ih _)
  | tick c next ih => exact fun m => hR.trans (hR.journal m _) (ih _ _)

end Bodies

theorem respects_start (htrans : ∀ {m m₁ m₂ : Machine κ}, R m m₁ → R m₁ m₂ → R m m₂)
    (hcontext : ∀ (m : Machine κ) (c : Context κ), c.thread = m.context.thread →
      R m { m with context := c })
    (hreset : ∀ (m : Machine κ) (a : Address) (remark : Nat → Option Remark),
      R m (m.resetThunk a remark))
    (hrun : ∀ code captured, (run program code captured).Respects R) (a : Address)
    (body : Suspension κ) : (start program a body).Respects R := by
  intro m
  cases hpush : m.push (.update a) with
  | error e =>
    have hx : start program a body m = .error (.error e) (m.resetThunk a fun _ => none) := by
      simp only [start, hpush]
    rw [Exec.outcome_of_error hx]
    exact hreset m a fun _ => none
  | ok m₁ =>
    obtain ⟨c, rfl, hc, -⟩ := Machine.exists_context_of_push hpush
    let m₂ := Machine.count { m with context := c } fun c =>
      { c with thunkEntries := c.thunkEntries + 1 }
    have hx : (start program a body).outcome m =
        (run program body.code body.captured).outcome m₂ := by
      simp only [Exec.outcome, start, hpush]
      rfl
    have hpushed : R m m₂ := hcontext m m₂.context hc
    rw [hx]
    exact htrans hpushed (hrun body.code body.captured m₂)

section Discarding

structure Machine.Discards (R : Machine κ → Machine κ → Prop) : Prop
    extends Machine.Tolerant R where
  discard : ∀ (remark : Nat → Option Remark) (frame : Frame κ) (m : Machine κ),
    R m (Halting.discard remark frame m)

namespace Machine.Discards

variable (hR : Machine.Discards R)
include hR

theorem abandonFrames (frames : List (Frame κ)) (m : Machine κ) :
    R m (abandonFrames frames m).2 := by
  induction frames generalizing m with
  | nil => exact hR.plain (.refl m)
  | cons frame rest ih =>
    have hd := hR.discard (fun _ => none) frame m
    cases frame <;> exact hR.trans hd (ih _)

theorem unwindFrames (exception : Address) (frames : List (Frame κ)) (n : Nat) (m : Machine κ) :
    R m (unwindFrames exception frames n m).2 := by
  induction frames generalizing n m with
  | nil => exact hR.plain (.refl m)
  | cons frame rest ih =>
    have hd := hR.discard resetRemark frame m
    cases frame with
    | handler f =>
      let m₁ := m.drop.count fun c => { c with exceptionsCaught := c.exceptionsCaught + 1 }
      have hset : Plain m.drop (m₁.setException none) := .of_core rfl rfl rfl
      exact hR.trans hd (hR.plain (hset.trans (.report _ .trampoline fun m =>
        ⟨.debug, "exception caught",
          [("exception", (m.heap.text? exception).getD "<endless>"), ("discarded", toString n)]⟩)))
    | _ => exact hR.trans hd (ih _ _)

theorem unwind (exception : Address) (m : Machine κ) : R m (unwind exception m).2 := by
  have hset : Plain m (m.setException (some exception)) := .of_core rfl rfl rfl
  exact hR.trans (hR.plain hset) (hR.unwindFrames exception m.context.stack.frames 0 _)

theorem settle (r : Except Fault Step) (m : Machine κ) : R m (settle r m).2 := by
  cases r with
  | ok step =>
    cases step with
    | throw exception =>
      change R m (throwValue exception m).2
      rw [throwValue_eq]
      exact hR.unwind exception m
    | _ => exact hR.plain (.refl m)
  | error fault =>
    cases fault with
    | endless => exact hR.plain (.refl m)
    | error e =>
      change R m (raiseError e m).2
      by_cases hc : e.isCatchable = true
      · rw [raiseError_eq hc]
        exact hR.trans (hR.plain (plain_raised e m)) (hR.unwind _ _)
      · rw [raiseError_of_not_catchable hc]
        exact hR.plain (.refl m)

theorem follow {x : Exec κ Step} (hx : R m (x.outcome m').2) : R m (follow x m').2 :=
  hR.trans hx (hR.settle _ _)

end Machine.Discards

end Discarding

section Retreating

structure Machine.Retreats (R : Machine κ → Machine κ → Prop) : Prop extends Machine.Bears R where
  quiet : ∀ {m m' : Machine κ}, Quiet m m' → R m m'
  reset : ∀ (m : Machine κ) (a : Address) (remark : Nat → Option Remark),
    R m (m.resetThunk a remark)
  count : ∀ (m : Machine κ) (f : Counters → Counters), R m (m.count f)

namespace Machine.Retreats

variable (hR : Machine.Retreats R)
include hR

theorem of_context (m : Machine κ) (c : Context κ) (hc : c.thread = m.context.thread) :
    R m { m with context := c } :=
  hR.trans (hR.context m { c with counters := m.context.counters } hc rfl)
    (hR.count _ fun _ => c.counters)

theorem tolerant : Machine.Tolerant R := ⟨fun p => hR.quiet p.toQuiet, hR.trans⟩

theorem run (code : κ) (captured : List Value) : (run program code captured).Respects R :=
  (program.body code captured).respects_perform hR.toBears

theorem apply (c : Address) (args : List Value) : (apply program c args).Respects R :=
  respects_apply hR.tolerant hR.run c args

theorem applyFrame (v : Value) : (applyFrame program v).Respects R :=
  respects_applyFrame hR.tolerant hR.run v

theorem drop (m : Machine κ) : R m m.drop := by
  unfold Machine.drop
  cases hp : m.pop? with
  | none => exact hR.refl m
  | some p =>
    obtain ⟨frame, m₁⟩ := p
    obtain ⟨c, rfl, hc, ht⟩ := Machine.exists_context_of_pop? hp
    exact hR.context m c hc ht

theorem discards : Machine.Discards R where
  toTolerant := hR.tolerant
  discard remark frame m := by
    cases frame with
    | update a =>
      change R m (if m.drop.heap.isThunk a then m.drop.resetThunk a remark else m.drop)
      split
      · exact hR.trans (hR.drop m) (hR.reset _ a remark)
      · exact hR.drop m
    | _ => exact hR.drop m

theorem start (a : Address) (body : Suspension κ) : (start program a body).Respects R :=
  respects_start (R := R) hR.trans hR.of_context hR.reset hR.run a body

end Machine.Retreats

end Retreating

section Serving

structure Machine.Serves (R : Machine κ → Machine κ → Prop) : Prop where
  trans : ∀ {m m₁ m₂ : Machine κ}, R m m₁ → R m₁ m₂ → R m m₂
  plain : ∀ {m m' : Machine κ}, m.heap.Grown m'.heap → m.heap.Barren m'.heap →
    m.scheduler.Told [] m'.scheduler → R m m'
  enter : ∀ {m : Machine κ} {a : Address} {body : Suspension κ},
    m.heap.cell a = .thunk (.unevaluated body) →
      R m (m.setHeap (m.heap.write a (.thunk (.underEvaluation m.context.thread body []))))
  reset : ∀ (m : Machine κ) (a : Address) (remark : Nat → Option Remark),
    R m (m.resetThunk a remark)

namespace Machine.Serves

variable (hR : Machine.Serves R)
include hR

theorem of_eq (hh : m'.heap = m.heap) (hs : m'.scheduler = m.scheduler) : R m m' :=
  hR.plain (hh ▸ .refl _) (hh ▸ .refl _) (hs ▸ .refl _)

theorem of_polled (hp : Polled m m') : R m m' :=
  hR.plain hp.quiet.grown (hp.heap ▸ .refl _) hp.told

theorem drop (m : Machine κ) : R m m.drop := by
  unfold Machine.drop
  cases hp : m.pop? with
  | none => exact hR.of_eq rfl rfl
  | some p =>
    obtain ⟨frame, m₁⟩ := p
    obtain ⟨c, rfl, -⟩ := Machine.exists_context_of_pop? hp
    exact hR.of_eq rfl rfl

theorem discards : Machine.Discards R where
  plain p := hR.plain p.grown p.barren p.told
  trans := hR.trans
  discard remark frame m := by
    cases frame with
    | update a =>
      change R m (if m.drop.heap.isThunk a then m.drop.resetThunk a remark else m.drop)
      split
      · exact hR.trans (hR.drop m) (hR.reset _ a remark)
      · exact hR.drop m
    | _ => exact hR.drop m

variable (hrun : ∀ code captured, (run program code captured).Respects R)
include hrun

theorem entering (a : Address) : (Evaluation.enter program a).Respects R := by
  intro m
  rcases enter_cases program a m with ⟨v, hx⟩ | ⟨e, hx⟩ | ⟨t, -, -, hx⟩ | ⟨body, hcell, hx⟩
  · rw [Exec.outcome, hx]
    exact hR.of_eq rfl rfl
  · rw [Exec.outcome, hx]
    exact hR.of_eq rfl rfl
  · cases hw : m.shared.waiting.register? m.heap m.context.thread a with
    | none =>
      obtain ⟨m₁, hb, hc⟩ := enterBusy_of_cycle hw
      rw [Exec.outcome_of_error (hx.trans hb)]
      exact hR.of_eq (congrArg Core.heap hc) (congrArg Core.scheduler hc)
    | some w =>
      obtain ⟨m₁, hb, hc⟩ := enterBusy_of_register? hw
      rw [Exec.outcome_of_ok (hx.trans hb)]
      exact hR.of_eq (show m₁.heap = m.heap from congrArg Core.heap hc)
        (show m₁.scheduler = m.scheduler from congrArg Core.scheduler hc)
  · rw [Exec.outcome, hx, ← Exec.outcome]
    exact hR.trans (hR.enter hcell)
      (respects_start (R := R) hR.trans (fun _ _ _ => hR.of_eq rfl rfl) hR.reset hrun a body _)

theorem advance (hu : ∀ m₁ : Machine κ, m₁.heap = m.heap →
      m₁.context.registers = m.context.registers → ∀ a, R m₁ ((updateThunk a).outcome m₁).2)
    (c : Control) : R m (advance program c m).2 := by
  -- Results are published in one place only, with heap and registers as they are at the
  -- beginning of the iteration.
  have hpoll : Polled m (reportControl c m) := .report m c
  have hreport : R m (reportControl c m) := hR.of_polled hpoll
  have htolerant : Machine.Tolerant R := hR.discards.toTolerant
  cases c with
  | entering a => exact hR.discards.follow (hR.trans hreport (hR.entering hrun a _))
  | applying f args =>
    exact hR.discards.follow (hR.trans hreport (respects_apply htolerant hrun f args _))
  | resuming =>
    let m₁ := reportControl .resuming m
    cases hf : m₁.context.stack.frames with
    | nil =>
      have hnone := Machine.pop?_eq_none hf
      cases hr : m₁.context.registers.result? with
      | some p =>
        rw [advance_of_pop?_eq_none program hnone hr]
        exact hR.trans hreport (hR.of_eq rfl rfl)
      | none =>
        rw [advance_of_result?_eq_none program hnone hr]
        exact hreport
    | cons frame rest =>
      obtain ⟨m₂, s, hpop, hcore, -⟩ := Machine.exists_pop? hf
      have hpopped : R m m₂ :=
        hR.trans hreport (hR.of_eq (congrArg Core.heap hcore) (congrArg Core.scheduler hcore))
      rw [advance_of_pop? program hpop]
      refine hR.discards.follow (hR.trans hpopped ?_)
      cases frame with
      | apply v => exact respects_applyFrame htolerant hrun v m₂
      | update a =>
        exact hu m₂ ((congrArg Core.heap hcore).trans hpoll.heap)
          ((congrArg Core.registers hcore).trans hpoll.registers) a
      | case code captured => exact hrun code captured m₂
      | handler f => exact hR.of_eq rfl rfl
  | blocked a =>
    exact hR.trans hreport (hR.of_eq (congrArg Core.heap (core_report _ _ _))
      (congrArg Core.scheduler (core_report _ _ _)))
  | halted e =>
    let m₁ := (reportControl (.halted e) m).report .trampoline fun _ =>
      ⟨.debug, "halting", [("error", e.message)]⟩
    have habandoned : R m (Evaluation.abandonFrames m₁.context.stack.frames m₁).2 :=
      hR.trans (hR.trans hreport (htolerant.plain (.report _ _ _)))
        (hR.discards.abandonFrames _ _)
    exact hR.trans habandoned (hR.of_eq rfl rfl)
  | endless => exact hreport

theorem iterate (hu : ∀ m₁ : Machine κ, m₁.heap = m.heap →
      m₁.context.registers = m.context.registers → ∀ a, R m₁ ((updateThunk a).outcome m₁).2)
    (n : Nat) (c : Control) : R m (iterate program n c m).2 := by
  obtain ⟨m₁, hpoll, hi⟩ := Halting.iterate_cases n c m
  have hpolled : R m m₁ := hR.of_polled hpoll
  rw [← hpoll.heap, ← hpoll.registers] at hu
  rcases hi with ⟨e, -, hi⟩ | ⟨pending, -, hi⟩ | hi
  · rw [hi program]
    exact hR.trans hpolled (hR.advance hrun hu _)
  · rw [hi program]
    exact hR.trans hpolled (hR.of_eq (congrArg Core.heap (core_report _ _ _))
      (congrArg Core.scheduler (core_report _ _ _)))
  · rw [hi program]
    exact hR.trans hpolled (hR.advance hrun hu c)

end Machine.Serves

end Serving

structure Machine.Permits (R : Machine κ → Machine κ → Prop) : Prop where
  trans : ∀ {m m₁ m₂ : Machine κ}, R m m₁ → R m₁ m₂ → R m m₂
  grown : ∀ {m m' : Machine κ}, m.heap.Grown m'.heap → m.scheduler.Told [] m'.scheduler → R m m'
  enter : ∀ {m : Machine κ} {a : Address} {body : Suspension κ},
    m.heap.cell a = .thunk (.unevaluated body) →
      R m (m.setHeap (m.heap.write a (.thunk (.underEvaluation m.context.thread body []))))
  reset : ∀ (m : Machine κ) (a : Address) (remark : Nat → Option Remark),
    R m (m.resetThunk a remark)

namespace Machine.Permits

variable (hR : Machine.Permits R)
include hR

theorem of_eq (hh : m'.heap = m.heap) (hs : m'.scheduler = m.scheduler) : R m m' :=
  hR.grown (hh ▸ .refl _) (hs ▸ .refl _)

theorem serves : Machine.Serves R := ⟨hR.trans, fun hg _ => hR.grown hg, hR.enter, hR.reset⟩

theorem bears : Machine.Bears R where
  refl _ := hR.of_eq rfl rfl
  trans := hR.trans
  context _ _ _ _ := hR.of_eq rfl rfl
  allocate _ _ hg := hR.grown hg (.refl _)
  spark m a := hR.grown (.refl _) (.spark m.heap a (.refl _))
  journal _ _ := hR.of_eq rfl rfl

theorem iterate (hu : ∀ m₁ : Machine κ, m₁.heap = m.heap →
      m₁.context.registers = m.context.registers → ∀ a, R m₁ ((updateThunk a).outcome m₁).2)
    (n : Nat) (c : Control) : R m (iterate program n c m).2 :=
  hR.serves.iterate (fun code captured =>
    (program.body code captured).respects_perform hR.bears) hu n c

end Machine.Permits

namespace Heap

variable {h : Heap κ} {a : Address} {s s' : ThunkState κ}

theorem parked_write_idle (hc : h.cell a = .thunk s) (hi : Idle (.thunk s' : Cell κ)) :
    (parkedAt (.thunk s) ++ (h.write a (.thunk s')).parked).Perm h.parked := by
  obtain ⟨pre, post, hp, hw⟩ := parked_write (lt_size_of_cell_eq_thunk hc)
  rw [hw, hp, hc, parkedAt_of_idle hi, List.nil_append]
  exact List.perm_append_comm_assoc _ _ _

theorem parked_reset (h : Heap κ) (a : Address) :
    ((h.reset a).1 ++ (h.reset a).2.parked).Perm h.parked := by
  unfold reset
  split
  · next hc => exact parked_write_idle hc nofun
  · exact .refl _

theorem parked_settle (h : Heap κ) (a v : Address) :
    ((h.settle a v).1 ++ (h.settle a v).2.parked).Perm h.parked := by
  unfold settle
  split
  · next hc => exact parked_write_idle hc nofun
  · next hc => exact parked_write_idle hc nofun
  · exact .refl _

end Heap

theorem Shared.parked_resetFrames (frames : List (Frame κ)) (s : Shared κ) :
    ((s.resetFrames frames).1 ++ (s.resetFrames frames).2.heap.parked).Perm s.heap.parked := by
  induction frames generalizing s with
  | nil => exact .refl _
  | cons frame rest ih =>
    cases frame with
    | update a =>
      change ((s.heap.reset a).1 ++ _ ++ _).Perm _
      rw [List.append_assoc]
      exact ((ih { s with heap := (s.heap.reset a).2 }).append_left _).trans (s.heap.parked_reset a)
    | _ => exact ih s

theorem Shared.parked_abandon (t : Thread κ) (s : Shared κ) :
    ((s.abandon t).1 ++ (s.abandon t).2.heap.parked).Perm s.heap.parked :=
  parked_resetFrames t.stack.frames { s with waiting := s.waiting.erase t.id }

def Machine.Hands (m m' : Machine κ) : Prop :=
  ∃ released, (released ++ m'.heap.parked).Perm m.heap.parked ∧
    m'.scheduler.held.Perm (m.scheduler.held ++ m.scheduler.keeps released) ∧
    m.scheduler.Alike m'.scheduler

namespace Machine.Hands

theorem of_told (hp : m'.heap.parked.Perm m.heap.parked)
    (ht : m.scheduler.Told [] m'.scheduler) : m.Hands m' := by
  refine ⟨[], hp, ?_, ht.alike rfl⟩
  rw [ht.held rfl, Scheduler.keeps_nil, List.append_nil]

theorem of_wake {a : Address} (released : List (Thread κ))
    (hp : (released ++ m'.heap.parked).Perm m.heap.parked)
    (hs : m'.scheduler = m.scheduler.wake a released) : m.Hands m' :=
  ⟨released, hp, hs ▸ m.scheduler.held_wake a released, hs ▸ m.scheduler.alike_wake a _⟩

theorem trans {m₁ : Machine κ} (h : m.Hands m₁) (h' : m₁.Hands m') : m.Hands m' := by
  obtain ⟨ts, hp, hh, ha⟩ := h
  obtain ⟨us, hp', hh', ha'⟩ := h'
  refine ⟨ts ++ us, ?_, ?_, ha.trans ha'⟩
  · rw [List.append_assoc]
    exact (hp'.append_left ts).trans hp
  · rw [ha.keeps] at hh'
    rw [Scheduler.keeps_append, ← List.append_assoc]
    exact hh'.trans (hh.append_right _)

theorem held (h : m.Hands m') {released : List (Thread κ)}
    (hr : (released ++ m'.heap.parked).Perm m.heap.parked) :
    m'.scheduler.held.Perm (m.scheduler.held ++ m.scheduler.keeps released) := by
  obtain ⟨ts, hts, hheld, -⟩ := h
  have hsame : ts.Perm released := (List.perm_append_right_iff _).1 (hts.trans hr.symm)
  exact hheld.trans ((m.scheduler.keeps_perm hsame).append_left _)

theorem detached (h : m.Hands m') (hs : m.scheduler ≠ .standalone) :
    (m'.scheduler.held ++ m'.heap.parked).Perm (m.scheduler.held ++ m.heap.parked) := by
  obtain ⟨ts, hts, hheld, -⟩ := h
  rw [m.scheduler.keeps_of_ne hs] at hheld
  refine (hheld.append_right _).trans ?_
  rw [List.append_assoc]
  exact hts.append_left _

theorem subset (h : m.Hands m') :
    m'.scheduler.held ++ m'.heap.parked ⊆ m.scheduler.held ++ m.heap.parked := by
  obtain ⟨ts, hts, hheld, -⟩ := h
  intro t ht
  rcases List.mem_append.1 ht with ht | ht
  · refine (List.mem_append.1 (hheld.subset ht)).elim (List.mem_append_left _) fun ht => ?_
    have hm : t ∈ ts := m.scheduler.keeps_append_drops ts ▸ List.mem_append_left _ ht
    exact List.mem_append_right _ (hts.subset (List.mem_append_left _ hm))
  · exact List.mem_append_right _ (hts.subset (List.mem_append_right _ ht))

end Machine.Hands

theorem permits_hands : Machine.Permits (κ := κ) Machine.Hands where
  trans := .trans
  grown hg ht := .of_told (by rw [hg.parked]) ht
  enter {m a body} hc := by
    refine .of_told ?_ (.refl _)
    obtain ⟨pre, post, hp, hw⟩ := Heap.parked_write (Heap.lt_size_of_cell_eq_thunk hc)
    change (m.heap.write a _).parked.Perm _
    rw [hw, hp, hc]
    exact .refl _
  reset m a remark := by
    have hcore := m.core_resetThunk a remark
    refine .of_wake (m.heap.reset a).1 ?_ (congrArg Core.scheduler hcore)
    rw [show (m.resetThunk a remark).heap = (m.heap.reset a).2 from congrArg Core.heap hcore]
    exact m.heap.parked_reset a

theorem hands_updateThunk (a : Address) (m : Machine κ) :
    m.Hands ((updateThunk a).outcome m).2 := by
  have hsame : ∀ {m' : Machine κ}, m'.heap = m.heap → m'.scheduler = m.scheduler → m.Hands m' :=
    permits_hands.of_eq
  rcases updateThunk_spec a m with ⟨e, m', hx, hcore, -⟩ | ⟨p, s, m', -, -, -, -, hx, hcore⟩ |
    ⟨p, w, m', -, -, -, hx, hcore⟩ | ⟨p, m', -, -, -, -, hx, hcore⟩
  · rw [Exec.outcome_of_error hx]
    exact hsame (congrArg Core.heap hcore) (congrArg Core.scheduler hcore)
  · rw [Exec.outcome_of_ok hx]
    exact hsame (congrArg Core.heap hcore) (congrArg Core.scheduler hcore)
  · rw [Exec.outcome_of_ok hx]
    exact hsame (congrArg Core.heap hcore) (congrArg Core.scheduler hcore)
  · rw [Exec.outcome_of_ok hx]
    refine .of_wake (m.heap.settle a (m.heap.resolve p)).1 ?_ (congrArg Core.scheduler hcore)
    rw [show m'.heap = (m.heap.settle a (m.heap.resolve p)).2 from congrArg Core.heap hcore]
    exact m.heap.parked_settle a _

theorem hands_iterate (program : Program κ) (n : Nat) (c : Control) (m : Machine κ) :
    m.Hands (iterate program n c m).2 :=
  permits_hands.iterate (fun m₁ _ _ a => hands_updateThunk a m₁) n c

theorem hands_of_iterate {n : Nat} {c : Control} {turn : Turn κ}
    (h : iterate program n c m = (turn, m')) : m.Hands m' := by
  have hands := hands_iterate program n c m
  rwa [h] at hands

theorem hands_iterateUpTo {fuel n k : Nat} {c : Control} {turn : Turn κ}
    (h : iterateUpTo program fuel n c m = ((k, turn), m')) : m.Hands m' := by
  induction fuel generalizing n c m with
  | zero =>
    cases h
    exact permits_hands.of_eq rfl rfl
  | succ fuel ih =>
    cases ht : iterate program n c m with
    | mk first m₁ =>
      have hi := hands_of_iterate ht
      rcases first with c' | outcome
      · rw [iterateUpTo_of_next ht] at h
        exact hi.trans (ih h)
      · rw [iterateUpTo_of_over ht] at h
        cases h
        exact hi

end GraphReduction
