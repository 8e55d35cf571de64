import GraphReduction.Proofs.Ownership

namespace GraphReduction

open Evaluation GraphReduction.Frame

variable {κ : Type} {program : Program κ}

/-- What evaluation relies on: bodies keep to their own frames, and hand a result over when they
return. -/
structure Program.Conventional (program : Program κ) : Prop where
  disciplined : program.Disciplined
  returns : ∀ code captured m m',
    (program.body code captured).perform m = .ok .resume m' → m'.context.registers.result? ≠ none

def Program.NeverBlocks (program : Program κ) : Prop :=
  ∀ code captured m a m', (program.body code captured).perform m ≠ .ok (.block a) m'

theorem Program.Conventional.ends (hp : program.Conventional) :
    program.Ends fun s m => s = .resume → m.context.registers.result? ≠ none where
  run code captured m s m' h hs := hp.returns code captured m m' (hs ▸ h)
  giveBack a m _ := by
    change (m.context.registers.setResult a).result? ≠ none
    simp
  enter _ _ := nofun

theorem Program.NeverBlocks.ends (hp : program.NeverBlocks) :
    program.Ends fun s _ => ∀ a, s ≠ .block a where
  run code captured m _ m' h a hs := hp code captured m a m' (hs ▸ h)
  giveBack _ _ := nofun
  enter _ _ := nofun

namespace Evaluation

def Turn.frames (m : Machine κ) : Turn κ → List (Frame κ)
  | .next _ => m.context.stack.frames
  | .over (.yielded t) => t.stack.frames
  | .over (.blocked t _) => t.stack.frames
  | .over .endless => m.context.stack.frames
  | .over (.finished _) => []
  | .over (.halted _) => []

def Turn.control : Turn κ → Option Control
  | .next c => some c
  | .over .endless => some .endless
  | .over _ => none

def Turn.yielded : Turn κ → List (Thread κ)
  | .over (.yielded t) => [t]
  | _ => []

def Turn.blocked : Turn κ → List (Thread κ × Address)
  | .over (.blocked t a) => [(t, a)]
  | _ => []

def Turn.stack (t : ThreadId) (m : Machine κ) : Turn κ → List (ThreadId × List (Frame κ))
  | .over (.finished _) => []
  | .over (.halted _) => []
  | turn => [(t, turn.frames m)]

structure Blocks (m : Machine κ) (a : Address) (m' : Machine κ) : Prop where
  owner : ∃ u, u ≠ m.context.thread ∧ m.heap.owner? a = some u
  registered : m.shared.waiting.register? m.heap m.context.thread a = some m'.shared.waiting
  heap : m'.heap = m.heap
  interrupted : m'.context.interrupted = m.context.interrupted

structure Iterated (program : Program κ) (c : Control) (m : Machine κ) (turn : Turn κ)
    (m' : Machine κ) : Prop where
  passage : Passage m.context.thread m m'
  owns : m'.heap.Owns m.context.thread (updates (turn.frames m'))
  attached : turn.control ≠ none → m'.context.thread = m.context.thread
  detached : ∀ t ∈ turn.yielded ++ turn.blocked.map Prod.fst, t.id = m.context.thread
  result : turn = .next .resuming → m'.context.registers.result? ≠ none
  waiting : m'.shared.waiting = m.shared.waiting ∨ ∃ a, turn = .next (.blocked a) ∧ Blocks m a m'
  blocks : program.NeverBlocks → ∀ a, turn = .next (.blocked a) → Blocks m a m'
  still : ∀ b, c = .blocked b → turn.control = none ∧
    ∀ a, m'.heap.owner? a = some m.context.thread → m.heap.owner? a = some m.context.thread
  blocked : ∀ t a, turn = .over (.blocked t a) → c = .blocked a

variable {m m₁ : Machine κ} {c : Control}

structure Polled (m m₁ : Machine κ) : Prop where
  core : ∃ q, m₁.core = { m.core with scheduler := q }
  told : m.scheduler.Told [] m₁.scheduler

theorem Polled.heap (h : Polled m m₁) : m₁.heap = m.heap :=
  h.core.elim fun _ hc => congrArg Core.heap hc

theorem Polled.thread (h : Polled m m₁) : m₁.context.thread = m.context.thread :=
  h.core.elim fun _ hc => congrArg Core.thread hc

theorem Polled.stack (h : Polled m m₁) : m₁.context.stack = m.context.stack :=
  h.core.elim fun _ hc => congrArg Core.stack hc

theorem Polled.registers (h : Polled m m₁) : m₁.context.registers = m.context.registers :=
  h.core.elim fun _ hc => congrArg Core.registers hc

theorem Polled.quiet (h : Polled m m₁) : Quiet m m₁ where
  thread := h.thread
  updates := by rw [h.stack]
  grown := h.heap ▸ .refl _
  told := h.told
  waiting := h.core.elim fun _ hc => congrArg Core.waiting hc
  lastThread := h.core.elim fun _ hc => congrArg Core.lastThread hc

theorem Polled.refl (m : Machine κ) : Polled m m := ⟨⟨_, rfl⟩, .refl _⟩

theorem Polled.trans {m₂ : Machine κ} (h₁ : Polled m m₁) (h₂ : Polled m₁ m₂) : Polled m m₂ where
  core := by
    obtain ⟨q₁, hc₁⟩ := h₁.core
    obtain ⟨q₂, hc₂⟩ := h₂.core
    exact ⟨q₂, by rw [hc₂, hc₁]⟩
  told := h₁.told.trans_nil h₂.told

theorem Polled.report (m : Machine κ) (c : Control) : Polled m (reportControl c m) where
  core := ⟨_, m.core_reportControl c⟩
  told := by
    rw [show (reportControl c m).scheduler = m.scheduler from
      congrArg Core.scheduler (m.core_reportControl c)]
    exact .refl _

theorem Polled.poll (m : Machine κ) : Polled m { m with scheduler := m.scheduler.poll.2 } where
  core := ⟨_, rfl⟩
  told := .poll (.refl _)

theorem Polled.owning (h : Polled m m₁) (ho : m.Owning) : m₁.Owning := h.quiet.owning ho

theorem Blocks.of_polled {a : Address} {m' : Machine κ} (hp : Polled m m₁) (h : Blocks m₁ a m') :
    Blocks m a m' where
  owner := by rw [← hp.heap, ← hp.thread]; exact h.owner
  registered := by
    rw [← hp.heap, ← hp.thread, ← hp.quiet.waiting]
    exact h.registered
  heap := h.heap.trans hp.heap
  interrupted := h.interrupted.trans (hp.core.elim fun _ hc => congrArg Core.interrupted hc)

theorem Iterated.of_polled {turn : Turn κ} {m' : Machine κ} (hp : Polled m m₁)
    (h : Iterated program c m₁ turn m') : Iterated program c m turn m' where
  passage := (hp.quiet.passage _).trans (hp.thread ▸ h.passage)
  owns := hp.thread ▸ h.owns
  attached hc := (h.attached hc).trans hp.thread
  detached t ht := (h.detached t ht).trans hp.thread
  result := h.result
  waiting := by
    rcases h.waiting with hw | ⟨a, ht, hb⟩
    · exact .inl (hw.trans hp.quiet.waiting)
    · exact .inr ⟨a, ht, hb.of_polled hp⟩
  blocks hn a ht := (h.blocks hn a ht).of_polled hp
  still b hb := by
    rw [← hp.heap, ← hp.thread]
    exact h.still b hb
  blocked := h.blocked

section Settling

variable {exception : Address}

structure Settled (r : Except Fault Step) (m : Machine κ) (c : Control) (m' : Machine κ) :
    Prop where
  orderly : Orderly m m'
  resuming : c = .resuming → r = .ok .resume ∧ m' = m
  blocked : ∀ a, c = .blocked a → r = .ok (.block a) ∧ m' = m

theorem settled_of_unwind {r : Except Fault Step} (halted : Machine κ → Control)
    (hn : ∀ m, halted m ≠ .resuming ∧ ∀ a, halted m ≠ .blocked a) (h : Orderly m m₁) :
    Settled r m
      (match (unwind exception m₁).1 with
        | some step => controlOf step
        | none => halted (unwind exception m₁).2)
      (unwind exception m₁).2 := by
  have ho := h.trans (orderly_unwind exception h.owning)
  rcases unwindFrames_fst exception _ 0 (m₁.setException (some exception)) with hu | ⟨f, args, hu⟩
  · have hu : (unwind exception m₁).1 = none := hu
    rw [hu]
    exact ⟨ho, fun hc => absurd hc (hn _).1, fun a hc => absurd hc ((hn _).2 a)⟩
  · have hu : (unwind exception m₁).1 = some (.apply f args) := hu
    rw [hu]
    exact ⟨ho, nofun, nofun⟩

theorem plain_raised (e : RuntimeError) (m : Machine κ) : Plain m (raised e m).2 := by
  refine (Plain.report m _ _).trans ⟨.allocate (Heap.grown_allocation _ (.data _ _)), ?_, rfl⟩
  refine Heap.barren_allocate _ fun c fields hc => ?_
  cases hc
  rfl

theorem settled_settle (r : Except Fault Step) (ho : m.Owning) :
    Settled r m (settle r m).1 (settle r m).2 := by
  have hrefl := (Quiet.refl m).orderly ho
  cases r with
  | ok step =>
    cases step with
    | throw exception =>
      change Settled _ m (throwValue exception m).1 (throwValue exception m).2
      rw [throwValue_eq]
      refine settled_of_unwind (fun m => uncaught exception m.heap) (fun m => ?_) hrefl
      unfold uncaught
      cases m.heap.text? exception <;> exact ⟨nofun, nofun⟩
    | resume => exact ⟨hrefl, fun _ => ⟨rfl, rfl⟩, nofun⟩
    | enter a => exact ⟨hrefl, nofun, nofun⟩
    | apply f args => exact ⟨hrefl, nofun, nofun⟩
    | block b =>
      refine ⟨hrefl, nofun, fun a ha => ⟨?_, rfl⟩⟩
      cases ha
      rfl
  | error fault =>
    cases fault with
    | endless => exact ⟨hrefl, nofun, nofun⟩
    | error e =>
      change Settled _ m (raiseError e m).1 (raiseError e m).2
      by_cases hc : e.isCatchable = true
      · rw [raiseError_eq hc]
        exact settled_of_unwind (fun _ => .halted e) (fun _ => ⟨nofun, nofun⟩)
          ((plain_raised e m).toQuiet.orderly ho)
      · rw [raiseError_of_not_catchable hc]
        exact ⟨hrefl, nofun, nofun⟩

end Settling

theorem ends_start {P : Step → Machine κ → Prop} (hp : program.Ends P) (a : Address)
    (body : Suspension κ) : (start program a body).Ends P := by
  intro m s m' h
  unfold start at h
  split at h
  · cases h
  · exact hp.run _ _ _ s m' h

section Advancing

variable {m₂ : Machine κ} {x : Exec κ Step}

theorem iterated_follow (hc : ∀ b, c ≠ .blocked b) (ho : Orderly m (x.outcome m₂).2)
    (hr : ∀ m', x m₂ = .ok .resume m' → m'.context.registers.result? ≠ none)
    (hb : program.NeverBlocks → ∀ a m', x m₂ ≠ .ok (.block a) m') :
    Iterated program c m (follow x m₂).1 (follow x m₂).2 := by
  have hs := settled_settle (x.outcome m₂).1 ho.owning
  have hx : ∀ s, (x.outcome m₂).1 = .ok s → x m₂ = .ok s (x.outcome m₂).2 := by
    intro s h
    unfold Exec.outcome at h ⊢
    cases hxm : x m₂ with
    | ok a m' =>
      rw [hxm] at h
      cases h
      rfl
    | error e m' =>
      rw [hxm] at h
      cases h
  have hall := ho.trans hs.orderly
  rw [follow_eq]
  constructor
  case passage => exact hall.passage
  case owns => exact hall.thread ▸ hall.owning
  case attached => exact fun _ => hall.thread
  case detached => exact nofun
  case result =>
    intro h
    obtain ⟨hr', hm'⟩ := hs.resuming (Turn.next.inj h)
    rw [hm']
    exact hr _ (hx _ hr')
  case waiting => exact .inl hall.waiting
  case blocks =>
    intro hn a h
    exact absurd (hx _ (hs.blocked a (Turn.next.inj h)).1) (hb hn a _)
  case still => exact fun b h => absurd h (hc b)
  case blocked => exact nofun

theorem iterated_giveBack {a : Address} (hc : ∀ b, c ≠ .blocked b) (ho : m.Owning)
    (hx : x m = Exec.giveBack a m) : Iterated program c m (follow x m).1 (follow x m).2 := by
  rw [follow_congr hx]
  refine iterated_follow hc ((Exec.isPlain_giveBack a m).toQuiet.orderly ho) ?_ ?_
  · intro m' h
    cases h
    change (m.context.registers.setResult a).result? ≠ none
    simp
  · exact fun hn b m' h => ends_giveBack hn.ends a m _ m' h b rfl

theorem iterated_raise {e : RuntimeError} (hc : ∀ b, c ≠ .blocked b) (ho : m.Owning)
    (hx : x m = Exec.raise e m) : Iterated program c m (follow x m).1 (follow x m).2 := by
  rw [follow_congr hx]
  have hnever : (Exec.raise e : Exec κ Step).Ends fun _ _ => False := Exec.ends_raise e
  exact iterated_follow hc ((Exec.isPlain_raise e m).toQuiet.orderly ho)
    (fun m' h => (hnever m _ m' h).elim) fun _ _ m' h => (hnever m _ m' h).elim

theorem iterated_enterBusy {a : Address} {t : ThreadId} (hc : ∀ b, c ≠ .blocked b) (ho : m.Owning)
    (ht : m.heap.owner? a = some t) (hn : t ≠ m.context.thread) :
    Iterated program c m (follow (enterBusy a) m).1 (follow (enterBusy a) m).2 := by
  cases hw : m.shared.waiting.register? m.heap m.context.thread a with
  | none =>
    obtain ⟨m₁, hx, hcore⟩ := enterBusy_of_cycle hw
    refine iterated_follow hc ?_ (fun m' h => ?_) (fun _ b m' h => ?_)
    · have hq : Quiet m m₁ := .of_core hcore rfl
      rw [Exec.outcome_of_error hx]
      exact hq.orderly ho
    · rw [hx] at h
      cases h
    · rw [hx] at h
      cases h
  | some w =>
    obtain ⟨m₂, hx, hcore⟩ := enterBusy_of_register? hw
    have hh : m₂.heap = m.heap := congrArg Core.heap hcore
    have hfollow : follow (enterBusy a) m = (.next (.blocked a), m₂) := by
      rw [follow_eq, Exec.outcome_of_ok hx]
      rfl
    have hthread : m₂.context.thread = m.context.thread := congrArg Core.thread hcore
    have hblocks : Blocks m a m₂ := by
      refine ⟨⟨t, hn, ht⟩, ?_, hh, congrArg Core.interrupted hcore⟩
      rw [hw, show m₂.shared.waiting = w from congrArg Core.waiting hcore]
    rw [hfollow]
    constructor
    case passage =>
      exact .of_eq hh (congrArg Core.scheduler hcore) (congrArg Core.lastThread hcore)
    case owns =>
      change m₂.heap.Owns _ (updates m₂.context.stack.frames)
      rw [hh, show m₂.context.stack = m.context.stack from congrArg Core.stack hcore]
      exact ho
    case attached => exact fun _ => hthread
    case detached => exact nofun
    case result => exact nofun
    case waiting => exact .inr ⟨a, rfl, hblocks⟩
    case blocks =>
      intro _ b h
      cases h
      exact hblocks
    case still => exact fun b h => absurd h (hc b)
    case blocked => exact nofun

theorem iterated_enter (hp : program.Conventional) (a : Address) (hc : ∀ b, c ≠ .blocked b)
    (ho : m.Owning) :
    Iterated program c m (follow (enter program a) m).1 (follow (enter program a) m).2 := by
  rcases enter_cases program a m with
    ⟨v, hx⟩ | ⟨e, hx⟩ | ⟨t, hn, ht, hx⟩ | ⟨body, hcell, hx⟩
  · exact iterated_giveBack hc ho hx
  · exact iterated_raise hc ho hx
  · rw [follow_congr hx]
    exact iterated_enterBusy hc ho ht hn
  · let m₁ := m.setHeap (m.heap.write a (.thunk (.underEvaluation m.context.thread body [])))
    have hown : m₁.heap.Owns m₁.context.thread (a :: updates m₁.context.stack.frames) :=
      ho.acquire hcell
    have hstart : Orderly m₁ ((start program a body).outcome m₁).2 :=
      orderly_start hp.disciplined hown
    rw [follow_congr hx]
    refine iterated_follow hc ?_ ?_ ?_
    · exact ⟨(Passage.of_acquire hcell).trans hstart.passage, hstart.waiting, hstart.thread,
        hstart.owning⟩
    · exact fun m' h => ends_start hp.ends a body _ _ _ h rfl
    · exact fun hn b m' h => ends_start hn.ends a body _ _ _ h b rfl

theorem iterated_apply (hp : program.Conventional) (callee : Address) (args : List Value)
    (hc : ∀ b, c ≠ .blocked b) (ho : m.Owning) :
    Iterated program c m (follow (apply program callee args) m).1
      (follow (apply program callee args) m).2 := by
  refine iterated_follow hc ((isQuiet_apply hp.disciplined callee args m).orderly ho) ?_ ?_
  · exact fun m' h => ends_apply hp.ends callee args _ _ _ h rfl
  · exact fun hn b m' h => ends_apply hn.ends callee args _ _ _ h b rfl

theorem iterated_resumeFrame {frame : Frame κ} {s : FrameStack κ} (hp : program.Conventional)
    (hc : ∀ b, c ≠ .blocked b) (ho : m.Owning) (hr : m.context.registers.result? ≠ none)
    (hf : m.context.stack.frames = frame :: s.frames) (hl : s.limit = m.context.stack.limit)
    (hcore : m₂.core = { m.core with stack := s }) :
    Iterated program c m (follow (resumeFrame program frame) m₂).1
      (follow (resumeFrame program frame) m₂).2 := by
  have hr₂ : m₂.context.registers.result? ≠ none := by
    rwa [show m₂.context.registers = m.context.registers from congrArg Core.registers hcore]
  have hquiet (hn : ∀ a, frame ≠ .update a) : Quiet m m₂ := by
    refine .of_core hcore ?_
    rw [hf, updates_cons_of_ne _ hn]
  cases frame with
  | apply v =>
    have hq := (hquiet nofun).trans (isQuiet_applyFrame hp.disciplined v m₂)
    refine iterated_follow hc (hq.orderly ho) ?_ ?_
    · exact fun m' h => ends_applyFrame hp.ends v _ _ _ h rfl
    · exact fun hn b m' h => ends_applyFrame hn.ends v _ _ _ h b rfl
  | case code captured =>
    have hq := (hquiet nofun).trans ((hp.disciplined code captured).isQuiet m₂)
    refine iterated_follow hc (hq.orderly ho) ?_ ?_
    · exact fun m' h => hp.ends.run code captured _ _ _ h rfl
    · exact fun hn b m' h => hn.ends.run code captured _ _ _ h b rfl
  | handler f =>
    refine iterated_follow hc ((hquiet nofun).orderly ho) ?_ ?_
    · intro m' h
      cases h
      exact hr₂
    · intro _ b m' h
      cases h
  | update a =>
    obtain ⟨p, hp'⟩ := Option.ne_none_iff_exists'.1 hr₂
    -- The frame is off the stack, but the thread evaluates its thunk until the update.
    have hown := owns_of_popped ho hf hcore rfl
    obtain ⟨step, m', hx, hupdate, hstep⟩ :=
      updateThunk_cases hp' (room_of_popped hf hl hcore) hown
    have hx : resumeFrame program (.update a) m₂ = .ok step m' := hx
    refine iterated_follow hc ?_ ?_ ?_
    · rw [Exec.outcome_of_ok hx]
      exact hupdate.of_popped hcore
    · intro m'' h
      rw [hx] at h
      cases h
      rcases hstep with ⟨-, hres⟩ | ⟨b, hb⟩
      · exact hres
      · cases hb
    · intro _ b m'' h
      rw [hx] at h
      cases h
      rcases hstep with ⟨hs, -⟩ | ⟨b, hs⟩ <;> cases hs

end Advancing

section Iterating

theorem iterated_detach {turn : Turn κ} {m' : Machine κ} {t : Thread κ} (ho : m.Owning)
    (ht : turn = .over (.yielded t) ∨ ∃ a, turn = .over (.blocked t a) ∧ c = .blocked a)
    (hid : t.id = m.context.thread) (hs : t.stack = m.context.stack)
    (hcore : m'.core =
      { m.release.core with scheduler := m.scheduler }) : Iterated program c m turn m' := by
  have hh : m'.heap = m.heap := congrArg Core.heap hcore
  have hcontrol : turn.control = none := by
    rcases ht with rfl | ⟨a, rfl, -⟩ <;> rfl
  have hframes : turn.frames m' = m.context.stack.frames := by
    rcases ht with rfl | ⟨a, rfl, -⟩ <;> exact congrArg FrameStack.frames hs
  have hdetached : turn.yielded ++ turn.blocked.map Prod.fst = [t] := by
    rcases ht with rfl | ⟨a, rfl, -⟩ <;> rfl
  constructor
  case passage => exact .of_eq hh (congrArg Core.scheduler hcore) (congrArg Core.lastThread hcore)
  case owns =>
    rw [hframes, hh]
    exact ho
  case attached => exact fun h => absurd hcontrol h
  case detached =>
    intro u hu
    rw [hdetached, List.mem_singleton] at hu
    rw [hu, hid]
  case result =>
    rcases ht with rfl | ⟨a, rfl, -⟩ <;> exact nofun
  case waiting => exact .inl (congrArg Core.waiting hcore)
  case blocks => rcases ht with rfl | ⟨a, rfl, -⟩ <;> exact fun _ => nofun
  case still => exact fun _ _ => ⟨hcontrol, fun a => by rw [hh]; exact id⟩
  case blocked =>
    intro u a hu
    rcases ht with rfl | ⟨b, rfl, hb⟩
    · cases hu
    · cases hu
      exact hb

theorem iterated_end {outcome : Outcome κ} (ho : Orderly m m₁)
    (hs : m₁.context.stack.frames = [])
    (hout : (∃ v, outcome = .finished v) ∨ ∃ e, outcome = .halted e) :
    Iterated program c m (.over outcome) m₁.release := by
  have hframes : Turn.frames m₁.release (.over outcome) = [] := by
    rcases hout with ⟨v, rfl⟩ | ⟨e, rfl⟩ <;> rfl
  have howns : m₁.release.heap.Owns m.context.thread [] := by
    have h := ho.owning
    rw [Machine.Owning, hs, ho.thread] at h
    exact h
  constructor
  case passage => exact ho.passage.trans (.of_eq rfl rfl rfl)
  case owns =>
    rw [hframes]
    exact howns
  case attached => rcases hout with ⟨v, rfl⟩ | ⟨e, rfl⟩ <;> exact fun h => absurd rfl h
  case detached => rcases hout with ⟨v, rfl⟩ | ⟨e, rfl⟩ <;> exact fun _ => List.not_mem_nil.elim
  case result => simp
  case waiting => exact .inl ho.waiting
  case blocks => simp
  case still =>
    refine fun _ _ => ⟨?_, fun a ha => absurd ((howns.2 a).2 ha) (List.not_mem_nil)⟩
    rcases hout with ⟨v, rfl⟩ | ⟨e, rfl⟩ <;> rfl
  case blocked => rcases hout with ⟨v, rfl⟩ | ⟨e, rfl⟩ <;> simp

theorem iterated_halted (e : RuntimeError) (ho : m.Owning) :
    Iterated program c m (advance program (.halted e) m).1 (advance program (.halted e) m).2 := by
  let m₁ := reportControl (.halted e) m
  let m₂ := m₁.report .trampoline fun _ => ⟨.debug, "halting", [("error", e.message)]⟩
  have hq : Quiet m m₂ := (Polled.report m _).quiet.trans (.report m₁ _ _)
  obtain ⟨hab, hs⟩ := orderly_abandonFrames m₂.context.stack.frames rfl (hq.owning ho)
  exact iterated_end ((hq.orderly ho).trans hab) hs (.inr ⟨e, rfl⟩)

theorem iterated_resuming (hp : program.Conventional) (ho : m.Owning)
    (hr : m.context.registers.result? ≠ none) :
    Iterated program .resuming m (advance program .resuming m).1
      (advance program .resuming m).2 := by
  let m₁ := reportControl .resuming m
  have hpoll : Polled m m₁ := .report m _
  have hr₁ : m₁.context.registers.result? ≠ none := by rwa [hpoll.registers]
  refine .of_polled hpoll ?_
  cases hf : m₁.context.stack.frames with
  | nil =>
    obtain ⟨v, hv⟩ := Option.ne_none_iff_exists'.1 hr₁
    rw [advance_of_pop?_eq_none program (Machine.pop?_eq_none hf) hv]
    exact iterated_end ((Quiet.refl m₁).orderly (hpoll.owning ho)) hf (.inl ⟨v, rfl⟩)
  | cons frame rest =>
    obtain ⟨m₂, s, hpop, hcore, hs, hl⟩ := Machine.exists_pop? hf
    rw [advance_of_pop? program hpop]
    exact iterated_resumeFrame hp nofun (hpoll.owning ho) hr₁ (hs ▸ hf) hl hcore

theorem iterated_advance (hp : program.Conventional) (c : Control) (ho : m.Owning)
    (hr : c = .resuming → m.context.registers.result? ≠ none) :
    Iterated program c m (advance program c m).1 (advance program c m).2 := by
  have hpoll : Polled m (reportControl c m) := .report m c
  cases c with
  | entering a => exact .of_polled hpoll (iterated_enter hp a nofun (hpoll.owning ho))
  | applying f args => exact .of_polled hpoll (iterated_apply hp f args nofun (hpoll.owning ho))
  | resuming => exact iterated_resuming hp ho (hr rfl)
  | blocked a =>
    let m₁ := reportControl (.blocked a) m
    refine .of_polled hpoll (iterated_detach (hpoll.owning ho) (.inr ⟨a, rfl, rfl⟩) rfl rfl ?_)
    exact Machine.core_report _ _ _
  | halted e => exact iterated_halted e ho
  | endless =>
    refine .of_polled hpoll ?_
    have hrefl := (Quiet.refl (reportControl .endless m)).orderly (hpoll.owning ho)
    exact ⟨hrefl.passage, hrefl.owning, fun _ => rfl, nofun, nofun, .inl rfl, fun _ => nofun, nofun,
      nofun⟩

theorem iterated_yieldThread (pending : Pending) (ho : m.Owning) :
    Iterated program c m (yieldThread pending m).1 (yieldThread pending m).2 :=
  iterated_detach ho (.inl rfl) rfl rfl (Machine.core_report _ _ _)

theorem suspensionPoint_eq_error {c c' : Control} (h : suspensionPoint c m = .error c') :
    c' = c ∨ ∃ e, c' = .halted e := by
  unfold suspensionPoint at h
  split at h
  · cases h
  · cases h
  · split at h
    · cases h
    · cases h
      exact .inr ⟨_, rfl⟩
  · cases h
    exact .inl rfl

theorem iterated_iterate (hp : program.Conventional) (n : Nat) (c : Control) (ho : m.Owning)
    (hr : c = .resuming → m.context.registers.result? ≠ none) :
    Iterated program c m (iterate program n c m).1 (iterate program n c m).2 := by
  unfold iterate
  split
  · exact iterated_halted _ ho
  · split
    · exact iterated_advance hp c ho hr
    · have hpoll := Polled.poll m
      refine .of_polled hpoll ?_
      have ho' := hpoll.owning ho
      dsimp only
      split
      · split
        · exact iterated_yieldThread _ ho'
        · next c' hc =>
          rcases suspensionPoint_eq_error hc with rfl | ⟨e, rfl⟩
          · exact iterated_advance hp _ ho' hr
          · exact iterated_halted e ho'
      · exact iterated_advance hp c ho' hr

theorem passage_iterateUpTo {fuel n k : Nat} {turn : Turn κ} {m' : Machine κ}
    (hp : program.Conventional) (ho : m.Owning)
    (hr : c = .resuming → m.context.registers.result? ≠ none)
    (h : iterateUpTo program fuel n c m = ((k, turn), m')) :
    Passage m.context.thread m m' ∧
      (turn.control ≠ none → m'.context.thread = m.context.thread) ∧
      ∀ t ∈ turn.yielded ++ turn.blocked.map Prod.fst, t.id = m.context.thread := by
  induction fuel generalizing n c m with
  | zero =>
    cases h
    exact ⟨.of_eq rfl rfl rfl, fun _ => rfl, nofun⟩
  | succ fuel ih =>
    have hi := iterated_iterate hp n c ho hr
    cases ht : iterate program n c m with
    | mk first m₁ =>
      rw [ht] at hi
      rcases first with c' | outcome
      · rw [iterateUpTo_of_next ht] at h
        have hthread := hi.attached nofun
        have ho₁ : m₁.Owning := by
          rw [Machine.Owning, hthread]
          exact hi.owns
        obtain ⟨hpass, hatt, hdet⟩ := ih ho₁ (fun hc => hi.result (hc ▸ rfl)) h
        rw [hthread] at hpass hatt hdet
        exact ⟨hi.passage.trans hpass, hatt, hdet⟩
      · rw [iterateUpTo_of_over ht] at h
        cases h
        exact ⟨hi.passage, hi.attached, hi.detached⟩

end Iterating

end Evaluation

end GraphReduction
