import GraphReduction.Proofs.Cells
import GraphReduction.Proofs.Machine

namespace GraphReduction

variable {κ α β : Type}

namespace Action

/-- Pops no frame and pushes no update frame. -/
def Disciplined : Action κ α → Prop
  | done _ => True
  | fail _ => True
  | diverge => True
  | readRegister _ _ next => ∀ r, (next r).Disciplined
  | writeRegister _ _ next => ∀ r, (next r).Disciplined
  | setResult _ next => next.Disciplined
  | push frame next => (∀ a, frame ≠ .update a) ∧ ∀ r, (next r).Disciplined
  | pop _ => False
  | depth next => ∀ n, (next n).Disciplined
  | allocate _ next => ∀ a, (next a).Disciplined
  | bindArgs _ _ next => ∀ r, (next r).Disciplined
  | observe next => ∀ h, (next h).Disciplined
  | spark _ next => ∀ b, (next b).Disciplined
  | interrupt _ next => next.Disciplined
  | log _ next => next.Disciplined
  | tick _ next => ∀ n, (next n).Disciplined

end Action

namespace Frame

def updates : List (Frame κ) → List Address
  | [] => []
  | .update a :: rest => a :: updates rest
  | _ :: rest => updates rest

theorem mem_updates {frames : List (Frame κ)} {a : Address} :
    a ∈ updates frames ↔ .update a ∈ frames := by
  induction frames with
  | nil => simp [updates]
  | cons frame rest ih => cases frame <;> simp [updates, ih]

theorem updates_cons_of_ne {frame : Frame κ} (frames : List (Frame κ))
    (h : ∀ a, frame ≠ .update a) : updates (frame :: frames) = updates frames := by
  cases frame with
  | update a => exact absurd rfl (h a)
  | _ => rfl

end Frame

namespace Heap

variable {h h₁ h₂ : Heap κ}

structure Grown (h h' : Heap κ) : Prop where
  old : ∀ b, b.index < h.size → h'.cell b = h.cell b
  new : ∀ b state, h.size ≤ b.index → h'.cell b = .thunk state → ∃ body, state = .unevaluated body
  size_le : h.size ≤ h'.size
  parked : h'.parked = h.parked
  flat : h.Flat → h'.Flat

theorem Grown.refl (h : Heap κ) : Grown h h where
  old _ _ := rfl
  new _ _ hb hc := absurd (lt_size_of_cell_eq_thunk hc) (Nat.not_lt.2 hb)
  size_le := Nat.le_refl _
  parked := rfl
  flat := id

theorem Grown.trans (g₁ : Grown h h₁) (g₂ : Grown h₁ h₂) : Grown h h₂ where
  old b hb := (g₂.old b (Nat.lt_of_lt_of_le hb g₁.size_le)).trans (g₁.old b hb)
  new b state hb hc := by
    by_cases hb₁ : b.index < h₁.size
    · rw [g₂.old b hb₁] at hc
      exact g₁.new b state hb hc
    · exact g₂.new b state (Nat.le_of_not_lt hb₁) hc
  size_le := Nat.le_trans g₁.size_le g₂.size_le
  parked := g₂.parked.trans g₁.parked
  flat := g₂.flat ∘ g₁.flat

theorem Grown.cell_evaluating (g : Grown h h₁) {a : Address} {t : ThreadId} {body : Suspension κ}
    {blocked : List (Thread κ)} :
    h₁.cell a = .thunk (.underEvaluation t body blocked) ↔
      h.cell a = .thunk (.underEvaluation t body blocked) := by
  by_cases ha : a.index < h.size
  · rw [g.old a ha]
  · constructor
    · intro hc
      obtain ⟨_, hn⟩ := g.new a _ (Nat.le_of_not_lt ha) hc
      cases hn
    · intro hc
      exact absurd (lt_size_of_cell_eq_thunk hc) ha

theorem Grown.owner? (g : Grown h h₁) (a : Address) : h₁.owner? a = h.owner? a := by
  refine Option.ext fun t => ?_
  simp only [owner?_eq_some_iff, g.cell_evaluating]

theorem parked_allocate (h : Heap κ) (c : Cell κ) :
    (h.allocate c).2.parked = h.parked ++ parkedAt c := by
  simp [allocate, parked]

theorem flat_allocate {c : Cell κ} (hf : h.Flat)
    (hc : ∀ f args, c = .unsaturated f args → ∃ info captured,
      h.function? f = some (info, captured) ∧ args ≠ [] ∧ args.length < info.arity) :
    (h.allocate c).2.Flat := by
  intro a f args ha
  have hcell : ∀ {f info captured}, h.function? f = some (info, captured) →
      (h.allocate c).2.function? f = some (info, captured) := by
    intro f info captured hf
    have hs := lt_size_of_callee? (callee?_of_function? hf)
    rw [function?_eq_some_iff] at hf ⊢
    rw [cell_allocate_of_lt hs, hf]
  rw [cell_allocate] at ha
  split at ha
  · obtain ⟨info, captured, hg, hne, hl⟩ := hc f args ha
    exact ⟨info, captured, hcell hg, hne, hl⟩
  · obtain ⟨info, captured, hg, hne, hl⟩ := hf a f args ha
    exact ⟨info, captured, hcell hg, hne, hl⟩

theorem grown_allocate {c : Cell κ} (hs : ∀ s, c = .thunk s → ∃ body, s = .unevaluated body)
    (hc : h.Flat → ∀ f args, c = .unsaturated f args → ∃ info captured,
      h.function? f = some (info, captured) ∧ args ≠ [] ∧ args.length < info.arity) :
    Grown h (h.allocate c).2 where
  old b hb := cell_allocate_of_lt hb
  new b state hb hcell := by
    rw [cell_allocate] at hcell
    split at hcell
    · exact hs state hcell
    · exact absurd (lt_size_of_cell_eq_thunk hcell) (Nat.not_lt.2 hb)
  size_le := by
    rw [size_allocate]
    omega
  parked := by
    rw [parked_allocate]
    cases c with
    | thunk s =>
      obtain ⟨body, rfl⟩ := hs s rfl
      exact List.append_nil _
    | _ => exact List.append_nil _
  flat hf := flat_allocate hf (hc hf)

theorem grown_allocation (h : Heap κ) (c : Allocation κ) : Grown h (h.allocate c.cell).2 := by
  apply grown_allocate
  · intro s hs
    cases c <;> cases hs
    exact ⟨_, rfl⟩
  · intro _ f args hc
    cases c <;> cases hc

theorem grown_bind {f : Address} {args : List Value} {c : Cell κ} (hb : h.bind f args = .ok c) :
    Grown h (h.allocate c).2 := by
  simp only [bind] at hb
  split at hb
  · cases hb
  · split at hb
    · cases hb
    · next g bound _ info captured hg =>
      split at hb
      · cases hb
      · next hn =>
        cases hb
        rw [not_or, Nat.not_le, List.isEmpty_iff] at hn
        apply grown_allocate
        · intro s hs
          cases hs
        · intro _ f' args' hc
          cases hc
          exact ⟨info, captured, hg, hn⟩

end Heap

namespace Scheduler

variable {s s₁ s₂ : Scheduler κ}

def held : Scheduler κ → List (Thread κ)
  | standalone => []
  | manual m => m.wakes.flatMap Wake.released
  | pool q => q.threads

def Alike : Scheduler κ → Scheduler κ → Prop
  | standalone, standalone => True
  | manual _, manual _ => True
  | pool _, pool _ => True
  | _, _ => False

theorem Alike.refl (s : Scheduler κ) : s.Alike s := by
  cases s <;> trivial

theorem Alike.trans (h₁ : s.Alike s₁) (h₂ : s₁.Alike s₂) : s.Alike s₂ := by
  cases s <;> cases s₁ <;> first | exact False.elim h₁ | cases s₂ <;> exact h₂

theorem Alike.exists_pool {q : RunQueue κ} (h : (pool q).Alike s₁) : ∃ q₁, s₁ = pool q₁ := by
  cases s₁ with
  | pool q₁ => exact ⟨q₁, rfl⟩
  | _ => exact False.elim h

def keeps : Scheduler κ → List (Thread κ) → List (Thread κ)
  | standalone, _ => []
  | _, released => released

/-- The threads that a scheduler is handed and does not keep. -/
def drops : Scheduler κ → List (Thread κ) → List (Thread κ)
  | standalone, released => released
  | _, _ => []

theorem keeps_append_drops (s : Scheduler κ) (released : List (Thread κ)) :
    s.keeps released ++ s.drops released = released := by
  cases s <;> simp [keeps, drops]

theorem keeps_nil (s : Scheduler κ) : s.keeps [] = [] := by
  cases s <;> rfl

theorem keeps_append (s : Scheduler κ) (ts us : List (Thread κ)) :
    s.keeps (ts ++ us) = s.keeps ts ++ s.keeps us := by
  cases s <;> rfl

theorem keeps_perm (s : Scheduler κ) {ts us : List (Thread κ)} (h : ts.Perm us) :
    (s.keeps ts).Perm (s.keeps us) := by
  cases s with
  | standalone => exact .refl _
  | _ => exact h

theorem keeps_of_ne (hs : s ≠ standalone) (released : List (Thread κ)) :
    s.keeps released = released := by
  cases s with
  | standalone => exact absurd rfl hs
  | _ => rfl

theorem drops_of_ne (hs : s ≠ standalone) (released : List (Thread κ)) :
    s.drops released = [] := by
  cases s with
  | standalone => exact absurd rfl hs
  | _ => rfl

theorem Alike.keeps (h : s.Alike s₁) : s₁.keeps = s.keeps := by
  cases s <;> cases s₁ <;> first | exact False.elim h | rfl

theorem held_wake (s : Scheduler κ) (a : Address) (released : List (Thread κ)) :
    (s.wake a released).held.Perm (s.held ++ s.keeps released) := by
  cases s with
  | standalone => exact .refl _
  | manual m =>
    simp only [wake, held, List.flatMap_cons]
    exact List.perm_append_comm
  | pool q =>
    simp only [wake]
    split
    · next hr =>
      rw [List.isEmpty_iff.1 hr]
      exact (List.append_nil _).symm ▸ .refl _
    · exact .refl _

theorem alike_wake (s : Scheduler κ) (a : Address) (released : List (Thread κ)) :
    s.Alike (s.wake a released) := by
  cases s with
  | pool q =>
    simp only [wake]
    split <;> trivial
  | _ => trivial

theorem spark_held (s : Scheduler κ) (h : Heap κ) (a : Address) :
    (s.spark h a).2.held = s.held := by
  cases s with
  | standalone => rfl
  | manual m =>
    simp only [spark]
    split <;> rfl
  | pool q =>
    simp only [spark, RunQueue.offer]
    split
    · rfl
    · split <;> rfl

theorem alike_spark (s : Scheduler κ) (h : Heap κ) (a : Address) : s.Alike (s.spark h a).2 := by
  cases s with
  | standalone => trivial
  | manual m =>
    simp only [spark]
    split <;> trivial
  | pool q => trivial

theorem poll_held (s : Scheduler κ) : s.poll.2.held = s.held := by
  cases s with
  | standalone => rfl
  | manual m =>
    simp only [poll]
    split <;> rfl
  | pool q => rfl

theorem alike_poll (s : Scheduler κ) : s.Alike s.poll.2 := by
  cases s with
  | standalone => trivial
  | manual m =>
    simp only [poll]
    split <;> trivial
  | pool q => trivial

/-- What a scheduler learns from a worker: polls and offers pass unrecorded, and the threads set free
at thunks are handed over in the order given. -/
inductive Told : Scheduler κ → List (Wake κ) → Scheduler κ → Prop
  | refl (s : Scheduler κ) : Told s [] s
  | poll {s s₁ : Scheduler κ} {ws : List (Wake κ)} : Told s ws s₁ → Told s ws s₁.poll.2
  | spark {s s₁ : Scheduler κ} {ws : List (Wake κ)} (h : Heap κ) (a : Address) :
    Told s ws s₁ → Told s ws (s₁.spark h a).2
  | wake {s s₁ : Scheduler κ} {ws : List (Wake κ)} (w : Wake κ) :
    Told s ws s₁ → Told s (ws ++ [w]) (s₁.wake w.thunk w.released)

theorem Told.trans {ws ws' : List (Wake κ)} (h₁ : s.Told ws s₁) (h₂ : s₁.Told ws' s₂) :
    s.Told (ws ++ ws') s₂ := by
  induction h₂ with
  | refl => rwa [List.append_nil]
  | poll _ ih => exact .poll ih
  | spark h a _ ih => exact .spark h a ih
  | wake w _ ih =>
    rw [← List.append_assoc]
    exact .wake w ih

theorem Told.trans_nil (h₁ : s.Told [] s₁) (h₂ : s₁.Told [] s₂) : s.Told [] s₂ := h₁.trans h₂

theorem Told.held {ws : List (Wake κ)} (h : s.Told ws s₁) (hw : ws = []) : s₁.held = s.held := by
  induction h with
  | refl => rfl
  | poll _ ih => exact (poll_held _).trans (ih hw)
  | spark h a _ ih => exact (spark_held _ h a).trans (ih hw)
  | wake w _ _ => simp at hw

theorem Told.alike {ws : List (Wake κ)} (h : s.Told ws s₁) (hw : ws = []) : s.Alike s₁ := by
  induction h with
  | refl => exact .refl _
  | poll _ ih => exact (ih hw).trans (alike_poll _)
  | spark h a _ ih => exact (ih hw).trans (alike_spark _ h a)
  | wake w _ _ => simp at hw

end Scheduler

namespace Heap

variable {h h₁ h₂ : Heap κ}

def Barren (h h' : Heap κ) : Prop :=
  ∀ a c fields, h'.cell a = .data c fields → fields = [] ∨ h.cell a = .data c fields

theorem Barren.refl (h : Heap κ) : Barren h h := fun _ _ _ => .inr

theorem Barren.trans (hb₁ : Barren h h₁) (hb₂ : Barren h₁ h₂) : Barren h h₂ :=
  fun a c fields hc => (hb₂ a c fields hc).elim .inl (hb₁ a c fields)

theorem barren_allocate (h : Heap κ) {cell : Cell κ}
    (hn : ∀ c fields, cell = .data c fields → fields = []) : Barren h (h.allocate cell).2 := by
  intro a c fields hc
  rw [cell_allocate] at hc
  split at hc
  · exact .inl (hn c fields hc)
  · exact .inr hc

theorem barren_bind {f : Address} {args : List Value} {cell : Cell κ}
    (hb : h.bind f args = .ok cell) : Barren h (h.allocate cell).2 := by
  refine h.barren_allocate fun c fields hc => ?_
  subst hc
  simp only [bind] at hb
  split at hb
  · cases hb
  · split at hb
    · cases hb
    · split at hb <;> cases hb

end Heap

structure Quiet (m m' : Machine κ) : Prop where
  thread : m'.context.thread = m.context.thread
  updates : Frame.updates m'.context.stack.frames = Frame.updates m.context.stack.frames
  grown : m.heap.Grown m'.heap
  told : m.scheduler.Told [] m'.scheduler
  waiting : m'.shared.waiting = m.shared.waiting
  lastThread : m'.shared.lastThread = m.shared.lastThread

namespace Quiet

variable {m m₁ m₂ : Machine κ}

theorem refl (m : Machine κ) : Quiet m m where
  thread := rfl
  updates := rfl
  grown := .refl _
  told := .refl _
  waiting := rfl
  lastThread := rfl

theorem alike (h : Quiet m m₁) : m.scheduler.Alike m₁.scheduler := h.told.alike rfl

theorem trans (h₁ : Quiet m m₁) (h₂ : Quiet m₁ m₂) : Quiet m m₂ where
  thread := h₂.thread.trans h₁.thread
  updates := h₂.updates.trans h₁.updates
  grown := h₁.grown.trans h₂.grown
  told := h₁.told.trans_nil h₂.told
  waiting := h₂.waiting.trans h₁.waiting
  lastThread := h₂.lastThread.trans h₁.lastThread

theorem of_core {r : Registers} {s : FrameStack κ} {e : Option Address}
    (hc : m₁.core = { m.core with registers := r, stack := s, exception := e })
    (hs : Frame.updates s.frames = Frame.updates m.context.stack.frames) : Quiet m m₁ where
  thread := congrArg Core.thread hc
  updates := by rw [show m₁.context.stack = s from congrArg Core.stack hc, hs]
  grown := by
    rw [show m₁.heap = m.heap from congrArg Core.heap hc]
    exact .refl _
  told := by
    rw [show m₁.scheduler = m.scheduler from congrArg Core.scheduler hc]
    exact .refl _
  waiting := congrArg Core.waiting hc
  lastThread := congrArg Core.lastThread hc

theorem report (m : Machine κ) (target : Target) (remark : Machine κ → Remark) :
    Quiet m (m.report target remark) :=
  of_core (m.core_report target remark) rfl

theorem push {frame : Frame κ} (h : m.push frame = .ok m₁) (hn : ∀ a, frame ≠ .update a) :
    Quiet m m₁ := by
  obtain ⟨s, hs, hc⟩ := Machine.push_eq_ok h
  refine of_core hc ?_
  rw [(FrameStack.frames_of_push hs).1, Frame.updates_cons_of_ne _ hn]

theorem allocate {c : Cell κ} (hg : m.heap.Grown (m.heap.allocate c).2) :
    Quiet m (m.allocate c).2 where
  thread := rfl
  updates := rfl
  grown := hg
  told := .refl _
  waiting := rfl
  lastThread := rfl

theorem spark (m : Machine κ) (a : Address) : Quiet m (m.spark a).2 where
  thread := rfl
  updates := rfl
  grown := .refl _
  told := .spark _ a (.refl _)
  waiting := rfl
  lastThread := rfl

end Quiet

structure Plain (m m' : Machine κ) : Prop extends Quiet m m' where
  barren : m.heap.Barren m'.heap
  tally : m'.tally = m.tally

namespace Plain

variable {m m₁ m₂ : Machine κ}

theorem refl (m : Machine κ) : Plain m m := ⟨.refl m, .refl _, rfl⟩

theorem trans (h₁ : Plain m m₁) (h₂ : Plain m₁ m₂) : Plain m m₂ :=
  ⟨h₁.toQuiet.trans h₂.toQuiet, h₁.barren.trans h₂.barren, h₂.tally.trans h₁.tally⟩

theorem of_core {r : Registers} {s : FrameStack κ} {e : Option Address}
    (hc : m₁.core = { m.core with registers := r, stack := s, exception := e })
    (hs : Frame.updates s.frames = Frame.updates m.context.stack.frames)
    (ht : m₁.tally = m.tally) : Plain m m₁ where
  toQuiet := .of_core hc hs
  barren := by
    rw [show m₁.heap = m.heap from congrArg Core.heap hc]
    exact .refl _
  tally := ht

theorem report (m : Machine κ) (target : Target) (remark : Machine κ → Remark) :
    Plain m (m.report target remark) :=
  of_core (m.core_report target remark) rfl (m.tally_report target remark)

theorem pushArgument {v : Value} (h : m.push (.apply v) = .ok m₁) : Plain m m₁ := by
  refine ⟨.push h nofun, ?_, Machine.tally_push h⟩
  obtain ⟨s, -, hc⟩ := Machine.push_eq_ok h
  rw [show m₁.heap = m.heap from congrArg Core.heap hc]
  exact .refl _

end Plain

structure Machine.Tolerant (R : Machine κ → Machine κ → Prop) : Prop where
  plain : ∀ {m m' : Machine κ}, Plain m m' → R m m'
  trans : ∀ {m m₁ m₂ : Machine κ}, R m m₁ → R m₁ m₂ → R m m₂

theorem Quiet.tolerant : Machine.Tolerant (κ := κ) Quiet := ⟨Plain.toQuiet, .trans⟩

theorem Plain.tolerant : Machine.Tolerant (κ := κ) Plain := ⟨id, .trans⟩

namespace Exec

variable {x : Exec κ α} {f : α → Exec κ β} {m m' : Machine κ} {R : Machine κ → Machine κ → Prop}

theorem outcome_of_ok {a : α} (h : x m = .ok a m') : x.outcome m = (.ok a, m') := by
  rw [outcome, h]

theorem outcome_of_error {e : Fault} (h : x m = .error e m') : x.outcome m = (.error e, m') := by
  rw [outcome, h]

def Respects (R : Machine κ → Machine κ → Prop) (x : Exec κ α) : Prop := ∀ m, R m (x.outcome m).2

def IsQuiet (x : Exec κ α) : Prop := ∀ m, Quiet m (x.outcome m).2

def IsPlain (x : Exec κ α) : Prop := ∀ m, Plain m (x.outcome m).2

theorem Respects.bind (hR : Machine.Tolerant R) (hx : x.Respects R) (hf : ∀ a, (f a).Respects R) :
    (x >>= f).Respects R := by
  intro m
  have hm := hx m
  cases h : x m with
  | ok a m' =>
    rw [outcome_of_ok h] at hm
    have hb : (x >>= f).outcome m = (f a).outcome m' := by
      rw [outcome, bind_of_ok h, outcome]
    rw [hb]
    exact hR.trans hm (hf a m')
  | error e m' =>
    rw [outcome_of_error h] at hm
    rwa [outcome_of_error (bind_of_error h)]

theorem IsPlain.respects (hR : Machine.Tolerant R) (hx : x.IsPlain) : x.Respects R :=
  fun m => hR.plain (hx m)

theorem IsPlain.andThen (hR : Machine.Tolerant R) (hx : x.IsPlain) (hf : ∀ a, (f a).Respects R) :
    (x >>= f).Respects R :=
  (hx.respects hR).bind hR hf

theorem isPlain_pure (a : α) : IsPlain (pure a : Exec κ α) := Plain.refl

theorem isPlain_raise (e : RuntimeError) : IsPlain (raise e : Exec κ α) := Plain.refl

theorem IsPlain.bind (hx : IsPlain x) (hf : ∀ a, IsPlain (f a)) : IsPlain (x >>= f) :=
  Respects.bind Plain.tolerant hx hf

theorem isPlain_ofExcept (x : Except RuntimeError α) : IsPlain (ofExcept x : Exec κ α) := by
  cases x with
  | ok a => exact isPlain_pure a
  | error e => exact isPlain_raise e

theorem isPlain_pushArgument (v : Value) : IsPlain (push (.apply v) : Exec κ Unit) := by
  intro m
  cases h : m.push (.apply v) with
  | ok m' =>
    rw [outcome_of_ok (push_of_ok h)]
    exact Plain.pushArgument h
  | error e =>
    rw [outcome_of_error (push_of_error h)]
    exact .refl m

theorem isPlain_pushArguments (vs : List Value) : IsPlain (pushArguments vs : Exec κ Unit) := by
  induction vs with
  | nil => exact isPlain_pure ()
  | cons v vs ih => exact ih.bind fun _ => isPlain_pushArgument v

theorem isPlain_report (target : Target) (remark : Machine κ → Remark) :
    IsPlain (report target remark) :=
  fun m => .report m target remark

theorem isPlain_count {f : Counters → Counters}
    (hf : ∀ c, (f c).thunkEntries = c.thunkEntries ∧ (f c).updates = c.updates) :
    IsPlain (count f : Exec κ Unit) :=
  fun _ => .of_core rfl rfl (Prod.ext (hf _).1 (hf _).2)

theorem isPlain_giveBack (a : Address) : IsPlain (giveBack a : Exec κ Step) :=
  fun _ => .of_core rfl rfl rfl

end Exec

namespace Action

theorem Disciplined.isQuiet {x : Action κ α} (h : x.Disciplined) : x.perform.IsQuiet := by
  induction x with
  | done a => exact fun m => .refl m
  | fail e => exact fun m => .refl m
  | diverge => exact fun m => .refl m
  | readRegister k i next ih => exact fun m => ih _ (h _) m
  | writeRegister i v next ih =>
    intro m
    unfold perform
    cases Slot.ofIndex v.kind i with
    | ok s =>
      have hq : Quiet m (m.setRegisters (m.context.registers.put s.offset v)) := .of_core rfl rfl
      exact hq.trans (ih _ (h _) _)
    | error e => exact ih _ (h _) m
  | setResult a next ih =>
    intro m
    have hq : Quiet m (m.setResult a) := .of_core rfl rfl
    exact hq.trans (ih h _)
  | push frame next ih =>
    intro m
    unfold perform
    cases hp : m.push frame with
    | ok m' =>
      simp only [Exec.outcome, hp]
      exact (Quiet.push hp h.1).trans (ih _ (h.2 _) m')
    | error e =>
      simp only [Exec.outcome, hp]
      exact ih _ (h.2 _) m
  | pop next => exact absurd h id
  | depth next ih => exact fun m => ih _ (h _) m
  | allocate c next ih =>
    intro m
    have hq := Quiet.allocate (m.heap.grown_allocation c)
    exact hq.trans (ih _ (h _) _)
  | bindArgs f args next ih =>
    intro m
    unfold perform
    cases hb : m.heap.bind f args with
    | ok c =>
      simp only [Exec.outcome, hb]
      exact (Quiet.allocate (Heap.grown_bind hb)).trans (ih _ (h _) _)
    | error e =>
      simp only [Exec.outcome, hb]
      exact ih _ (h _) m
  | observe next ih => exact fun m => ih _ (h _) m
  | spark a next ih => exact fun m => (Quiet.spark m a).trans (ih _ (h _) _)
  | interrupt b next ih =>
    intro m
    refine Quiet.trans ?_ (ih h { m with context := { m.context with interrupted := b } })
    exact ⟨rfl, rfl, .refl _, .refl _, rfl, rfl⟩
  | log s next ih =>
    intro m
    refine Quiet.trans ?_ (ih h _)
    exact ⟨rfl, rfl, .refl _, .refl _, rfl, rfl⟩
  | tick c next ih =>
    intro m
    refine Quiet.trans ?_ (ih _ (h _) _)
    exact ⟨rfl, rfl, .refl _, .refl _, rfl, rfl⟩

end Action

def Program.Disciplined (program : Program κ) : Prop :=
  ∀ code captured, (program.body code captured).Disciplined

namespace Evaluation

open Exec

variable {program : Program κ}

theorem isPlain_load (args : List Value) (slots : List Slot) :
    (load args slots : Exec κ Unit).IsPlain := by
  induction args generalizing slots with
  | nil => exact isPlain_pure ()
  | cons v vs ih =>
    cases slots with
    | nil => exact isPlain_pure ()
    | cons s ss =>
      intro m
      by_cases hk : s.kind = v.kind
      · have hl : load (v :: vs) (s :: ss) m =
            load vs ss (m.setRegisters (m.context.registers.put s.offset v)) := by
          rw [load_cons, if_pos hk]
        have hq : Plain m (m.setRegisters (m.context.registers.put s.offset v)) :=
          .of_core rfl rfl rfl
        rw [outcome, hl]
        exact hq.trans (ih ss _)
      · have hl : load (v :: vs) (s :: ss) m = Exec.raise (.registerKind s.kind s.index) m := by
          rw [load_cons, if_neg hk]
        rw [outcome, hl]
        exact .refl m

theorem isPlain_arityOf (f : Address) (n : Nat) : (arityOf f n : Exec κ Nat).IsPlain := by
  intro m
  simp only [outcome, arityOf]
  cases m.heap.function? f <;> exact .refl m

theorem isPlain_bindArgs (f : Address) (args : List Value) :
    (bindArgs f args : Exec κ Address).IsPlain := by
  intro m
  cases hb : m.heap.bind f args with
  | ok c =>
    simp only [outcome, bindArgs, hb]
    exact ⟨.allocate (Heap.grown_bind hb), Heap.barren_bind hb, rfl⟩
  | error e =>
    simp only [outcome, bindArgs, hb]
    exact .refl m

theorem isPlain_popArguments (n : Nat) : (popArguments n : Exec κ (List Value)).IsPlain := by
  induction n with
  | zero => exact isPlain_pure []
  | succ n ih =>
    intro m
    cases hs : m.context.stack.popArgument? with
    | none =>
      simp only [outcome, popArguments, hs]
      exact .refl m
    | some p =>
      obtain ⟨v, s⟩ := p
      have hq : Plain m (m.setStack s) := by
        refine .of_core rfl ?_ rfl
        unfold FrameStack.popArgument? at hs
        split at hs
        · next hpop =>
          cases hs
          rw [(FrameStack.frames_of_pop? hpop).1]
          rfl
        · cases hs
      simp only [outcome, popArguments, hs]
      exact hq.trans ((ih.bind fun vs => isPlain_pure (v :: vs)) (m.setStack s))

section Applying

variable {R : Machine κ → Machine κ → Prop} (hR : Machine.Tolerant R)
  (hrun : ∀ code captured, (run program code captured).Respects R)
include hR hrun

theorem respects_invokeAt (f : Address) (args : List Value) (slots : List Slot) :
    (invokeAt program f args slots).Respects R := by
  intro m
  cases hf : m.heap.function? f with
  | none =>
    simp only [outcome, invokeAt, hf]
    exact hR.plain (.refl m)
  | some p =>
    simp only [outcome, invokeAt, hf]
    exact ((isPlain_load args slots).andThen hR fun _ => hrun _ _) m

theorem respects_invoke (f : Address) (args : List Value) :
    (invoke program f args).Respects R :=
  (isPlain_ofExcept _).andThen hR fun slots => respects_invokeAt hR hrun f args slots

theorem respects_callExact (f : Address) (args : List Value) :
    (callExact program f args).Respects R := by
  unfold callExact
  split
  · exact respects_invokeAt hR hrun f args []
  · split
    · exact (isPlain_count fun _ => by exact ⟨rfl, rfl⟩).andThen hR fun _ =>
        respects_invokeAt hR hrun f args _
    · exact ((isPlain_count fun _ => by exact ⟨rfl, rfl⟩).bind fun _ =>
        (isPlain_report _ _).bind fun _ =>
          (isPlain_pushArguments args).bind fun _ => isPlain_giveBack f).respects hR

theorem respects_applyFunction (f : Address) (args : List Value) :
    (applyFunction program f args).Respects R := by
  refine (isPlain_arityOf f args.length).andThen hR fun arity => ?_
  split
  · exact respects_callExact hR hrun f args
  · split
    · exact ((isPlain_count fun _ => by exact ⟨rfl, rfl⟩).bind fun _ =>
        (isPlain_bindArgs f args).bind fun pap => (isPlain_report _ _).bind fun _ =>
        isPlain_giveBack pap).respects hR
    · exact (isPlain_count fun _ => by exact ⟨rfl, rfl⟩).andThen hR fun _ =>
        (isPlain_report _ _).andThen hR fun _ => (isPlain_pushArguments _).andThen hR fun _ =>
        respects_callExact hR hrun f _

theorem respects_apply (c : Address) (args : List Value) :
    (apply program c args).Respects R := by
  intro m
  by_cases hn : args.isEmpty = true
  · simp only [outcome, apply, if_pos hn]
    cases m.heap.cell (m.heap.resolve c) <;>
      first | exact hR.plain (.refl m) | exact hR.plain (isPlain_giveBack _ m)
  · simp only [outcome, apply, if_neg hn]
    cases m.heap.callee? (m.heap.resolve c) with
    | none => exact hR.plain (.refl m)
    | some p => exact respects_applyFunction hR hrun _ _ m

theorem respects_applyFrame (v : Value) : (applyFrame program v).Respects R := by
  have hread : IsPlain (fun m => ofExcept (m.context.registers.readClosure 1) m :
      Exec κ Address) := fun m => isPlain_ofExcept _ m
  have hget : IsPlain (get : Exec κ (Machine κ)) := Plain.refl
  refine hread.andThen hR fun result => hget.andThen hR fun m => ?_
  dsimp only
  cases m.heap.callee? (m.heap.resolve result) with
  | none => exact (isPlain_raise _).respects hR
  | some p =>
    obtain ⟨f, bound⟩ := p
    refine (isPlain_arityOf f _).andThen hR fun arity => ?_
    split
    · exact (isPlain_pushArgument v).andThen hR fun _ => respects_invokeAt hR hrun f bound []
    · refine (isPlain_popArguments _).andThen hR fun more => ?_
      split
      · exact respects_invoke hR hrun f _
      · exact ((isPlain_count fun _ => by exact ⟨rfl, rfl⟩).bind fun _ =>
          (isPlain_bindArgs f _).bind fun pap => isPlain_giveBack pap).respects hR

end Applying

theorem isQuiet_apply (hp : program.Disciplined) (c : Address) (args : List Value) :
    (apply program c args).IsQuiet :=
  respects_apply Quiet.tolerant (fun code captured => (hp code captured).isQuiet) c args

theorem isQuiet_applyFrame (hp : program.Disciplined) (v : Value) :
    (applyFrame program v).IsQuiet :=
  respects_applyFrame Quiet.tolerant (fun code captured => (hp code captured).isQuiet) v

end Evaluation

section Endings

open Exec

variable {P : Step → Machine κ → Prop} {x : Exec κ α} {f : α → Exec κ Step}

def Exec.Ends (P : Step → Machine κ → Prop) (x : Exec κ Step) : Prop :=
  ∀ m s m', x m = .ok s m' → P s m'

theorem Exec.Ends.bind (hf : ∀ a, (f a).Ends P) : (x >>= f).Ends P := by
  intro m s m' h
  cases hx : x m with
  | ok a m₁ =>
    rw [bind_of_ok hx] at h
    exact hf a m₁ s m' h
  | error e m₁ =>
    rw [bind_of_error hx] at h
    cases h

theorem Exec.ends_raise (e : RuntimeError) : (raise e : Exec κ Step).Ends P := by
  intro m s m' h
  cases h

structure Program.Ends (program : Program κ) (P : Step → Machine κ → Prop) : Prop where
  run : ∀ code captured, (Evaluation.run program code captured).Ends P
  giveBack : ∀ a (m : Machine κ), P .resume (m.setResult a)
  enter : ∀ a (m : Machine κ), P (.enter a) m

namespace Evaluation

variable {program : Program κ}

theorem ends_giveBack (hp : program.Ends P) (a : Address) : (Exec.giveBack a).Ends P := by
  intro m s m' h
  cases h
  exact hp.giveBack a m

theorem ends_invokeAt (hp : program.Ends P) (f : Address) (args : List Value) (slots : List Slot) :
    (invokeAt program f args slots).Ends P := by
  intro m s m' h
  cases hf : m.heap.function? f with
  | none =>
    simp only [invokeAt, hf] at h
    cases h
  | some p =>
    simp only [invokeAt, hf] at h
    exact Exec.Ends.bind (fun _ => hp.run _ _) m s m' h

theorem ends_invoke (hp : program.Ends P) (f : Address) (args : List Value) :
    (invoke program f args).Ends P :=
  .bind fun slots => ends_invokeAt hp f args slots

theorem ends_callExact (hp : program.Ends P) (f : Address) (args : List Value) :
    (callExact program f args).Ends P := by
  unfold callExact
  split
  · exact ends_invokeAt hp f args []
  · split
    · exact .bind fun _ => ends_invokeAt hp f args _
    · exact .bind fun _ => .bind fun _ => .bind fun _ => ends_giveBack hp f

theorem ends_applyFunction (hp : program.Ends P) (f : Address) (args : List Value) :
    (applyFunction program f args).Ends P := by
  refine .bind fun arity => ?_
  split
  · exact ends_callExact hp f args
  · split
    · exact .bind fun _ => .bind fun pap => .bind fun _ => ends_giveBack hp pap
    · exact .bind fun _ => .bind fun _ => .bind fun _ => ends_callExact hp f _

theorem ends_apply (hp : program.Ends P) (c : Address) (args : List Value) :
    (apply program c args).Ends P := by
  intro m s m' h
  by_cases hn : args.isEmpty = true
  · simp only [apply, if_pos hn] at h
    split at h
    · exact ends_giveBack hp _ m s m' h
    · exact ends_giveBack hp _ m s m' h
    all_goals
      cases h
      exact hp.enter _ _
  · simp only [apply, if_neg hn] at h
    split at h
    · exact ends_applyFunction hp _ _ m s m' h
    · cases h

theorem ends_applyFrame (hp : program.Ends P) (v : Value) : (applyFrame program v).Ends P := by
  refine .bind fun result => .bind fun m => ?_
  dsimp only
  split
  · exact ends_raise _
  · refine .bind fun arity => ?_
    split
    · exact .bind fun _ => ends_invokeAt hp _ _ _
    · refine .bind fun more => ?_
      split
      · exact ends_invoke hp _ _
      · exact .bind fun _ => .bind fun pap => ends_giveBack hp pap

end Evaluation

end Endings

end GraphReduction
