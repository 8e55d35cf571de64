import GraphReduction.Proofs.Undoing

/-!
What is left of a thread that halts: the thunks it evaluated are taken back, whoever is parked on them
is woken, and the worker lets go of the thread. The exception is a thunk whose update frame is resumed
without a result.
-/
namespace GraphReduction

open Evaluation GraphReduction.Frame

variable {κ : Type} {program : Program κ}

namespace Halting

variable {m m' m₁ m₂ : Machine κ} {xs : List Address} {e : RuntimeError}

section Iterating

variable {c c' : Control} {n : Nat}

theorem iterate_cases (n : Nat) (c : Control) (m : Machine κ) :
    ∃ m₁, Polled m m₁ ∧
      ((∃ e, (e = .interrupted ∨ suspensionPoint c m₁ = .error (.halted e)) ∧
          ∀ p : Program κ, iterate p n c m = advance p (.halted e) m₁) ∨
        (∃ pending, suspensionPoint c m₁ = .ok pending ∧
          ∀ p : Program κ, iterate p n c m = yieldThread pending m₁) ∨
        ∀ p : Program κ, iterate p n c m = advance p c m₁) := by
  have hpoll := Polled.poll m
  by_cases hi : m.context.interrupted = true
  · exact ⟨m, .refl m, .inl ⟨.interrupted, .inl rfl, fun p => if_pos hi⟩⟩
  by_cases hn : n = 0 ∨ n % pollInterval ≠ 0
  · refine ⟨m, .refl m, .inr (.inr fun p => ?_)⟩
    rw [iterate, if_neg hi, if_pos hn]
  refine ⟨_, hpoll, ?_⟩
  by_cases ha : m.scheduler.poll.1 = true
  · cases hs : suspensionPoint c { m with scheduler := m.scheduler.poll.2 } with
    | ok pending =>
      refine .inr (.inl ⟨pending, rfl, fun p => ?_⟩)
      simp only [iterate, if_neg hi, if_neg hn, if_pos ha, hs]
    | error c' =>
      rcases suspensionPoint_eq_error hs with rfl | ⟨e, rfl⟩
      · refine .inr (.inr fun p => ?_)
        simp only [iterate, if_neg hi, if_neg hn, if_pos ha, hs]
      · refine .inl ⟨e, .inr rfl, fun p => ?_⟩
        simp only [iterate, if_neg hi, if_neg hn, if_pos ha, hs]
  · refine .inr (.inr fun p => ?_)
    simp only [iterate, if_neg hi, if_neg hn, if_neg ha]

theorem stays_iterate (hp : program.Disciplined) (ho : m.Owning)
    (h : iterate program n c m = (.next c', m')) : Stays c m c' m' := by
  obtain ⟨m₁, hpoll, ⟨e, -, hi⟩ | ⟨pending, -, hi⟩ | hi⟩ := iterate_cases n c m
  · rw [hi program] at h
    cases h
  · rw [hi program] at h
    cases h
  · rw [hi program] at h
    exact .of_polled hpoll (stays_advance hp (hpoll.owning ho) h)

theorem advance_eq_over {outcome : Outcome κ} (h : advance program c m = (.over outcome, m')) :
    (∃ v, outcome = .finished v) ∨ (∃ e, c = .halted e ∧ outcome = .halted e) ∨
      (∃ t a, c = .blocked a ∧ outcome = .blocked t a ∧ t.id = m.context.thread ∧
        t.stack = m.context.stack ∧ m'.heap = m.heap) ∨ outcome = .endless := by
  cases c with
  | resuming =>
    cases hf : (reportControl .resuming m).context.stack.frames with
    | cons frame rest =>
      obtain ⟨m₁, s, hpop, -⟩ := Machine.exists_pop? hf
      rw [advance_of_pop? program hpop] at h
      cases h
    | nil =>
      have hnone := Machine.pop?_eq_none hf
      cases hr : (reportControl .resuming m).context.registers.result? with
      | some p =>
        rw [advance_of_pop?_eq_none program hnone hr] at h
        cases h
        exact .inl ⟨p, rfl⟩
      | none =>
        rw [advance_of_result?_eq_none program hnone hr] at h
        cases h
  | halted e =>
    cases h
    exact .inr (.inl ⟨e, rfl, rfl⟩)
  | blocked a =>
    have hpoll : Polled m (reportControl (.blocked a) m) := .report m _
    cases h
    refine .inr (.inr (.inl ⟨_, a, rfl, rfl, hpoll.thread, hpoll.stack, ?_⟩))
    exact (congrArg Core.heap (Machine.core_report _ _ _)).trans hpoll.heap
  | endless =>
    cases h
    exact .inr (.inr (.inr rfl))
  | _ => cases h

theorem advance_eq_halted (h : advance program c m = (.over (.halted e), m')) : c = .halted e := by
  rcases advance_eq_over h with ⟨v, ho⟩ | ⟨e₁, hc, ho⟩ | ⟨t, a, -, ho, -⟩ | ho <;> cases ho
  exact hc

theorem iterate_eq_halted (h : iterate program n c m = (.over (.halted e), m')) :
    (∀ p : Program κ, iterate p n c m = (.over (.halted e), m')) ∧
      ∃ m₁, Polled m m₁ ∧ advance program (.halted e) m₁ = (.over (.halted e), m') := by
  obtain ⟨m₁, hpoll, hi⟩ : ∃ m₁, Polled m m₁ ∧
      ∀ p : Program κ, iterate p n c m = advance p (.halted e) m₁ := by
    obtain ⟨m₁, hpoll, ⟨e₁, -, hi⟩ | ⟨pending, -, hi⟩ | hi⟩ := iterate_cases n c m
    · cases advance_eq_halted ((hi program).symm.trans h)
      exact ⟨m₁, hpoll, hi⟩
    · rw [hi program] at h
      cases h
    · cases advance_eq_halted ((hi program).symm.trans h)
      exact ⟨m₁, hpoll, hi⟩
  have hadv := (hi program).symm.trans h
  exact ⟨fun p => (hi p).trans hadv, m₁, hpoll, hadv⟩

theorem iterate_halted_ne_next (n : Nat) (e : RuntimeError) (m : Machine κ) :
    iterate program n (.halted e) m ≠ (.next c', m') := by
  intro h
  obtain ⟨m₁, -, ⟨e₁, -, hi⟩ | ⟨pending, -, hi⟩ | hi⟩ := iterate_cases n (.halted e) m <;>
    · rw [hi program] at h
      cases h

theorem undone_halted
    (ho : m.heap.Owns m.context.thread (xs ++ updates m.context.stack.frames))
    (h : advance program (.halted e) m = (.over (.halted e), m')) :
    ∃ m₁, Undone (updates m.context.stack.frames) m m₁ ∧ m₁.context.stack.frames = [] ∧
      m' = m₁.release := by
  let m₁ := (reportControl (.halted e) m).report .trampoline fun _ =>
    ⟨.debug, "halting", [("error", e.message)]⟩
  have hq : Quiet m m₁ := (Polled.report m _).quiet.trans (.report _ _ _)
  have hs : m₁.context.stack = m.context.stack := by
    have hc : m₁.core = (reportControl (.halted e) m).core := Machine.core_report _ _ _
    exact congrArg Core.stack (hc.trans (m.core_reportControl _))
  obtain ⟨hu, he⟩ := undone_abandonFrames _ rfl (owns_of_quiet hq ho)
  cases h
  refine ⟨_, ?_, he, rfl⟩
  rw [← hs]
  exact (Undone.of_quiet hq).trans hu

end Iterating

section Boundaries

variable {c c' : Control} {n : Nat}

def setInterrupted (m : Machine κ) (b : Bool) : Machine κ :=
  { m with context := { m.context with interrupted := b } }

/-- The boundaries between the iterations of a thread's time on a worker, at each of which the
interrupt flag may change. -/
inductive Boundary (program : Program κ) (t : Thread κ) (m : Machine κ) :
    Nat → Control → Machine κ → Prop
  | start : Boundary program t m 0 (begin t m).1 (begin t m).2
  | next {n : Nat} {c c' : Control} {m₁ m₂ : Machine κ} : Boundary program t m n c m₁ →
    iterate program n c m₁ = (.next c', m₂) → Boundary program t m (n + 1) c' m₂
  | interrupt {n : Nat} {c : Control} {m₁ : Machine κ} (b : Bool) : Boundary program t m n c m₁ →
    Boundary program t m n c (setInterrupted m₁ b)

def Ended (program : Program κ) (t : Thread κ) (m : Machine κ) (outcome : Outcome κ)
    (m' : Machine κ) : Prop :=
  ∃ n c m₁, Boundary program t m n c m₁ ∧ iterate program n c m₁ = (.over outcome, m')

/-- How a thread comes to a halt, with the thunk whose update frame is lost: at a boundary, or at
the one after an iteration that ends in an error. No code is run any more in its last iteration,
which is the same whatever the program. -/
inductive GivesUp (program : Program κ) (n : Nat) (c : Control) (m : Machine κ)
    (e : RuntimeError) : List Address → Machine κ → Prop
  | boundary {m' : Machine κ} : (∀ e₁, c ≠ .halted e₁) →
    (∀ p : Program κ, iterate p n c m = (.over (.halted e), m')) →
    GivesUp program n c m e [] m'
  | error {e₁ : RuntimeError} {b : Bool} {m₁ m' : Machine κ} :
    iterate program n c m = (.next (.halted e₁), m₁) →
    (∀ p : Program κ, iterate p (n + 1) (.halted e₁) (setInterrupted m₁ b) =
      (.over (.halted e), m')) →
    GivesUp program n c m e (stranded c m) m'

/-- The running thread is gone. The thunks that it evaluated can be entered again as if they had
never been, all but those lost; whoever was parked on one of them was handed to the scheduler once,
and the worker is free. A thunk that the thread enters and gives up at once has nobody parked. -/
structure CleanedUp (lost : List Address) (m m' : Machine κ) : Prop where
  owner : ∀ a, m'.heap.owner? a = some m.context.thread ↔ a ∈ lost
  reset : ∀ a, m.heap.owner? a = some m.context.thread → a ∉ lost → ∃ body blocked,
    m.heap.cell a = .thunk (.underEvaluation m.context.thread body blocked) ∧
      m'.heap.cell a = .thunk (.unevaluated body)
  kept : ∀ a, a.index < m.heap.size → m.heap.owner? a ≠ some m.context.thread ∨ a ∈ lost →
    m'.heap.cell a = m.heap.cell a
  woken : ∃ entered freed : List Address, freed.Nodup ∧
    (∀ a, a ∈ freed ↔ m.heap.owner? a = some m.context.thread ∧ a ∉ lost) ∧
    (∀ a ∈ entered, ∃ body, m.heap.cell a = .thunk (.unevaluated body)) ∧
    m.scheduler.Told (entered.map (⟨·, []⟩) ++ freed.map m.heap.wakeAt) m'.scheduler
  stack : m'.context.stack.frames = []
  thread : m'.context.thread = .nobody
  exception : m'.context.exception = none
  registers : ∀ i, m'.context.registers.get? ⟨.boxed, i⟩ = none

theorem get?_boxed_release (m : Machine κ) (i : Fin registersPerKind) :
    m.release.context.registers.get? ⟨.boxed, i⟩ = none := by
  change ((Vector.replicate registersPerKind none).get i).map Value.boxed = none
  simp [Vector.get]

theorem cleanedUp_of_attempt {lost entered : List Address} (ho : m.Owning)
    (h : Attempt m lost entered m₁) (hf : m₁.context.stack.frames = []) :
    CleanedUp lost m m₁.release := by
  have hend := h.owns ho
  rw [hf, updates, List.append_nil, h.thread] at hend
  obtain ⟨m₂, m₃, as, hp, ha, hu, hs, hl⟩ := h
  rw [hf, updates, List.append_nil] at hs
  obtain ⟨freed, hfreed, rfl⟩ : ∃ freed, updates m.context.stack.frames = lost ++ freed ∧
      as = entered ++ freed := by
    rcases hl with rfl | rfl
    · exact ⟨_, rfl, hs.symm⟩
    · exact ⟨as, hs, rfl⟩
  have ho : m.heap.Owns m.context.thread (lost ++ freed) := hfreed ▸ ho
  have hmem := ho.mem_right
  obtain ⟨-, -, hcell, hentered⟩ := ha.cells
  rw [hp.heap] at hcell hentered
  -- What was entered in this iteration was nobody's before, so it was not among the rest.
  have hnot : ∀ a ∈ freed, a ∉ entered := by
    intro a hfa hea
    obtain ⟨body, hc, -⟩ := hentered a hea
    have hown := ((hmem a).1 hfa).1
    rw [Heap.owner?, hc] at hown
    cases hown
  constructor
  case owner => exact fun a => (hend.2 a).symm
  case reset =>
    intro a hown hla
    have hfa := (hmem a).2 ⟨hown, hla⟩
    obtain ⟨body, blocked, hc, hc'⟩ := hu.undone a (List.mem_append_right _ hfa)
    rw [hcell a (hnot a hfa), ha.thread, hp.thread] at hc
    exact ⟨body, blocked, hc, hc'⟩
  case kept =>
    intro a has hna
    have hfa : a ∉ freed := fun hfa => by
      obtain ⟨hown, hla⟩ := (hmem a).1 hfa
      exact hna.elim (fun h => h hown) hla
    have hk := ha.kept hu (hp.heap.symm ▸ has) hfa
    rwa [hp.heap] at hk
  case woken =>
    refine ⟨entered, freed, (List.nodup_append.1 ho.1).2.1, hmem, fun a hea => ?_, ?_⟩
    · obtain ⟨body, hc, -⟩ := hentered a hea
      exact ⟨body, hc⟩
    · have htold := ha.told hu hnot
      rw [hp.heap] at htold
      exact hp.told.trans htold
  case stack => rfl
  case thread => rfl
  case exception => rfl
  case registers => exact fun i => get?_boxed_release m₁ i

theorem undone_setInterrupted (m : Machine κ) (b : Bool) : Undone [] m (setInterrupted m b) :=
  .of_eq rfl rfl rfl

variable {t : Thread κ} {m₀ : Machine κ}

theorem begin_owning (ho : m.heap.Owns t.id (updates t.stack.frames)) :
    (begin t m).2.context.thread = t.id ∧ (begin t m).2.Owning ∧ ∀ e, (begin t m).1 ≠ .halted e := by
  obtain ⟨id, stack, pending⟩ := t
  cases pending <;> exact ⟨rfl, ho, nofun⟩

theorem Boundary.cases (hp : program.Disciplined)
    (ho : m₀.heap.Owns t.id (updates t.stack.frames)) (h : Boundary program t m₀ n c m) :
    (m.context.thread = t.id ∧ m.Owning ∧ ∀ e, c ≠ .halted e) ∨
      ∃ k c₁ m₁ e m₂ b, n = k + 1 ∧ Boundary program t m₀ k c₁ m₁ ∧ m₁.context.thread = t.id ∧
        m₁.Owning ∧ iterate program k c₁ m₁ = (.next (.halted e), m₂) ∧ c = .halted e ∧
          m = setInterrupted m₂ b := by
  induction h with
  | start => exact .inl (begin_owning ho)
  | @next n c c' m₁ m₂ hb hi ih =>
    rcases ih with ⟨ht, ho₁, -⟩ | ⟨_, _, _, e, _, _, _, _, _, _, _, rfl, rfl⟩
    · have hs := stays_iterate hp ho₁ hi
      by_cases hc : ∃ e, c' = .halted e
      · obtain ⟨e, rfl⟩ := hc
        exact .inr ⟨n, c, m₁, e, m₂, m₂.context.interrupted, rfl, hb, ht, ho₁, hi, rfl, rfl⟩
      · have hc : ∀ e, c' ≠ .halted e := fun e he => hc ⟨e, he⟩
        exact .inl ⟨hs.thread.trans ht, hs.owning hc, hc⟩
    · exact absurd hi (iterate_halted_ne_next n e _)
  | @interrupt n c m₁ b hb ih =>
    rcases ih with h | ⟨k, c₁, m₂, e, m₃, b', hn, hb', ht, ho₁, hi, hc, rfl⟩
    · exact .inl h
    · exact .inr ⟨k, c₁, m₂, e, m₃, b, hn, hb', ht, ho₁, hi, hc, rfl⟩

theorem exists_cleanedUp (hp : program.Disciplined)
    (ho : m₀.heap.Owns t.id (updates t.stack.frames)) (hb : Boundary program t m₀ n c m)
    (hi : iterate program n c m = (.over (.halted e), m')) :
    ∃ n c m lost, Boundary program t m₀ n c m ∧ m.context.thread = t.id ∧
      GivesUp program n c m e lost m' ∧ CleanedUp lost m m' := by
  obtain ⟨hall, m₁, hpoll, hadv⟩ := iterate_eq_halted hi
  rcases hb.cases hp ho with ⟨ht, ho, hc⟩ | ⟨k, c₁, m₂, e₁, m₃, b, rfl, hb₂, ht, ho, hi₂, rfl, rfl⟩
  · have ho₁ : m₁.heap.Owns m₁.context.thread ([] ++ updates m₁.context.stack.frames) :=
      hpoll.owning ho
    obtain ⟨m₂, hu, hf, rfl⟩ := undone_halted ho₁ hadv
    have ha : Attempt m [] [] m₂ := by
      refine (Attempt.of_quiet hpoll.quiet).undone hu ?_
      rw [hf, updates, List.append_nil]
    exact ⟨n, c, m, [], hb, ht, .boundary hc hall, cleanedUp_of_attempt ho ha hf⟩
  · obtain ⟨entered, ha⟩ := (stays_iterate hp ho hi₂).attempt e₁ rfl
    have hu₁ := (undone_setInterrupted m₃ b).trans (.of_quiet hpoll.quiet)
    have ha₁ : Attempt m₂ (stranded c₁ m₂) entered m₁ :=
      ha.undone hu₁ hpoll.quiet.updates.symm
    obtain ⟨m₄, hu, hf, rfl⟩ := undone_halted (ha₁.owns ho) hadv
    refine ⟨k, c₁, m₂, _, hb₂, ht, .error hi₂ hall, cleanedUp_of_attempt ho (ha₁.undone hu ?_) hf⟩
    rw [hf, updates, List.append_nil]

theorem owns_of_ended {t' : Thread κ} {outcome : Outcome κ} (hp : program.Disciplined)
    (ho : m₀.heap.Owns t.id (updates t.stack.frames)) (h : Ended program t m₀ outcome m')
    (hout : outcome = .yielded t' ∨ ∃ a, outcome = .blocked t' a) :
    t'.id = t.id ∧ m'.heap.Owns t'.id (updates t'.stack.frames) := by
  -- A thread that leaves the worker to come back evaluates the thunks of its update frames, as
  -- one that halts later on has to.
  obtain ⟨n, c, m, hb, hi⟩ := h
  obtain ⟨m₁, hpoll, hcases⟩ := iterate_cases n c m
  have hleaves : (∀ e, c ≠ .halted e) ∧
      ∃ m₂, Polled m m₂ ∧ t'.id = m₂.context.thread ∧ t'.stack = m₂.context.stack ∧
        m'.heap = m₂.heap := by
    rcases hcases with ⟨e, -, h⟩ | ⟨pending, hs, h⟩ | h
    · rw [h program] at hi
      cases hi
      rcases hout with hout | ⟨a, hout⟩ <;> cases hout
    · rw [h program] at hi
      cases hi
      rcases hout with hout | ⟨a, hout⟩ <;> cases hout
      refine ⟨fun e hc => ?_, m₁, hpoll, rfl, rfl, congrArg Core.heap (Machine.core_report _ _ _)⟩
      subst hc
      cases hs
    · rw [h program] at hi
      rcases advance_eq_over hi with ⟨v, rfl⟩ | ⟨e, -, rfl⟩ | ⟨t, a, rfl, rfl, hid, hs, hh⟩ | rfl <;>
        rcases hout with hout | ⟨a, hout⟩ <;> cases hout
      exact ⟨nofun, m₁, hpoll, hid, hs, hh⟩
  rcases hb.cases hp ho with ⟨ht, ho, -⟩ | ⟨_, _, _, e, _, _, _, _, _, _, _, hc, -⟩
  · obtain ⟨-, m₂, hp₂, hid, hstack, hheap⟩ := hleaves
    rw [hid, hstack, hheap]
    exact ⟨hp₂.thread.trans ht, hp₂.owning ho⟩
  · exact absurd hc (hleaves.1 e)

theorem resumes_of_boundary (hp : program.Conventional)
    (ho : m₀.heap.Owns t.id (updates t.stack.frames)) (hb : Boundary program t m₀ n c m) :
    c = .resuming → m.context.registers.result? ≠ none := by
  induction hb with
  | start => 
    obtain ⟨id, stack, pending⟩ := t
    cases pending with
    | resume a =>
      intro _
      change (Registers.setResult _ a).result? ≠ none
      simp
    | _ => exact nofun
  | @next n c c' m₁ m₂ hb hi ih =>
    rcases hb.cases hp.disciplined ho with ⟨-, ho₁, -⟩ | ⟨_, _, _, e, _, _, _, _, _, _, _, rfl, -⟩
    · have h := iterated_iterate hp n c ho₁ ih
      rw [hi] at h
      rintro rfl
      exact h.result rfl
    · exact absurd hi (iterate_halted_ne_next n e m₁)
  | interrupt b _ ih => exact ih

theorem cleanedUp_of_conventional (hp : program.Conventional)
    (ho : m₀.heap.Owns t.id (updates t.stack.frames)) (h : Ended program t m₀ (.halted e) m') :
    ∃ n c m, Boundary program t m₀ n c m ∧ m.context.thread = t.id ∧
      GivesUp program n c m e [] m' ∧ CleanedUp [] m m' := by
  obtain ⟨n, c, m, hb, hi⟩ := h
  obtain ⟨n, c, m, lost, hb, ht, hg, hc⟩ := exists_cleanedUp hp.disciplined ho hb hi
  have hlost : lost = [] := by
    cases hg with
    | boundary => rfl
    | error =>
      have hr := resumes_of_boundary hp ho hb
      unfold stranded
      split
      · next h _ _ => exact absurd h (hr rfl)
      · rfl
  subst hlost
  exact ⟨n, c, m, hb, ht, hg, hc⟩

/-- Others come in between two iterations. They may park on the thunks that the thread evaluates and
write its interrupt flag, but what is the thread's own stays as it is. -/
structure Disturbed (m m' : Machine κ) : Prop where
  context : ∃ b, m'.context = { m.context with interrupted := b }
  parked : ∀ a body blocked,
    m.heap.cell a = .thunk (.underEvaluation m.context.thread body blocked) → ∃ later,
      m'.heap.cell a = .thunk (.underEvaluation m.context.thread body (later ++ blocked))
  owner : ∀ a, m'.heap.owner? a = some m.context.thread → m.heap.owner? a = some m.context.thread

inductive Moment (program : Program κ) (t : Thread κ) (m : Machine κ) :
    Nat → Control → Machine κ → Prop
  | start : Moment program t m 0 (begin t m).1 (begin t m).2
  | next {n : Nat} {c c' : Control} {m₁ m₂ : Machine κ} : Moment program t m n c m₁ →
    iterate program n c m₁ = (.next c', m₂) → Moment program t m (n + 1) c' m₂
  | disturb {n : Nat} {c : Control} {m₁ m₂ : Machine κ} : Moment program t m n c m₁ →
    Disturbed m₁ m₂ → Moment program t m n c m₂

namespace Disturbed

theorem refl (m : Machine κ) : Disturbed m m :=
  ⟨⟨m.context.interrupted, rfl⟩, fun _ _ _ hc => ⟨[], hc⟩, fun _ h => h⟩

theorem park {a : Address} {u : Thread κ} {h : Heap κ} (hp : m.heap.park? a u = some h) :
    Disturbed m (m.setHeap h) where
  context := ⟨m.context.interrupted, rfl⟩
  parked b body blocked hc := by
    obtain ⟨t, body₁, blocked₁, hc₁, rfl⟩ := Heap.park?_eq_some hp
    by_cases hab : a = b
    · subst hab
      cases hc₁.symm.trans hc
      exact ⟨[u], Heap.cell_write_thunk hc₁⟩
    · exact ⟨[], (Heap.cell_write_of_ne hab).trans hc⟩
  owner b ho := (Heap.owner?_park? hp b).symm.trans ho

variable (h : Disturbed m m₁)
include h

theorem thread : m₁.context.thread = m.context.thread := by
  obtain ⟨b, hc⟩ := h.context
  rw [hc]

theorem stack : m₁.context.stack = m.context.stack := by
  obtain ⟨b, hc⟩ := h.context
  rw [hc]

theorem trans (h₁ : Disturbed m₁ m₂) : Disturbed m m₂ where
  context := by
    obtain ⟨b, hc⟩ := h.context
    obtain ⟨b₁, hc₁⟩ := h₁.context
    exact ⟨b₁, by rw [hc₁, hc]⟩
  parked a body blocked hc := by
    obtain ⟨later, hc⟩ := h.parked a body blocked hc
    rw [← h.thread] at hc ⊢
    obtain ⟨later₁, hc⟩ := h₁.parked a body _ hc
    exact ⟨later₁ ++ later, by rw [hc, List.append_assoc]⟩
  owner a ho := h.owner a (h.thread ▸ h₁.owner a (h.thread.symm ▸ ho))

theorem owns (ho : m.heap.Owns m.context.thread xs) : m₁.heap.Owns m₁.context.thread xs := by
  rw [h.thread]
  refine ho.congr fun a => ⟨h.owner a, fun hown => ?_⟩
  obtain ⟨body, blocked, hc⟩ := Heap.owner?_eq_some_iff.1 hown
  obtain ⟨later, hc⟩ := h.parked a body blocked hc
  exact Heap.owner?_eq_some_iff.2 ⟨body, _, hc⟩

theorem owning (ho : m.Owning) : m₁.Owning := by
  have howns := h.owns ho
  rwa [← h.stack] at howns

end Disturbed

theorem Moment.cases (hp : program.Disciplined)
    (ho : m₀.heap.Owns t.id (updates t.stack.frames)) (h : Moment program t m₀ n c m) :
    (m.context.thread = t.id ∧ m.Owning ∧ ∀ e, c ≠ .halted e) ∨
      ∃ k c₁ m₁ e m₂, n = k + 1 ∧ Moment program t m₀ k c₁ m₁ ∧ m₁.context.thread = t.id ∧
        m₁.Owning ∧ iterate program k c₁ m₁ = (.next (.halted e), m₂) ∧ c = .halted e ∧
          Disturbed m₂ m := by
  induction h with
  | start => exact .inl (begin_owning ho)
  | @next n c c' m₁ m₂ hb hi ih =>
    rcases ih with ⟨ht, ho₁, -⟩ | ⟨_, _, _, e, _, _, _, _, _, _, rfl, -⟩
    · have hs := stays_iterate hp ho₁ hi
      by_cases hc : ∃ e, c' = .halted e
      · obtain ⟨e, rfl⟩ := hc
        exact .inr ⟨n, c, m₁, e, m₂, rfl, hb, ht, ho₁, hi, rfl, .refl _⟩
      · have hc : ∀ e, c' ≠ .halted e := fun e he => hc ⟨e, he⟩
        exact .inl ⟨hs.thread.trans ht, hs.owning hc, hc⟩
    · exact absurd hi (iterate_halted_ne_next n e m₁)
  | @disturb n c m₁ m₂ hb hd ih =>
    rcases ih with ⟨ht, ho₁, hc⟩ | ⟨k, c₁, m₃, e, m₄, hn, hb', ht, ho₁, hi, hc, hd'⟩
    · exact .inl ⟨hd.thread.trans ht, hd.owning ho₁, hc⟩
    · exact .inr ⟨k, c₁, m₃, e, m₄, hn, hb', ht, ho₁, hi, hc, hd'.trans hd⟩

theorem cleanedUp_of_undone {lost : List Address}
    (ho : m.heap.Owns m.context.thread (lost ++ updates m.context.stack.frames))
    (hu : Undone (updates m.context.stack.frames) m m₁) : CleanedUp lost m m₁.release := by
  have hmem := ho.mem_right
  have hend : m₁.heap.Owns m.context.thread (lost ++ []) := hu.owns ((List.append_nil _).symm ▸ ho)
  rw [List.append_nil] at hend
  constructor
  case owner => exact fun a => (hend.2 a).symm
  case reset => exact fun a hown hla => hu.undone a ((hmem a).2 ⟨hown, hla⟩)
  case kept =>
    intro a has hna
    refine hu.kept a has fun hfa => ?_
    obtain ⟨hown, hla⟩ := (hmem a).1 hfa
    exact hna.elim (fun h => h hown) hla
  case woken =>
    exact ⟨[], _, (List.nodup_append.1 ho.1).2.1, hmem, List.forall_mem_nil _, hu.told⟩
  case stack => rfl
  case thread => rfl
  case exception => rfl
  case registers => exact fun i => get?_boxed_release m₁ i

/-- The same with others in between: whoever has parked by the last iteration is handed over in it,
and before it nobody was but those whose thunks an exception had taken back. -/
theorem cleanedUp_amid (hp : program.Disciplined)
    (ho : m₀.heap.Owns t.id (updates t.stack.frames)) (hb : Moment program t m₀ n c m)
    (hi : iterate program n c m = (.over (.halted e), m')) :
    m.context.thread = t.id ∧ ((∀ e₁, c ≠ .halted e₁) ∧ CleanedUp [] m m' ∨
      ∃ k c₁ m₁ e₁ m₂ entered, n = k + 1 ∧ Moment program t m₀ k c₁ m₁ ∧ c = .halted e₁ ∧
        iterate program k c₁ m₁ = (.next (.halted e₁), m₂) ∧
        Attempt m₁ (stranded c₁ m₁) entered m₂ ∧ Disturbed m₂ m ∧
        CleanedUp (stranded c₁ m₁) m m') := by
  obtain ⟨-, m₁, hpoll, hadv⟩ := iterate_eq_halted hi
  have hclean {lost : List Address}
      (howns : m.heap.Owns m.context.thread (lost ++ updates m.context.stack.frames)) :
      CleanedUp lost m m' := by
    obtain ⟨m₂, hu, -, rfl⟩ := undone_halted (owns_of_quiet hpoll.quiet howns) hadv
    refine cleanedUp_of_undone howns ?_
    rw [← hpoll.quiet.updates]
    exact (Undone.of_quiet hpoll.quiet).trans hu
  rcases hb.cases hp ho with
    ⟨ht, howning, hc⟩ | ⟨k, c₁, m₂, e₁, m₃, rfl, hb₂, ht, howning, hi₂, rfl, hd⟩
  · exact ⟨ht, .inl ⟨hc, hclean howning⟩⟩
  · have hs := stays_iterate hp howning hi₂
    obtain ⟨entered, ha⟩ := hs.attempt e₁ rfl
    have howns := hd.owns (ha.owns howning)
    rw [← hd.stack] at howns
    exact ⟨(hd.thread.trans hs.thread).trans ht,
      .inr ⟨k, c₁, m₂, e₁, m₃, entered, rfl, hb₂, rfl, hi₂, ha, hd, hclean howns⟩⟩

end Boundaries

section Silent

def silent : Program Unit := ⟨fun _ _ => .done .resume⟩

end Silent

end Halting

end GraphReduction
