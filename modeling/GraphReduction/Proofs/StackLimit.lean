import GraphReduction.Proofs.Refusals
import GraphReduction.Proofs.Relay

/-!
Runs of one computation under different limits of the stack. They are the same up to the first push
that finds the stack full.
-/
namespace GraphReduction

open Evaluation Machine

variable {κ : Type}

section Turns

structure Thread.Level (t t' : Thread κ) : Prop where
  id : t'.id = t.id
  stack : t.stack.Level t'.stack
  pending : t'.pending = t.pending

inductive Evaluation.Turn.Level : Turn κ → Turn κ → Prop where
  | refl (turn : Turn κ) : Level turn turn
  | yielded {t t' : Thread κ} : t.Level t' → Level (.over (.yielded t)) (.over (.yielded t'))
  | blocked {t t' : Thread κ} {a : Address} : t.Level t' →
      Level (.over (.blocked t a)) (.over (.blocked t' a))

def Evaluation.Turn.mark? (m : Machine κ) : Turn κ → Option Nat
  | .over (.yielded t) | .over (.blocked t _) => some t.stack.highWater
  | .over (.finished _) | .over (.halted _) => none
  | .next _ | .over .endless => some m.context.stack.highWater

namespace View

def turn : View κ (Turn κ × Machine κ) where
  level p q := p.1.Level q.1 ∧ p.2.Level q.2
  limit p := p.2.context.stack.limit
  mark? p := p.1.mark? p.2

def run : View κ ((Nat × Turn κ) × Machine κ) where
  level p q := q.1.1 = p.1.1 ∧ p.1.2.Level q.1.2 ∧ p.2.Level q.2
  limit p := p.2.context.stack.limit
  mark? p := p.1.2.mark? p.2

end View

namespace Evaluation

variable (program : Program κ)

def advanceAttempts (c : Control) (m : Machine κ) : List (Attempt κ) :=
  let m := reportControl c m
  match c with
  | .entering a => enterAttempts program a m
  | .applying f args => applyAttempts program f args m
  | .resuming =>
    match m.pop? with
    | some (frame, m) => frameAttempts program frame m
    | none => []
  | _ => []

def iterateAttempts (k : Nat) (c : Control) (m : Machine κ) : List (Attempt κ) :=
  match decision k c m with
  | (.inl c, m) => advanceAttempts program c m
  | (.inr _, _) => []

/-- The pushes of a run, one after the other. -/
def attemptsUpTo : Nat → Nat → Control → Machine κ → List (Attempt κ)
  | 0, _, _, _ => []
  | fuel + 1, k, c, m =>
    iterateAttempts program k c m ++ match iterate program k c m with
      | (.next c, m) => attemptsUpTo fuel (k + 1) c m
      | (.over _, _) => []

end Evaluation

end Turns

section Iterations

namespace Evaluation

variable {program : Program κ} {m m' : Machine κ}

theorem level_release (h : m.Level m') : m.release.Level m'.release := by
  obtain ⟨s, rfl, -⟩ := h
  exact ⟨.empty s.limit, rfl, rfl, rfl⟩

theorem logged_next (c : Control) :
    Logged .machine .turn (fun m : Machine κ => (Turn.next c, m)) fun _ => [] :=
  .silent (fun _ => rfl) (fun _ _ hw => hw) fun h => ⟨.refl _, h⟩

theorem logged_follow {x : Exec κ Step} {log : Machine κ → List (Attempt κ)}
    (hx : Traced x.outcome log) : Logged .machine .turn (follow x) log := by
  have hsettled := hx.seq (G := settle) fun r => .of_indifferent (indifferent_settle r)
  refine (hsettled.seq (G := fun c m => (.next c, m)) logged_next).congr (follow_eq x) fun m => ?_
  rw [List.append_nil, List.append_nil]

theorem logged_leave (pending : Pending) (message : String) (outcome : Thread κ → Outcome κ)
    (hm : ∀ t m, (Turn.over (outcome t)).mark? m = some t.stack.highWater)
    (hl : ∀ {t t' : Thread κ}, t.Level t' →
      (Turn.over (outcome t)).Level (.over (outcome t'))) :
    Logged .machine .turn (fun m => (Turn.over (outcome (m.detach pending).1),
      (m.detach pending).2.report .trampoline fun _ =>
        ⟨.debug, message, threadDetail (m.detach pending).1.id⟩)) fun _ => [] := by
  have hsaid (id : ThreadId) : Blind fun m : Machine κ => m.report .trampoline fun _ =>
      ⟨.debug, message, threadDetail id⟩ := blind_report _ fun _ => rfl
  refine .silent (fun m => ?_) (fun m w hw => ?_) fun {m m'} h => ?_
  · change (report _ _ _).context.stack.limit = _
    rw [context_report]
    rfl
  · exact (hm _ _).symm.trans hw
  · have hid : (m'.detach pending).1.id = (m.detach pending).1.id := by
      obtain ⟨s, rfl, -⟩ := h
      rfl
    have hleft : (m.detach pending).2.Level (m'.detach pending).2 := level_release h
    refine ⟨hl ⟨hid, h.stack, rfl⟩, ?_⟩
    rw [hid]
    exact (hsaid _).level hleft

theorem logged_yieldThread (pending : Pending) :
    Logged .machine .turn (yieldThread pending : StateM (Machine κ) (Turn κ)) fun _ => [] := by
  have hleft : Logged .machine .turn _ fun _ => [] :=
    logged_leave (κ := κ) pending "yielding" .yielded (fun _ _ => rfl) .yielded
  exact (hleft.changed (blind_count fun c => { c with yields := c.yields + 1 }) :)

theorem logged_release {g : Machine κ → Machine κ} (outcome : Outcome κ) (hg : Blind g)
    (hm : ∀ m, (Turn.over outcome).mark? m = none) :
    Logged .machine .turn (fun m => (Turn.over outcome, (g m).release)) fun _ => [] := by
  refine .silent hg.limit (fun m w hw => ?_) fun h => ⟨.refl _, level_release (hg.level h)⟩
  cases (hm _).symm.trans hw

theorem logged_halted (e : RuntimeError) :
    Logged .machine .turn (advance program (.halted e)) fun _ => [] := by
  have hsaid : Blind fun m : Machine κ => m.report .trampoline fun _ =>
      ⟨.debug, "halting", [("error", e.message)]⟩ := blind_report _ fun _ => rfl
  have habandoned : Blind fun m : Machine κ =>
      (abandonFrames m.context.stack.frames m).2 :=
    .reading (v := fun m => m.context.stack.frames)
      (g := fun frames m => (abandonFrames frames m).2)
      (fun h => h.stack.frames) blind_abandonFrames
  have hended := logged_release (.halted e) (hsaid.comp habandoned) fun _ => rfl
  exact (hended.changed (blind_reportControl (.halted e)) :)

def finishing : Except RuntimeError Address → Machine κ → Turn κ × Machine κ
  | .ok value => fun m => (.over (.finished value), m.release)
  | .error _ => fun m => (.next (.halted (.unexpectedEmptyStack "returning a value")), m)

def resumption (program : Program κ) : Option (Frame κ) → Machine κ → Turn κ × Machine κ
  | some frame => follow (resumeFrame program frame)
  | none => fun m => finishing (m.context.registers.readClosure 1) m

def resumptionAttempts (program : Program κ) :
    Option (Frame κ) → Machine κ → List (Attempt κ)
  | some frame => frameAttempts program frame
  | none => fun _ => []

theorem logged_resumption (frame? : Option (Frame κ)) :
    Logged .machine .turn (resumption program frame?) (resumptionAttempts program frame?) := by
  cases frame? with
  | some frame => exact logged_follow (traced_resumeFrame frame)
  | none =>
    refine .reading (v := fun m => m.context.registers.readClosure 1) (F := finishing)
      (p := fun _ _ => []) (fun h => by rw [h.registers]) fun r => ?_
    cases r with
    | ok value => exact logged_release (.finished value) .id fun _ => rfl
    | error _ => exact logged_next _

theorem logged_resuming : Logged .machine .turn (advance program .resuming)
    (advanceAttempts program .resuming) := by
  have htaken := Logged.of_indifferent (indifferent_taken (κ := κ) FrameStack.takes_pop?)
  have hresume : ∀ frame? : Option (Frame κ), Logged .machine .turn
      (resumption program frame?) (resumptionAttempts program frame?) := logged_resumption
  refine ((htaken.seq hresume).changed (blind_reportControl .resuming)).congr
    (fun m => ?_) fun m => ?_
  · unfold advance taken
    simp only [modify_bind, Machine.pop?]
    cases (reportControl .resuming m).context.stack.pop? with
    | some p => rfl
    | none =>
      dsimp only [resumption]
      cases (reportControl .resuming m).context.registers.readClosure 1 <;> rfl
  · unfold advanceAttempts taken
    simp only [Machine.pop?, List.nil_append]
    cases (reportControl .resuming m).context.stack.pop? <;> rfl

theorem logged_advance (c : Control) :
    Logged .machine .turn (advance program c) (advanceAttempts program c) := by
  have hsaid : Blind fun m : Machine κ => reportControl c m := blind_reportControl c
  cases c with
  | entering a => exact ((logged_follow (traced_enter a)).changed hsaid :)
  | applying f args => exact ((logged_follow (traced_apply f args)).changed hsaid :)
  | resuming => exact logged_resuming
  | blocked a =>
    have hleft := logged_leave (κ := κ) (.enter a) "blocked on thunk" (.blocked · a)
      (fun _ _ => rfl) .blocked
    exact (hleft.changed hsaid :)
  | halted e => exact logged_halted e
  | endless =>
    have hstuck : Logged .machine .turn (fun m : Machine κ => (Turn.over .endless, m))
        fun _ => [] :=
      .silent (fun _ => rfl) (fun _ _ hw => hw) fun h => ⟨.refl _, h⟩
    exact (hstuck.changed hsaid :)

def deciding (k : Nat) (c : Control) :
    Bool × Bool × Except Control Pending → Machine κ → (Control ⊕ Pending) × Machine κ
  | (true, _, _) => fun m => (.inl (.halted .interrupted), m)
  | (false, asked, point) =>
    if k = 0 ∨ k % pollInterval ≠ 0 then fun m => (.inl c, m)
    else fun m => (if asked then
        match point with
        | .ok pending => .inr pending
        | .error c => .inl c
      else .inl c, { m with scheduler := m.scheduler.poll.2 })

theorem indifferent_decision (k : Nat) (c : Control) : Indifferent (decision (κ := κ) k c) := by
  have hdecide (b : Bool × Bool × Except Control Pending) :
      Indifferent (deciding (κ := κ) k c b) := by
    obtain ⟨interrupted, asked, point⟩ := b
    cases interrupted with
    | true => exact .pure (Sum.inl (Control.halted .interrupted))
    | false =>
      dsimp only [deciding]
      split
      · exact .pure (Sum.inl c)
      · have hpolled : Blind fun m : Machine κ => { m with scheduler := m.scheduler.poll.2 } :=
          .of_setStack (fun _ _ => rfl) fun _ => rfl
        exact .of_blind _ hpolled
  refine (Indifferent.reading (v := fun m : Machine κ =>
    (m.context.interrupted, m.scheduler.poll.1, suspensionPoint c m)) (fun h => ?_) hdecide).congr
      fun m => ?_
  · obtain ⟨s, rfl, -⟩ := h
    cases c <;> rfl
  · have hpoint : suspensionPoint c { m with scheduler := m.scheduler.poll.2 } =
        suspensionPoint c m := by
      cases c <;> rfl
    unfold decision
    dsimp only [deciding]
    rw [hpoint]
    cases m.context.interrupted with
    | true => rfl
    | false =>
      rw [if_neg Bool.false_ne_true]
      dsimp only
      by_cases hk : k = 0 ∨ k % pollInterval ≠ 0
      · rw [if_pos hk, if_pos hk]
      · rw [if_neg hk, if_neg hk]
        cases m.scheduler.poll.1 with
        | true => cases suspensionPoint c m <;> rfl
        | false => rfl

theorem logged_iterate (k : Nat) (c : Control) :
    Logged .machine .turn (iterate program k c) (iterateAttempts program k c) := by
  let go : Control ⊕ Pending → Machine κ → Turn κ × Machine κ
    | .inl c => advance program c
    | .inr pending => yieldThread pending
  let log : Control ⊕ Pending → Machine κ → List (Attempt κ)
    | .inl c => advanceAttempts program c
    | .inr _ => fun _ => []
  have hgo (r : Control ⊕ Pending) : Logged .machine .turn (go r) (log r) := by
    cases r with
    | inl c => exact logged_advance c
    | inr pending => exact logged_yieldThread pending
  have hdecided := Logged.of_indifferent (indifferent_decision (κ := κ) k c)
  refine (hdecided.seq hgo).congr (fun m => ?_) fun m => ?_
  · rw [iterate_eq]
    rcases decision k c m with ⟨_ | _, _⟩ <;> rfl
  · unfold iterateAttempts
    rcases decision k c m with ⟨_ | _, _⟩ <;> rfl

theorem advance_of_refused (hp : program.Heeds) (c : Control) (m : Machine κ) :
    (∀ a ∈ advanceAttempts program c m, a.Fits) ∨
      ∃ a m₁, RefusedLast (advanceAttempts program c m) a ∧
        advance program c m =
          follow (Exec.raise (.stackOverflow a.machine.context.stack.limit)) m₁ ∧
        m₁.context.stack = a.machine.context.stack := by
  have hfollow {x : Exec κ Step} {m : Machine κ} {log : List (Attempt κ)} (h : x.HeedsOn m log) :
      (∀ a ∈ log, a.Fits) ∨ ∃ a m₁, RefusedLast log a ∧
        follow x m = follow (Exec.raise (.stackOverflow a.machine.context.stack.limit)) m₁ ∧
        m₁.context.stack = a.machine.context.stack := by
    refine h.imp_right ?_
    rintro ⟨a, m₁, hlast, hx, hs⟩
    refine ⟨a, m₁, hlast, ?_, hs⟩
    rw [follow_eq, follow_eq, Exec.outcome, hx]
    rfl
  cases c with
  | entering a => exact hfollow (heeds_enter hp a _)
  | applying f args => exact hfollow (heeds_apply hp f args _)
  | resuming =>
    cases hpop : (reportControl .resuming m).pop? with
    | some popped =>
      have hlog : advanceAttempts program .resuming m =
          frameAttempts program popped.1 popped.2 := by
        simp only [advanceAttempts, hpop]
      rw [advance_of_pop? program hpop, hlog]
      exact hfollow (heeds_resumeFrame hp popped.1 popped.2)
    | none =>
      have hlog : advanceAttempts program .resuming m = [] := by simp only [advanceAttempts, hpop]
      rw [hlog]
      exact .inl (List.forall_mem_nil _)
  | _ => exact .inl (List.forall_mem_nil _)

theorem iterate_of_refused (hp : program.Heeds) (n : Nat) (c : Control) (m : Machine κ) :
    (∀ a ∈ iterateAttempts program n c m, a.Fits) ∨
      ∃ a m₁, RefusedLast (iterateAttempts program n c m) a ∧
        iterate program n c m =
          follow (Exec.raise (.stackOverflow a.machine.context.stack.limit)) m₁ ∧
        m₁.context.stack = a.machine.context.stack := by
  unfold iterateAttempts
  rw [iterate_eq]
  rcases decision n c m with ⟨c' | pending, m'⟩
  · exact advance_of_refused hp c' m'
  · exact .inl (List.forall_mem_nil _)

theorem logged_onward {G : Control → Machine κ → (Nat × Turn κ) × Machine κ}
    {log : Control → Machine κ → List (Attempt κ)} (k : Nat)
    (h : ∀ c, Logged .machine .run (G c) (log c)) :
    Logged .turn .run (fun p : Turn κ × Machine κ => match p.1 with
      | .next c => G c p.2
      | .over outcome => ((k, .over outcome), p.2)) (fun p => match p.1 with
      | .next c => log c p.2
      | .over _ => []) where
  limit p := by
    obtain ⟨turn, m⟩ := p
    cases turn with
    | next c => exact (h c).limit m
    | «over» outcome => rfl
  mark p hfit w hw := by
    obtain ⟨turn, m⟩ := p
    cases turn with
    | next c => exact (h c).mark m hfit w hw
    | «over» outcome => exact ⟨w, hw, rfl⟩
  parallel {p q} hl hfit := by
    obtain ⟨turn, m⟩ := p
    obtain ⟨turn', m'⟩ := q
    obtain ⟨hturn, hl⟩ := hl
    cases hturn with
    | refl =>
      cases turn with
      | next c => exact (h c).parallel hl hfit
      | «over» outcome => exact .finished ⟨rfl, .refl _, hl⟩
    | yielded ht => exact .finished ⟨rfl, .yielded ht, hl⟩
    | blocked ht => exact .finished ⟨rfl, .blocked ht, hl⟩
  bounded p := by
    obtain ⟨turn, m⟩ := p
    cases turn with
    | next c =>
      obtain ⟨bound, hbound⟩ := (h c).bounded m
      refine ⟨bound, fun q hl hle => ?_⟩
      obtain ⟨turn', m'⟩ := q
      obtain ⟨hturn, hl⟩ := hl
      cases hturn
      exact hbound m' hl hle
    | «over» outcome =>
      refine ⟨0, fun q hl _ a ha => ?_⟩
      obtain ⟨turn', m'⟩ := q
      obtain ⟨hturn, -⟩ := hl
      cases hturn <;> cases ha

theorem logged_iterateUpTo (program : Program κ) (fuel k : Nat) (c : Control) :
    Logged .machine .run (iterateUpTo program fuel k c) (attemptsUpTo program fuel k c) := by
  induction fuel generalizing k c with
  | zero => exact .silent (fun _ => rfl) (fun _ _ hw => hw) fun h => ⟨rfl, .refl _, h⟩
  | succ fuel ih =>
    have hfirst : Logged .machine .turn (iterate program k c) (iterateAttempts program k c) :=
      logged_iterate k c
    refine (hfirst.comp (logged_onward (k + 1) (ih (k + 1)))).congr (fun m => ?_) fun m => ?_
    · rw [iterateUpTo_succ]
      cases (iterate program k c m).1 <;> rfl
    · rw [attemptsUpTo]
      obtain ⟨turn, m₁⟩ := iterate program k c m
      cases turn <;> rfl

end Evaluation

end Iterations

section Runs

namespace Evaluation

variable (program : Program κ)

def Unrefused (k n : Nat) (c : Control) (m : Machine κ) : Prop :=
  ∀ a ∈ attemptsUpTo program k n c m, a.Fits

def highest (k n : Nat) (c : Control) (m : Machine κ) : Nat :=
  peak m.context.stack.depth (attemptsUpTo program k n c m)

structure Same (i n : Nat) (c : Control) (m m' : Machine κ) : Prop where
  number : (iterateUpTo program i n c m').1.1 = (iterateUpTo program i n c m).1.1
  turn : (iterateUpTo program i n c m).1.2.Level (iterateUpTo program i n c m').1.2
  machine : (iterateUpTo program i n c m).2.Level (iterateUpTo program i n c m').2
  attempts : List.Forall₂ Attempt.Level (attemptsUpTo program i n c m)
    (attemptsUpTo program i n c m')

/-- In the iteration a push of the second run is refused, and it is the first one. If bodies go no
further then, the iteration is that of an overflow with the stack as it was. -/
structure Refusal (n : Nat) (c : Control) (m m' : Machine κ) (before : List (Attempt κ))
    (a a' : Attempt κ) : Prop where
  attempts : ∃ after, iterateAttempts program n c m = before ++ a :: after
  attempts' : ∃ before' after', iterateAttempts program n c m' = before' ++ a' :: after' ∧
    List.Forall₂ Attempt.Level before before'
  fits : ∀ b ∈ before, b.depth < m'.context.stack.limit
  level : a.Level a'
  depth : a.depth = m'.context.stack.limit
  raises : Exec.push a'.frame a'.machine =
    .error (.error (.stackOverflow m'.context.stack.limit)) a'.machine
  entry : ∀ {b : Address} {body : Suspension κ}, c = .entering b → before = [] →
    m'.heap.cell b = .thunk (.unevaluated body) →
      a'.frame = .update b ∧ ∃ m₁ m₂, iterate program n c m' = follow (enter program b) m₁ ∧
        enter program b m₁ = .error (.error (.stackOverflow m'.context.stack.limit)) m₂ ∧
        m₂.heap.cell b = .thunk (.unevaluated body) ∧ m₂.context.stack = m'.context.stack
  overflow : program.Heeds → ∃ m₁,
    iterate program n c m' = follow (Exec.raise (.stackOverflow m'.context.stack.limit)) m₁ ∧
      m₁.context.stack = a'.machine.context.stack

variable {program} {c : Control} {m m' : Machine κ}

theorem attemptsUpTo_of_next {c₁ : Control} {m₁ : Machine κ} {n : Nat} (fuel : Nat)
    (h : iterate program n c m = (.next c₁, m₁)) :
    attemptsUpTo program (fuel + 1) n c m =
      iterateAttempts program n c m ++ attemptsUpTo program fuel (n + 1) c₁ m₁ := by
  rw [attemptsUpTo, h]

theorem attemptsUpTo_of_over {outcome : Outcome κ} {m₁ : Machine κ} {n : Nat} (fuel : Nat)
    (h : iterate program n c m = (.over outcome, m₁)) :
    attemptsUpTo program (fuel + 1) n c m = iterateAttempts program n c m := by
  rw [attemptsUpTo, h, List.append_nil]

theorem attemptsUpTo_subset (program : Program κ) {i k : Nat} (hi : i ≤ k) (n : Nat) (c : Control)
    (m : Machine κ) : attemptsUpTo program i n c m ⊆ attemptsUpTo program k n c m := by
  induction i generalizing k n c m with
  | zero => exact List.nil_subset _
  | succ i ih =>
    obtain ⟨k, rfl⟩ := Nat.exists_eq_add_of_lt hi
    cases hn : iterate program n c m with
    | mk turn m₁ =>
      cases turn with
      | next c₁ =>
        rw [attemptsUpTo_of_next _ hn, attemptsUpTo_of_next _ hn]
        exact List.append_subset.2 ⟨List.subset_append_left _ _,
          List.subset_append_of_subset_right _ (ih (Nat.le_add_right i k) _ _ _)⟩
      | «over» outcome =>
        rw [attemptsUpTo_of_over _ hn, attemptsUpTo_of_over _ hn]
        exact List.Subset.refl _

theorem highest_le_iff {k n L : Nat} : highest program k n c m ≤ L ↔
    m.context.stack.depth ≤ L ∧ ∀ a ∈ attemptsUpTo program k n c m, a.depth < L :=
  peak_le_iff

theorem same_of_lt {i n : Nat} (hl : m.Level m') (hfit : Unrefused program i n c m)
    (hlt : ∀ a ∈ attemptsUpTo program i n c m, a.depth < m'.context.stack.limit) :
    Same program i n c m m' := by
  obtain ⟨⟨hnumber, hturn, hmachine⟩, hattempts⟩ :=
    ((logged_iterateUpTo program i n c).parallel hl hfit).of_lt hlt
  exact ⟨hnumber, hturn, hmachine, hattempts⟩

theorem mark?_of_level {turn turn' : Turn κ} (ht : turn.Level turn') (hl : m.Level m') :
    turn'.mark? m' = turn.mark? m := by
  cases ht with
  | refl =>
    cases turn with
    | next c => exact congrArg some hl.stack.highWater
    | «over» outcome =>
      cases outcome with
      | endless => exact congrArg some hl.stack.highWater
      | _ => rfl
  | yielded ht => exact congrArg some ht.stack.highWater
  | blocked ht => exact congrArg some ht.stack.highWater

theorem mark?_eq {i n w : Nat} (hfit : Unrefused program i n c m)
    (hw : w ∈ (iterateUpTo program i n c m).1.2.mark? (iterateUpTo program i n c m).2) :
    w = max m.context.stack.highWater (highest program i n c m) := by
  obtain ⟨h, hh, rfl⟩ := (logged_iterateUpTo program i n c).mark m hfit w hw
  cases hh
  rw [highest, max_peak, Nat.max_eq_left m.context.stack.depth_le_highWater]

theorem exists_exceeding {k n L : Nat} (h : ∃ a ∈ attemptsUpTo program k n c m, L ≤ a.depth) :
    ∃ j c₁ m₁, j < k ∧ iterateUpTo program j n c m = ((n + j, .next c₁), m₁) ∧
      (∀ a ∈ attemptsUpTo program j n c m, a.depth < L) ∧
      iterateAttempts program (n + j) c₁ m₁ ⊆ attemptsUpTo program k n c m ∧
      ∃ a ∈ iterateAttempts program (n + j) c₁ m₁, L ≤ a.depth := by
  induction k generalizing n c m with
  | zero =>
    obtain ⟨a, ha, -⟩ := h
    cases ha
  | succ k ih =>
    by_cases hfirst : ∃ a ∈ iterateAttempts program n c m, L ≤ a.depth
    · exact ⟨0, c, m, Nat.succ_pos k, rfl, fun _ ha => (List.not_mem_nil ha).elim,
        fun _ ha => List.mem_append_left _ ha, hfirst⟩
    · have hlt : ∀ a ∈ iterateAttempts program n c m, a.depth < L := fun a ha =>
        Nat.lt_of_not_le fun hle => hfirst ⟨a, ha, hle⟩
      obtain ⟨a, ha, hle⟩ := h
      cases hn : iterate program n c m with
      | mk turn m₁ =>
        cases turn with
        | «over» outcome =>
          rw [attemptsUpTo_of_over _ hn] at ha
          exact absurd ⟨a, ha, hle⟩ hfirst
        | next c₁ =>
          rw [attemptsUpTo_of_next _ hn] at ha
          have hrest := (List.mem_append.1 ha).resolve_left fun ha => hfirst ⟨a, ha, hle⟩
          obtain ⟨j, c₂, m₂, hj, hrun, hbelow, hsub, hover⟩ := ih ⟨a, hrest, hle⟩
          rw [Nat.add_right_comm] at hrun hsub hover
          refine ⟨j + 1, c₂, m₂, Nat.succ_lt_succ hj, ?_, ?_, ?_, hover⟩
          · rw [iterateUpTo_of_next hn]
            exact hrun
          · rw [attemptsUpTo_of_next _ hn]
            exact List.forall_mem_append.2 ⟨hlt, hbelow⟩
          · rw [attemptsUpTo_of_next _ hn]
            exact List.subset_append_of_subset_right _ hsub

section Refusing

theorem reset_entered {h : Heap κ} {b : Address} {body : Suspension κ} (t : ThreadId)
    (hc : h.cell b = .thunk (.unevaluated body)) :
    ((h.write b (.thunk (.underEvaluation t body []))).reset b).2.cell b =
      .thunk (.unevaluated body) := by
  have hentered := Heap.cell_write_thunk (c := .thunk (.underEvaluation t body [])) hc
  unfold Heap.reset
  rw [hentered]
  exact Heap.cell_write_thunk hentered

theorem enter_of_full (program : Program κ) {b : Address} {body : Suspension κ}
    (hc : m.heap.cell b = .thunk (.unevaluated body))
    (hfull : m.context.stack.depth = m.context.stack.limit) :
    ∃ m₁, enter program b m = .error (.error (.stackOverflow m.context.stack.limit)) m₁ ∧
      m₁.heap.cell b = .thunk (.unevaluated body) ∧ m₁.context.stack = m.context.stack := by
  let entered := m.setHeap (m.heap.write b (.thunk (.underEvaluation m.context.thread body [])))
  have hpush : entered.push (.update b) = .error (.stackOverflow m.context.stack.limit) := by
    rw [Machine.push, show entered.context = m.context from rfl, FrameStack.push_of_full _ hfull]
  have hcore := entered.core_resetThunk b fun _ => none
  refine ⟨entered.resetThunk b fun _ => none, ?_, ?_, congrArg Core.stack hcore⟩
  · rw [enter_eq_start program hc, start, hpush]
  · rw [show (entered.resetThunk b fun _ => none).heap = _ from congrArg Core.heap hcore]
    exact reset_entered m.context.thread hc

theorem iterateAttempts_entering (program : Program κ) (k : Nat) (b : Address) (m : Machine κ) :
    iterateAttempts program k (.entering b) m = [] ∨
      ∃ m₁, iterateAttempts program k (.entering b) m = enterAttempts program b m₁ ∧
        iterate program k (.entering b) m = follow (enter program b) m₁ ∧
        m₁.heap = m.heap ∧ m₁.context = m.context := by
  have hgo {m₁ : Machine κ} (hd : decision k (.entering b) m = (.inl (.entering b), m₁))
      (hh : m₁.heap = m.heap) (hx : m₁.context = m.context) :
      ∃ m₁, iterateAttempts program k (.entering b) m = enterAttempts program b m₁ ∧
        iterate program k (.entering b) m = follow (enter program b) m₁ ∧
        m₁.heap = m.heap ∧ m₁.context = m.context := by
    refine ⟨reportControl (.entering b) m₁, ?_, ?_, ?_, ?_⟩
    · rw [iterateAttempts, hd]
      rfl
    · rw [iterate_eq, hd]
      rfl
    · exact (heap_reportControl _ _).trans hh
    · exact (context_reportControl _ _).trans hx
  by_cases hi : m.context.interrupted = true
  · refine .inl ?_
    rw [iterateAttempts, decision, if_pos hi]
    rfl
  by_cases hk : k = 0 ∨ k % pollInterval ≠ 0
  · exact .inr (hgo (by rw [decision, if_neg hi, if_pos hk]) rfl rfl)
  by_cases ha : m.scheduler.poll.1 = true
  · refine .inl ?_
    rw [iterateAttempts, decision, if_neg hi, if_neg hk]
    dsimp only
    rw [if_pos ha]
    rfl
  · have hd : decision k (.entering b) m =
        (.inl (.entering b), { m with scheduler := m.scheduler.poll.2 }) := by
      rw [decision, if_neg hi, if_neg hk]
      dsimp only
      rw [if_neg ha]
    exact .inr (hgo hd rfl rfl)

theorem exists_refusal {n : Nat} (hl : m.Level m')
    (hfit : ∀ a ∈ iterateAttempts program n c m, a.Fits)
    (hover : ∃ a ∈ iterateAttempts program n c m, m'.context.stack.limit ≤ a.depth) :
    ∃ before a a', Refusal program n c m m' before a a' := by
  obtain ⟨before, a, after, before', a', after', hlog, hlog', hbefore, ha, hdepth, hlimit, hlt⟩ :=
    ((logged_iterate n c).parallel hl hfit).exists_refused hover
  have hlimit : a'.machine.context.stack.limit = m'.context.stack.limit := hlimit
  have hdepth' : a'.machine.context.stack.depth = a'.machine.context.stack.limit := by
    rw [ha.machine.stack.depth, hlimit]
    exact hdepth
  refine ⟨before, a, a', ⟨after, hlog⟩, ⟨before', after', hlog', hbefore⟩, hlt, ha, hdepth, ?_, ?_,
    fun hp => ?_⟩
  · rw [Exec.push, Machine.push, FrameStack.push_of_full _ hdepth', hlimit]
  · rintro b body rfl rfl hc
    cases hbefore
    rcases iterateAttempts_entering program n b m' with hnone | ⟨m₁, hlog₁, hi, hh, hx⟩
    · rw [hnone] at hlog'
      cases hlog'
    · have hc₁ : m₁.heap.cell b = .thunk (.unevaluated body) := hh ▸ hc
      rw [hlog₁, enterAttempts, hc₁] at hlog'
      obtain rfl : _ = a' := (List.cons.inj hlog').1
      obtain ⟨m₂, henter, hc₂, hs₂⟩ := enter_of_full program hc₁ hdepth'
      refine ⟨rfl, m₁, m₂, hi, ?_, hc₂, ?_⟩
      · rw [henter, hx]
      · rw [hs₂, hx]
  · have hfull : ¬ a'.Fits := Nat.not_lt.2 (Nat.le_of_eq hdepth'.symm)
    rcases iterate_of_refused hp n c m' with hfits | ⟨b, m₁, hlast, hi, hs⟩
    · exact absurd (hfits a' (hlog' ▸ List.mem_append_right _ List.mem_cons_self)) hfull
    · rw [hlog'] at hlast
      obtain ⟨rfl, -⟩ := hlast.eq_of_append hfull
      exact ⟨m₁, hlimit ▸ hi, hs⟩

end Refusing

/-- A run is the same under every limit that is no lower than its greatest depth. Under a lower
limit it is the same up to the first push above the limit, which is refused. -/
theorem same_up_to_limit (program : Program κ) (k n : Nat) (c : Control) (m : Machine κ) :
    (∃ bound, ∀ m', m.Level m' → bound ≤ m'.context.stack.limit → Unrefused program k n c m') ∧
    (Unrefused program k n c m → ∀ m', m.Level m' →
      (highest program k n c m ≤ m'.context.stack.limit → ∀ i ≤ k, Same program i n c m m' ∧
        ∀ w ∈ (iterateUpTo program i n c m').1.2.mark? (iterateUpTo program i n c m').2,
          w = max m.context.stack.highWater (highest program i n c m)) ∧
      (m'.context.stack.limit < highest program k n c m → ∃ j c₁ m₁ m₁' before a a', j < k ∧
        (∀ i ≤ j, Same program i n c m m') ∧
        iterateUpTo program j n c m = ((n + j, .next c₁), m₁) ∧
        iterateUpTo program j n c m' = ((n + j, .next c₁), m₁') ∧
        m₁'.context.stack.limit = m'.context.stack.limit ∧
        Refusal program (n + j) c₁ m₁ m₁' before a a')) := by
  refine ⟨(logged_iterateUpTo program k n c).bounded m, fun hfit m' hl => ?_⟩
  refine ⟨fun hle i hi => ?_, fun hlt => ?_⟩
  · have hsub := attemptsUpTo_subset program hi n c m
    have hfit : Unrefused program i n c m := fun a ha => hfit a (hsub ha)
    have hsame := same_of_lt hl hfit fun a ha => (highest_le_iff.1 hle).2 a (hsub ha)
    refine ⟨hsame, fun w hw => mark?_eq hfit ?_⟩
    rwa [mark?_of_level hsame.turn hsame.machine] at hw
  · have hover : ∃ a ∈ attemptsUpTo program k n c m, m'.context.stack.limit ≤ a.depth := by
      by_contra hnone
      refine absurd (highest_le_iff.2 ⟨?_, fun a ha => ?_⟩) (Nat.not_le_of_lt hlt)
      · exact hl.stack.depth ▸ m'.context.stack.depth_le_limit
      · exact Nat.lt_of_not_le fun hle => hnone ⟨a, ha, hle⟩
    -- The runs part with the first iteration that pushes above the lower limit.
    obtain ⟨j, c₁, m₁, hj, hrun, hbelow, hsub, hover⟩ := exists_exceeding hover
    have hsame (i : Nat) (hi : i ≤ j) : Same program i n c m m' := by
      have hshort := attemptsUpTo_subset program hi n c m
      have hlong := attemptsUpTo_subset program (Nat.le_of_lt hj) n c m
      exact same_of_lt hl (fun a ha => hfit a (hlong (hshort ha))) fun a ha => hbelow a (hshort ha)
    obtain ⟨-, hturn, hmachine, -⟩ := hsame j (Nat.le_refl j)
    have hnumber := (hsame j (Nat.le_refl j)).number
    have hlimit := (logged_iterateUpTo program j n c).limit m'
    cases hrun' : iterateUpTo program j n c m' with
    | mk result m₁' =>
      obtain ⟨n', turn'⟩ := result
      rw [hrun, hrun'] at hnumber hturn hmachine
      rw [hrun'] at hlimit
      cases hnumber
      cases hturn
      have hlimit : m₁'.context.stack.limit = m'.context.stack.limit := hlimit
      rw [← hlimit] at hover
      obtain ⟨before, a, a', hr⟩ := exists_refusal hmachine (fun a ha => hfit a (hsub ha)) hover
      exact ⟨j, c₁, m₁, m₁', before, a, a', hj, hsame, hrun, hrun', hlimit, hr⟩

def nested : Program Bool where
  body code _ := if code then .done (.enter ⟨1⟩) else .setResult ⟨2⟩ (.done .resume)

def nesting (limit : Nat) : Machine Bool where
  shared := { (Shared.empty default : Shared Bool) with
    heap := ⟨#[.thunk (.unevaluated ⟨true, []⟩), .thunk (.unevaluated ⟨false, []⟩),
      .data ⟨"unit", 0⟩ []]⟩ }
  scheduler := .standalone
  context := .new 0 limit

theorem same_up_to_limit_nested :
    Unrefused nested 3 0 (.entering ⟨0⟩) (nesting 2) ∧
      Same nested 3 0 (.entering ⟨0⟩) (nesting 2) (nesting 7) ∧
      ∃ j c₁ m₁ m₁' before a a', j < 3 ∧
        (∀ i ≤ j, Same nested i 0 (.entering ⟨0⟩) (nesting 2) (nesting 1)) ∧
        iterateUpTo nested j 0 (.entering ⟨0⟩) (nesting 2) = ((0 + j, .next c₁), m₁) ∧
        iterateUpTo nested j 0 (.entering ⟨0⟩) (nesting 1) = ((0 + j, .next c₁), m₁') ∧
        m₁'.context.stack.limit = 1 ∧ Refusal nested (0 + j) c₁ m₁ m₁' before a a' := by
  have hlevel (limit : Nat) : (nesting 2).Level (nesting limit) :=
    ⟨(nesting limit).context.stack, rfl, rfl, rfl⟩
  have hfit : Unrefused nested 3 0 (.entering ⟨0⟩) (nesting 2) := by
    unfold Unrefused
    decide
  have hhighest : highest nested 3 0 (.entering ⟨0⟩) (nesting 2) = 2 := rfl
  have hruns := (same_up_to_limit nested 3 0 (.entering ⟨0⟩) (nesting 2)).2 hfit
  exact ⟨hfit, ((hruns _ (hlevel 7)).1 (by rw [hhighest]; decide) 3 (Nat.le_refl 3)).1,
    (hruns _ (hlevel 1)).2 (by rw [hhighest]; decide)⟩

end Evaluation

end Runs

end GraphReduction
