import GraphReduction.Proofs.Handover

namespace GraphReduction

open Evaluation

variable {κ : Type} {n : Nat} {program : Program κ} {alone : Nat → Fin 1 × Scheduler κ}
  {places : Nat → Fin n × Scheduler κ} {D : Counters}

namespace Leg

inductive Matched (D : Counters) (places : Nat → Fin n × Scheduler κ) :
    Leg κ 1 → Leg κ n → Prop where
  | running {j j' k k' : Nat} {s : Fleet κ 1} {f : Fleet κ n} {c : Control} {m m' : Machine κ}
      (alike : Alike (f.others (places j').1 + D) c.need m m') (calm : f.Uninterrupted) :
      Matched D places (.running j s k c m) (.running j' f k' c m')
  | ended {r : Except RuntimeError Address} {s : Fleet κ 1} {f : Fleet κ n}
      (same : s.shared.Same f.shared) (counted : s.work = f.work + D) :
      Matched D places (.ended r s) (.ended r f)

def Lockstep (program : Program κ) (alone : Nat → Fin 1 × Scheduler κ)
    (places : Nat → Fin n × Scheduler κ) (D : Counters) (p : Leg κ 1) (q : Leg κ n) : Prop :=
  q.calls = p.calls ∧ (program.Obeys p.calls →
    Option.Rel (Matched D places) (p.next program alone) (q.next program places))

theorem matched_start {j j' : Nat} {s : Fleet κ 1} {f : Fleet κ n} (st : Standing κ)
    (hs : s.shared.Same f.shared) (hc : s.work = f.work + D) (hu : s.Uninterrupted)
    (hf : f.Uninterrupted) (hp : (alone j).2.Patient) :
    Matched D places (start alone j s st) (start places j' f st) := by
  cases st with
  | inl r => exact .ended hs hc
  | inr t =>
    have hcount : (s.machine (alone j)).context.counters.work =
        (f.machine (places j')).context.counters.work + (f.others (places j').1 + D) := by
      rw [s.work_eq (alone j).1, s.others_of_one, add_zero, f.work_eq (places j').1,
        add_assoc] at hc
      exact hc
    have hs : (s.machine (alone j)).shared.Same (f.machine (places j')).shared := hs
    obtain ⟨hcontrol, halike⟩ := alike_begin t hs ((hf _).trans (hu _).symm) hcount hp
    dsimp only [start]
    rw [hcontrol]
    exact .running halike hf

theorem matched_after {j j' k k' : Nat} {s : Fleet κ 1} {f : Fleet κ n} {turn : Turn κ}
    {m m' : Machine κ} (h : Alike (f.others (places j').1 + D) turn.need m m')
    (hf : f.Uninterrupted) (halone : ∀ j, (alone j).2.Patient)
    (hu : ∀ o t, turn = .over o → o.standing m.heap = some (.inr t) →
      m.context.interrupted = false) :
    Option.Rel (Matched D places) (after alone j s k m turn) (after places j' f k' m' turn) := by
  rcases turn with c | o
  · exact .some (.running h hf)
  · cases hs : o.standing m.heap with
    | none =>
      rw [after_over_of_none hs, after_over_of_none (h.heap ▸ hs)]
      exact .none
    | some st =>
      rw [after_over hs, after_over (h.heap ▸ hs)]
      have hsame : (s.put (alone j).1 m).shared.Same (f.put (places j').1 m').shared := h.same
      have hcount : (s.put (alone j).1 m).work = (f.put (places j').1 m').work + D := by
        rw [s.work_put, s.others_of_one, add_zero, f.work_put, add_assoc]
        exact h.counters
      cases st with
      | inl r => exact .some (Matched.ended hsame hcount)
      | inr t =>
        have hm := hu o t rfl hs
        have hm' := h.interrupted.trans hm
        have hsolo : (s.put (alone j).1 m).Uninterrupted := by
          intro i
          rw [s.contexts_put, if_pos (Subsingleton.elim _ _)]
          exact hm
        exact .some (matched_start _ hsame hcount hsolo (hf.put hm') (halone _))

theorem lockstep_of_decision {j j' k k' : Nat} {s : Fleet κ 1} {f : Fleet κ n} {c c₁ : Control}
    {m m' m₁ m₁' : Machine κ} (h : Alike (f.others (places j').1 + D) c₁.need m₁ m₁')
    (hf : f.Uninterrupted) (halone : ∀ j, (alone j).2.Patient)
    (hd : decision k c m = (.inl c₁, m₁)) (hd' : decision k' c m' = (.inl c₁, m₁')) :
    Lockstep program alone places D (.running j s k c m) (.running j' f k' c m') := by
  have hi : iterate program k c m = advance program c₁ m₁ := by rw [iterate_eq, hd]
  have hi' : iterate program k' c m' = advance program c₁ m₁' := by rw [iterate_eq, hd']
  have hc : (Leg.running j s k c m).calls = callsOf c₁ m₁ := by rw [calls_running, hd]
  have hc' : (Leg.running j' f k' c m').calls = callsOf c₁ m₁' := by rw [calls_running, hd']
  obtain ⟨hcalls, hadvance⟩ := agree_advance program c₁ h
  refine ⟨by rw [hc, hc', hcalls], fun hp => ?_⟩
  obtain ⟨hturn, halike⟩ := hadvance (hc ▸ hp)
  rw [next_running hi, next_running hi', hturn]
  refine matched_after halike hf halone fun o t ho hs => ?_
  exact uninterrupted_of_standing (hi.trans (Prod.ext ho rfl)) hs

section Moving

variable {j j' k k' : Nat} {s : Fleet κ 1} {f : Fleet κ n} {c : Control} {m m' : Machine κ}

theorem lockstep_or_yield (h : Alike (f.others (places j').1 + D) c.need m m')
    (hf : f.Uninterrupted) (halone : ∀ j, (alone j).2.Patient) :
    Lockstep program alone places D (.running j s k c m) (.running j' f k' c m') ∨
      k' ≠ 0 ∧ m'.context.interrupted = false ∧ ∃ p m₁ q, decision k' c m' = (.inr p, m₁) ∧
        m'.Unseen m₁ q ∧ suspensionPoint c m₁ = .ok p := by
  obtain ⟨m₁, q, hd, hm, hq⟩ := decision_of_patient k c h.patient
  have hpoint : ∀ m₂ q, m'.Unseen m₂ q → suspensionPoint c m₂ = .error c ∨
      ∃ p, suspensionPoint c m₂ = .ok p := fun m₂ q hm₂ =>
    (h.unseen (.refl m) hm₂ h.patient).suspensionPoint.imp_right fun ⟨p, hp, _⟩ => ⟨p, hp⟩
  obtain ⟨m₁', q', hm', hd' | ⟨hk, hi, p, hd', hs⟩⟩ := decision_cases k' c m' hpoint
  · left
    rw [h.minding_eq] at hd'
    exact lockstep_of_decision (h.of_minding.unseen hm hm' hq) hf halone hd hd'
  · exact .inr ⟨hk, hi, p, m₁', q', hd', hm', hs⟩

theorem exists_taken_over {p : Pending} {m₁ : Machine κ} {q : Scheduler κ}
    (h : Alike (f.others (places j').1 + D) c.need m m') (hf : f.Uninterrupted)
    (hi : m'.context.interrupted = false) (hd : decision k' c m' = (.inr p, m₁))
    (hm : m'.Unseen m₁ q) (hs : suspensionPoint c m₁ = .ok p) :
    ∃ f₁ m₂, (Leg.running j' f k' c m').next program places = some (.running (j' + 1) f₁ 0 c m₂) ∧
      (Leg.running j' f k' c m').calls = [] ∧ f₁.Uninterrupted ∧
      Alike (f₁.others (places (j' + 1)).1 + D) c.need m m₂ := by
  have h₁ : Alike (f.others (places j').1 + D) c.need m m₁ := h.unseen (.refl m) hm h.patient
  obtain ⟨my, hy, hsame, hyi, hyc⟩ := exists_yieldThread p m₁
  have hyi : my.context.interrupted = false := by
    rw [hyi, h₁.interrupted, ← h.interrupted, hi]
  let f₁ := f.put (places j').1 my
  let m₂ := f₁.machine (places (j' + 1))
  have hf₁ : f₁.Uninterrupted := hf.put hyi
  have hcount : m.context.counters.work =
      m₂.context.counters.work + (f₁.others (places (j' + 1)).1 + D) := by
    -- The yield itself is not counted as work, so the sum over the workers is as it was.
    have hw : m.context.counters.work = f₁.work + D := by
      rw [f.work_put, hyc, add_assoc]
      exact h₁.counters
    rw [hw, f₁.work_eq (places (j' + 1)).1, add_assoc]
    rfl
  rcases h₁.suspensionPoint with he | ⟨p', hp', hover⟩
  · rw [hs] at he
    cases he
  · rw [hs] at hp'
    cases hp'
    have hyi₁ : m₂.context.interrupted = m₁.context.interrupted := by
      rw [h₁.interrupted, ← h.interrupted, hi]
      exact hf₁ _
    obtain ⟨hcontrol, halike⟩ := hover _ m₂ hsame hyi₁ hcount
    have hi : iterate program k' c m' =
        (.over (.yielded ⟨m₁.context.thread, m₁.context.stack, p⟩), my) := by
      rw [iterate_eq, hd]
      exact hy
    refine ⟨f₁, _, ?_, by rw [calls_running, hd], hf₁, halike⟩
    rw [next_running hi, after_over rfl]
    dsimp only [start]
    rw [hcontrol]

end Moving

theorem Matched.step {p : Leg κ 1} {q : Leg κ n} (h : Matched D places p q)
    (halone : ∀ j, (alone j).2.Patient) :
    Lockstep program alone places D p q ∨
      ∃ q₁, q.next program places = some q₁ ∧ q.calls = [] ∧ Matched D places p q₁ ∧
        Lockstep program alone places D p q₁ := by
  cases h with
  | ended same counted => exact .inl ⟨rfl, fun _ => .none⟩
  | running alike calm =>
    rcases lockstep_or_yield alike calm halone with hl | ⟨-, hi, p, m₁, q, hd, hm, hs⟩
    · exact .inl hl
    · obtain ⟨f₁, m₂, hnext, hcalls, hf₁, h₁⟩ := exists_taken_over alike calm hi hd hm hs
      refine .inr ⟨_, hnext, hcalls, .running h₁ hf₁, ?_⟩
      exact (lockstep_or_yield h₁ hf₁ halone).resolve_right fun hy => hy.1 rfl

theorem Matched.ends_right {p : Leg κ 1} {q : Leg κ n} {cs : List (Call κ)}
    {r : Except RuntimeError Address} {s' : Fleet κ 1} (h : Matched D places p q)
    (halone : ∀ j, (alone j).2.Patient) (hp : program.Obeys cs)
    (he : Ends program alone p cs r s') :
    ∃ f', Ends program places q cs r f' ∧ s'.shared.Same f'.shared ∧ s'.work = f'.work + D := by
  induction he generalizing q with
  | ended =>
    cases h with
    | ended same counted => exact ⟨_, .ended, same, counted⟩
  | @step p p' cs r s' hnext rest ih =>
    have hp₁ : program.Obeys p.calls := fun c hc => hp c (List.mem_append_left _ hc)
    have hp₂ : program.Obeys cs := fun c hc => hp c (List.mem_append_right _ hc)
    have hlock : ∀ q, Lockstep program alone places D p q → ∃ f',
        Ends program places q (p.calls ++ cs) r f' ∧ s'.shared.Same f'.shared ∧
          s'.work = f'.work + D := by
      rintro q ⟨hcalls, hl⟩
      have hrel := hl hp₁
      rw [hnext] at hrel
      cases hq : q.next program places with
      | none =>
        rw [hq] at hrel
        cases hrel
      | some q' =>
        rw [hq] at hrel
        cases hrel with
        | some hm =>
          obtain ⟨f', hf', hend⟩ := ih hm hp₂
          exact ⟨f', hcalls ▸ .step hq hf', hend⟩
    -- The relay may hand the thread over before it follows.
    rcases h.step halone with hl | ⟨q₁, hq₁, hcalls, -, hl⟩
    · exact hlock q hl
    · obtain ⟨f', hf', hend⟩ := hlock q₁ hl
      have hf₁ : Ends program places q (q.calls ++ (p.calls ++ cs)) r f' := .step hq₁ hf'
      rw [hcalls] at hf₁
      exact ⟨f', hf₁, hend⟩

theorem Matched.ends_left {p : Leg κ 1} {q : Leg κ n} {cs : List (Call κ)}
    {r : Except RuntimeError Address} {f' : Fleet κ n} (h : Matched D places p q)
    (halone : ∀ j, (alone j).2.Patient) (hp : program.Obeys cs)
    (he : Ends program places q cs r f') :
    ∃ s', Ends program alone p cs r s' ∧ s'.shared.Same f'.shared ∧ s'.work = f'.work + D := by
  induction he generalizing p with
  | ended =>
    cases h with
    | ended same counted => exact ⟨_, .ended, same, counted⟩
  | @step q q' cs r f' hnext rest ih =>
    have hp₁ : program.Obeys q.calls := fun c hc => hp c (List.mem_append_left _ hc)
    have hp₂ : program.Obeys cs := fun c hc => hp c (List.mem_append_right _ hc)
    rcases h.step halone with ⟨hcalls, hl⟩ | ⟨q₁, hq₁, hcalls, hm, -⟩
    · have hrel := hl (hcalls ▸ hp₁)
      rw [hnext] at hrel
      cases hp' : p.next program alone with
      | none =>
        rw [hp'] at hrel
        cases hrel
      | some p' =>
        rw [hp'] at hrel
        cases hrel with
        | some hm =>
          obtain ⟨s', hs', hend⟩ := ih hm hp₂
          exact ⟨s', hcalls.symm ▸ .step hp' hs', hend⟩
    -- The single worker stays where it is while the thread is handed over.
    · rw [hnext] at hq₁
      cases hq₁
      rw [hcalls]
      exact ih hm hp₂

end Leg

/-- Yields make no difference. A thread that is run slice by slice, on any workers and under any
schedulers, ends as it ends on one worker that is never asked to yield: with the same result or
error, in the same state of the heap and of the outside world, after the same calls of bodies, and
with the same counts but for the yields. Bodies obey the convention when they are called. -/
theorem relay_agrees (program : Program κ) (t : Thread κ) {s : Fleet κ 1} {f : Fleet κ n}
    (alone : Nat → Fin 1 × Scheduler κ) (places : Nat → Fin n × Scheduler κ)
    (halone : ∀ j, (alone j).2.Patient) (hsame : s.shared.Same f.shared) (hs : s.Uninterrupted)
    (hf : f.Uninterrupted) (cs : List (Call κ)) (hp : program.Obeys cs)
    (r : Except RuntimeError Address) :
    (∀ s', Relay program alone 0 (.inr t) s cs r s' → ∃ f',
      Relay program places 0 (.inr t) f cs r f' ∧ s'.shared.Same f'.shared ∧
        s'.work + f.work = f'.work + s.work) ∧
    (∀ f', Relay program places 0 (.inr t) f cs r f' → ∃ s',
      Relay program alone 0 (.inr t) s cs r s' ∧ s'.shared.Same f'.shared ∧
        s'.work + f.work = f'.work + s.work) := by
  obtain ⟨D, hD⟩ := Counters.exists_eq_add s.work f.work
  have hm : Leg.Matched D places (Leg.start alone 0 s (.inr t)) (Leg.start places 0 f (.inr t)) :=
    Leg.matched_start _ hsame hD hs hf (halone 0)
  have hcount : ∀ a b : Counters, a = b + D → a + f.work = b + s.work := by
    rintro a b rfl
    rw [hD, add_assoc, add_comm D]
  simp only [Leg.relay_iff_ends]
  refine ⟨fun s' he => ?_, fun f' he => ?_⟩
  · obtain ⟨f', hf', hend, hw⟩ := hm.ends_right halone hp he
    exact ⟨f', hf', hend, hcount _ _ hw⟩
  · obtain ⟨s', hs', hend, hw⟩ := hm.ends_left halone hp he
    exact ⟨s', hs', hend, hcount _ _ hw⟩

section TakingTurns

def handsOn : Program Nat := ⟨fun _ _ => Action.identity⟩

def layered : Thread Nat where
  id := ⟨1⟩
  stack := {
    frames := List.replicate 1050 (.handler ⟨0⟩) ++ [.case 0 []]
    depth := 1051
    limit := 2000
    capacity := 2000
    highWater := 1051
    depth_eq := by rw [List.length_append, List.length_replicate, List.length_singleton]
    depth_le_limit := by omega
    depth_le_highWater := Nat.le_refl _ }
  pending := .resume ⟨7⟩

def fleet (n : Nat) : Fleet Nat n := ⟨.empty .silent, fun i => .new i 16⟩

theorem uninterrupted_fleet (n : Nat) : (fleet n).Uninterrupted := fun _ => rfl

def inTurns (j : Nat) : Fin 2 × Scheduler Nat := (Fin.ofNat 2 j, .manual ⟨.always, 0, [], []⟩)

def undisturbed (_ : Nat) : Fin 1 × Scheduler Nat := (0, .standalone)

def handedOn : Call Nat := ⟨0, [], [(Slot.result, .boxed ⟨7⟩)]⟩

theorem obeys_handsOn : handsOn.Obeys [handedOn] := by
  intro c hc
  rw [List.mem_singleton.1 hc]
  exact Action.obeys_identity

def hasYielded : Outcome Nat → Bool
  | .yielded _ => true
  | _ => false

def finishesWith (a : Address) : Outcome Nat → Bool
  | .finished v => v = a
  | _ => false

theorem relay_agrees_layered :
    (∃ t m, runSlice handsOn 1100 layered ((fleet 2).machine (inTurns 0)) =
      (some (.yielded t), m)) ∧
    ∃ f', Relay handsOn inTurns 0 (.inr layered) (fleet 2) [handedOn] (.ok ⟨7⟩) f' := by
  have hyield : (runSlice handsOn 1100 layered ((fleet 2).machine (inTurns 0))).1.any
      hasYielded = true := by
    decide +kernel
  have hfinish : (runSlice handsOn 1100 layered ((fleet 1).machine (undisturbed 0))).1.any
      (finishesWith ⟨7⟩) = true := by
    decide +kernel
  have hcalls : sliceCalls handsOn 1100 layered ((fleet 1).machine (undisturbed 0)) =
      [handedOn] := by
    decide +kernel
  constructor
  · cases hr : runSlice handsOn 1100 layered ((fleet 2).machine (inTurns 0)) with
    | mk o m =>
      rw [hr] at hyield
      obtain ⟨o, rfl, hy⟩ := (Option.any_eq_true _ _).1 hyield
      cases o with
      | yielded t => exact ⟨t, m, rfl⟩
      | _ => cases hy
  · cases hr : runSlice handsOn 1100 layered ((fleet 1).machine (undisturbed 0)) with
    | mk o m =>
      rw [hr] at hfinish
      obtain ⟨o, rfl, hv⟩ := (Option.any_eq_true _ _).1 hfinish
      cases o with
      | finished v =>
        cases of_decide_eq_true hv
        have hs : Relay handsOn undisturbed 0 (.inr layered) (fleet 1) [handedOn] (.ok ⟨7⟩)
            ((fleet 1).put 0 m) := by
          have hslice := Relay.slice hr rfl .ended
          rwa [hcalls] at hslice
        obtain ⟨f', hf', -⟩ := (relay_agrees handsOn layered undisturbed inTurns
          (fun _ => trivial) (.refl _) (uninterrupted_fleet 1) (uninterrupted_fleet 2) _
          obeys_handsOn _).1 _ hs
        exact ⟨f', hf'⟩
      | _ => cases hv

end TakingTurns

end GraphReduction
