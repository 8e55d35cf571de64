import GraphReduction.Proofs.Effects

/-!
Threads that wait for thunks, where the workers that share the thunks answer to several schedulers. A
thread is left at a thunk without a word on where it came from: whoever waits is handed to the
scheduler of the worker that settles the thunk.
-/
namespace GraphReduction

open Evaluation

variable {κ : Type}

namespace Heap

variable {h h' : Heap κ} {a : Address}

theorem parkedAt_of_owner?_eq_none (ho : h.owner? a = none) : parkedAt (h.cell a) = [] :=
  parkedAt_of_idle fun t body blocked hc => by
    rw [owner?_eq_some_iff.2 ⟨body, blocked, hc⟩] at ho
    cases ho

theorem Grown.parkedAt (hg : h.Grown h') (a : Address) :
    Heap.parkedAt (h'.cell a) = Heap.parkedAt (h.cell a) := by
  cases ho : h.owner? a with
  | none =>
    rw [parkedAt_of_owner?_eq_none ho, parkedAt_of_owner?_eq_none ((hg.owner? a).trans ho)]
  | some t =>
    obtain ⟨body, blocked, hc⟩ := owner?_eq_some_iff.1 ho
    rw [hg.cell_evaluating.2 hc, hc]

theorem parkedAt_enter (h : Heap κ) (t : ThreadId) (a b : Address) :
    parkedAt ((h.enter t a).2.cell b) = parkedAt (h.cell b) := by
  unfold enter
  split
  · next body hc =>
    by_cases hab : a = b
    · rw [← hab, cell_write_thunk hc, hc]
      rfl
    · rw [cell_write_of_ne hab]
  all_goals rfl

structure Vacated (h : Heap κ) (w : Wake κ) (h' : Heap κ) : Prop where
  released : w.released = parkedAt (h.cell w.thunk)
  owner? : h'.owner? w.thunk = none
  others : ∀ b, w.thunk ≠ b → h'.cell b = h.cell b

theorem vacated_write {s s' : ThunkState κ} (hc : h.cell a = .thunk s)
    (hi : Idle (.thunk s' : Cell κ)) :
    Vacated h ⟨a, parkedAt (.thunk s)⟩ (h.write a (.thunk s')) where
  released := by rw [hc]
  owner? := by rw [owner?_write_of_idle hc hi, if_pos rfl]
  others _ := cell_write_of_ne

theorem vacated_self (hn : ∀ t body blocked, h.cell a ≠ .thunk (.underEvaluation t body blocked)) :
    Vacated h ⟨a, []⟩ h where
  released := (parkedAt_of_idle hn).symm
  owner? := by
    refine Option.eq_none_iff_forall_ne_some.2 fun t ht => ?_
    obtain ⟨body, blocked, hc⟩ := owner?_eq_some_iff.1 ht
    exact hn t body blocked hc
  others _ _ := rfl

theorem vacated_update {v : Address} {released : List (Thread κ)}
    (hu : h.update a v = .ok (released, h')) : Vacated h ⟨a, released⟩ h' := by
  unfold update at hu
  split at hu
  · cases hu
  · unfold settle at hu
    split at hu <;> cases hu
    · next hc => exact vacated_write hc nofun
    · next hc => exact vacated_write hc nofun
    · next hn => exact vacated_self hn

theorem vacated_reset (h : Heap κ) (a : Address) :
    Vacated h ⟨a, (h.reset a).1⟩ (h.reset a).2 := by
  unfold reset
  split
  · next hc => exact vacated_write hc nofun
  · next hn => exact vacated_self hn

theorem parkedAt_park {u : Thread κ} (hp : h.park? a u = some h') (b : Address) :
    parkedAt (h'.cell b) = parkedAt (h.cell b) ++ if a = b then [u] else [] := by
  obtain ⟨t, body, blocked, hc, rfl⟩ := park?_eq_some hp
  split
  · next hab =>
    rw [← hab, cell_write_thunk hc, hc]
    exact List.reverse_cons
  · next hab => rw [cell_write_of_ne hab, List.append_nil]

end Heap

namespace Scheduler

variable {q q' : Scheduler κ}

theorem exists_held (hq : q ≠ .standalone) (threads : List (Thread κ)) :
    ∃ q', q.Alike q' ∧ q'.held = threads := by
  cases q with
  | standalone => exact absurd rfl hq
  | manual m =>
    exact ⟨.manual { m with wakes := [⟨default, threads⟩] }, trivial, List.append_nil _⟩
  | pool p => exact ⟨.pool { p with threads }, trivial, rfl⟩

end Scheduler

structure Exchange (κ : Type) where
  heap : Heap κ
  schedulers : List (Scheduler κ)
  underway : List (Nat × Wake κ)

namespace Exchange

section Definitions

inductive Event (κ : Type) where
  | parked (i : Nat) (thread : Thread κ) (thunk : Address)
  | freed (i : Nat) (wake : Wake κ)
  | handed (i : Nat) (wake : Wake κ)
  | traded (i : Nat) (taken given : List (Thread κ))
  | elsewhere

namespace Event

def arrivals (a : Address) : Event κ → List (Thread κ)
  | parked _ t b => if b = a then [t] else []
  | _ => []

def departures (a : Address) : Event κ → List (Thread κ)
  | freed _ w => if w.thunk = a then w.released else []
  | _ => []

def releases : Event κ → List (Nat × Wake κ)
  | freed i w => [(i, w)]
  | _ => []

def deliveries : Event κ → List (Nat × Wake κ)
  | handed i w => [(i, w)]
  | _ => []

def gains (i : Nat) (q : Scheduler κ) : Event κ → List (Thread κ)
  | handed j w => if j = i then q.keeps w.released else []
  | traded j taken _ => if j = i then taken else []
  | _ => []

def losses (i : Nat) : Event κ → List (Thread κ)
  | traded j _ given => if j = i then given else []
  | _ => []

def Settles (a : Address) : Event κ → Prop
  | freed _ w => w.thunk = a
  | _ => False

def By (i : Nat) : Event κ → Prop
  | parked _ _ _ => False
  | freed j _ => j = i
  | handed j _ => j = i
  | traded j taken given => j = i ∧ taken = [] ∧ given = []
  | elsewhere => True

end Event

/-- Workers settle thunks and hand over who waited, in two steps between which others may come. -/
inductive Step : Exchange κ → Event κ → Exchange κ → Prop where
  | allocate {s : Exchange κ} {h : Heap κ} : s.heap.Grown h → Step s .elsewhere { s with heap := h }
  | enter (s : Exchange κ) (t : ThreadId) (a : Address) :
      Step s .elsewhere { s with heap := (s.heap.enter t a).2 }
  | park {s : Exchange κ} {a : Address} {t : Thread κ} {h : Heap κ} (i : Nat) :
      i < s.schedulers.length → s.heap.park? a t = some h →
      Step s (.parked i t a) { s with heap := h }
  | update {s : Exchange κ} {a v : Address} {released : List (Thread κ)} {h : Heap κ} (i : Nat) :
      i < s.schedulers.length → s.heap.update a v = .ok (released, h) →
      Step s (.freed i ⟨a, released⟩) ⟨h, s.schedulers, (i, ⟨a, released⟩) :: s.underway⟩
  | reset {s : Exchange κ} (i : Nat) (a : Address) : i < s.schedulers.length →
      Step s (.freed i ⟨a, (s.heap.reset a).1⟩)
        ⟨(s.heap.reset a).2, s.schedulers, (i, ⟨a, (s.heap.reset a).1⟩) :: s.underway⟩
  | wake {s : Exchange κ} {i : Nat} {w : Wake κ} {q : Scheduler κ} {rest : List (Nat × Wake κ)} :
      s.underway.Perm ((i, w) :: rest) → s.schedulers[i]? = some q →
      Step s (.handed i w) ⟨s.heap, s.schedulers.set i (q.wake w.thunk w.released), rest⟩
  | trade {s : Exchange κ} {i : Nat} {q q' : Scheduler κ} {taken given : List (Thread κ)} :
      s.schedulers[i]? = some q → q.Alike q' → (q.held ++ taken).Perm (given ++ q'.held) →
      Step s (.traded i taken given) { s with schedulers := s.schedulers.set i q' }

inductive Run : Exchange κ → List (Event κ) → Exchange κ → Prop where
  | nil (s : Exchange κ) : Run s [] s
  | cons {s s₁ s' : Exchange κ} {e : Event κ} {log : List (Event κ)} :
      Step s e s₁ → Run s₁ log s' → Run s (e :: log) s'

end Definitions

variable {s s₁ s' : Exchange κ} {e : Event κ} {log before after : List (Event κ)} {a : Address}
  {i j : Nat} {t : Thread κ} {q : Scheduler κ} {w : Wake κ}

theorem Run.append (h : Run s before s₁) (h' : Run s₁ after s') : Run s (before ++ after) s' := by
  induction h with
  | nil => exact h'
  | cons hs _ ih => exact .cons hs (ih h')

theorem Run.split (h : Run s (before ++ after) s') : ∃ s₁, Run s before s₁ ∧ Run s₁ after s' := by
  induction before generalizing s with
  | nil => exact ⟨s, .nil s, h⟩
  | cons e before ih =>
    cases h with
    | cons hs h =>
      obtain ⟨s₁, hb, ha⟩ := ih h
      exact ⟨s₁, .cons hs hb, ha⟩

theorem Run.split_at (h : Run s (before ++ e :: after) s') :
    ∃ s₁ s₂, Run s before s₁ ∧ Step s₁ e s₂ ∧ Run s₂ after s' := by
  obtain ⟨s₁, hb, h⟩ := h.split
  cases h with
  | cons hs ha => exact ⟨s₁, _, hb, hs, ha⟩

section Waiting

theorem Step.vacated (h : Step s (.freed i w) s') :
    s.heap.Vacated w s'.heap ∧ s'.underway = (i, w) :: s.underway := by
  cases h with
  | update _ _ hu => exact ⟨Heap.vacated_update hu, rfl⟩
  | reset => exact ⟨Heap.vacated_reset _ _, rfl⟩

theorem Step.parked_eq (h : Step s e s') (a : Address) :
    Heap.parkedAt (s.heap.cell a) ++ e.arrivals a =
      e.departures a ++ Heap.parkedAt (s'.heap.cell a) := by
  have hfreed : ∀ i w, Step s (.freed i w) s' → Heap.parkedAt (s.heap.cell a) =
      (if w.thunk = a then w.released else []) ++ Heap.parkedAt (s'.heap.cell a) := by
    intro i w hs
    obtain ⟨hv, -⟩ := hs.vacated
    split
    · next hw =>
      rw [← hw, Heap.parkedAt_of_owner?_eq_none hv.owner?, List.append_nil, hv.released]
    · next hw => rw [hv.others a hw, List.nil_append]
  cases e with
  | parked i t b =>
    cases h with
    | park _ _ hp => exact (Heap.parkedAt_park hp a).symm
  | freed i w => exact (List.append_nil _).trans (hfreed i w h)
  | handed i w =>
    cases h
    exact List.append_nil _
  | traded i taken given =>
    cases h
    exact List.append_nil _
  | elsewhere =>
    refine (List.append_nil _).trans ?_
    cases h with
    | allocate hg => exact (hg.parkedAt a).symm
    | enter t b => exact (Heap.parkedAt_enter _ t b a).symm

theorem Run.parked_eq (h : Run s log s') (a : Address) :
    Heap.parkedAt (s.heap.cell a) ++ log.flatMap (Event.arrivals a) =
      log.flatMap (Event.departures a) ++ Heap.parkedAt (s'.heap.cell a) := by
  induction h with
  | nil => simp
  | cons hs _ ih =>
    rw [List.flatMap_cons, List.flatMap_cons, ← List.append_assoc, hs.parked_eq, List.append_assoc,
      ih, List.append_assoc]

theorem departures_of_not_settles (h : ¬ e.Settles a) : e.departures a = [] := by
  cases e with
  | freed i w => exact if_neg h
  | _ => rfl

theorem Step.mem_parkedAt (h : Step s e s') (hn : ¬ e.Settles a)
    (ht : t ∈ Heap.parkedAt (s.heap.cell a)) : t ∈ Heap.parkedAt (s'.heap.cell a) := by
  have he := h.parked_eq a
  rw [departures_of_not_settles hn, List.nil_append] at he
  exact he ▸ List.mem_append_left _ ht

theorem Step.owner? (h : Step s e s') (hn : ¬ e.Settles a) (ho : (s.heap.owner? a).isSome) :
    (s'.heap.owner? a).isSome := by
  obtain ⟨t, ho⟩ := Option.isSome_iff_exists.1 ho
  cases h with
  | allocate hg =>
    rw [hg.owner? a, ho]
    rfl
  | enter u b =>
    change ((s.heap.enter u b).2.owner? a).isSome
    unfold Heap.enter
    split
    · next hc =>
      rw [Heap.owner?_acquire hc]
      split
      · rfl
      · rw [ho]
        rfl
    all_goals
      rw [ho]
      rfl
  | park _ _ hp =>
    rw [Heap.owner?_park? hp, ho]
    rfl
  | update _ _ hu =>
    rw [Heap.owner?, (Heap.vacated_update hu).others a hn, ← Heap.owner?, ho]
    rfl
  | reset =>
    rw [Heap.owner?, (Heap.vacated_reset _ _).others a hn, ← Heap.owner?, ho]
    rfl
  | wake | trade =>
    rw [ho]
    rfl

theorem Run.noticed (h : Run s log s') (ho : (s.heap.owner? a).isSome)
    (hn : s'.heap.owner? a = none) : ∃ e ∈ log, e.Settles a := by
  induction h with
  | nil =>
    rw [hn] at ho
    cases ho
  | @cons s s₁ s' e log hs _ ih =>
    by_cases he : e.Settles a
    · exact ⟨e, List.mem_cons_self, he⟩
    · obtain ⟨e', hm, he'⟩ := ih (hs.owner? he ho) hn
      exact ⟨e', List.mem_cons_of_mem _ hm, he'⟩

end Waiting

section Conveying

theorem perm_carry {α : Type} {xs ys zs came came' went went' : List α}
    (h : (xs ++ came).Perm (went ++ ys)) (h' : (ys ++ came').Perm (went' ++ zs)) :
    (xs ++ (came ++ came')).Perm (went ++ went' ++ zs) := by
  rw [← List.append_assoc, List.append_assoc went]
  refine (h.append_right _).trans ?_
  rw [List.append_assoc]
  exact h'.append_left _

theorem Step.delivered (h : Step s e s') :
    (s.underway ++ e.releases).Perm (e.deliveries ++ s'.underway) := by
  cases h with
  | update => exact List.perm_append_comm
  | reset => exact List.perm_append_comm
  | wake hp => exact (List.append_nil _).symm ▸ hp
  | _ => exact (List.append_nil _).symm ▸ .refl _

theorem Run.delivered (h : Run s log s') :
    (s.underway ++ log.flatMap Event.releases).Perm
      (log.flatMap Event.deliveries ++ s'.underway) := by
  induction h with
  | nil => simp
  | cons hs _ ih => exact perm_carry hs.delivered ih

theorem Run.handed_of_mem (h : Run s log s') (hw : (i, w) ∈ s.underway) :
    (i, w) ∈ s'.underway ∨ .handed i w ∈ log := by
  have hm := h.delivered.mem_iff.1 (List.mem_append_left _ hw)
  rcases List.mem_append.1 hm with hm | hm
  · obtain ⟨e, he, hm⟩ := List.mem_flatMap.1 hm
    right
    cases e with
    | handed j v =>
      cases List.mem_singleton.1 hm
      exact he
    | _ => cases hm
  · exact .inl hm

theorem Step.held (h : Step s e s') (hq : s.schedulers[i]? = some q) :
    ∃ q', s'.schedulers[i]? = some q' ∧ q.Alike q' ∧
      (q.held ++ e.gains i q).Perm (e.losses i ++ q'.held) := by
  have hi : i < s.schedulers.length := (List.getElem?_eq_some_iff.1 hq).1
  -- Only a delivery or a trade that bears the scheduler's number concerns it.
  have hsame : e.gains i q = [] → e.losses i = [] → s'.schedulers[i]? = some q →
      ∃ q', s'.schedulers[i]? = some q' ∧ q.Alike q' ∧
        (q.held ++ e.gains i q).Perm (e.losses i ++ q'.held) := by
    intro hg hl hs
    refine ⟨q, hs, .refl q, ?_⟩
    rw [hg, hl, List.append_nil, List.nil_append]
  cases h with
  | @wake j w p rest hp hj =>
    by_cases hji : j = i
    · subst hji
      obtain rfl := Option.some.inj (hj.symm.trans hq)
      refine ⟨_, List.getElem?_set_self hi, p.alike_wake _ _, ?_⟩
      simp only [Event.gains, Event.losses, if_true, List.nil_append]
      exact (p.held_wake _ _).symm
    · exact hsame (if_neg hji) rfl ((List.getElem?_set_ne hji).trans hq)
  | @trade j p p' taken given hj ha hp =>
    by_cases hji : j = i
    · subst hji
      obtain rfl := Option.some.inj (hj.symm.trans hq)
      refine ⟨_, List.getElem?_set_self hi, ha, ?_⟩
      simpa only [Event.gains, Event.losses, if_true] using hp
    · exact hsame (if_neg hji) (if_neg hji) ((List.getElem?_set_ne hji).trans hq)
  | _ => exact hsame rfl rfl hq

theorem gains_of_alike {q' : Scheduler κ} (h : q.Alike q') (e : Event κ) :
    e.gains i q' = e.gains i q := by
  cases e with
  | handed j w => simp only [Event.gains, h.keeps]
  | _ => rfl

theorem Run.held (h : Run s log s') (hq : s.schedulers[i]? = some q) :
    ∃ q', s'.schedulers[i]? = some q' ∧ q.Alike q' ∧
      (q.held ++ log.flatMap (Event.gains i q)).Perm (log.flatMap (Event.losses i) ++ q'.held) := by
  induction h generalizing q with
  | nil => exact ⟨q, hq, .refl q, by simp⟩
  | @cons s s₁ s' e log hs _ ih =>
    obtain ⟨q₁, hq₁, ha₁, hp₁⟩ := hs.held hq
    obtain ⟨q', hq', ha', hp'⟩ := ih hq₁
    refine ⟨q', hq', ha₁.trans ha', ?_⟩
    -- What is kept of a delivery depends on the sort of the scheduler, and this never changes.
    have hgains : log.flatMap (Event.gains i q₁) = log.flatMap (Event.gains i q) :=
      congrArg log.flatMap (funext fun e => gains_of_alike ha₁ e)
    rw [hgains] at hp'
    exact perm_carry hp₁ hp'

theorem Run.fate (h : Run s log s') (ht : t ∈ Heap.parkedAt (s.heap.cell a)) :
    ((∀ e ∈ log, ¬ e.Settles a) ∧ t ∈ Heap.parkedAt (s'.heap.cell a)) ∨
      ∃ before j w after, log = before ++ .freed j w :: after ∧ w.thunk = a ∧
        (∀ e ∈ before, ¬ e.Settles a) ∧ t ∈ w.released ∧
        ((j, w) ∈ s'.underway ∨ .handed j w ∈ after) := by
  induction h with
  | nil => exact .inl ⟨nofun, ht⟩
  | @cons s s₁ s' e log hs hrun ih =>
    by_cases he : e.Settles a
    · cases e with
      | freed j w =>
        obtain rfl : w.thunk = a := he
        obtain ⟨hv, hu⟩ := hs.vacated
        refine .inr ⟨[], j, w, log, rfl, rfl, nofun, hv.released ▸ ht, ?_⟩
        exact hrun.handed_of_mem (hu ▸ List.mem_cons_self)
      | _ => exact he.elim
    · rcases ih (hs.mem_parkedAt he ht) with ⟨hn, ht'⟩ | ⟨before, j, w, after, rfl, hw, hn, hr⟩
      · exact .inl ⟨List.forall_mem_cons.2 ⟨he, hn⟩, ht'⟩
      · exact .inr ⟨e :: before, j, w, after, rfl, hw, List.forall_mem_cons.2 ⟨he, hn⟩, hr⟩

end Conveying

section Iterating

variable {m m' : Machine κ}

def Works (i : Nat) (m m' : Machine κ) : Prop :=
  ∀ s : Exchange κ, s.heap = m.heap → s.schedulers[i]? = some m.scheduler →
    ∃ log, (∀ e ∈ log, e.By i) ∧
      Run s log ⟨m'.heap, s.schedulers.set i m'.scheduler, s.underway⟩

theorem set_of_getElem? {α : Type} {xs : List α} {x : α} (h : xs[i]? = some x) :
    xs.set i x = xs := by
  obtain ⟨hi, rfl⟩ := List.getElem?_eq_some_iff.1 h
  exact List.set_getElem_self hi

theorem Works.trans {m₁ m₂ : Machine κ} (h₁ : Works i m m₁) (h₂ : Works i m₁ m₂) :
    Works i m m₂ := by
  intro s hh hq
  obtain ⟨log₁, hb₁, hr₁⟩ := h₁ s hh hq
  obtain ⟨log₂, hb₂, hr₂⟩ := h₂ ⟨m₁.heap, s.schedulers.set i m₁.scheduler, s.underway⟩ rfl
    (List.getElem?_set_self (List.getElem?_eq_some_iff.1 hq).1)
  rw [List.set_set] at hr₂
  refine ⟨log₁ ++ log₂, fun e he => ?_, hr₁.append hr₂⟩
  exact (List.mem_append.1 he).elim (hb₁ e) (hb₂ e)

theorem works_grown (hg : m.heap.Grown m'.heap) (ht : m.scheduler.Told [] m'.scheduler) :
    Works i m m' := by
  rintro ⟨heap, schedulers, underway⟩ rfl hq
  have hheld : (m.scheduler.held ++ []).Perm ([] ++ m'.scheduler.held) := by
    rw [ht.held rfl, List.append_nil]
    exact .refl _
  -- The scheduler may have been polled, so it is another one with the same threads.
  refine ⟨[.elsewhere, .traded i [] []], by simp [Event.By], .cons (.allocate hg) ?_⟩
  exact .cons (.trade hq (ht.alike rfl) hheld) (.nil _)

theorem works_freed {w : Wake κ}
    (hs : ∀ schedulers underway, i < schedulers.length →
      Step ⟨m.heap, schedulers, underway⟩ (.freed i w)
        ⟨m'.heap, schedulers, (i, w) :: underway⟩)
    (hw : m'.scheduler = m.scheduler.wake w.thunk w.released) : Works i m m' := by
  rintro ⟨heap, schedulers, underway⟩ rfl hq
  have hi : i < schedulers.length := (List.getElem?_eq_some_iff.1 hq).1
  -- The worker that settles the thunk hands over at once, so nothing of its own is left underway.
  refine ⟨[.freed i w, .handed i w], by simp [Event.By], .cons (hs _ _ hi) ?_⟩
  exact hw ▸ .cons (.wake (.refl _) hq) (.nil _)

theorem permits_works (i : Nat) : Machine.Permits (κ := κ) (Works i) where
  trans := .trans
  grown := works_grown
  enter {m a body} hc := by
    rintro ⟨heap, schedulers, underway⟩ rfl hq
    have he : (m.heap.enter m.context.thread a).2 =
        m.heap.write a (.thunk (.underEvaluation m.context.thread body [])) := by
      rw [Heap.enter, hc]
    have hs := Step.enter ⟨m.heap, schedulers, underway⟩ m.context.thread a
    refine ⟨[.elsewhere], by simp [Event.By], .cons hs ?_⟩
    change Run _ [] ⟨_, schedulers.set i m.scheduler, _⟩
    rw [set_of_getElem? hq, he]
    exact .nil _
  reset m a remark := by
    have hcore := m.core_resetThunk a remark
    refine works_freed (w := ⟨a, (m.heap.reset a).1⟩) (fun schedulers underway hi => ?_)
      (congrArg Core.scheduler hcore)
    rw [show (m.resetThunk a remark).heap = (m.heap.reset a).2 from congrArg Core.heap hcore]
    exact .reset i a hi

theorem works_updateThunk (i : Nat) (a : Address) (m : Machine κ) :
    Works i m ((updateThunk a).outcome m).2 := by
  rcases updateThunk_spec a m with ⟨e, m', hx, hcore, -⟩ | ⟨p, s, m', -, -, -, -, hx, hcore⟩ |
    ⟨p, w, m', -, -, -, hx, hcore⟩ | ⟨p, m', -, -, -, ht, hx, hcore⟩
  · rw [Exec.outcome_of_error hx]
    exact (permits_works i).of_eq (congrArg Core.heap hcore) (congrArg Core.scheduler hcore)
  · rw [Exec.outcome_of_ok hx]
    exact (permits_works i).of_eq (show m'.heap = m.heap from congrArg Core.heap hcore)
      (show m'.scheduler = m.scheduler from congrArg Core.scheduler hcore)
  · rw [Exec.outcome_of_ok hx]
    exact (permits_works i).of_eq (show m'.heap = m.heap from congrArg Core.heap hcore)
      (show m'.scheduler = m.scheduler from congrArg Core.scheduler hcore)
  · rw [Exec.outcome_of_ok hx]
    refine works_freed (w := ⟨a, (m.heap.settle a (m.heap.resolve p)).1⟩)
      (fun schedulers underway hi => .update (v := m.heap.resolve p) i hi ?_)
      (congrArg Core.scheduler hcore)
    have hh : m'.heap = (m.heap.settle a (m.heap.resolve p)).2 := congrArg Core.heap hcore
    rw [Heap.update, ht, hh]

theorem works_iterate (i : Nat) (program : Program κ) (n : Nat) (c : Control) (m : Machine κ) :
    Works i m (iterate program n c m).2 :=
  (permits_works i).iterate (fun m₁ _ _ a => works_updateThunk i a m₁) n c

end Iterating

section Releasing

structure Conveyed (s : Exchange κ) (log : List (Event κ)) (s' : Exchange κ) : Prop where
  in_order : ∀ a, Heap.parkedAt (s.heap.cell a) ++ log.flatMap (Event.arrivals a) =
    log.flatMap (Event.departures a) ++ Heap.parkedAt (s'.heap.cell a)
  fate : ∀ before i t a after, log = before ++ .parked i t a :: after →
    ((∀ e ∈ after, ¬ e.Settles a) ∧ t ∈ Heap.parkedAt (s'.heap.cell a)) ∨
      ∃ mid j w rest, after = mid ++ .freed j w :: rest ∧ w.thunk = a ∧
        (∀ e ∈ mid, ¬ e.Settles a) ∧ t ∈ w.released ∧
        ((j, w) ∈ s'.underway ∨ .handed j w ∈ rest)
  settled : ∀ before j w after, log = before ++ .freed j w :: after →
    ∃ s₁ s₂, Run s before s₁ ∧ Run s₂ after s' ∧ s₁.heap.Vacated w s₂.heap
  noticed : ∀ a, (s.heap.owner? a).isSome → s'.heap.owner? a = none → ∃ e ∈ log, e.Settles a
  delivered : (s.underway ++ log.flatMap Event.releases).Perm
    (log.flatMap Event.deliveries ++ s'.underway)
  received : ∀ before j w after, log = before ++ .handed j w :: after →
    ∃ s₁ s₂ q, Run s before s₁ ∧ Run s₂ after s' ∧ s₁.schedulers[j]? = some q ∧
      s₂.schedulers = s₁.schedulers.set j (q.wake w.thunk w.released) ∧
      (q.wake w.thunk w.released).held.Perm (q.held ++ q.keeps w.released)
  held : ∀ i q, s.schedulers[i]? = some q → ∃ q', s'.schedulers[i]? = some q' ∧ q.Alike q' ∧
    (q.held ++ log.flatMap (Event.gains i q)).Perm (log.flatMap (Event.losses i) ++ q'.held)
  resumable : ∀ i q t, s'.schedulers[i]? = some q → t ∈ q.held →
    ∃ s'', Step s' (.traded i [] [t]) s''

theorem exists_traded (hq : s.schedulers[i]? = some q) (ht : t ∈ q.held) :
    ∃ s', Step s (.traded i [] [t]) s' := by
  obtain ⟨before, after, hheld⟩ := List.append_of_mem ht
  have hne : q ≠ .standalone := by
    rintro rfl
    cases ht
  obtain ⟨q', ha, hq'⟩ := q.exists_held hne (before ++ after)
  refine ⟨_, .trade hq ha ?_⟩
  rw [hheld, hq', List.append_nil]
  exact List.perm_middle

/-- Whichever workers share the thunks, and whichever schedulers they answer to, a thread that waits
for a thunk is handed once to the scheduler of the worker that settles it. The iterations of workers
are runs of this kind, whatever code they execute. -/
theorem conveyed_of_run (run : Run s log s') :
    Conveyed s log s' ∧
      ∀ (program : Program κ) (n : Nat) (c : Control) (i : Nat) (m : Machine κ),
        s'.heap = m.heap → s'.schedulers[i]? = some m.scheduler →
          ∃ log', (∀ e ∈ log', e.By i) ∧ Run s' log' ⟨(iterate program n c m).2.heap,
            s'.schedulers.set i (iterate program n c m).2.scheduler, s'.underway⟩ := by
  refine ⟨?_, fun program n c i m => works_iterate i program n c m s'⟩
  constructor
  case in_order => exact run.parked_eq
  case fate =>
    rintro before i t a after rfl
    obtain ⟨s₁, s₂, -, hs, ha⟩ := run.split_at
    refine ha.fate ?_
    cases hs with
    | park _ _ hp =>
      rw [Heap.parkedAt_park hp, if_pos rfl]
      exact List.mem_append_right _ List.mem_cons_self
  case settled =>
    rintro before j w after rfl
    obtain ⟨s₁, s₂, hb, hs, ha⟩ := run.split_at
    exact ⟨s₁, s₂, hb, ha, hs.vacated.1⟩
  case noticed => exact fun a => run.noticed
  case delivered => exact run.delivered
  case received =>
    rintro before j w after rfl
    obtain ⟨s₁, s₂, hb, hs, ha⟩ := run.split_at
    cases hs with
    | @wake _ _ q _ hp hq =>
      exact ⟨s₁, _, q, hb, ha, hq, rfl, q.held_wake w.thunk w.released⟩
  case held => exact fun i q => run.held
  case resumable => exact fun i q t => exists_traded

def mixed : Exchange Unit where
  heap := ⟨#[.thunk (.underEvaluation ⟨1⟩ ⟨(), []⟩ []), .thunk (.underEvaluation ⟨2⟩ ⟨(), []⟩ []),
    .data default []]⟩
  schedulers := [.manual ⟨.always, 0, [], []⟩, .standalone]
  underway := []

def guest (n : Nat) (a : Address) : Thread Unit := ⟨⟨n⟩, .empty 1, .enter a⟩

theorem conveyed_mixed : ∃ log s', Run mixed log s' ∧ Conveyed mixed log s' ∧
    log.flatMap (Event.arrivals ⟨0⟩) = [guest 3 ⟨0⟩] ∧
    log.flatMap (Event.arrivals ⟨1⟩) = [guest 4 ⟨1⟩] ∧ s'.heap.parked = [] ∧
    s'.schedulers.map Scheduler.held = [[guest 3 ⟨0⟩], []] := by
  have run : Run mixed
      [.parked 0 (guest 3 ⟨0⟩) ⟨0⟩, .parked 0 (guest 4 ⟨1⟩) ⟨1⟩,
        .freed 0 ⟨⟨0⟩, [guest 3 ⟨0⟩]⟩, .handed 0 ⟨⟨0⟩, [guest 3 ⟨0⟩]⟩,
        .freed 1 ⟨⟨1⟩, [guest 4 ⟨1⟩]⟩, .handed 1 ⟨⟨1⟩, [guest 4 ⟨1⟩]⟩] _ :=
    .cons (.park 0 (by decide) rfl) (.cons (.park 0 (by decide) rfl)
      (.cons (.update (v := ⟨2⟩) 0 (by decide) rfl) (.cons (.wake (.refl _) rfl)
      (.cons (.reset 1 ⟨1⟩ (by decide)) (.cons (.wake (.refl _) rfl) (.nil _))))))
  exact ⟨_, _, run, (conveyed_of_run run).1, rfl, rfl, rfl, rfl⟩

end Releasing

section Dropping

def answering : Program Unit := ⟨fun _ _ => .setResult ⟨1⟩ (.done .resume)⟩

def entered : Machine Unit :=
  (iterate answering 0 (.entering ⟨0⟩)
    { shared := { (Shared.empty default : Shared Unit) with
        heap := ⟨#[.thunk (.unevaluated ⟨(), []⟩), .data default []]⟩ }
      scheduler := .standalone
      context := { (Context.new 1 4 : Context Unit) with thread := ⟨2⟩ } }).2

def blocked : Option (Outcome Unit) × Machine Unit :=
  runSlice answering 3 (guest 1 ⟨0⟩)
    ⟨entered.shared, .manual ⟨.always, 0, [], []⟩, .new 0 4⟩

def answered (heap : Heap Unit) : Machine Unit :=
  (iterate answering 1 .resuming { entered with shared := { blocked.2.shared with heap } }).2

theorem dropped_answered : ∃ heap,
    blocked.1 = some (.blocked (guest 1 ⟨0⟩) ⟨0⟩) ∧
      blocked.2.heap.park? ⟨0⟩ (guest 1 ⟨0⟩) = some heap ∧ heap.parked = [guest 1 ⟨0⟩] ∧
      (answered heap).heap.target? ⟨0⟩ = some ⟨1⟩ ∧ (answered heap).heap.parked = [] ∧
      (answered heap).scheduler.held = [] ∧ blocked.2.scheduler.held = [] :=
  ⟨_, rfl, rfl, rfl, rfl, rfl, rfl, rfl⟩

end Dropping

end Exchange

end GraphReduction
