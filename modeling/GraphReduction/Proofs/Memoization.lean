import GraphReduction.Proofs.Entering

/-!
The history of one thunk: threads enter it, update it, reset it and park on it in any order, and in
between anything may happen elsewhere in the heap.
-/
namespace GraphReduction.Memoization

variable {κ : Type} {a : Address}

inductive Event (κ : Type) where
  | entered (thread : ThreadId) (entry : Entry κ)
  | updated (value : Address) (released : List (Thread κ))
  | refused (value first : Address)
  | reset (effective : Bool) (released : List (Thread κ))
  | parked (thread : Thread κ)
  | declined (thread : Thread κ)
  | elsewhere

namespace Event

def isStart : Event κ → Bool
  | entered _ (.start _) => true
  | _ => false

def isUpdate : Event κ → Bool
  | updated _ _ => true
  | _ => false

def isReset : Event κ → Bool
  | reset effective _ => effective
  | _ => false

def arrivals : Event κ → List (Thread κ)
  | parked t => [t]
  | _ => []

def departures : Event κ → List (Thread κ)
  | updated _ released => released
  | reset _ released => released
  | _ => []

def Shows (v : Address) : Event κ → Prop
  | entered _ entry => entry = .value v
  | updated _ _ => False
  | refused _ first => first = v
  | reset effective released => effective = false ∧ released = []
  | parked _ => False
  | declined _ => True
  | elsewhere => True

end Event

inductive Step (a : Address) : Heap κ → Event κ → Heap κ → Prop where
  | enter (h : Heap κ) (t : ThreadId) : Step a h (.entered t (h.enter t a).1) (h.enter t a).2
  | update {h h' : Heap κ} {value : Address} {released : List (Thread κ)}
      (hu : h.update a value = .ok (released, h')) : Step a h (.updated value released) h'
  | refuse {h : Heap κ} {value first : Address} (hu : h.update a value = .error first) :
      Step a h (.refused value first) h
  | reset (h : Heap κ) : Step a h (.reset (h.owner? a).isSome (h.reset a).1) (h.reset a).2
  | park {h h' : Heap κ} {t : Thread κ} (hp : h.park? a t = some h') : Step a h (.parked t) h'
  | decline {h : Heap κ} {t : Thread κ} (hp : h.park? a t = none) : Step a h (.declined t) h
  | elsewhere {h h' : Heap κ} (hc : h'.cell a = h.cell a) : Step a h .elsewhere h'

inductive History (a : Address) : Heap κ → List (Event κ) → Heap κ → Prop where
  | nil (h : Heap κ) : History a h [] h
  | cons {h h₁ h' : Heap κ} {e : Event κ} {log : List (Event κ)} :
      Step a h e h₁ → History a h₁ log h' → History a h (e :: log) h'

inductive Transition : ThunkState κ → Event κ → ThunkState κ → Prop where
  | start (body : Suspension κ) (t : ThreadId) :
      Transition (.unevaluated body) (.entered t (.start body)) (.underEvaluation t body [])
  | busy (owner : ThreadId) (body : Suspension κ) (blocked : List (Thread κ)) (t : ThreadId)
      (entry : Entry κ) (he : entry = .busy ∨ entry = .loop) :
      Transition (.underEvaluation owner body blocked) (.entered t entry)
        (.underEvaluation owner body blocked)
  | value (v : Address) (t : ThreadId) :
      Transition (.evaluated v) (.entered t (.value v)) (.evaluated v)
  | publish (body : Suspension κ) (v : Address) :
      Transition (.unevaluated body) (.updated v []) (.evaluated v)
  | update (owner : ThreadId) (body : Suspension κ) (blocked : List (Thread κ)) (v : Address) :
      Transition (.underEvaluation owner body blocked) (.updated v blocked.reverse) (.evaluated v)
  | refuse (v first : Address) : Transition (.evaluated first) (.refused v first) (.evaluated first)
  | reset (owner : ThreadId) (body : Suspension κ) (blocked : List (Thread κ)) :
      Transition (.underEvaluation owner body blocked) (.reset true blocked.reverse)
        (.unevaluated body)
  | keep (s : ThunkState κ) : Transition s (.reset false []) s
  | park (owner : ThreadId) (body : Suspension κ) (blocked : List (Thread κ)) (t : Thread κ) :
      Transition (.underEvaluation owner body blocked) (.parked t)
        (.underEvaluation owner body (t :: blocked))
  | decline (s : ThunkState κ) (t : Thread κ) : Transition s (.declined t) s
  | elsewhere (s : ThunkState κ) : Transition s .elsewhere s

theorem Step.transition {h h' : Heap κ} {e : Event κ} {s : ThunkState κ} (hs : Step a h e h')
    (ha : h.cell a = .thunk s) : ∃ s', h'.cell a = .thunk s' ∧ Transition s e s' := by
  cases hs with
  | enter t =>
    cases s with
    | unevaluated body =>
      have he : h.enter t a = (.start body, h.write a (.thunk (.underEvaluation t body []))) := by
        simp only [Heap.enter, ha]
      rw [he]
      exact ⟨_, Heap.cell_write_thunk ha, .start body t⟩
    | underEvaluation owner body blocked =>
      have he : h.enter t a = (if owner = t then .loop else .busy, h) := by
        simp only [Heap.enter, ha]
      rw [he]
      refine ⟨_, ha, .busy owner body blocked t _ ?_⟩
      split
      · exact .inr rfl
      · exact .inl rfl
    | evaluated v =>
      have he : h.enter t a = (.value v, h) := by simp only [Heap.enter, ha]
      rw [he]
      exact ⟨_, ha, .value v t⟩
  | @update _ value released hu =>
    cases s with
    | unevaluated body =>
      simp only [Heap.update, Heap.target?, Heap.settle, ha] at hu
      cases hu
      exact ⟨_, Heap.cell_write_thunk ha, .publish body value⟩
    | underEvaluation owner body blocked =>
      simp only [Heap.update, Heap.target?, Heap.settle, ha] at hu
      cases hu
      exact ⟨_, Heap.cell_write_thunk ha, .update owner body blocked value⟩
    | evaluated v =>
      simp only [Heap.update, Heap.target?, ha] at hu
      cases hu
  | @refuse value first hu =>
    cases s with
    | evaluated v =>
      simp only [Heap.update, Heap.target?, ha] at hu
      cases hu
      exact ⟨_, ha, .refuse value first⟩
    | _ =>
      simp only [Heap.update, Heap.target?, ha] at hu
      cases hu
  | reset =>
    cases s with
    | underEvaluation owner body blocked =>
      have hr : h.reset a = (blocked.reverse, h.write a (.thunk (.unevaluated body))) := by
        simp only [Heap.reset, ha]
      have ho : h.owner? a = some owner := Heap.owner?_eq_some_iff.2 ⟨body, blocked, ha⟩
      rw [hr, ho]
      exact ⟨_, Heap.cell_write_thunk ha, .reset owner body blocked⟩
    | _ =>
      have hr : h.reset a = ([], h) := by simp only [Heap.reset, ha]
      have ho : h.owner? a = none := by simp only [Heap.owner?, ha]
      rw [hr, ho]
      exact ⟨_, ha, .keep _⟩
  | @park _ t hp =>
    cases s with
    | underEvaluation owner body blocked =>
      simp only [Heap.park?, ha] at hp
      cases hp
      exact ⟨_, Heap.cell_write_thunk ha, .park owner body blocked t⟩
    | _ =>
      simp only [Heap.park?, ha] at hp
      cases hp
  | @decline t hp => exact ⟨s, ha, .decline s t⟩
  | elsewhere hc => exact ⟨s, hc.trans ha, .elsewhere s⟩

inductive Path : ThunkState κ → List (Event κ) → ThunkState κ → Prop where
  | nil (s : ThunkState κ) : Path s [] s
  | cons {s s₁ s' : ThunkState κ} {e : Event κ} {log : List (Event κ)} :
      Transition s e s₁ → Path s₁ log s' → Path s (e :: log) s'

theorem History.path {h h' : Heap κ} {log : List (Event κ)} {s : ThunkState κ}
    (run : History a h log h') (ha : h.cell a = .thunk s) :
    ∃ s', h'.cell a = .thunk s' ∧ Path s log s' := by
  induction run generalizing s with
  | nil h => exact ⟨s, ha, .nil s⟩
  | cons step _ ih =>
    obtain ⟨s₁, h₁, t⟩ := step.transition ha
    obtain ⟨s', h', p⟩ := ih h₁
    exact ⟨s', h', .cons t p⟩

theorem History.append {h h' : Heap κ} {before after : List (Event κ)}
    (run : History a h (before ++ after) h') :
    ∃ h₁, History a h before h₁ ∧ History a h₁ after h' := by
  induction before generalizing h with
  | nil => exact ⟨h, .nil h, run⟩
  | cons e before ih =>
    cases run with
    | cons step rest =>
      obtain ⟨h₁, hb, ha⟩ := ih rest
      exact ⟨h₁, .cons step hb, ha⟩

theorem Path.append {s s' : ThunkState κ} {before after : List (Event κ)}
    (p : Path s (before ++ after) s') : ∃ s₁, Path s before s₁ ∧ Path s₁ after s' := by
  induction before generalizing s with
  | nil => exact ⟨s, .nil s, p⟩
  | cons e before ih =>
    cases p with
    | cons t rest =>
      obtain ⟨s₁, hb, ha⟩ := ih rest
      exact ⟨s₁, .cons t hb, ha⟩

section Evaluated

theorem Transition.of_evaluated {v : Address} {e : Event κ} {s : ThunkState κ}
    (t : Transition (.evaluated v) e s) : s = .evaluated v ∧ e.Shows v := by
  cases t with
  | value => exact ⟨rfl, rfl⟩
  | refuse => exact ⟨rfl, rfl⟩
  | keep => exact ⟨rfl, rfl, rfl⟩
  | decline => exact ⟨rfl, trivial⟩
  | elsewhere => exact ⟨rfl, trivial⟩

theorem Path.of_evaluated {v : Address} {log : List (Event κ)} {s : ThunkState κ}
    (p : Path (.evaluated v) log s) : s = .evaluated v ∧ ∀ e ∈ log, e.Shows v := by
  generalize hv : ThunkState.evaluated v = s₀ at p
  induction p with
  | nil => exact ⟨rfl, by simp⟩
  | @cons s s₁ s' e log t _ ih =>
    subst hv
    obtain ⟨rfl, he⟩ := t.of_evaluated
    obtain ⟨hs, hl⟩ := ih rfl
    exact ⟨hs, List.forall_mem_cons.2 ⟨he, hl⟩⟩

theorem Transition.of_updated {s s' : ThunkState κ} {v : Address} {released : List (Thread κ)}
    (t : Transition s (.updated v released) s') : s' = .evaluated v := by
  cases t <;> rfl

end Evaluated

section Counting

def started : ThunkState κ → Nat
  | .unevaluated _ => 0
  | _ => 1

def published : ThunkState κ → Nat
  | .evaluated _ => 1
  | _ => 0

theorem started_le_one (s : ThunkState κ) : started s ≤ 1 := by
  cases s <;> simp [started]

theorem published_le_one (s : ThunkState κ) : published s ≤ 1 := by
  cases s <;> simp [published]

theorem Transition.starts_le {s s' : ThunkState κ} {e : Event κ} (t : Transition s e s') :
    e.isStart.toNat + started s ≤ started s' + e.isReset.toNat := by
  cases t with
  | busy owner body blocked t entry he =>
    rcases he with rfl | rfl <;> simp [Event.isStart, Event.isReset, started]
  | _ => simp [Event.isStart, Event.isReset, started]

theorem Transition.updates_eq {s s' : ThunkState κ} {e : Event κ} (t : Transition s e s') :
    e.isUpdate.toNat + published s = published s' := by
  cases t <;> simp [Event.isUpdate, published]

theorem countP_cons_toNat {α : Type} (p : α → Bool) (x : α) (xs : List α) :
    (x :: xs).countP p = (p x).toNat + xs.countP p := by
  cases hx : p x <;> simp [hx]
  omega

theorem Path.starts_le {s s' : ThunkState κ} {log : List (Event κ)} (p : Path s log s') :
    log.countP Event.isStart + started s ≤ started s' + log.countP Event.isReset := by
  induction p with
  | nil => simp
  | cons t _ ih =>
    have ht := t.starts_le
    rw [countP_cons_toNat, countP_cons_toNat]
    omega

theorem Path.updates_eq {s s' : ThunkState κ} {log : List (Event κ)} (p : Path s log s') :
    log.countP Event.isUpdate + published s = published s' := by
  induction p with
  | nil => simp
  | cons t _ ih =>
    have ht := t.updates_eq
    rw [countP_cons_toNat]
    omega

theorem Path.reset_between_starts {s s' : ThunkState κ} {mid : List (Event κ)} {e₁ e₂ : Event κ}
    (p : Path s (e₁ :: (mid ++ [e₂])) s') (h₁ : e₁.isStart) (h₂ : e₂.isStart) :
    ∃ e ∈ mid, e.isReset := by
  have hp := p.starts_le
  have hs := started_le_one s'
  have hr : e₁.isReset = false ∧ e₂.isReset = false := by
    constructor
    · cases e₁ <;> simp_all [Event.isStart, Event.isReset]
    · cases e₂ <;> simp_all [Event.isStart, Event.isReset]
  simp only [countP_cons_toNat, List.countP_append, List.countP_nil, h₁, h₂, hr, Bool.toNat_true,
    Bool.toNat_false] at hp
  exact List.countP_pos_iff.1 (by omega)

end Counting

section Parking

theorem Transition.parked_eq {s s' : ThunkState κ} {e : Event κ} (t : Transition s e s') :
    Heap.parkedAt (.thunk s) ++ e.arrivals = e.departures ++ Heap.parkedAt (.thunk s') := by
  cases t <;> simp [Heap.parkedAt, Event.arrivals, Event.departures]

theorem Path.parked_eq {s s' : ThunkState κ} {log : List (Event κ)} (p : Path s log s') :
    Heap.parkedAt (.thunk s) ++ log.flatMap Event.arrivals =
      log.flatMap Event.departures ++ Heap.parkedAt (.thunk s') := by
  induction p with
  | nil => simp
  | cons t _ ih =>
    rw [List.flatMap_cons, List.flatMap_cons, ← List.append_assoc, t.parked_eq, List.append_assoc,
      ih, List.append_assoc]

end Parking

/-- What the history of a thunk has to show: the first value stands and answers everybody, the code
starts again only after a reset, and whoever parks is released once, in the order of arrival. -/
structure Memoized (a : Address) (h : Heap κ) (log : List (Event κ)) (h' : Heap κ) : Prop where
  stays : ∀ before after h₁ v, log = before ++ after → History a h before h₁ →
    History a h₁ after h' → h₁.target? a = some v →
      h'.target? a = some v ∧ ∀ e ∈ after, e.Shows v
  published : ∀ before after v released, log = before ++ .updated v released :: after →
    h'.target? a = some v ∧ ∀ e ∈ after, e.Shows v
  one_update : log.countP Event.isUpdate ≤ 1
  handed_back : ∀ (program : Program κ) m v, m.heap.cell a = h'.cell a → h'.target? a = some v →
    Evaluation.enter program a m = Exec.giveBack v m
  not_while_busy : ∀ (program other : Program κ) m, m.heap.cell a = h'.cell a →
    (h'.owner? a).isSome → Evaluation.enter program a m = Evaluation.enter other a m
  started_from : ∀ before after t body, log = before ++ .entered t (.start body) :: after →
    ∃ h₁, History a h before h₁ ∧ h₁.cell a = .thunk (.unevaluated body)
  reset_between : ∀ before mid after e₁ e₂, log = before ++ e₁ :: (mid ++ e₂ :: after) →
    e₁.isStart → e₂.isStart → ∃ e ∈ mid, e.isReset
  starts_le : log.countP Event.isStart ≤ 1 + log.countP Event.isReset
  released_in_order : Heap.parkedAt (h.cell a) ++ log.flatMap Event.arrivals =
    log.flatMap Event.departures ++ Heap.parkedAt (h'.cell a)

theorem memoized_of_history {h h' : Heap κ} {log : List (Event κ)} (thunk : h.isThunk a)
    (run : History a h log h') : Memoized a h log h' := by
  obtain ⟨s, hs⟩ := Option.isSome_iff_exists.1 thunk
  rw [Heap.thunk?_eq_some_iff] at hs
  obtain ⟨s', hs', p⟩ := run.path hs
  constructor
  case stays =>
    intro before after h₁ v _ _ later hv
    obtain ⟨s₂, hs₂, q⟩ := later.path (Heap.target?_eq_some_iff.1 hv)
    obtain ⟨rfl, he⟩ := q.of_evaluated
    exact ⟨Heap.target?_eq_some_iff.2 hs₂, he⟩
  case published =>
    rintro before after v released rfl
    obtain ⟨s₁, -, q⟩ := p.append
    cases q with
    | cons t later =>
      obtain rfl := t.of_updated
      obtain ⟨rfl, he⟩ := later.of_evaluated
      exact ⟨Heap.target?_eq_some_iff.2 hs', he⟩
  case one_update =>
    have hu := p.updates_eq
    have hb := published_le_one s'
    omega
  case handed_back =>
    intro program m v hm hv
    apply Evaluation.enter_eq_giveBack program
    rw [Heap.target?_eq_some_iff] at hv ⊢
    rw [hm, hv]
  case not_while_busy =>
    intro program other m hm ho
    obtain ⟨t, ht⟩ := Option.isSome_iff_exists.1 ho
    have ht' : m.heap.owner? a = some t := by
      rw [Heap.owner?_eq_some_iff] at ht ⊢
      rwa [hm]
    rw [Evaluation.enter_eq_of_owner program ht', Evaluation.enter_eq_of_owner other ht']
  case started_from =>
    rintro before after t body rfl
    obtain ⟨h₁, earlier, later⟩ := run.append
    obtain ⟨s₁, hs₁, -⟩ := earlier.path hs
    obtain ⟨s₂, -, q⟩ := later.path hs₁
    cases q with
    | cons t _ =>
      cases t with
      | start => exact ⟨h₁, earlier, hs₁⟩
      | busy _ _ _ _ _ he => simp at he
  case reset_between =>
    rintro before mid after e₁ e₂ rfl h₁ h₂
    -- The part of the log from the first start to the second is a run of its own.
    obtain ⟨s₁, -, q⟩ := p.append
    have hq : e₁ :: (mid ++ e₂ :: after) = e₁ :: (mid ++ [e₂]) ++ after := by simp
    rw [hq] at q
    obtain ⟨s₂, q, -⟩ := q.append
    exact q.reset_between_starts h₁ h₂
  case starts_le =>
    have hp := p.starts_le
    have hb := started_le_one s'
    omega
  case released_in_order =>
    rw [hs, hs']
    exact p.parked_eq

section Contention

def pair : Heap Unit := ⟨#[.thunk (.unevaluated ⟨(), []⟩), .data default []]⟩

def visitor (n : Nat) : Thread Unit := ⟨⟨n⟩, .empty 1, .enter ⟨0⟩⟩

def contention : List (Event Unit) := [
  .entered ⟨1⟩ (.start ⟨(), []⟩), .parked (visitor 2), .entered ⟨3⟩ .busy, .parked (visitor 3),
  .reset true [visitor 2, visitor 3], .entered ⟨2⟩ (.start ⟨(), []⟩), .parked (visitor 3),
  .updated ⟨1⟩ [visitor 3], .refused ⟨0⟩ ⟨1⟩, .entered ⟨3⟩ (.value ⟨1⟩), .reset false [],
  .declined (visitor 1)]

theorem memoized_contention :
    pair.isThunk ⟨0⟩ ∧ History ⟨0⟩ pair contention (pair.settle ⟨0⟩ ⟨1⟩).2 ∧
      Memoized ⟨0⟩ pair contention (pair.settle ⟨0⟩ ⟨1⟩).2 := by
  have run : History ⟨0⟩ pair contention (pair.settle ⟨0⟩ ⟨1⟩).2 :=
    .cons (.enter _ _) (.cons (.park rfl) (.cons (.enter _ _) (.cons (.park rfl)
      (.cons (.reset _) (.cons (.enter _ _) (.cons (.park rfl) (.cons (.update rfl)
      (.cons (.refuse rfl) (.cons (.enter _ _) (.cons (.reset _) (.cons (.decline rfl)
      (.nil _))))))))))))
  exact ⟨rfl, run, memoized_of_history rfl run⟩

end Contention

end GraphReduction.Memoization
