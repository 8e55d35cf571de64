import GraphReduction.Proofs.UpdateFrames

namespace GraphReduction

open Evaluation GraphReduction.Frame

variable {κ : Type} {program : Program κ} {c : Control} {m m' : Machine κ} {e : RuntimeError}

def RuntimeError.Impossible : RuntimeError → Prop
  | .registerKind .. | .malformedPartial .. => True
  | .unexpectedEmptyStack activity => activity = "unwinding"
  | _ => False

def RuntimeError.Resultless : RuntimeError → Prop
  | .emptyRegister .. => True
  | .unexpectedEmptyStack activity => activity = "returning a value"
  | _ => False

theorem RuntimeError.Ordinary.not_impossible (h : e.Ordinary) : ¬ e.Impossible := by
  cases e <;> first | exact h.elim | exact id

theorem RuntimeError.Ordinary.not_resultless (h : e.Ordinary) : ¬ e.Resultless := by
  cases e <;> first | exact h.elim | exact id

namespace System

variable {s s' s₀ : System κ} {t : ThreadId}

section Definitions

structure Working (s : System κ) (c : Control) (m : Machine κ) : Prop where
  shared : m.shared = s.shared
  station : ⟨m.context, some c⟩ ∈ s.stations
  ready : ∃ rest, s.ready.Perm (m.scheduler.held ++ rest)

def Returned (program : Program κ) (s₀ s : System κ) (t : ThreadId) (e : RuntimeError) : Prop :=
  ∃ s₁ s₂ n c m, Reaches program s₀ s₁ ∧ s₁.Working c m ∧ m.context.thread = t ∧
    Returns program n c m e ∧ Step program s₁ s₂ ∧ s₂.shared = (iterate program n c m).2.shared ∧
    ⟨(iterate program n c m).2.context, some (.halted e)⟩ ∈ s₂.stations ∧ Reaches program s₂ s

def Traced (program : Program κ) (s₀ s : System κ) (e : RuntimeError) : Prop :=
  ∀ n c m, s.Working c m → (iterate program n c m).1.halted? = some e →
    Returns program n c m e ∨ Returned program s₀ s m.context.thread e

/-- In no state that the system gets to does a body return without a result. -/
def LeavesResults (program : Program κ) (s₀ : System κ) : Prop :=
  ∀ s n c m code captured m₁ m₂, Reaches program s₀ s → s.Working c m →
    Runs n c m code captured m₁ → run program code captured m₁ = .ok .resume m₂ →
      m₂.context.registers.result? ≠ none

def UpdatesThunks (program : Program κ) (s₀ : System κ) : Prop :=
  ∀ s n c m, Reaches program s₀ s → s.Working c m → PushesUpheld program n c m

end Definitions

theorem Returned.mono {s s' : System κ} (h : Returned program s₀ s t e)
    (hr : Reaches program s s') : Returned program s₀ s' t e := by
  obtain ⟨s₁, s₂, n, c, m, h₀, hw, ht, hret, hstep, hs, hst, h⟩ := h
  exact ⟨s₁, s₂, n, c, m, h₀, hw, ht, hret, hstep, hs, hst, h.trans hr⟩

theorem begin_ne_halted (u : Thread κ) (m : Machine κ) (e : RuntimeError) :
    (begin u m).1 ≠ .halted e := by
  obtain ⟨id, stack, pending⟩ := u
  cases pending <;> exact nofun

theorem returned_of_halted {P : RuntimeError → Prop} (hf : s₀.shared.heap.Flat)
    (hP : ∀ s c m e, Reaches program s₀ s → s.Working c m → P e → Faults c m e → c = .halted e)
    (h : Reaches program s₀ s) (h₀ : s₀.Initial) : ∀ st ∈ s.stations, ∀ e,
      st.control = some (.halted e) → P e → Returned program s₀ s st.context.thread e := by
  -- Halted threads got the error from a body, for errors that nothing else halts a thread with.
  induction h with
  | refl =>
    intro st hm e hc
    rw [h₀.idle st hm] at hc
    cases hc
  | @tail s s' hrun hstep ih =>
    have hold : ∀ st ∈ s.stations, ∀ e, st.control = some (.halted e) → P e →
        Returned program s₀ s' st.context.thread e :=
      fun st hm e hc he => (ih st hm e hc he).mono (.single hstep)
    obtain ⟨deed, hstep⟩ := hstep
    cases hstep with
    | @attach i context u rest q hi hready =>
      intro st hm e hc he
      rcases mem_of_mem_set hi hm with rfl | hm
      · exact absurd (Option.some.inj hc) (begin_ne_halted u _ e)
      · exact hold st (List.mem_of_mem_eraseIdx hm) e hc he
    | @iterate i context c q rest turn m n released hi hready ht hparked =>
      intro st hm e hc he
      rcases mem_of_mem_set hi hm with rfl | hm
      · have hturn := Turn.eq_next_of_control hc nofun
        have hhalted : (iterate program n c ⟨s.shared, q, context⟩).1.halted? = some e := by
          rw [ht, hturn]
          rfl
        have hw : s.Working c ⟨s.shared, q, context⟩ :=
          ⟨rfl, List.mem_of_getElem? hi, rest, hready⟩
        have hthread : m.context.thread = context.thread := thread_iterate ht (by rw [hturn]; nofun)
        change Returned program s₀ _ m.context.thread e
        rw [hthread]
        have hflat : Heap.Flat (Machine.heap ⟨s.shared, q, context⟩) :=
          (Reaches.matures hrun).flat hf
        rcases returns_or_faults hflat hhalted with hr | hr
        · refine ⟨s, _, n, c, _, hrun, hw, rfl, hr,
            ⟨_, .iterate n released hi hready ht hparked⟩, ?_,
            ?_, .refl⟩
          · rw [ht]
          · obtain ⟨hlt, -⟩ := List.getElem?_eq_some_iff.1 hi
            rw [ht, ← hc]
            exact List.mem_set hlt _
        · obtain rfl := hP s c _ e hrun hw he hr
          exact hold _ (List.mem_of_getElem? hi) e rfl he
      · exact hold st (List.mem_of_mem_eraseIdx hm) e hc he
    | @interrupt i st flag hi =>
      intro st' hm e hc he
      rcases mem_of_mem_set hi hm with rfl | hm
      · exact hold st (List.mem_of_getElem? hi) e hc he
      · exact hold st' (List.mem_of_mem_eraseIdx hm) e hc he
    | _ => exact hold

theorem traced_of_reaches {P : RuntimeError → Prop} (hf : s₀.shared.heap.Flat)
    (hP : ∀ s c m e, Reaches program s₀ s → s.Working c m → P e → Faults c m e → c = .halted e)
    (h : Reaches program s₀ s) (h₀ : s₀.Initial) (he : P e) : Traced program s₀ s e := by
  intro n c m hw hi
  have hflat : m.heap.Flat := by
    rw [show m.heap = s.shared.heap from congrArg Shared.heap hw.shared]
    exact h.matures.flat hf
  refine (returns_or_faults hflat hi).imp_right fun hr => ?_
  obtain rfl := hP s c m e h hw he hr
  exact returned_of_halted hf hP h h₀ _ hw.station e rfl he

theorem result_of_reaches (hb : LeavesResults program s₀) (h₀ : s₀.Initial)
    (h : Reaches program s₀ s) : ∀ st ∈ s.stations, st.control = some .resuming →
      st.context.registers.result? ≠ none := by
  induction h with
  | refl =>
    intro st hm hc
    rw [h₀.idle st hm] at hc
    cases hc
  | @tail s s' hrun hstep ih =>
    obtain ⟨deed, hstep⟩ := hstep
    cases hstep with
    | @attach i context u rest q hi hready =>
      intro st hm hc
      rcases mem_of_mem_set hi hm with rfl | hm
      · obtain ⟨-, -, -, -, -, -, hres⟩ := begin_spec u ⟨s.shared, q, context⟩
        exact hres (Option.some.inj hc)
      · exact ih st (List.mem_of_mem_eraseIdx hm) hc
    | @iterate i context c q rest turn m n released hi hready ht hparked =>
      intro st hm hc
      rcases mem_of_mem_set hi hm with rfl | hm
      · have hw : s.Working c ⟨s.shared, q, context⟩ :=
          ⟨rfl, List.mem_of_getElem? hi, rest, hready⟩
        obtain rfl := Turn.eq_next_of_control hc nofun
        refine result_iterate (fun code captured m₁ m₂ hr => ?_) (fun hres => ?_) ht
        · exact hb s n c _ code captured m₁ m₂ hrun hw hr
        · exact ih _ (List.mem_of_getElem? hi) (congrArg some hres)
      · exact ih st (List.mem_of_mem_eraseIdx hm) hc
    | @interrupt i st flag hi =>
      intro st' hm hc
      rcases mem_of_mem_set hi hm with rfl | hm
      · exact ih st (List.mem_of_getElem? hi) hc
      · exact ih st' (List.mem_of_mem_eraseIdx hm) hc
    | _ => exact ih

structure Upheld (s : System κ) : Prop where
  running : ∀ st ∈ s.stations, st.control ≠ none →
    s.shared.heap.Upholds st.context.stack.frames
  detached : ∀ u ∈ s.detached, s.shared.heap.Upholds u.stack.frames

theorem mem_detached {u : Thread κ} : u ∈ s.detached ↔
    u ∈ s.ready ∨ u ∈ s.blocked.map Prod.fst ∨ u ∈ s.shared.heap.parked := by
  rw [detached, List.mem_append, List.mem_append]

theorem Upheld.iterate {i n : Nat} {context : Context κ} {c : Control} {q : Scheduler κ}
    {rest dropped : List (Thread κ)} {turn : Turn κ} {m : Machine κ} (hs : s.Upheld)
    (hi : s.stations[i]? = some ⟨context, some c⟩) (hready : s.ready.Perm (q.held ++ rest))
    (hb : PushesUpheld program n c ⟨s.shared, q, context⟩)
    (ht : Evaluation.iterate program n c ⟨s.shared, q, context⟩ = (turn, m)) :
    Upheld {
      shared := m.shared
      stations := s.stations.set i ⟨m.context, turn.control⟩
      ready := turn.yielded ++ (m.scheduler.held ++ rest)
      blocked := turn.blocked ++ s.blocked
      dropped := dropped } := by
  have hmatures := matures_iterate program n c ⟨s.shared, q, context⟩
  rw [ht] at hmatures
  have hrunning : s.shared.heap.Upholds context.stack.frames :=
    hs.running _ (List.mem_of_getElem? hi) nofun
  -- Whoever comes off the worker has the stack that the thread came with.
  have hleft : ∀ u ∈ turn.yielded ++ turn.blocked.map Prod.fst,
      m.shared.heap.Upholds u.stack.frames := by
    intro u hu
    rw [stack_of_left ht hu]
    exact hrunning.matures hmatures
  have hold : ∀ u ∈ s.detached, m.shared.heap.Upholds u.stack.frames :=
    fun u hu => (hs.detached u hu).matures hmatures
  have hkept : ∀ u ∈ m.scheduler.held ++ m.heap.parked, u ∈ s.detached := by
    intro u hu
    rcases List.mem_append.1 ((hands_of_iterate ht).subset hu) with hu | hu
    · exact mem_detached.2 (.inl (hready.mem_iff.2 (List.mem_append_left _ hu)))
    · exact mem_detached.2 (.inr (.inr hu))
  constructor
  case running =>
    intro st hm hc
    rcases mem_of_mem_set hi hm with rfl | hm
    · exact upheld_iterate hb hrunning ht hc
    · exact (hs.running st (List.mem_of_mem_eraseIdx hm) hc).matures hmatures
  case detached =>
    intro u hu
    simp only [mem_detached, List.mem_append, List.map_append] at hu
    rcases hu with (hu | hu | hu) | (hu | hu) | hu
    · exact hleft u (List.mem_append_left _ hu)
    · exact hold u (hkept u (List.mem_append_left _ hu))
    · exact hold u (mem_detached.2 (.inl (hready.mem_iff.2 (List.mem_append_right _ hu))))
    · exact hleft u (List.mem_append_right _ hu)
    · exact hold u (mem_detached.2 (.inr (.inl hu)))
    · exact hold u (hkept u (List.mem_append_right _ hu))

theorem Upheld.of_subset (hs : s.Upheld) (hm : s.shared.heap.Matures s'.shared.heap)
    (hstations : s'.stations = s.stations) (hd : s'.detached ⊆ s.detached) : s'.Upheld := by
  constructor
  case running =>
    intro st hmem hc
    rw [hstations] at hmem
    exact (hs.running st hmem hc).matures hm
  case detached => exact fun u hu => (hs.detached u (hd hu)).matures hm

theorem Upheld.step (hs : s.Upheld) (hb : ∀ n c m, s.Working c m → PushesUpheld program n c m)
    (h : Step program s s') : s'.Upheld := by
  have hmatures := h.matures
  obtain ⟨deed, h⟩ := h
  cases h with
  | spawn a limit =>
    refine ⟨hs.running, fun u hu => ?_⟩
    rcases List.mem_cons.1 hu with rfl | hu
    · exact nofun
    · exact hs.detached u hu
  | @attach i context u rest q hi hready =>
    have hstack := (begin_spec u ⟨s.shared, q, context⟩).2.2.2.2.1
    have hu : u ∈ s.detached := mem_detached.2 (.inl (hready.mem_iff.2 List.mem_cons_self))
    constructor
    case running =>
      intro st hm hc
      rcases mem_of_mem_set hi hm with rfl | hm
      · dsimp only
        rw [hstack]
        exact (hs.detached u hu).matures hmatures
      · exact (hs.running st (List.mem_of_mem_eraseIdx hm) hc).matures hmatures
    case detached =>
      intro v hv
      have hmem := (detached_attach i context q hready).mem_iff.2 (List.mem_cons_of_mem _ hv)
      exact (hs.detached v hmem).matures hmatures
  | @iterate i context c q rest turn m n released hi hready ht hparked =>
    have hw : s.Working c ⟨s.shared, q, context⟩ :=
      ⟨rfl, List.mem_of_getElem? hi, rest, hready⟩
    exact hs.iterate hi hready (hb n c _ hw) ht
  | park hblocked hpark =>
    exact hs.of_subset hmatures rfl (detached_park hblocked hpark).symm.subset
  | retry hblocked => exact hs.of_subset hmatures rfl (detached_retry hblocked).symm.subset
  | abandon hready =>
    refine hs.of_subset hmatures rfl fun u hu => ?_
    exact (detached_abandon hready).mem_iff.2 (List.mem_cons_of_mem _ hu)
  | @interrupt i st flag hi =>
    refine ⟨fun st' hm hc => ?_, hs.detached⟩
    rcases mem_of_mem_set hi hm with rfl | hm
    · exact hs.running st (List.mem_of_getElem? hi) hc
    · exact hs.running st' (List.mem_of_mem_eraseIdx hm) hc
  | report target remark =>
    refine hs.of_subset hmatures rfl fun u hu => ?_
    rwa [detached_report] at hu

theorem upheld_of_reaches (hb : UpdatesThunks program s₀) (h₀ : s₀.Initial)
    (h : Reaches program s₀ s) : s.Upheld := by
  induction h with
  | refl =>
    refine ⟨fun st hm hc => absurd (h₀.idle st hm) hc, fun u hu => ?_⟩
    rw [detached, h₀.ready, h₀.blocked, Heap.parked_eq_nil h₀.owner?] at hu
    cases hu
  | tail hrun hstep ih => exact ih.step (fun n c m hw => hb _ n c m hrun hw) hstep

section Guarding

structure Guarded (program : Program κ) (s₀ s : System κ) : Prop where
  impossible : ∀ e, e.Impossible → Traced program s₀ s e
  resuming : LeavesResults program s₀ → ∀ st ∈ s.stations, st.control = some .resuming →
    st.context.registers.result? ≠ none
  resultless : LeavesResults program s₀ → ∀ e, e.Resultless → Traced program s₀ s e
  nonThunk : UpdatesThunks program s₀ → ∀ target, Traced program s₀ s (.updateNonThunk target)

theorem guarded_of_reaches (h₀ : s₀.Initial) (hf : s₀.shared.heap.Flat)
    (h : Reaches program s₀ s) : Guarded program s₀ s := by
  constructor
  case impossible =>
    intro e he
    refine traced_of_reaches (P := RuntimeError.Impossible) hf ?_ h h₀ he
    rintro s₁ c m e - - he (hc | ho | ⟨-, -, rfl | rfl⟩ | ⟨a, rest, -, -, -, rfl⟩)
    · exact hc
    · exact absurd he ho.not_impossible
    · exact False.elim he
    · exact absurd he (by simp [RuntimeError.Impossible])
    · exact False.elim he
  case resuming => exact fun hb => result_of_reaches hb h₀ h
  case resultless =>
    intro hb e he
    refine traced_of_reaches (P := RuntimeError.Resultless) hf ?_ h h₀ he
    rintro s₁ c m e hr hw he (hc | ho | ⟨rfl, hres, -⟩ | ⟨a, rest, -, -, -, rfl⟩)
    · exact hc
    · exact absurd he ho.not_resultless
    · exact absurd hres (result_of_reaches hb h₀ hr _ hw.station rfl)
    · exact False.elim he
  case nonThunk =>
    intro hb target
    refine traced_of_reaches (P := (· = .updateNonThunk target)) hf ?_ h h₀ rfl
    rintro s₁ c m e hr hw rfl (hc | ho | ⟨-, -, he | he⟩ | ⟨a, rest, -, hs, hn, -⟩)
    · exact hc
    · exact False.elim ho
    · cases he
    · cases he
    · refine absurd ?_ hn
      have hu := (upheld_of_reaches hb h₀ hr).running _ hw.station nofun
      rw [show m.heap = s₁.shared.heap from congrArg Shared.heap hw.shared]
      exact hu a (mem_updates.2 (hs ▸ List.mem_cons_self))

end Guarding

section Tidy

def tidy : Program Unit := ⟨fun _ _ => .push (.update ⟨0⟩) fun _ => .setResult ⟨1⟩ (.done .resume)⟩

def workshop : System Unit where
  shared := { (Shared.empty default : Shared Unit) with
    heap := ⟨#[.thunk (.unevaluated ⟨(), []⟩), .data ⟨"Unit", 0⟩ []]⟩ }
  stations := [⟨.new 0 4, none⟩]
  ready := []
  blocked := []
  dropped := []

theorem initial_workshop : workshop.Initial where
  idle := by decide
  ready := rfl
  blocked := rfl
  dropped := rfl
  owner? a := by
    cases ho : workshop.shared.heap.owner? a with
    | none => rfl
    | some t =>
      obtain ⟨body, blocked, hc⟩ := Heap.owner?_eq_some_iff.1 ho
      obtain ⟨i⟩ := a
      have hi : i < workshop.shared.heap.size := Heap.lt_size_of_cell_eq_thunk hc
      match i, hi with
      | 0, _ => cases hc
      | 1, _ => cases hc

theorem leavesResults_tidy : LeavesResults tidy workshop := by
  intro s n c m code captured m₁ m₂ hr hw hrun h
  have hset : ∀ m₃ : Machine Unit, (m₃.setResult ⟨1⟩).context.registers.result? ≠ none := by
    intro m₃
    simp [Machine.setResult, Machine.setRegisters]
  simp only [run, tidy, Action.perform] at h
  split at h <;> cases h <;> exact hset _

theorem updatesThunks_tidy : UpdatesThunks tidy workshop := by
  intro s n c m hr hw code captured m₁ hrun p hp a ha
  have hthunk : m₁.heap.isThunk ⟨0⟩ = true := by
    refine hrun.matures.later.thunks _ ?_
    rw [show m.heap = s.shared.heap from congrArg Shared.heap hw.shared]
    exact (Reaches.matures hr).later.thunks _ rfl
  simp only [tidy, Action.attempts] at hp
  obtain rfl : p = ⟨.update ⟨0⟩, m₁⟩ := by
    rcases List.mem_cons.1 hp with hp | hp
    · exact hp
    · split at hp <;> cases hp
  cases ha
  exact hthunk

theorem guarded_workshop :
    workshop.Initial ∧ workshop.shared.heap.Flat ∧ LeavesResults tidy workshop ∧
      UpdatesThunks tidy workshop ∧ ∃ s, Reaches tidy workshop s ∧
        s.stations.map Station.control = [some .resuming] ∧ Guarded tidy workshop s := by
  have hflat : workshop.shared.heap.Flat := by
    rintro ⟨i⟩ f args hc
    have hi : i < workshop.shared.heap.size := Heap.lt_size_of_cell_ne_default fun hd => by
      rw [hd] at hc
      cases hc
    match i, hi with
    | 0, _ => cases hc
    | 1, _ => cases hc
  have h₀ : Reaches tidy workshop workshop := .refl
  have h₁ := h₀.tail ⟨_, .spawn _ ⟨0⟩ 4⟩
  have h₂ := h₁.tail ⟨_, .attach (i := 0) .standalone rfl (.refl _)⟩
  have h₃ := h₂.tail (.requeue (i := 0) (n := 0) (q := patient) rfl (.refl _) nofun rfl)
  exact ⟨initial_workshop, hflat, leavesResults_tidy, updatesThunks_tidy, _, h₃,
    by decide +kernel, guarded_of_reaches initial_workshop hflat h₃⟩

end Tidy

end System

end GraphReduction
