import GraphReduction.Proofs.Effects
import GraphReduction.Proofs.System
import GraphReduction.Proofs.WaitsFor

/-!
The map of waiting threads, beside a log of how the slices of threads ended. Workers run threads
under any schedulers, and may be interrupted between any two iterations.
-/
namespace GraphReduction

open Evaluation

variable {κ : Type} {program : Program κ}

def Evaluation.Control.awaits? : Control → Option Address
  | .blocked a => some a
  | _ => none

def Evaluation.Outcome.awaits? : Outcome κ → Option Address
  | .blocked _ a => some a
  | _ => none

theorem Shared.waiting_resetFrames (frames : List (Frame κ)) (s : Shared κ) :
    (s.resetFrames frames).2.waiting = s.waiting := by
  induction frames generalizing s with
  | nil => rfl
  | cons frame rest ih =>
    cases frame with
    | update a => exact ih { s with heap := (s.heap.reset a).2 }
    | _ => exact ih s

namespace Registry

section Iterating

variable {m m₁ m' : Machine κ} {a : Address} {c : Control}

structure Steady (m m' : Machine κ) : Prop where
  waiting : m'.shared.waiting = m.shared.waiting
  thread : m'.context.thread = m.context.thread

theorem retreats_steady : Machine.Retreats (Steady (κ := κ)) where
  refl _ := ⟨rfl, rfl⟩
  trans h h' := ⟨h'.waiting.trans h.waiting, h'.thread.trans h.thread⟩
  context _ _ hc _ := ⟨rfl, hc⟩
  allocate _ _ _ := ⟨rfl, rfl⟩
  spark _ _ := ⟨rfl, rfl⟩
  journal _ _ := ⟨rfl, rfl⟩
  quiet q := ⟨q.waiting, q.thread⟩
  reset m a remark := by
    have hcore := m.core_resetThunk a remark
    exact ⟨congrArg Core.waiting hcore, congrArg Core.thread hcore⟩
  count _ _ := ⟨rfl, rfl⟩

theorem steady_updateThunk (a : Address) (m : Machine κ) :
    Steady m ((updateThunk a).outcome m).2 := by
  rcases updateThunk_spec a m with ⟨e, m', hx, hcore, -⟩ | ⟨p, s, m', -, -, -, -, hx, hcore⟩ |
    ⟨p, w, m', -, -, -, hx, hcore⟩ | ⟨p, m', -, -, -, -, hx, hcore⟩
  · rw [Exec.outcome_of_error hx]
    exact ⟨congrArg Core.waiting hcore, congrArg Core.thread hcore⟩
  all_goals
    rw [Exec.outcome_of_ok hx]
    exact ⟨congrArg Core.waiting hcore, congrArg Core.thread hcore⟩

theorem updateThunk_ne_block (a b : Address) (m m' : Machine κ) :
    updateThunk a m ≠ .ok (.block b) m' := by
  intro h
  rcases updateThunk_spec a m with ⟨e, m₁, hx, -⟩ | ⟨p, s, m₁, -, -, -, -, hx, -⟩ |
    ⟨p, w, m₁, -, -, -, hx, -⟩ | ⟨p, m₁, -, -, -, -, hx, -⟩ <;>
  · rw [hx] at h
    cases h

theorem eq_block_of_settle {r : Except Fault Step} (h : (settle r m).1 = .blocked a) :
    r = .ok (.block a) := by
  -- Only a step that asks for it makes a thread wait: a handler is applied, and whoever finds
  -- none halts.
  rcases settle_cases r m with ⟨s, hr, hs, hx⟩ | ⟨f, args, hx⟩ | hx | ⟨e, hx, -⟩ <;> rw [hx] at h
  · cases s with
    | throw b => exact absurd rfl (hs b)
    | block b =>
      cases h
      exact hr
    | _ => cases h
  all_goals cases h

structure Noted (c : Control) (m : Machine κ) (turn : Turn κ) (m' : Machine κ) : Prop where
  thread : turn.control ≠ none → m'.context.thread = m.context.thread
  waiting : (∀ a, turn ≠ .next (.blocked a)) → m'.shared.waiting = m.shared.waiting
  registered : ∀ a, turn = .next (.blocked a) →
    m.shared.waiting.register? m.heap m.context.thread a = some m'.shared.waiting
  interrupted : ∀ a, turn = .next (.blocked a) → m'.context.interrupted = m.context.interrupted
  blocked : ∀ t a, turn = .over (.blocked t a) → c = .blocked a

theorem Noted.congr {turn : Turn κ} (hs : Steady m m₁) (hh : m₁.heap = m.heap)
    (hi : m₁.context.interrupted = m.context.interrupted) (h : Noted c m₁ turn m') :
    Noted c m turn m' where
  thread hc := (h.thread hc).trans hs.thread
  waiting hn := (h.waiting hn).trans hs.waiting
  registered a ht := by
    rw [← hh, ← hs.thread, ← hs.waiting]
    exact h.registered a ht
  interrupted a ht := (h.interrupted a ht).trans hi
  blocked := h.blocked

theorem Noted.of_polled {turn : Turn κ} (hp : Polled m m₁) (h : Noted c m₁ turn m') :
    Noted c m turn m' :=
  h.congr (retreats_steady.quiet hp.quiet) hp.heap
    (hp.core.elim fun _ hc => congrArg Core.interrupted hc)

theorem noted_follow {x : Exec κ Step} (hs : Steady m (x.outcome m₁).2)
    (hb : ∀ a m', x m₁ ≠ .ok (.block a) m') :
    Noted c m (follow x m₁).1 (follow x m₁).2 := by
  have hsteady := retreats_steady.discards.follow hs
  have hnever : ∀ a, (follow x m₁).1 ≠ .next (.blocked a) := by
    intro a h
    rw [follow_eq] at h
    have hr := eq_block_of_settle (Turn.next.inj h)
    unfold Exec.outcome at hr
    split at hr
    · next s m₂ hx =>
      cases hr
      exact hb a m₂ hx
    · cases hr
  exact ⟨fun _ => hsteady.thread, fun _ => hsteady.waiting, fun a h => absurd h (hnever a),
    fun a h => absurd h (hnever a), nofun⟩

theorem noted_over {outcome : Outcome κ} (hw : m'.shared.waiting = m.shared.waiting)
    (hc : Turn.control (.over outcome) = none)
    (hb : ∀ t a, outcome = .blocked t a → c = .blocked a) : Noted c m (.over outcome) m' where
  thread h := absurd hc h
  waiting _ := hw
  registered _ := nofun
  interrupted _ := nofun
  blocked t a h := hb t a (Turn.over.inj h)

theorem noted_enterBusy (c : Control) (a : Address) (m : Machine κ) :
    Noted c m (follow (enterBusy a) m).1 (follow (enterBusy a) m).2 := by
  cases hw : m.shared.waiting.register? m.heap m.context.thread a with
  | none =>
    obtain ⟨m₁, hx, hcore⟩ := enterBusy_of_cycle hw
    refine noted_follow ?_ fun b m' h => ?_
    · rw [Exec.outcome_of_error hx]
      exact ⟨congrArg Core.waiting hcore, congrArg Core.thread hcore⟩
    · rw [hx] at h
      cases h
  | some w =>
    obtain ⟨m₁, hx, hcore⟩ := enterBusy_of_register? hw
    have hfollow : follow (enterBusy a) m = (.next (.blocked a), m₁) := by
      rw [follow_eq, Exec.outcome_of_ok hx]
      rfl
    rw [hfollow]
    refine ⟨fun _ => congrArg Core.thread hcore, fun h => absurd rfl (h a), fun b h => ?_,
      fun _ _ => congrArg Core.interrupted hcore, nofun⟩
    cases h
    rw [hw, show m₁.shared.waiting = w from congrArg Core.waiting hcore]

theorem noted_enter (hb : program.NeverBlocks) (c : Control) (a : Address) (m : Machine κ) :
    Noted c m (follow (enter program a) m).1 (follow (enter program a) m).2 := by
  rcases enter_cases program a m with ⟨v, hx⟩ | ⟨e, hx⟩ | ⟨t, -, -, hx⟩ | ⟨body, -, hx⟩
  · rw [follow_congr hx]
    refine noted_follow (retreats_steady.tolerant.plain (Exec.isPlain_giveBack v m)) fun b m' h => ?_
    have hresume : Exec.giveBack v m = .ok .resume (m.setResult v) := rfl
    cases hresume.symm.trans h
  · rw [follow_congr hx]
    refine noted_follow (retreats_steady.refl m) fun b m' h => ?_
    have hraise : (Exec.raise e : Exec κ Step) m = .error (.error e) m := rfl
    cases hraise.symm.trans h
  · rw [follow_congr hx]
    exact noted_enterBusy c a m
  · let m₁ := m.setHeap (m.heap.write a (.thunk (.underEvaluation m.context.thread body [])))
    have hentered : Steady m m₁ := ⟨rfl, rfl⟩
    rw [follow_congr hx]
    exact noted_follow (retreats_steady.trans hentered (retreats_steady.start a body m₁))
      fun b m' h => ends_start hb.ends a body _ _ _ h b rfl

theorem noted_resumeFrame (hb : program.NeverBlocks) (c : Control) (frame : Frame κ)
    (m : Machine κ) :
    Noted c m (follow (resumeFrame program frame) m).1
      (follow (resumeFrame program frame) m).2 := by
  cases frame with
  | apply v =>
    exact noted_follow (retreats_steady.applyFrame v m)
      fun b m' h => ends_applyFrame hb.ends v _ _ _ h b rfl
  | update a =>
    exact noted_follow (steady_updateThunk a m) fun b m' => updateThunk_ne_block a b m m'
  | case code captured =>
    exact noted_follow (retreats_steady.run code captured m) fun b m' => hb code captured m b m'
  | handler f =>
    refine noted_follow (retreats_steady.refl m) fun b m' h => ?_
    have hresume : resumeFrame program (.handler f) m = .ok .resume m := rfl
    cases hresume.symm.trans h

theorem noted_advance (hb : program.NeverBlocks) (c : Control) (m : Machine κ) :
    Noted c m (advance program c m).1 (advance program c m).2 := by
  have hpoll : Polled m (reportControl c m) := .report m c
  cases c with
  | entering a => exact .of_polled hpoll (noted_enter hb _ a _)
  | applying f args =>
    exact .of_polled hpoll (noted_follow (retreats_steady.apply f args _)
      fun b m' h => ends_apply hb.ends f args _ _ _ h b rfl)
  | resuming =>
    refine .of_polled hpoll ?_
    cases hf : (reportControl .resuming m).context.stack.frames with
    | nil =>
      have hnone := Machine.pop?_eq_none hf
      cases hr : (reportControl .resuming m).context.registers.result? with
      | some v =>
        rw [advance_of_pop?_eq_none program hnone hr]
        exact noted_over rfl rfl nofun
      | none =>
        rw [advance_of_result?_eq_none program hnone hr]
        exact ⟨fun _ => rfl, fun _ => rfl, nofun, nofun, nofun⟩
    | cons frame rest =>
      obtain ⟨m₁, s, hpop, hcore, -⟩ := Machine.exists_pop? hf
      rw [advance_of_pop? program hpop]
      exact (noted_resumeFrame hb _ frame m₁).congr
        ⟨congrArg Core.waiting hcore, congrArg Core.thread hcore⟩ (congrArg Core.heap hcore)
        (congrArg Core.interrupted hcore)
  | blocked a =>
    refine noted_over ?_ rfl fun t b h => ?_
    · exact (congrArg Core.waiting (Machine.core_report _ _ _)).trans hpoll.quiet.waiting
    · cases h
      rfl
  | halted e =>
    let m₁ := (reportControl (.halted e) m).report .trampoline fun _ =>
      ⟨.debug, "halting", [("error", e.message)]⟩
    have hreported : Steady m m₁ := retreats_steady.quiet (hpoll.quiet.trans (.report _ _ _))
    have habandoned := retreats_steady.discards.abandonFrames m₁.context.stack.frames m₁
    exact noted_over (retreats_steady.trans hreported habandoned).waiting rfl nofun
  | endless => exact .of_polled hpoll ⟨fun _ => rfl, fun _ => rfl, nofun, nofun, nofun⟩

theorem noted_iterate (hb : program.NeverBlocks) (n : Nat) (c : Control) (m : Machine κ) :
    Noted c m (iterate program n c m).1 (iterate program n c m).2 := by
  obtain ⟨m₁, hpoll, ⟨e, -, hi⟩ | ⟨pending, -, hi⟩ | hi⟩ := Halting.iterate_cases n c m
  · rw [hi program]
    refine .of_polled hpoll ?_
    have h := noted_advance hb (.halted e) m₁
    exact ⟨h.thread, h.waiting, h.registered, h.interrupted, nofun⟩
  · rw [hi program]
    refine .of_polled hpoll (noted_over ?_ rfl nofun)
    exact congrArg Core.waiting (Machine.core_report _ _ _)
  · rw [hi program]
    exact .of_polled hpoll (noted_advance hb c m₁)

theorem iterate_waiting (program : Program κ) (n : Nat) (a : Address) (m : Machine κ) :
    (iterate program n (.blocked a) m).1 = .over (.halted .interrupted) ∨
      ∃ t, (iterate program n (.blocked a) m).1 = .over (.blocked t a) := by
  cases hm : m.context.interrupted with
  | true => exact .inl (iterate_of_interrupted program n _ hm)
  | false => exact .inr (iterate_blocked program n a hm)

theorem awaits?_of_control (program : Program κ) (n : Nat) (c : Control) (m : Machine κ)
    (h : (iterate program n c m).1.control ≠ none) : c.awaits? = none := by
  cases c with
  | blocked a =>
    rcases iterate_waiting program n a m with ht | ⟨t, ht⟩ <;>
    · rw [ht] at h
      exact absurd rfl h
  | _ => rfl

theorem Noted.find?_next {c' : Control} (h : Noted c m (.next c') m')
    (hn : m.context.thread ≠ .nobody)
    (hf : m.shared.waiting.find? m.context.thread = none) :
    m'.shared.waiting.find? m.context.thread = c'.awaits? ∧
      ∀ t, t ≠ m.context.thread → m'.shared.waiting.find? t = m.shared.waiting.find? t := by
  cases hc : c'.awaits? with
  | none =>
    have hw := h.waiting fun a ha => by
      cases ha
      cases hc
    rw [hw]
    exact ⟨hf, fun _ _ => rfl⟩
  | some a =>
    obtain rfl : c' = .blocked a := by
      cases c' <;> cases hc
      rfl
    have hr := h.registered a rfl
    unfold WaitingMap.register? at hr
    rw [if_neg hn] at hr
    split at hr
    · cases hr
    · have hw := Option.some.inj hr
      refine ⟨?_, fun t ht => ?_⟩
      · rw [← hw, WaitingMap.find?_insert, if_pos rfl]
      · rw [← hw, WaitingMap.find?_insert, if_neg ht]

theorem find?_of_iterateUpTo (hb : program.NeverBlocks) {fuel n k : Nat} {outcome : Outcome κ}
    (hn : m.context.thread ≠ .nobody)
    (hf : m.shared.waiting.find? m.context.thread = c.awaits?)
    (hi : ∀ a, c = .blocked a → m.context.interrupted = false)
    (h : iterateUpTo program fuel n c m = ((k, .over outcome), m')) :
    m'.shared.waiting.find? m.context.thread = outcome.awaits? := by
  induction fuel generalizing n c m with
  | zero => cases h
  | succ fuel ih =>
    have hnoted := noted_iterate hb n c m
    have hstays := awaits?_of_control program n c m
    cases ht : iterate program n c m with
    | mk turn m₁ =>
      rw [ht] at hnoted hstays
      cases turn with
      | next c' =>
        rw [iterateUpTo_of_next ht] at h
        have hthread := hnoted.thread nofun
        rw [hstays nofun] at hf
        obtain ⟨hf₁, -⟩ := hnoted.find?_next hn hf
        rw [← hthread] at hn hf₁ ⊢
        refine ih hn hf₁ (fun a ha => ?_) h
        subst ha
        exact (hnoted.interrupted a rfl).trans (interrupted_of_next program ht)
      | «over» outcome' =>
        rw [iterateUpTo_of_over ht] at h
        cases h
        rw [hnoted.waiting nofun, hf]
        cases c with
        | blocked a =>
          obtain ⟨t, hover⟩ := iterate_blocked program n a (hi a rfl)
          rw [ht] at hover
          cases hover
          rfl
        | _ =>
          cases outcome with
          | blocked t a => cases hnoted.blocked t a rfl
          | _ => rfl

theorem awaits?_begin (t : Thread κ) (m : Machine κ) : (begin t m).1.awaits? = none := by
  obtain ⟨-, -, -, -, -, hblocked, -⟩ := System.begin_spec t m
  cases hc : (begin t m).1 with
  | blocked a => exact absurd hc (hblocked a)
  | _ => rfl

theorem find?_of_runSlice (hb : program.NeverBlocks) {fuel : Nat} {t : Thread κ}
    {outcome : Outcome κ} (ht : t.id ≠ .nobody)
    (h : runSlice program fuel t m = (some outcome, m')) :
    m'.shared.waiting.find? t.id = outcome.awaits? := by
  obtain ⟨k, hk⟩ := runSlice_eq_some h
  obtain ⟨-, -, hw, hthread, -, hblocked, -⟩ := System.begin_spec t m
  rw [← hthread] at ht ⊢
  refine find?_of_iterateUpTo hb ht ?_ (fun a ha => absurd ha (hblocked a)) hk
  rw [awaits?_begin, hw, hthread, WaitingMap.find?_erase, if_pos rfl]

end Iterating

section Definitions

inductive Event where
  | attached
  | finished
  | yielded
  | blocked (thunk : Address)
  | halted (e : RuntimeError)
  /-- The thread was to wait, but halted before it had left the worker. -/
  | cut (thunk : Address) (e : RuntimeError)
  | abandoned
  deriving DecidableEq

def Event.awaits? : Event → Option Address
  | blocked a => some a
  | cut a _ => some a
  | _ => none

def ending? (c : Control) : Outcome κ → Option Event
  | .finished _ => some .finished
  | .yielded _ => some .yielded
  | .blocked _ a => some (.blocked a)
  | .halted e =>
    match c with
    | .blocked a => some (.cut a e)
    | _ => some (.halted e)
  | .endless => none

def endings (t : ThreadId) (c : Control) : Turn κ → List (ThreadId × Event)
  | .next _ => []
  | .over outcome => ((ending? c outcome).map fun e => (t, e)).toList

structure World (κ : Type) where
  shared : Shared κ
  stations : List (Station κ)

def task (st : Station κ) : List (ThreadId × Control) :=
  (st.control.map fun c => (st.context.thread, c)).toList

def World.tasks (w : World κ) : List (ThreadId × Control) := w.stations.flatMap task

def events (program : Program κ) : System.Deed κ → List (ThreadId × Event)
  | .attach t => [(t.id, .attached)]
  | .iterate n c m _ => endings m.context.thread c (Evaluation.iterate program n c m).1
  | .abandon t => [(t.id, .abandoned)]
  | .other => []

def Admissible (tasks : List (ThreadId × Control)) : System.Deed κ → Prop
  | .attach t => t.id ≠ .nobody ∧ t.id ∉ tasks.map Prod.fst
  | .abandon t => t.id ∉ tasks.map Prod.fst
  | _ => True

def world (s : System κ) : World κ := ⟨s.shared, s.stations⟩

inductive Step (program : Program κ) : World κ → List (ThreadId × Event) → World κ → Prop where
  | act {s s' : System κ} {deed : System.Deed κ} : System.Act program s deed s' →
      Admissible (world s).tasks deed →
      Step program (world s) (events program deed) (world s')
  | otherwise {w : World κ} {shared : Shared κ} : shared.waiting = w.shared.waiting →
      Step program w [] { w with shared }

inductive Run (program : Program κ) (w : World κ) : List (ThreadId × Event) → World κ → Prop where
  | nil : Run program w [] w
  | step {w₁ w₂ : World κ} {log new : List (ThreadId × Event)} :
      Run program w log w₁ → Step program w₁ new w₂ → Run program w (new ++ log) w₂

end Definitions

section Entries

variable {w w' : WaitingMap} {t : ThreadId} {c c' : Control} {e : Event}
  {tasks tasks' rest : List (ThreadId × Control)} {log : List (ThreadId × Event)}

structure Kept (w : WaitingMap) (tasks : List (ThreadId × Control))
    (log : List (ThreadId × Event)) : Prop where
  nodup : (tasks.map Prod.fst).Nodup
  real : ∀ p ∈ tasks, p.1 ≠ .nobody
  running : ∀ p ∈ tasks, w.find? p.1 = p.2.awaits?
  resting : ∀ t, t ∉ tasks.map Prod.fst → w.find? t = (log.lookup t).bind Event.awaits?
  cut : ∀ t a e, (t, .cut a e) ∈ log → e = .interrupted

namespace Kept

theorem perm (h : Kept w tasks log) (hp : tasks.Perm tasks') : Kept w tasks' log where
  nodup := (hp.map _).nodup_iff.1 h.nodup
  real p hm := h.real p (hp.mem_iff.2 hm)
  running p hm := h.running p (hp.mem_iff.2 hm)
  resting t ht := h.resting t fun hm => ht ((hp.map _).mem_iff.1 hm)
  cut := h.cut

theorem not_mem_rest (h : Kept w ((t, c) :: rest) log) : t ∉ rest.map Prod.fst :=
  (List.nodup_cons.1 h.nodup).1

theorem ne_of_mem (ht : t ∉ rest.map Prod.fst) {p : ThreadId × Control} (hm : p ∈ rest) :
    p.1 ≠ t :=
  fun he => ht (List.mem_map.2 ⟨p, hm, he⟩)

theorem resting_cons (h : ∀ u, u ∉ tasks.map Prod.fst → u ≠ t →
      w.find? u = (log.lookup u).bind Event.awaits?) (ht : w.find? t = e.awaits?) :
    ∀ u, u ∉ tasks.map Prod.fst → w.find? u = (((t, e) :: log).lookup u).bind Event.awaits? := by
  intro u hu
  rw [List.lookup_cons]
  by_cases hut : u = t
  · rw [hut, beq_self_eq_true]
    exact ht
  · rw [beq_eq_false_iff_ne.2 hut]
    exact h u hu hut

theorem cut_cons (h : Kept w tasks log) (he : ∀ a x, e = .cut a x → x = .interrupted) :
    ∀ u a x, (u, .cut a x) ∈ (t, e) :: log → x = .interrupted := by
  intro u a x hm
  rcases List.mem_cons.1 hm with heq | hm
  · exact he a x (Prod.mk.inj heq).2.symm
  · exact h.cut u a x hm

theorem attach (h : Kept w tasks log) (ht : t ∉ tasks.map Prod.fst) (hn : t ≠ .nobody)
    (hc : c.awaits? = none) : Kept (w.erase t) ((t, c) :: tasks) ((t, .attached) :: log) where
  nodup := List.nodup_cons.2 ⟨ht, h.nodup⟩
  real := List.forall_mem_cons.2 ⟨hn, h.real⟩
  running := by
    refine List.forall_mem_cons.2 ⟨?_, fun p hm => ?_⟩
    · rw [WaitingMap.find?_erase, if_pos rfl, hc]
    · rw [WaitingMap.find?_erase, if_neg (ne_of_mem ht hm)]
      exact h.running p hm
  resting := by
    refine resting_cons (fun u hu hut => ?_) ?_
    · rw [WaitingMap.find?_erase, if_neg hut]
      exact h.resting u fun hm => hu (List.mem_cons_of_mem _ hm)
    · rw [WaitingMap.find?_erase, if_pos rfl]
      rfl
  cut := h.cut_cons nofun

theorem proceed (h : Kept w ((t, c) :: rest) log)
    (hothers : ∀ u, u ≠ t → w'.find? u = w.find? u) (ht : w'.find? t = c'.awaits?) :
    Kept w' ((t, c') :: rest) log where
  nodup := h.nodup
  real := List.forall_mem_cons.2 (List.forall_mem_cons.1 h.real)
  running := by
    refine List.forall_mem_cons.2 ⟨ht, fun p hm => ?_⟩
    rw [hothers p.1 (ne_of_mem h.not_mem_rest hm)]
    exact h.running p (List.mem_cons_of_mem _ hm)
  resting u hu := by
    rw [hothers u fun he => hu (he ▸ List.mem_cons_self)]
    exact h.resting u hu
  cut := h.cut

theorem leave (h : Kept w ((t, c) :: rest) log) (he : e.awaits? = c.awaits?)
    (hcut : ∀ a x, e = .cut a x → x = .interrupted) : Kept w rest ((t, e) :: log) where
  nodup := (List.nodup_cons.1 h.nodup).2
  real := (List.forall_mem_cons.1 h.real).2
  running := (List.forall_mem_cons.1 h.running).2
  resting := by
    refine resting_cons (fun u hu hut => h.resting u ?_) ?_
    · exact fun hm => (List.mem_cons.1 hm).elim hut hu
    · rw [he]
      exact h.running _ List.mem_cons_self
  cut := h.cut_cons hcut

theorem abandon (h : Kept w tasks log) (ht : t ∉ tasks.map Prod.fst) :
    Kept (w.erase t) tasks ((t, .abandoned) :: log) where
  nodup := h.nodup
  real := h.real
  running p hm := by
    rw [WaitingMap.find?_erase, if_neg (ne_of_mem ht hm)]
    exact h.running p hm
  resting := by
    refine resting_cons (fun u hu hut => ?_) ?_
    · rw [WaitingMap.find?_erase, if_neg hut]
      exact h.resting u hu
    · rw [WaitingMap.find?_erase, if_pos rfl]
      rfl
  cut := h.cut_cons nofun

theorem iterate {turn : Turn κ} {m m' : Machine κ} (hn : Noted c m turn m')
    (hstays : turn.control ≠ none → c.awaits? = none)
    (hwaits : ∀ a, c = .blocked a →
      turn = .over (.halted .interrupted) ∨ ∃ u, turn = .over (.blocked u a))
    (h : Kept m.shared.waiting ((m.context.thread, c) :: rest) log) :
    Kept m'.shared.waiting (task ⟨m'.context, turn.control⟩ ++ rest)
      (endings m.context.thread c turn ++ log) := by
  have hfind := h.running _ List.mem_cons_self
  cases turn with
  | next c' =>
    obtain ⟨ht, hothers⟩ := hn.find?_next (h.real _ List.mem_cons_self)
      (hfind.trans (hstays nofun))
    rw [show task ⟨m'.context, (Turn.next c' : Turn κ).control⟩ = [(m.context.thread, c')] by
      rw [← hn.thread nofun]; rfl]
    exact h.proceed hothers ht
  | «over» outcome =>
    rw [hn.waiting nofun]
    cases outcome with
    | endless =>
      rw [show task ⟨m'.context, (Turn.over .endless : Turn κ).control⟩ =
        [(m.context.thread, .endless)] by rw [← hn.thread nofun]; rfl]
      exact h.proceed (fun _ _ => rfl) (hfind.trans (hstays nofun))
    | blocked u a =>
      obtain rfl := hn.blocked u a rfl
      exact h.leave rfl nofun
    | halted x =>
      cases c with
      | blocked a =>
        refine h.leave rfl fun b y hy => ?_
        rcases hwaits a rfl with ht | ⟨u, ht⟩
        · cases ht
          cases hy
          rfl
        · cases ht
      | _ => exact h.leave rfl nofun
    | _ =>
      refine h.leave ?_ nofun
      cases c with
      | blocked a => rcases hwaits a rfl with ht | ⟨u, ht⟩ <;> cases ht
      | _ => rfl

end Kept

end Entries

section Running

variable {w w' w₀ : World κ} {log new : List (ThreadId × Event)}

theorem Step.kept (hb : program.NeverBlocks) (hs : Step program w new w')
    (h : Kept w.shared.waiting w.tasks log) :
    Kept w'.shared.waiting w'.tasks (new ++ log) := by
  cases hs with
  | otherwise hw =>
    rw [← hw] at h
    exact h
  | @act s s' deed ha hadmissible =>
    cases ha with
    | @attach i context t rest q hi _ =>
      obtain ⟨hn, ht⟩ := hadmissible
      obtain ⟨others, hp, hp'⟩ := perm_flatMap_set task hi
      obtain ⟨-, -, hw, hthread, -⟩ := System.begin_spec t ⟨s.shared, q, context⟩
      have hnew := hp'
        ⟨(begin t ⟨s.shared, q, context⟩).2.context, (begin t ⟨s.shared, q, context⟩).1⟩
      change Kept (begin t ⟨s.shared, q, context⟩).2.shared.waiting _ _
      rw [events]
      rw [← hthread] at ht hn ⊢
      rw [hw, ← hthread]
      exact ((h.attach ht hn (awaits?_begin t ⟨s.shared, q, context⟩)).perm (.cons _ hp)).perm
        hnew.symm
    | @iterate i context c q rest turn m n released hi _ hx _ =>
      obtain ⟨others, hp, hp'⟩ := perm_flatMap_set task hi
      have hn := noted_iterate hb n c ⟨s.shared, q, context⟩
      have hstays := awaits?_of_control program n c ⟨s.shared, q, context⟩
      rw [hx] at hn hstays
      have hwaits : ∀ a, c = .blocked a →
          turn = .over (.halted .interrupted) ∨ ∃ u, turn = .over (.blocked u a) := by
        rintro a rfl
        have h := iterate_waiting program n a ⟨s.shared, q, context⟩
        rwa [hx] at h
      rw [events, hx]
      exact (Kept.iterate hn hstays hwaits (h.perm hp)).perm (hp' _).symm
    | @abandon t rest _ =>
      have hw : (s.shared.abandon t).2.waiting = s.shared.waiting.erase t.id :=
        Shared.waiting_resetFrames _ _
      change Kept (s.shared.abandon t).2.waiting (world s).tasks _
      rw [hw]
      exact h.abandon hadmissible
    | @interrupt i st flag hi =>
      obtain ⟨others, hp, hp'⟩ := perm_flatMap_set task hi
      exact (h.perm hp).perm (hp' { st with context.interrupted := flag }).symm
    | report target remark =>
      change Kept (s.shared.report target remark).waiting _ _
      rw [(System.report_spec s.shared target remark).2.1]
      exact h
    | park _ hpark => exact h
    | _ => exact h

theorem kept_initial (hidle : ∀ st ∈ w₀.stations, st.control = none)
    (hw : w₀.shared.waiting = .empty) : Kept w₀.shared.waiting w₀.tasks [] := by
  have htasks : w₀.tasks = [] := by
    refine List.flatMap_eq_nil_iff.2 fun st hm => ?_
    rw [task, hidle st hm]
    rfl
  rw [htasks, hw]
  exact ⟨List.nodup_nil, nofun, nofun, fun _ _ => rfl, nofun⟩

theorem Run.kept (hb : program.NeverBlocks) (hidle : ∀ st ∈ w₀.stations, st.control = none)
    (hw : w₀.shared.waiting = .empty) (h : Run program w₀ log w) :
    Kept w.shared.waiting w.tasks log := by
  induction h with
  | nil => exact kept_initial hidle hw
  | step _ hs ih => exact hs.kept hb ih

/-- A thread that no worker runs has an entry if its last slice ended in a wait, for the thunk that
it waits for, and if it was interrupted when it was about to leave. Of a slice that is not
interrupted from outside only a wait leaves an entry. -/
theorem entries_of_run (hb : program.NeverBlocks) (hidle : ∀ st ∈ w₀.stations, st.control = none)
    (hw : w₀.shared.waiting = .empty) (h : Run program w₀ log w) :
    (∀ t c, (t, c) ∈ w.tasks → w.shared.waiting.find? t = c.awaits?) ∧
      (∀ t, t ∉ w.tasks.map Prod.fst → ∀ a, w.shared.waiting.find? t = some a ↔
        log.lookup t = some (.blocked a) ∨ log.lookup t = some (.cut a .interrupted)) ∧
      (∀ t a e, (t, .cut a e) ∈ log → e = .interrupted) ∧
      ∀ (fuel : Nat) (t : Thread κ) (m m' : Machine κ) (outcome : Outcome κ), t.id ≠ .nobody →
        runSlice program fuel t m = (some outcome, m') →
          m'.shared.waiting.find? t.id = outcome.awaits? := by
  have hkept := h.kept hb hidle hw
  refine ⟨fun t c hm => hkept.running (t, c) hm, fun t ht a => ?_, hkept.cut,
    fun fuel t m m' outcome => find?_of_runSlice hb⟩
  rw [hkept.resting t ht]
  constructor
  · intro he
    obtain ⟨e, hl, he⟩ := Option.bind_eq_some_iff.1 he
    cases e with
    | blocked b =>
      cases he
      exact .inl hl
    | cut b x =>
      obtain ⟨later, earlier, hlog, -⟩ := List.lookup_eq_some_iff.1 hl
      obtain rfl : x = .interrupted :=
        hkept.cut t b x (hlog ▸ List.mem_append_right _ List.mem_cons_self)
      cases he
      exact .inr hl
    | _ => cases he
  · rintro (hl | hl) <;>
    · rw [hl]
      rfl

def contested : World Unit where
  shared := { (Shared.empty default : Shared Unit) with
    heap := ⟨#[.thunk (.underEvaluation ⟨2⟩ ⟨(), []⟩ [])]⟩ }
  stations := [⟨.new 0 4, none⟩]

def visitor : Thread Unit := ⟨⟨1⟩, .empty 4, .enter ⟨0⟩⟩

def manned (m : Machine κ) (c : Control) : World κ := ⟨m.shared, [⟨m.context, some c⟩]⟩

theorem step_manned {m m' : Machine κ} {c : Control} {turn : Turn κ} {n : Nat}
    (h : iterate program n c m = (turn, m')) :
    Step program (manned m c) (endings m.context.thread c turn)
      ⟨m'.shared, [⟨m'.context, turn.control⟩]⟩ := by
  obtain ⟨released, hparked, -⟩ := hands_of_iterate h
  have hevents : events program (.iterate n c m released) = endings m.context.thread c turn := by
    rw [events, h]
  let s : System κ := ⟨m.shared, [⟨m.context, some c⟩], m.scheduler.held ++ [], [], []⟩
  have hact : System.Act program s (.iterate n c m released) _ :=
    .iterate (i := 0) n released rfl (.refl _) h hparked
  exact hevents ▸ Step.act hact trivial

def arrived : Machine Unit := (begin visitor ⟨contested.shared, .standalone, .new 0 4⟩).2

def refused : Machine Unit := (iterate Halting.silent 0 (.entering ⟨0⟩) arrived).2

theorem run_refused :
    Run Halting.silent contested [(⟨1⟩, .attached)] (manned refused (.blocked ⟨0⟩)) := by
  have harrived : Step Halting.silent contested [(⟨1⟩, .attached)]
      (manned arrived (.entering ⟨0⟩)) := by
    let s : System Unit := ⟨contested.shared, contested.stations, [visitor], [], []⟩
    have hact : System.Act Halting.silent s (.attach visitor) _ :=
      .attach (i := 0) .standalone rfl (.refl _)
    exact .act hact ⟨by decide, List.not_mem_nil⟩
  have hturn : iterate Halting.silent 0 (.entering ⟨0⟩) arrived =
      (.next (.blocked ⟨0⟩), refused) := rfl
  exact (Run.step .nil harrived).step (step_manned hturn)

theorem entries_of_run_visitor : ∃ log w, Run Halting.silent contested log w ∧
    log = [(⟨1⟩, .blocked ⟨0⟩), (⟨1⟩, .attached)] ∧ w.tasks = [] ∧
      w.shared.waiting.find? ⟨1⟩ = some ⟨0⟩ := by
  have hturn : iterate Halting.silent 1 (.blocked ⟨0⟩) refused = (.over (.blocked visitor ⟨0⟩), _) :=
    rfl
  have run := run_refused.step (step_manned hturn)
  have hb : Halting.silent.NeverBlocks := by
    intro code captured m a m' h
    cases h
  have hentries := entries_of_run hb (by simp [contested]) rfl run
  exact ⟨_, _, run, rfl, rfl, (hentries.2.1 ⟨1⟩ (by decide) ⟨0⟩).2 (.inl rfl)⟩

def evaluating : FrameStack Unit := .holding [.update ⟨0⟩] 3

def visited : Option (Outcome Unit) × Machine Unit :=
  runSlice Halting.silent 3 visitor
    ⟨contested.shared, .manual ⟨.always, 0, [], []⟩, .new 0 4⟩

def relinquished (heap : Heap Unit) : Machine Unit :=
  (iterate Halting.silent 0 (.halted .interrupted) {
    shared := { visited.2.shared with heap }
    scheduler := .standalone
    context := { (Context.new 1 4 : Context Unit) with thread := ⟨2⟩, stack := evaluating } }).2

/-- Two ways for a thread to be gone for good and stay in the map: it is interrupted when it is
about to leave its worker, or it is parked and then handed to a scheduler that drops it. -/
theorem stale_entries :
    (∃ log w, Run Halting.silent contested log w ∧
      log = [(⟨1⟩, .cut ⟨0⟩ .interrupted), (⟨1⟩, .attached)] ∧ w.tasks = [] ∧
        w.shared.waiting.find? ⟨1⟩ = some ⟨0⟩) ∧
      ∃ heap, visited.1 = some (.blocked visitor ⟨0⟩) ∧
        visited.2.heap.park? ⟨0⟩ visitor = some heap ∧ heap.parked = [visitor] ∧
        (relinquished heap).heap.parked = [] ∧ (relinquished heap).scheduler.held = [] ∧
        (relinquished heap).heap.owner? ⟨0⟩ = none ∧
        (relinquished heap).shared.waiting.find? ⟨1⟩ = some ⟨0⟩ := by
  have hinterrupted : Step Halting.silent (manned refused (.blocked ⟨0⟩)) []
      (manned (Halting.setInterrupted refused true) (.blocked ⟨0⟩)) := by
    let s : System Unit := ⟨refused.shared, [⟨refused.context, some (.blocked ⟨0⟩)⟩], [], [], []⟩
    have hact : System.Act Halting.silent s .other _ := .interrupt (i := 0) true rfl
    exact .act hact trivial
  have hturn : iterate Halting.silent 1 (.blocked ⟨0⟩) (Halting.setInterrupted refused true) =
      (.over (.halted .interrupted), _) := rfl
  have run := (run_refused.step hinterrupted).step (step_manned hturn)
  exact ⟨⟨_, _, run, rfl, rfl, rfl⟩, _, rfl, rfl, rfl, rfl, rfl, rfl, rfl⟩

end Running

end Registry

end GraphReduction
