import GraphReduction.Proofs.Chronicle
import GraphReduction.Proofs.SumSteps

namespace GraphReduction.SharedSum

open Evaluation Pool

variable {n : Int64} {roots i k : Nat} {h h' : Heap Code} {s s' : Scene Code} {p : Pool Code}
  {log entered updated : List Address} {ended : List Ending} {w w' : PoolWorker Code}
  {t : Thread Code} {id : ThreadId} {c c' : Control} {pending : Pending} {turn : Turn Code}

section Hands

structure Onward (h h' : Heap Code) : Prop where
  later : h.Later h'
  begun : ∀ a, Begun h a → Begun h' a

theorem Onward.refl (h : Heap Code) : Onward h h := ⟨.refl h, fun _ => id⟩

theorem Change.onward {t : ThreadId} {released : List (Thread Code)}
    (hc : Change n t h h' entered updated released) : Onward h h' :=
  ⟨hc.later, fun a ha => (hc.begun.2 a).2 (.inl ha)⟩

structure Poised (n : Int64) (roots : Nat) (h : Heap Code) (t : Thread Code) : Prop where
  stage : At n roots h t.id t.pending t.stack.frames
  room : 6 ≤ t.stack.limit

theorem Poised.onward (ht : Poised n roots h t) (ho : Onward h h') : Poised n roots h' t :=
  ⟨ht.stage.later ho.later, ht.room⟩

theorem Working.onward {context : Context Code} (hw : Working n roots h context c pending)
    (ho : Onward h h') : Working n roots h' context c pending where
  point := hw.point
  stage := hw.stage.later ho.later
  room := hw.room
  free := hw.free
  blocked a ha := ⟨(hw.blocked a ha).1, ho.begun shared (hw.blocked a ha).2⟩

theorem Working.poised {context : Context Code} (hw : Working n roots h context c pending) :
    Poised n roots h ⟨context.thread, context.stack, pending⟩ :=
  ⟨hw.stage, hw.room⟩

inductive Handles (n : Int64) (roots : Nat) (h : Heap Code) (context : Context Code) :
    Job Code → Prop where
  | idle : Handles n roots h context .idle
  | running {id : ThreadId} {k : Nat} {c : Control} {pending : Pending} :
      Working n roots h context c pending → Handles n roots h context (.running id k c)
  | yielded {id : ThreadId} {t : Thread Code} : Poised n roots h t →
      Handles n roots h context (.ending id (.yielded t))
  | blocked {id : ThreadId} {t : Thread Code} : Poised n roots h t → t.pending = .enter shared →
      Begun h shared → Handles n roots h context (.ending id (.blocked t shared))
  | finished {id : ThreadId} {v : Address} : Handles n roots h context (.ending id (.finished v))
  | gone : Handles n roots h context .gone

structure Serves (n : Int64) (roots : Nat) (h : Heap Code) (w : PoolWorker Code) : Prop where
  free : w.context.interrupted = false
  hand : Handles n roots h w.context w.job

theorem Serves.onward (hw : Serves n roots h w) (ho : Onward h h') : Serves n roots h' w := by
  obtain ⟨context, job⟩ := w
  obtain ⟨hfree, hhand⟩ := hw
  refine ⟨hfree, ?_⟩
  cases hhand with
  | idle => exact .idle
  | running hr => exact .running (hr.onward ho)
  | yielded ht => exact .yielded (ht.onward ho)
  | blocked ht hp hb => exact .blocked (ht.onward ho) hp (ho.begun shared hb)
  | finished => exact .finished
  | gone => exact .gone

theorem Serves.working (hw : Serves n roots h w) (hjob : w.job = .running id k c) :
    ∃ pending, Working n roots h w.context c pending := by
  have hhand := hw.hand
  rw [hjob] at hhand
  cases hhand with
  | running hr => exact ⟨_, hr⟩

theorem Serves.of_boards {context : Context Code} (hb : Boards t w.context c context)
    (hw : Serves n roots h w) (ht : Poised n roots h t) :
    Serves n roots h ⟨context, .running t.id 0 c⟩ := by
  have hfree := hb.interrupted.trans hw.free
  refine ⟨hfree, .running ⟨hb.point, ?_, ?_, hfree, fun a ha => absurd ha (hb.free a)⟩⟩
  · rw [hb.thread, hb.stack]
    exact ht.stage
  · rw [hb.stack]
    exact ht.room

end Hands

section Waiting

def Entries (w : WaitingMap) : Prop := ∀ t a, w.find? t = some a → a = shared

theorem Entries.erase {w : WaitingMap} (hw : Entries w) (t : ThreadId) : Entries (w.erase t) := by
  intro u a hu
  rw [WaitingMap.find?_erase] at hu
  split at hu
  · cases hu
  · exact hw u a hu

theorem Entries.register {w w' : WaitingMap} {t : ThreadId} (hw : Entries w)
    (hr : w.register? h t shared = some w') : Entries w' := by
  intro u a hu
  unfold WaitingMap.register? at hr
  split at hr
  · cases hr
    exact hw u a hu
  · split at hr
    · cases hr
    · cases hr
      rw [WaitingMap.find?_insert] at hu
      split at hu
      · exact (Option.some.inj hu).symm
      · exact hw u a hu

theorem Entries.meets_eq_false {w : WaitingMap} {t u : ThreadId} (hw : Entries w)
    (hu : h.owner? shared = some u) (hne : u ≠ t) (fuel : Nat) :
    w.meets h t fuel (some u) = false := by
  -- The owner of the shared thunk may have an entry from before, but then it leads back to
  -- itself, so that no other thread is met.
  induction fuel with
  | zero => rfl
  | succ fuel ih =>
    rw [WaitingMap.meets, if_neg hne, WaitingMap.next?]
    cases hf : w.find? u with
    | none => cases fuel <;> rfl
    | some a =>
      rw [hw u a hf, Option.bind_some, hu]
      exact ih

theorem Entries.exists_register {w : WaitingMap} {t u : ThreadId} (hw : Entries w)
    (hu : h.owner? shared = some u) (hne : u ≠ t) :
    ∃ w', w.register? h t shared = some w' := by
  unfold WaitingMap.register?
  rw [hu, hw.meets_eq_false hu hne, if_neg Bool.false_ne_true]
  split <;> exact ⟨_, rfl⟩

end Waiting

section Order

structure Orderly (n : Int64) (roots : Nat) (s : Scene Code) : Prop where
  stackLimit : 6 ≤ s.stackLimit
  lastThread : roots ≤ s.lastThread
  stored : Stored n roots s.heap
  waiting : Entries s.waiting
  threads : ∀ t ∈ s.threads, Poised n roots s.heap t
  parked : ∀ t ∈ s.heap.parked, Poised n roots s.heap t ∧ t.pending = .enter shared
  sparks : ∀ a ∈ s.sparks, a = shared
  workers : ∀ w ∈ s.workers, Serves n roots s.heap w

namespace Orderly

theorem serves (ho : Orderly n roots s) (hi : s.workers[i]? = some w) :
    Serves n roots s.heap w :=
  ho.workers w (List.mem_of_getElem? hi)

theorem serves_set (ho : Orderly n roots s) (hon : Onward s.heap h')
    (hw : Serves n roots h' w') : ∀ v ∈ s.workers.set i w', Serves n roots h' v := by
  intro v hv
  rcases List.mem_or_eq_of_mem_set hv with hv | rfl
  · exact (ho.workers v hv).onward hon
  · exact hw

theorem set (ho : Orderly n roots s) (i : Nat) (w' : PoolWorker Code)
    (hw : Serves n roots s.heap w') :
    Orderly n roots { s with workers := s.workers.set i w' } :=
  { ho with workers := ho.serves_set (.refl _) hw }

theorem queue (ho : Orderly n roots s) (ht : Poised n roots s.heap t) :
    Orderly n roots { s with threads := s.threads ++ [t] } :=
  { ho with threads := fun u hu => (List.mem_append.1 hu).elim (ho.threads u) fun hu =>
      List.mem_singleton.1 hu ▸ ht }

theorem onward_park (hs : Stored n roots h) (hp : h.park? shared t = some h') :
    Onward h h' ∧ Stored n roots h' := by
  obtain ⟨u, body, blocked, hc, rfl⟩ := Heap.park?_eq_some hp
  have hl : h.Later (h.write shared (.thunk (.underEvaluation u body (t :: blocked)))) :=
    Heap.later_write hc nofun
  refine ⟨⟨hl, fun a ha => ?_⟩, ?_⟩
  · by_cases hne : shared = a
    · subst hne
      exact ⟨_, Heap.cell_write_thunk hc, nofun⟩
    · rwa [Begun, Heap.cell_write_of_ne hne]
  · cases hs.kept shared _ hc with
    | underEvaluation _ => exact hs.write hc hl (.underEvaluation fun hne => absurd rfl hne)

theorem park (ho : Orderly n roots s) (ht : Poised n roots s.heap t)
    (hpending : t.pending = .enter shared) (hp : s.heap.park? shared t = some h') :
    Orderly n roots { s with heap := h' } := by
  obtain ⟨hon, hstored⟩ := onward_park ho.stored hp
  constructor
  case stackLimit => exact ho.stackLimit
  case lastThread => exact ho.lastThread
  case stored => exact hstored
  case waiting => exact ho.waiting
  case threads => exact fun u hu => (ho.threads u hu).onward hon
  case parked =>
    intro u hu
    rcases List.mem_cons.1 ((Heap.parked_park? hp).mem_iff.1 hu) with rfl | hu
    · exact ⟨ht.onward hon, hpending⟩
    · exact ⟨(ho.parked u hu).1.onward hon, (ho.parked u hu).2⟩
  case sparks => exact ho.sparks
  case workers => exact fun w hw => (ho.workers w hw).onward hon

theorem poised_spark (ho : Orderly n roots s) :
    Poised n roots s.heap ⟨⟨s.lastThread + 1⟩, .empty s.stackLimit, .enter shared⟩ := by
  refine ⟨?_, ho.stackLimit⟩
  have hlast := ho.lastThread
  have hnot : ¬ IsRoot roots ⟨s.lastThread + 1⟩ := by
    rintro ⟨-, hle⟩
    change s.lastThread + 1 ≤ roots at hle
    omega
  have hbelow : below roots ⟨s.lastThread + 1⟩ = [] := if_neg hnot
  have hdemand : At n roots s.heap ⟨s.lastThread + 1⟩ (.enter shared) _ := .demand
  rwa [hbelow] at hdemand

theorem shift (ho : Orderly n roots s) (hs : Shift s s') : Orderly n roots s' := by
  cases hs with
  | @takes i w t rest c context hi hidle hthreads hb =>
    have ht := ho.threads t (hthreads ▸ List.mem_cons_self)
    have hset := ho.set i _ ((ho.serves hi).of_boards hb ht)
    exact { hset with
      waiting := ho.waiting.erase t.id
      threads := fun u hu => ho.threads u (hthreads ▸ List.mem_cons_of_mem _ hu) }
  | @drops a rest hsparks =>
    exact { ho with sparks := fun b hb => ho.sparks b (hsparks ▸ List.mem_cons_of_mem _ hb) }
  | @sparks i w a rest c context hi hidle hsparks hb =>
    have ha := ho.sparks a (hsparks ▸ List.mem_cons_self)
    rw [ha] at hb
    have hset := ho.set i _ ((ho.serves hi).of_boards hb ho.poised_spark)
    exact { hset with
      waiting := ho.waiting.erase _
      lastThread := Nat.le_succ_of_le ho.lastThread
      sparks := fun b hb => ho.sparks b (hsparks ▸ List.mem_cons_of_mem _ hb) }
  | @leaves i w hi hidle =>
    exact { ho.set i ⟨w.context, .gone⟩ ⟨(ho.serves hi).free, .gone⟩ with }
  | ends hi he _ => exact ho.set _ _ ⟨(ho.serves hi).free, .idle⟩
  | @requeues i w id t hi he =>
    have hw := ho.serves hi
    have hhand := hw.hand
    rw [he] at hhand
    cases hhand with
    | yielded ht => exact (ho.set i ⟨w.context, .idle⟩ ⟨hw.free, .idle⟩).queue ht
  | parks hi he hp =>
    have hw := ho.serves hi
    have hhand := hw.hand
    rw [he] at hhand
    cases hhand with
    | blocked ht hpending _ => exact (ho.park ht hpending hp).set _ _ ⟨hw.free, .idle⟩
  | @returns i w id t a hi he hp =>
    have hw := ho.serves hi
    have hhand := hw.hand
    rw [he] at hhand
    cases hhand with
    | blocked ht _ _ => exact (ho.set i ⟨w.context, .idle⟩ ⟨hw.free, .idle⟩).queue ht

end Orderly

end Order

section Iterating

variable {m : Machine Code} {q : RunQueue Code} {sys : System Code}

inductive Iteration (n : Int64) (roots : Nat) (p : Pool Code) (i k : Nat) (id : ThreadId)
    (c : Control) (w : PoolWorker Code) (pending : Pending) :
    Turn Code → List Address → List Address → Scene Code → Prop where
  | yields {context : Context Code} : k ≠ 0 → (∀ a, c ≠ .blocked a) →
      context.interrupted = false → context.counters.tally = w.context.counters.tally →
      Iteration n roots p i k id c w pending
        (.over (.yielded ⟨w.context.thread, w.context.stack, pending⟩)) [] []
        { p.scene with
          workers := p.scene.workers.set i
            ⟨context, .ending id (.yielded ⟨w.context.thread, w.context.stack, pending⟩)⟩ }
  | strides {c' : Control} {pending' : Pending} {m : Machine Code} {q : RunQueue Code}
      {entered updated : List Address} {released : List (Thread Code)} :
      Stride n roots c ⟨p.shared, .pool p.queue, w.context⟩ p.queue pending entered updated
        released c' m q pending' →
      (released ++ m.heap.parked).Perm p.shared.heap.parked → Entries m.shared.waiting →
      Iteration n roots p i k id c w pending (.next c') entered updated
        { p.scene with
          heap := m.heap
          waiting := m.shared.waiting
          threads := q.threads
          sparks := q.sparks
          workers := p.scene.workers.set i ⟨m.context, .running id (k + 1) c'⟩ }
  | waits {context : Context Code} {waiting : WaitingMap} : (∀ a, c ≠ .blocked a) →
      starting p.shared.heap c = [] → ready p.shared.heap = false → Entries waiting →
      Working n roots p.shared.heap context (.blocked shared) pending →
      context.stack = w.context.stack → context.counters.tally = w.context.counters.tally →
      Iteration n roots p i k id c w pending (.next (.blocked shared)) [] []
        { p.scene with
          waiting := waiting
          workers := p.scene.workers.set i ⟨context, .running id (k + 1) (.blocked shared)⟩ }
  | leaves {context : Context Code} : c = .blocked shared → pending = .enter shared →
      context.interrupted = false → context.counters.tally = w.context.counters.tally →
      Iteration n roots p i k id c w pending
        (.over (.blocked ⟨w.context.thread, w.context.stack, .enter shared⟩ shared)) [] []
        { p.scene with
          workers := p.scene.workers.set i
            ⟨context, .ending id (.blocked ⟨w.context.thread, w.context.stack, .enter shared⟩
              shared)⟩ }
  | finishes {context : Context Code} {v : Address} : c = .resuming →
      IsLong p.shared.heap v (content n (goal roots w.context.thread)) →
      Settled p.shared.heap (goal roots w.context.thread) →
      context.interrupted = false → context.counters.tally = w.context.counters.tally →
      Iteration n roots p i k id c w pending (.over (.finished v)) [] []
        { p.scene with workers := p.scene.workers.set i ⟨context, .ending id (.finished v)⟩ }

theorem entries_iterate (ho : Orderly n roots p.scene)
    (hd : Deed n roots k c ⟨p.shared, .pool p.queue, w.context⟩ p.queue pending turn m)
    (hit : Iterated program c ⟨p.shared, .pool p.queue, w.context⟩ turn m) :
    Entries m.shared.waiting := by
  rcases hit.waiting with hw | ⟨a, rfl, hb⟩
  · rw [hw]
    exact ho.waiting
  · have ha : a = shared := by
      cases hd with
      | strides hs => exact (hs.working.blocked a rfl).1
      | waits _ _ _ _ _ _ hw _ _ => rfl
    rw [ha] at hb
    exact Entries.register ho.waiting hb.registered

theorem iteration_of (ho : Orderly n roots p.scene) (hw : p.workers[i]? = some w)
    (hd : Does n roots k c ⟨p.shared, .pool p.queue, w.context⟩ p.queue pending (turn, m))
    (hit : Iterated program c ⟨p.shared, .pool p.queue, w.context⟩ turn m)
    (hi : Evaluation.iterate program k c ⟨p.shared, .pool p.queue, w.context⟩ = (turn, m)) :
    ∃ entered updated, Iteration n roots p i k id c w pending turn entered updated
      (p.iterate program i 1 id k c).scene := by
  have hentries := entries_iterate ho hd.deed hit
  have hlast := hit.passage.lastThread
  have hscene : ∀ {q}, m.scheduler = .pool q → (p.iterate program i 1 id k c).scene =
      { p.scene with
        heap := m.heap
        waiting := m.shared.waiting
        threads := q.threads
        sparks := q.sparks
        workers := p.scene.workers.set i ⟨m.context, jobOf id (k + 1) turn⟩ } := by
    intro q hq
    rw [scene_iterate_one hw hi hq, hlast]
    rfl
  have hsame : turn.control = none → m.shared.waiting = p.shared.waiting := by
    intro hnone
    rcases hit.waiting with hsame | ⟨a, rfl, -⟩
    · exact hsame
    · cases hnone
  obtain ⟨hdeed, hfree⟩ := hd
  cases hdeed with
  | yields hk hc hheap hq ht =>
    rw [hscene hq, hheap, hsame rfl]
    exact ⟨[], [], .yields hk hc hfree ht⟩
  | strides hs =>
    have hq := hs.scheduler
    have hperm := (hands_of_iterate hi).detached nofun
    rw [hq] at hperm
    change (Scheduler.held (.pool _) ++ m.heap.parked).Perm
      (p.queue.threads ++ p.shared.heap.parked) at hperm
    rw [Scheduler.held, hs.threads, List.append_assoc] at hperm
    rw [hscene hq]
    exact ⟨_, _, .strides hs ((List.perm_append_left_iff _).1 hperm) hentries⟩
  | waits hc hstarting hready hheap hq ht hworking hthread hstack =>
    rw [hheap] at hworking
    rw [hscene hq, hheap]
    exact ⟨[], [], .waits hc hstarting hready hentries hworking hstack ht⟩
  | leaves hc hp hheap hq ht =>
    rw [hscene hq, hheap, hsame rfl]
    exact ⟨[], [], .leaves hc hp hfree ht⟩
  | finishes hc hv hsettled hheap hq ht =>
    rw [hscene hq, hheap, hsame rfl]
    exact ⟨[], [], .finishes hc hv hsettled hfree ht⟩

theorem exists_iteration (hp : (program : Program Code).Conventional) (hn : 0 ≤ n)
    (ho : Orderly n roots p.scene) (hm : Mirrors p [] sys) (hs : sys.Sound)
    (hw : p.workers[i]? = some w) (hjob : w.job = .running id k c)
    (hi : Evaluation.iterate program k c ⟨p.shared, .pool p.queue, w.context⟩ = (turn, m)) :
    ∃ pending entered updated, Working n roots p.shared.heap w.context c pending ∧
      Iteration n roots p i k id c w pending turn entered updated
        (p.iterate program i 1 id k c).scene := by
  obtain ⟨pending, hworking⟩ := (ho.serves (scene_worker hw)).working hjob
  have hstation : sys.stations[i]? = some ⟨w.context, some c⟩ := by
    rw [station_getElem? ⟨_, hm⟩ hw, PoolWorker.station, hjob]
    rfl
  have howning := hs.owning hstation (.pool p.queue)
  rw [hm.shared] at howning
  have hdoes := does_iterate (k := k) hn (m := ⟨p.shared, .pool p.queue, w.context⟩) rfl ho.stored
    howning hworking fun u hu hne => Entries.exists_register ho.waiting hu hne
  rw [hi] at hdoes
  have hit := hs.iterated hp hstation (hm.shared ▸ hi)
  rw [hm.shared] at hit
  obtain ⟨entered, updated, hiteration⟩ := iteration_of ho hw hdoes hit hi
  exact ⟨pending, entered, updated, hworking, hiteration⟩

theorem Orderly.iteration (ho : Orderly n roots p.scene)
    (hworking : Working n roots p.shared.heap w.context c pending)
    (hi : Iteration n roots p i k id c w pending turn entered updated s') :
    Orderly n roots s' := by
  cases hi with
  | yields hk hc hfree ht => exact ho.set _ _ ⟨hfree, .yielded hworking.poised⟩
  | @strides c' pending' m q entered updated released hs hperm hentries =>
    have hon := hs.change.onward
    constructor
    case stackLimit => exact ho.stackLimit
    case lastThread => exact ho.lastThread
    case stored => exact hs.change.stored ho.stored
    case waiting => exact hentries
    case threads =>
      intro t ht
      have ht : t ∈ q.threads := ht
      rw [hs.threads, List.mem_append] at ht
      rcases ht with ht | ht
      · exact (ho.threads t ht).onward hon
      · have hparked := hperm.mem_iff.1 (List.mem_append_left _ ht)
        exact (ho.parked t hparked).1.onward hon
    case parked =>
      intro t ht
      have hparked := hperm.mem_iff.1 (List.mem_append_right _ ht)
      exact ⟨(ho.parked t hparked).1.onward hon, (ho.parked t hparked).2⟩
    case sparks => exact fun a ha => (hs.sparks a ha).elim (ho.sparks a) fun h => h
    case workers => exact ho.serves_set hon ⟨hs.working.free, .running hs.working⟩
  | waits hc hstarting hready hentries hw' hstack ht =>
    exact { ho.set i ⟨_, .running id (k + 1) (.blocked shared)⟩ ⟨hw'.free, .running hw'⟩ with
      waiting := hentries }
  | leaves hc hp hfree ht =>
    subst hp
    exact ho.set _ _ ⟨hfree, .blocked hworking.poised rfl (hworking.blocked shared hc).2⟩
  | finishes hc hv hsettled hfree ht => exact ho.set _ _ ⟨hfree, .finished⟩

end Iterating

section Records

structure Recorded (n : Int64) (roots : Nat) (log : List Address) (ended : List Ending)
    (s : Scene Code) : Prop where
  nodup : log.Nodup
  begun : ∀ a, a ∈ log ↔ Begun s.heap a
  tally : ∃ updated : List Address, updated.Nodup ∧ (∀ a, a ∈ updated ↔ Settled s.heap a) ∧
    s.tally = (UInt64.ofNat log.length, UInt64.ofNat updated.length)
  ended : ∀ e ∈ ended, ∃ v, e.2 = .ok v ∧ IsLong s.heap v (content n (goal roots e.1)) ∧
    Settled s.heap (goal roots e.1)

theorem heap_shift (hs : Shift s s') : s.heap.Later s'.heap ∧
    (∀ a, Begun s'.heap a ↔ Begun s.heap a) ∧ ∀ a, Settled s'.heap a ↔ Settled s.heap a := by
  have hsame : s'.heap = s.heap → s.heap.Later s'.heap ∧
      (∀ a, Begun s'.heap a ↔ Begun s.heap a) ∧ ∀ a, Settled s'.heap a ↔ Settled s.heap a := by
    intro he
    rw [he]
    exact ⟨.refl _, fun _ => .rfl, fun _ => .rfl⟩
  cases hs with
  | @parks i w id t a h hi hjob hp =>
    obtain ⟨u, body, blocked, hc, rfl⟩ := Heap.park?_eq_some hp
    refine ⟨Heap.later_write hc nofun, fun b => ?_, fun b => ?_⟩
    · by_cases hb : a = b
      · subst hb
        simp [Begun, Heap.cell_write_thunk hc, hc]
      · rw [Begun, Begun, Heap.cell_write_of_ne hb]
    · by_cases hb : a = b
      · subst hb
        simp [Settled, Heap.target?, Heap.cell_write_thunk hc, hc]
      · rw [Settled, Settled, Heap.target?, Heap.target?, Heap.cell_write_of_ne hb]
  | _ => exact hsame rfl

theorem starts_eq {m m' : Machine Code} {names : List Address}
    (hw : Working n roots m.heap m.context c pending)
    (hi : Evaluation.iterate program k c m = (.next c', m')) (hs : Starts k c m names) :
    names = starting m.heap c := by
  cases hs with
  | @code a body m₁ hc hb _ =>
    subst hc
    exact (if_pos (Heap.isFresh_iff.2 ⟨_, hb⟩)).symm
  | nothing hnot =>
    cases c with
    | entering a =>
      have hroom : m.context.stack.frames.length < m.context.stack.limit := by
        have hlimit := hw.room
        cases hw.point
        have hlength := length_below_le roots m.context.thread
        rcases hw.stage.enter with ⟨-, -, hf⟩ | ⟨-, hf⟩ <;> rw [hf]
        · exact Nat.lt_of_lt_of_le (by decide) hlimit
        · omega
      refine (if_neg fun hf => ?_).symm
      obtain ⟨body, hb⟩ := Heap.isFresh_iff.1 hf
      obtain ⟨m₁, hr⟩ := runs_of_next hb hroom hi
      exact hnot a body m₁ rfl hb hr
    | _ => rfl

theorem starts_of_iteration {m : Machine Code} {names : List Address}
    (hw : Working n roots p.shared.heap w.context c pending)
    (hit : Iteration n roots p i k id c w pending turn entered updated s')
    (hi : Evaluation.iterate program k c ⟨p.shared, .pool p.queue, w.context⟩ = (turn, m))
    (hs : Starts k c ⟨p.shared, .pool p.queue, w.context⟩ names) : names = entered := by
  cases hit with
  | strides hstride _ _ => exact (starts_eq hw hi hs).trans hstride.entering.symm
  | waits _ hstarting _ _ _ _ _ => exact (starts_eq hw hi hs).trans hstarting
  | _ => exact hs.eq_nil_of_over hi

namespace Recorded

theorem shift (hr : Recorded n roots log ended s) (hs : Shift s s') :
    Recorded n roots log ended s' := by
  obtain ⟨hl, hbegun, hsettled⟩ := heap_shift hs
  obtain ⟨updated, hnodup, hmem, htally⟩ := hr.tally
  constructor
  case nodup => exact hr.nodup
  case begun => exact fun a => (hr.begun a).trans (hbegun a).symm
  case tally =>
    exact ⟨updated, hnodup, fun a => (hmem a).trans (hsettled a).symm, hs.tally.trans htally⟩
  case ended =>
    intro e he
    obtain ⟨v, hv, hlong, hdone⟩ := hr.ended e he
    exact ⟨v, hv, hlong.later hl, (hsettled _).2 hdone⟩

theorem still (hr : Recorded n roots log ended s) {context : Context Code}
    {waiting : WaitingMap} (job : Job Code)
    (hi : s.workers[i]? = some w) (hjob : w.job = .running id k c) (hgone : isGone job = false)
    (ht : context.counters.tally = w.context.counters.tally) :
    Recorded n roots log ended
      { s with waiting := waiting, workers := s.workers.set i ⟨context, job⟩ } := by
  obtain ⟨updated, hnodup, hmem, htally⟩ := hr.tally
  refine { hr with tally := ⟨updated, hnodup, hmem, ?_⟩ }
  rw [← htally]
  refine (Scene.tally_set (d := 0) hi rfl ?_).trans (add_zero _)
  rw [PoolWorker.tally, PoolWorker.tally, hjob, hgone]
  simpa [isGone] using ht

theorem iteration (hr : Recorded n roots log ended p.scene) (hw : p.workers[i]? = some w)
    (hjob : w.job = .running id k c)
    (hi : Iteration n roots p i k id c w pending turn entered updated s') :
    Recorded n roots (log ++ entered) (ended ++ turn.endings w.context.thread) s' := by
  have hworker := scene_worker hw
  cases hi with
  | yields hk hc hfree ht =>
    rw [List.append_nil, show Turn.endings _ (.over (.yielded _)) = [] from rfl, List.append_nil]
    exact hr.still _ hworker hjob rfl ht
  | @strides c' pending' m q entered updated released hs hperm hentries =>
    have hchange : Change n w.context.thread p.shared.heap m.heap entered updated released :=
      hs.change
    obtain ⟨before, hnodup, hmem, htally⟩ := hr.tally
    rw [show Turn.endings _ (.next c') = [] from rfl, List.append_nil]
    constructor
    case nodup =>
      refine List.nodup_append.2 ⟨hr.nodup, ?_, ?_⟩
      · exact hchange.nodup.1
      · rintro a ha b hb rfl
        exact hchange.begun.1 a hb ((hr.begun a).1 ha)
    case begun =>
      intro a
      rw [List.mem_append, hr.begun]
      exact (hchange.begun.2 a).symm
    case tally =>
      refine ⟨before ++ updated, ?_, fun a => ?_, ?_⟩
      · refine List.nodup_append.2 ⟨hnodup, ?_, ?_⟩
        · exact hchange.nodup.2
        · rintro a ha b hb rfl
          exact hchange.settled.1 a hb ((hmem a).1 ha)
      · rw [List.mem_append, hmem]
        exact (hchange.settled.2 a).symm
      · rw [List.length_append, List.length_append, UInt64.ofNat_add, UInt64.ofNat_add,
          ← Prod.mk_add_mk, ← htally]
        refine Scene.tally_set hworker rfl ?_
        rw [PoolWorker.tally, PoolWorker.tally, hjob]
        exact (congrArg (p.scene.gone + ·) hs.tally).trans (add_assoc _ _ _).symm
    case ended =>
      intro e he
      obtain ⟨v, hv, hlong, hdone⟩ := hr.ended e he
      exact ⟨v, hv, hlong.later hchange.later, hdone.later hchange.later⟩
  | waits hc hstarting hready hentries hw' hstack ht =>
    rw [List.append_nil, show Turn.endings _ (.next _) = [] from rfl, List.append_nil]
    exact hr.still _ hworker hjob rfl ht
  | leaves hc hp hfree ht =>
    rw [List.append_nil, show Turn.endings _ (.over (.blocked _ _)) = [] from rfl,
      List.append_nil]
    exact hr.still _ hworker hjob rfl ht
  | @finishes context v hc hv hsettled hfree ht =>
    rw [List.append_nil]
    refine { hr.still (.ending id (.finished v)) hworker hjob rfl ht with ended := ?_ }
    intro e he
    rcases List.mem_append.1 he with he | he
    · exact hr.ended e he
    · cases List.mem_singleton.1 he
      exact ⟨v, rfl, hv, hsettled⟩

end Recorded

end Records

end GraphReduction.SharedSum
