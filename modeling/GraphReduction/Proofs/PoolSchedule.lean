import GraphReduction.Pool
import GraphReduction.Proofs.Deadlock

namespace GraphReduction

open Evaluation GraphReduction.Frame

variable {κ : Type} {program : Program κ}

abbrev Ending := ThreadId × Except RuntimeError Address

def Evaluation.Outcome.endings (t : ThreadId) : Outcome κ → List Ending
  | .finished v => [(t, .ok v)]
  | .halted e => [(t, .error e)]
  | _ => []

def Evaluation.Turn.endings (t : ThreadId) : Turn κ → List Ending
  | .next _ => []
  | .over outcome => outcome.endings t

namespace Job

def turn : Job κ → Option (Turn κ)
  | running _ _ c => some (.next c)
  | ending _ outcome => some (.over outcome)
  | _ => none

def control (j : Job κ) : Option Control := j.turn.bind Turn.control

def yielded (j : Job κ) : List (Thread κ) := (j.turn.map Turn.yielded).getD []

def blocked (j : Job κ) : List (Thread κ × Address) := (j.turn.map Turn.blocked).getD []

def ended : Job κ → List ThreadId
  | ending id (.finished _) => [id]
  | ending id (.halted _) => [id]
  | _ => []

def busy : Job κ → Bool
  | running _ _ _ => true
  | ending _ _ => true
  | _ => false

end Job

def PoolWorker.station (w : PoolWorker κ) : Station κ := ⟨w.context, w.job.control⟩

namespace System

variable {s s' : System κ}

def ids (s : System κ) : List ThreadId := s.threadStacks.map Prod.fst

theorem ids_of_perm (h : s.threadStacks.Perm s'.threadStacks) {u : ThreadId} (hu : u ∈ s.ids) :
    u ∈ s'.ids :=
  (h.map Prod.fst).mem_iff.1 hu

theorem ids_iterate {i : Nat} {context : Context κ} {c : Control} {q : Scheduler κ}
    {rest : List (Thread κ)} {turn : Turn κ} {m : Machine κ}
    (hi : s.stations[i]? = some ⟨context, some c⟩) (hready : s.ready.Perm (q.held ++ rest))
    (hq : q ≠ .standalone)
    (h : Iterated program c ⟨s.shared, q, context⟩ turn m)
    (hands : Machine.Hands ⟨s.shared, q, context⟩ m) {u : ThreadId} (hu : u ∈ s.ids) :
    u ∈ System.ids {
      shared := m.shared
      stations := s.stations.set i ⟨m.context, turn.control⟩
      ready := turn.yielded ++ (m.scheduler.held ++ rest)
      blocked := turn.blocked ++ s.blocked
      dropped := s.dropped } ∨
        u = context.thread ∧ turn.stack u m = [] := by
  have ⟨released, hparked, _⟩ := hands
  obtain ⟨others, hp₁, hp₂⟩ := threadStacks_iterate s.dropped hi hready h hands hparked
  rw [Scheduler.drops_of_ne hq, List.map_nil, List.append_nil] at hp₂
  have hu := (hp₁.map Prod.fst).mem_iff.1 hu
  rcases List.mem_cons.1 hu with hu | hu
  · rcases turn.stack_cases context.thread m with hst | ⟨hst, -⟩
    · left
      refine (hp₂.map Prod.fst).mem_iff.2 ?_
      rw [hst, hu]
      exact List.mem_cons_self
    · exact .inr ⟨hu, by rw [hu, hst]⟩
  · left
    refine (hp₂.map Prod.fst).mem_iff.2 ?_
    rw [List.map_append]
    exact List.mem_append_right _ hu

theorem Sound.slice_succ (hp : program.Conventional) {i : Nat} {context : Context κ} {c : Control}
    {q : RunQueue κ} {rest : List (Thread κ)} {fuel n k : Nat} {turn : Turn κ} {m : Machine κ}
    (hs : s.Sound) (hi : s.stations[i]? = some ⟨context, some c⟩)
    (hready : s.ready.Perm (q.threads ++ rest))
    (h : iterateUpTo program (fuel + 1) n c ⟨s.shared, .pool q, context⟩ = ((k, turn), m)) :
    ∃ first m₁ q₁, iterate program n c ⟨s.shared, .pool q, context⟩ = (first, m₁) ∧
      Iterated program c ⟨s.shared, .pool q, context⟩ first m₁ ∧ m₁.scheduler = .pool q₁ ∧
      Step program s {
        shared := m₁.shared
        stations := s.stations.set i ⟨m₁.context, first.control⟩
        ready := first.yielded ++ (q₁.threads ++ rest)
        blocked := first.blocked ++ s.blocked
        dropped := s.dropped } ∧
      ((∃ c', first = .next c' ∧ m₁.context.thread = context.thread ∧
          (s.stations.set i ⟨m₁.context, some c'⟩)[i]? = some ⟨m₁.context, some c'⟩ ∧
          iterateUpTo program fuel (n + 1) c' ⟨m₁.shared, .pool q₁, m₁.context⟩ = ((k, turn), m)) ∨
        (∃ outcome, first = .over outcome) ∧ turn = first ∧ m = m₁) := by
  cases ht : iterate program n c ⟨s.shared, .pool q, context⟩ with
  | mk first m₁ =>
    have hiter := hs.iterated hp hi ht
    have hstep := Step.requeue (q := .pool q) hi hready nofun ht
    obtain ⟨q₁, hq₁⟩ := hiter.passage.alike.exists_pool
    rw [hq₁] at hstep
    refine ⟨first, m₁, q₁, rfl, hiter, hq₁, hstep, ?_⟩
    rcases first with c' | outcome
    · rw [iterateUpTo_of_next ht] at h
      obtain ⟨hlt, -⟩ := List.getElem?_eq_some_iff.1 hi
      refine .inl ⟨c', rfl, hiter.attached nofun, List.getElem?_set_self hlt, ?_⟩
      rwa [← hq₁]
    · rw [iterateUpTo_of_over ht] at h
      cases h
      exact .inr ⟨⟨outcome, rfl⟩, rfl, rfl⟩

theorem reaches_iterateUpTo (hp : program.Conventional) {i : Nat} {context : Context κ}
    {c : Control} {q : RunQueue κ} {rest : List (Thread κ)} {fuel n k : Nat} {turn : Turn κ}
    {m : Machine κ} (hs : s.Sound) (hi : s.stations[i]? = some ⟨context, some c⟩)
    (hready : s.ready.Perm (q.threads ++ rest)) (hd : s.dropped = [])
    (h : iterateUpTo program fuel n c ⟨s.shared, .pool q, context⟩ = ((k, turn), m)) :
    ∃ s' q', Reaches program s s' ∧ m.scheduler = .pool q' ∧ s'.shared = m.shared ∧
      s'.stations = s.stations.set i ⟨m.context, turn.control⟩ ∧
      s'.ready.Perm (turn.yielded ++ (q'.threads ++ rest)) ∧
      s'.blocked = turn.blocked ++ s.blocked ∧ s'.dropped = [] ∧
      (turn.control ≠ none → m.context.thread = context.thread) ∧
      ∀ u ∈ s.ids, u ∈ s'.ids ∨ u = context.thread ∧ turn.stack u m = [] := by
  induction fuel generalizing s n context c q with
  | zero =>
    cases h
    refine ⟨s, q, .refl, rfl, rfl, ?_, hready, rfl, hd, fun _ => rfl, fun u hu => .inl hu⟩
    obtain ⟨hlt, hget⟩ := List.getElem?_eq_some_iff.1 hi
    change s.stations = s.stations.set i ⟨context, some c⟩
    rw [← hget, List.set_getElem_self]
  | succ fuel ih =>
    obtain ⟨first, m₁, q₁, ht, hiter, hq₁, hstep, hcase⟩ := hs.slice_succ hp hi hready h
    have hids := fun u (hu : u ∈ s.ids) =>
      ids_iterate (q := .pool q) hi hready nofun hiter (hands_of_iterate ht) hu
    simp only [hq₁] at hids
    rcases hcase with ⟨c', rfl, hthread, hi₁, hrest⟩ | ⟨-, rfl, rfl⟩
    · obtain ⟨s', q', hrun, hq', hshared, hstations, hready', hblocked, hd', hthread', hids'⟩ :=
        ih (hstep.sound hp hs) hi₁ (.refl _) hd hrest
      refine ⟨s', q', .head hstep hrun, hq', hshared, ?_, hready', hblocked, hd', ?_,
        fun u hu => ?_⟩
      · rw [hstations]
        exact List.set_set ..
      · exact fun hne => (hthread' hne).trans hthread
      · rcases hids u hu with hu | ⟨-, hnil⟩
        · rcases hids' u hu with hu | ⟨hu, hnil⟩
          · exact .inl hu
          · exact .inr ⟨hu.trans hthread, hnil⟩
        · cases hnil
    · exact ⟨_, q₁, .single hstep, hq₁, rfl, rfl, .refl _, rfl, hd, hiter.attached, hids⟩

end System

namespace Pool

variable {p p' : Pool κ} {s s' : System κ} {i : Nat} {w : PoolWorker κ}

inductive Deed where
  | act (endings : List Ending)
  /-- A thread with an entry in the waiting map is halted before it has left the worker. -/
  | cut (t : ThreadId) (thunk : Address) (e : RuntimeError)
  | leave (timely : Bool)
  | interrupt (flag : Bool)

namespace Deed

def endings : Deed → List Ending
  | act endings => endings
  | cut t _ e => [(t, .error e)]
  | _ => []

def ofTurn (t : ThreadId) (c : Control) (turn : Turn κ) : Deed :=
  match c, turn with
  | .blocked a, .over (.halted e) => cut t a e
  | _, turn => act (turn.endings t)

theorem endings_ofTurn (t : ThreadId) (c : Control) (turn : Turn κ) :
    (ofTurn t c turn).endings = turn.endings t := by
  unfold ofTurn
  split <;> rfl

end Deed

def interrupt (p : Pool κ) (i : Nat) (flag : Bool) : Pool κ :=
  { p with workers := p.workers.modify i fun w => { w with context.interrupted := flag } }

/-- Workers act in any order. An idle one takes a thread or a spark, or leaves; a busy one runs its
thread for some iterations, or deals with its end. Remarks and interrupts may come at any time. -/
inductive Act (program : Program κ) : Pool κ → Deed → Pool κ → Prop where
  | dequeue {p p' : Pool κ} {i : Nat} {w : PoolWorker κ} :
      p.workers[i]? = some w → w.job = .idle → p.dequeue? i = some p' → Act program p (.act []) p'
  | takeSpark {p p' : Pool κ} {i : Nat} {w : PoolWorker κ} :
      p.workers[i]? = some w → w.job = .idle → p.takeSpark? i = some p' → Act program p (.act []) p'
  | retire {p p' : Pool κ} {i : Nat} {w : PoolWorker κ} :
      p.workers[i]? = some w → w.job = .idle → p.retire? i = some p' → Act program p (.act []) p'
  | leave {p : Pool κ} {i : Nat} {w : PoolWorker κ} :
      p.workers[i]? = some w → w.job = .idle → Act program p (.leave p.done) (p.leave i)
  | iterate {p : Pool κ} {i : Nat} {w : PoolWorker κ} {id : ThreadId} {k k' : Nat} {c : Control}
      {turn : Turn κ} {m : Machine κ} (n : Nat) :
      p.workers[i]? = some w → w.job = .running id k c →
      iterateUpTo program n k c ⟨p.shared, .pool p.queue, w.context⟩ = ((k', turn), m) →
      Act program p (.ofTurn w.context.thread c turn) (p.iterate program i n id k c)
  | conclude {p : Pool κ} {i : Nat} {w : PoolWorker κ} {id : ThreadId} {outcome : Outcome κ} :
      p.workers[i]? = some w → w.job = .ending id outcome →
      Act program p (.act []) (p.conclude i id outcome)
  | remark (p : Pool κ) (message : String) (details : List (String × String)) :
      Act program p (.act []) (p.remark message details)
  | interrupt {p : Pool κ} {i : Nat} {w : PoolWorker κ} (flag : Bool) : p.workers[i]? = some w →
      Act program p (.interrupt flag) (p.interrupt i flag)

def Move (program : Program κ) (p p' : Pool κ) : Prop := ∃ deed, Act program p deed p'

def Deed.Ordinary (deed : Deed) : Prop := deed ≠ .leave false ∧ ∀ flag, deed ≠ .interrupt flag

theorem Deed.ordinary_act (endings : List Ending) : (Deed.act endings).Ordinary := ⟨nofun, nofun⟩

theorem Deed.ordinary_ofTurn (t : ThreadId) (c : Control) (turn : Turn κ) :
    (ofTurn t c turn).Ordinary := by
  unfold ofTurn
  split
  · exact ⟨nofun, nofun⟩
  · exact ordinary_act _

theorem turn_eq_or_act (quantum : Nat) (hw : p.workers[i]? = some w) :
    p.turn program quantum i = p ∨
      ∃ deed, Act program p deed (p.turn program quantum i) ∧ deed.Ordinary := by
  have hjob : p.job i = w.job := by
    rw [job, Array.getD_eq_getD_getElem?, hw]
    rfl
  unfold turn
  rw [hjob]
  cases hj : w.job with
  | gone => exact .inl rfl
  | running id n c =>
    exact .inr ⟨_, .iterate quantum hw hj rfl, Deed.ordinary_ofTurn _ _ _⟩
  | ending id outcome => exact .inr ⟨_, .conclude hw hj, Deed.ordinary_act _⟩
  | idle =>
    dsimp only
    split
    · next hdone => exact .inr ⟨_, .leave hw hj, by rw [hdone]; exact ⟨nofun, nofun⟩⟩
    · cases hd : p.dequeue? i with
      | some p' => exact .inr ⟨_, .dequeue hw hj hd, Deed.ordinary_act _⟩
      | none =>
        cases hs : p.takeSpark? i with
        | some p' => exact .inr ⟨_, .takeSpark hw hj hs, Deed.ordinary_act _⟩
        | none =>
          cases hr : p.retire? i with
          | some p' => exact .inr ⟨_, .retire hw hj hr, Deed.ordinary_act _⟩
          | none => exact .inl rfl

/-- The pool is a system, but for threads that are just about to be queued or attached. -/
structure Mirrors (p : Pool κ) (extra : List (Thread κ)) (s : System κ) : Prop where
  shared : s.shared = p.shared
  stations : s.stations = p.workers.toList.map PoolWorker.station
  ready : s.ready.Perm
    (extra ++ (p.queue.threads ++ p.workers.toList.flatMap fun w => w.job.yielded))
  blocked : s.blocked.Perm (p.workers.toList.flatMap fun w => w.job.blocked)
  dropped : s.dropped = []
  named : ∀ w ∈ p.workers.toList, ∀ id n c, w.job = .running id n c → w.context.thread = id

def Live (p : Pool κ) (s : System κ) (u : ThreadId) : Prop :=
  u ∈ s.ids ∨ u ∈ p.workers.toList.flatMap fun w => w.job.ended

structure Booked (slots : List (ThreadId × Nat))
    (results : Array (Option (Except RuntimeError Address))) (remaining : Nat) : Prop where
  remaining : remaining = slots.length
  threads : (slots.map Prod.fst).Nodup
  places : (slots.map Prod.snd).Nodup
  missing : ∀ n, results[n]? = some none ↔ n ∈ slots.map Prod.snd

structure Accounted (p : Pool κ) (s : System κ) : Prop where
  booked : Booked p.slots p.results p.remaining
  live : ∀ e ∈ p.slots, p.Live s e.1

section Workers

theorem work_eq {x : StateM (Machine κ) (Job κ)} {job : Job κ} {m : Machine κ} {q : RunQueue κ}
    (hw : p.workers[i]? = some w) (hx : x ⟨p.shared, .pool p.queue, w.context⟩ = (job, m))
    (hq : m.scheduler = .pool q) :
    p.work i x = { p with
      shared := m.shared, queue := q, workers := p.workers.setIfInBounds i ⟨m.context, job⟩ } := by
  obtain ⟨hi, rfl⟩ := Array.getElem?_eq_some_iff.1 hw
  obtain ⟨options, shared, queue, workers, slots, results, remaining, alive, retired, counters⟩ := p
  unfold work
  rw [dif_pos hi]
  simp only [Array.swapAt_def]
  rw [hx]
  simp only [hq]
  congr 1
  apply Array.toList_inj.1
  simp

def jobOf (id : ThreadId) (k : Nat) : Turn κ → Job κ
  | .next c => .running id k c
  | .over outcome => .ending id outcome

theorem turn_jobOf (id : ThreadId) (k : Nat) (turn : Turn κ) :
    (jobOf id k turn).turn = some turn := by
  cases turn <;> rfl

theorem iterate_eq {id : ThreadId} {k k' n : Nat} {c : Control} {turn : Turn κ} {m : Machine κ}
    {q : RunQueue κ} (hw : p.workers[i]? = some w)
    (hr : iterateUpTo program n k c ⟨p.shared, .pool p.queue, w.context⟩ = ((k', turn), m))
    (hq : m.scheduler = .pool q) :
    p.iterate program i n id k c = { p with
      shared := m.shared
      queue := q
      workers := p.workers.setIfInBounds i ⟨m.context, jobOf id k' turn⟩ } := by
  refine work_eq hw ?_ hq
  simp only [bind, StateT.bind, hr]
  cases turn <;> rfl

theorem begin_scheduler (t : Thread κ) (m : Machine κ) :
    (begin t m).2.scheduler = m.scheduler := by
  obtain ⟨id, stack, pending⟩ := t
  cases pending <;> rfl

theorem take_eq {t : Thread κ} (hw : p.workers[i]? = some w) :
    p.take i t = { p with
      shared := (begin t ⟨p.shared, .pool p.queue, w.context⟩).2.shared
      queue := p.queue
      workers := p.workers.setIfInBounds i
        ⟨(begin t ⟨p.shared, .pool p.queue, w.context⟩).2.context,
          .running t.id 0 (begin t ⟨p.shared, .pool p.queue, w.context⟩).1⟩ } :=
  work_eq hw rfl (begin_scheduler t ⟨p.shared, .pool p.queue, w.context⟩)

theorem setJob_eq {job : Job κ} (hw : p.workers[i]? = some w) :
    p.setJob i job = { p with workers := p.workers.setIfInBounds i ⟨w.context, job⟩ } := by
  obtain ⟨hi, rfl⟩ := Array.getElem?_eq_some_iff.1 hw
  unfold setJob
  congr 1

theorem interrupt_eq (flag : Bool) (hw : p.workers[i]? = some w) :
    p.interrupt i flag = { p with
      workers := p.workers.setIfInBounds i { w with context.interrupted := flag } } := by
  obtain ⟨hi, rfl⟩ := Array.getElem?_eq_some_iff.1 hw
  unfold interrupt
  congr 1

theorem station_getElem? (hm : ∃ extra, Mirrors p extra s) (hw : p.workers[i]? = some w) :
    s.stations[i]? = some w.station := by
  obtain ⟨extra, hm⟩ := hm
  rw [hm.stations, List.getElem?_map, Array.getElem?_toList, hw]
  rfl

theorem set_station_eq {extra : List (Thread κ)} {job : Job κ} (hm : Mirrors p extra s)
    (hw : p.workers[i]? = some w) (hcontrol : job.control = w.job.control) :
    s.stations = s.stations.set i (PoolWorker.station ⟨w.context, job⟩) := by
  obtain ⟨hlt, hget⟩ := List.getElem?_eq_some_iff.1 (station_getElem? ⟨_, hm⟩ hw)
  have hsame : PoolWorker.station ⟨w.context, job⟩ = w.station := by
    rw [PoolWorker.station, PoolWorker.station, hcontrol]
  rw [hsame, ← hget, List.set_getElem_self]

theorem Mirrors.set {extra extra' : List (Thread κ)} {w' : PoolWorker κ} (hm : Mirrors p extra s)
    (hw : p.workers[i]? = some w) (hworkers : p'.workers = p.workers.setIfInBounds i w')
    (hshared : s'.shared = p'.shared) (hstations : s'.stations = s.stations.set i w'.station)
    (hready : ∀ others,
      s.ready.Perm (extra ++ (p.queue.threads ++ (w.job.yielded ++ others))) →
        s'.ready.Perm (extra' ++ (p'.queue.threads ++ (w'.job.yielded ++ others))))
    (hblocked : ∀ others, s.blocked.Perm (w.job.blocked ++ others) →
      s'.blocked.Perm (w'.job.blocked ++ others))
    (hdropped : s'.dropped = [])
    (hnamed : ∀ id n c, w'.job = .running id n c → w'.context.thread = id) :
    Mirrors p' extra' s' := by
  have hlist : p'.workers.toList = p.workers.toList.set i w' := by
    rw [hworkers, Array.toList_setIfInBounds]
  have hget : p.workers.toList[i]? = some w := by rw [Array.getElem?_toList, hw]
  constructor
  case shared => exact hshared
  case stations => rw [hstations, hm.stations, hlist, List.map_set]
  case ready =>
    obtain ⟨O, hO, hO'⟩ := perm_flatMap_set (fun w : PoolWorker κ => w.job.yielded) hget
    rw [hlist]
    refine (hready O (hm.ready.trans ((hO.append_left _).append_left _))).trans ?_
    exact ((hO' w').symm.append_left _).append_left _
  case blocked =>
    obtain ⟨O, hO, hO'⟩ := perm_flatMap_set (fun w : PoolWorker κ => w.job.blocked) hget
    rw [hlist]
    exact (hblocked O (hm.blocked.trans hO)).trans (hO' w').symm
  case dropped => exact hdropped
  case named =>
    intro v hv
    rw [hlist] at hv
    rcases List.mem_or_eq_of_mem_set hv with hv | rfl
    · exact hm.named v hv
    · exact hnamed

theorem Live.set {w' : PoolWorker κ} {u : ThreadId} (hw : p.workers[i]? = some w)
    (hworkers : p'.workers = p.workers.setIfInBounds i w')
    (hids : ∀ u ∈ s.ids, u ∈ s'.ids ∨ u ∈ w'.job.ended) (hu : u ∉ w.job.ended)
    (h : p.Live s u) : p'.Live s' u := by
  have hlist : p'.workers.toList = p.workers.toList.set i w' := by
    rw [hworkers, Array.toList_setIfInBounds]
  have hget : p.workers.toList[i]? = some w := by rw [Array.getElem?_toList, hw]
  obtain ⟨O, hO, hO'⟩ := perm_flatMap_set (fun w : PoolWorker κ => w.job.ended) hget
  have hnew : u ∈ w'.job.ended ∨ u ∈ O →
      u ∈ p'.workers.toList.flatMap fun w => w.job.ended := by
    intro hu
    rw [hlist]
    exact (hO' w').mem_iff.2 (List.mem_append.2 hu)
  rcases h with h | h
  · rcases hids u h with h | h
    · exact .inl h
    · exact .inr (hnew (.inl h))
  · rcases List.mem_append.1 (hO.mem_iff.1 h) with h | h
    · exact absurd h hu
    · exact .inr (hnew (.inr h))

theorem Live.keep {w' : PoolWorker κ} {u : ThreadId} (hw : p.workers[i]? = some w)
    (hworkers : p'.workers = p.workers.setIfInBounds i w') (hjob : w'.job = w.job)
    (hids : ∀ u ∈ s.ids, u ∈ s'.ids) (h : p.Live s u) : p'.Live s' u := by
  have hget : p.workers.toList[i]? = some w := by rw [Array.getElem?_toList, hw]
  obtain ⟨O, hO, hO'⟩ := perm_flatMap_set (fun w : PoolWorker κ => w.job.ended) hget
  refine h.imp (hids u) fun hu => ?_
  rw [hworkers, Array.toList_setIfInBounds, (hO' w').mem_iff, hjob]
  exact hO.mem_iff.1 hu

end Workers

section Slots

variable {slots : List (ThreadId × Nat)} {id : ThreadId} {index : Nat}

theorem mem_of_lookup (h : slots.lookup id = some index) : (id, index) ∈ slots := by
  obtain ⟨before, after, rfl, -⟩ := List.lookup_eq_some_iff.1 h
  exact List.mem_append_right _ List.mem_cons_self

theorem filter_slots (hn : (slots.map Prod.fst).Nodup) (h : (id, index) ∈ slots) :
    slots.Perm ((id, index) :: slots.filter fun e => e.1 ≠ id) := by
  induction slots with
  | nil => cases h
  | cons e rest ih =>
    obtain ⟨hnot, hn⟩ := List.nodup_cons.1 hn
    rcases List.mem_cons.1 h with rfl | h
    · have hall : rest.filter (fun e => e.1 ≠ id) = rest := by
        exact List.filter_eq_self.2 fun f hf => decide_eq_true fun hfe =>
          hnot (List.mem_map.2 ⟨f, hf, hfe⟩)
      rw [List.filter_cons_of_neg (by simp), hall]
    · have he : e.1 ≠ id := fun he => hnot (he ▸ List.mem_map_of_mem h)
      rw [List.filter_cons_of_pos (by simpa using he)]
      exact ((ih hn h).cons e).trans (.swap _ _ _)

theorem Booked.finish {results : Array (Option (Except RuntimeError Address))} {remaining : Nat}
    (hb : Booked slots results remaining) (h : (id, index) ∈ slots)
    (result : Except RuntimeError Address) :
    Booked (slots.filter fun e => e.1 ≠ id) (results.setIfInBounds index (some result))
      (remaining - 1) := by
  have hp := filter_slots hb.threads h
  have hplaces := (hp.map Prod.snd).nodup_iff.1 hb.places
  rw [List.map_cons, List.nodup_cons] at hplaces
  constructor
  case remaining =>
    rw [hb.remaining, hp.length_eq]
    rfl
  case threads => exact hb.threads.sublist (List.filter_sublist.map _)
  case places => exact hplaces.2
  case missing =>
    intro n
    have hn := hb.missing n
    rw [(hp.map Prod.snd).mem_iff, List.map_cons, List.mem_cons] at hn
    rw [Array.getElem?_setIfInBounds]
    split
    · next he =>
      subst he
      refine ⟨fun hs => ?_, fun hm => absurd hm hplaces.1⟩
      split at hs <;> cases hs
    · next he =>
      rw [hn]
      exact ⟨fun hm => hm.resolve_left (Ne.symm he), .inr⟩

end Slots

def Tracked (program : Program κ) (s₀ : System κ) (p : Pool κ) (extra : List (Thread κ)) : Prop :=
  ∃ s, System.Reaches program s₀ s ∧ Mirrors p extra s ∧ Accounted p s

namespace Tracked

variable {s₀ : System κ} {extra : List (Thread κ)}

theorem remark_eq (p : Pool κ) (message : String) (details : List (String × String)) :
    p.remark message details = p ∨
      p.remark message details =
        { p with shared := p.shared.report .scheduler ⟨.debug, message, details⟩ } := by
  unfold Pool.remark
  split
  · exact .inr rfl
  · exact .inl rfl

theorem remark_workers (p : Pool κ) (message : String) (details : List (String × String)) :
    (p.remark message details).workers = p.workers := by
  rcases remark_eq p message details with he | he <;> rw [he]

theorem report (h : Tracked program s₀ p extra) (target : Target) (remark : Remark) :
    Tracked program s₀ { p with shared := p.shared.report target remark } extra := by
  obtain ⟨s, hs, hm, ha⟩ := h
  refine ⟨_, hs.tail ⟨_, .report s target remark⟩, ?_, ha.booked, fun e he => ?_⟩
  · exact ⟨congrArg (Shared.report · target remark) hm.shared, hm.stations, hm.ready, hm.blocked,
      hm.dropped, hm.named⟩
  · rcases ha.live e he with hu | hu
    · refine .inl ?_
      rwa [System.ids, System.threadStacks_report]
    · exact .inr hu

theorem remark (h : Tracked program s₀ p extra) (message : String)
    (details : List (String × String)) : Tracked program s₀ (p.remark message details) extra := by
  rcases remark_eq p message details with he | he <;> rw [he]
  · exact h
  · exact h.report _ _

theorem spawn (h : Tracked program s₀ p extra) (a : Address) (limit : Nat) :
    Tracked program s₀ { p with shared := (p.shared.spawn a limit).2 }
      ((p.shared.spawn a limit).1 :: extra) := by
  obtain ⟨s, hs, hm, ha⟩ := h
  refine ⟨_, hs.tail ⟨_, .spawn s a limit⟩, ?_, ha.booked, fun e he => ?_⟩
  · rw [hm.shared]
    exact ⟨rfl, hm.stations, hm.ready.cons _, hm.blocked, hm.dropped, hm.named⟩
  · rcases ha.live e he with hu | hu
    · have hperm : ((s.shared.spawn a limit).1.owned :: s.threadStacks).Perm
          (System.threadStacks { s with
            shared := (s.shared.spawn a limit).2
            ready := (s.shared.spawn a limit).1 :: s.ready }) := List.perm_middle.symm
      exact .inl ((hperm.map Prod.fst).mem_iff.1 (List.mem_cons_of_mem _ hu))
    · exact .inr hu

theorem take {t : Thread κ} (h : Tracked program s₀ p (t :: extra))
    (hw : p.workers[i]? = some w) (hidle : w.job = .idle) :
    Tracked program s₀ (p.take i t) extra := by
  obtain ⟨s, hs, hm, ha⟩ := h
  have hi : s.stations[i]? = some ⟨w.context, none⟩ := by
    rw [station_getElem? ⟨_, hm⟩ hw, PoolWorker.station, hidle]
    rfl
  have hstep : System.Step program s _ := ⟨_, .attach (.pool p.queue) hi hm.ready⟩
  have hperm := System.threadStacks_attach (.pool p.queue) hi hm.ready
  rw [hm.shared] at hstep hperm
  have hthread : (begin t ⟨p.shared, .pool p.queue, w.context⟩).2.context.thread = t.id :=
    (System.begin_spec t ⟨p.shared, .pool p.queue, w.context⟩).2.2.2.1
  have hyielded : w.job.yielded = [] := by rw [hidle]; rfl
  have hblocked : w.job.blocked = [] := by rw [hidle]; rfl
  have hended : w.job.ended = [] := by rw [hidle]; rfl
  rw [take_eq hw]
  refine ⟨_, hs.tail hstep, ?_, ha.booked, fun e he => ?_⟩
  · refine hm.set hw rfl rfl rfl (fun others hready => ?_) (fun others hb => ?_) hm.dropped ?_
    · rw [hyielded] at hready
      exact (hm.ready.symm.trans hready).cons_inv
    · rw [hblocked] at hb
      exact hb
    · intro id n c' hj
      cases hj
      exact hthread
  · refine (ha.live e he).set hw rfl (fun u hu => .inl (System.ids_of_perm hperm hu)) ?_
    rw [hended]
    exact List.not_mem_nil

theorem setJob {job : Job κ} (h : Tracked program s₀ p extra) (hw : p.workers[i]? = some w)
    (hcontrol : job.control = w.job.control) (hyielded : job.yielded = w.job.yielded)
    (hblocked : job.blocked = w.job.blocked) (hrunning : ∀ id n c, job ≠ .running id n c)
    (hended : ∀ e ∈ p.slots, e.1 ∉ w.job.ended) : Tracked program s₀ (p.setJob i job) extra := by
  obtain ⟨s, hs, hm, ha⟩ := h
  rw [setJob_eq hw]
  refine ⟨s, hs, ?_, ha.booked, fun e he => ?_⟩
  · refine hm.set hw rfl hm.shared (set_station_eq hm hw hcontrol) ?_ ?_ hm.dropped
      fun id n c hj => absurd hj (hrunning id n c)
    · rw [hyielded]
      exact fun _ hr => hr
    · rw [hblocked]
      exact fun _ hb => hb
  · exact (ha.live e he).set hw rfl (fun u hu => .inl hu) (hended e he)

theorem congr (h : Tracked program s₀ p extra) (hshared : p'.shared = p.shared)
    (hthreads : p'.queue.threads = p.queue.threads) (hworkers : p'.workers = p.workers)
    (hslots : p'.slots = p.slots) (hresults : p'.results = p.results)
    (hremaining : p'.remaining = p.remaining) : Tracked program s₀ p' extra := by
  obtain ⟨s, hs, hm, ha⟩ := h
  refine ⟨s, hs, ⟨?_, ?_, ?_, ?_, hm.dropped, ?_⟩, ⟨?_, fun e he => ?_⟩⟩
  · rw [hm.shared, hshared]
  · rw [hworkers, hm.stations]
  · rw [hthreads, hworkers]
    exact hm.ready
  · rw [hworkers]
    exact hm.blocked
  · rw [hworkers]
    exact hm.named
  · rw [hremaining, hslots, hresults]
    exact ha.booked
  · rw [hslots] at he
    rw [Live, hworkers]
    exact ha.live e he

theorem dequeue (h : Tracked program s₀ p []) (hw : p.workers[i]? = some w)
    (hidle : w.job = .idle) (hp : p.dequeue? i = some p') : Tracked program s₀ p' [] := by
  unfold Pool.dequeue? at hp
  split at hp
  · cases hp
  · next t rest ht =>
    cases hp
    obtain ⟨s, hs, hm, ha⟩ := h
    refine Tracked.take (w := w) ⟨s, hs, ⟨hm.shared, hm.stations, ?_, hm.blocked, hm.dropped,
      hm.named⟩, ha.booked, ha.live⟩ hw hidle
    have hr := hm.ready
    rw [ht] at hr
    exact hr

theorem takeSpark (h : Tracked program s₀ p []) (hw : p.workers[i]? = some w)
    (hidle : w.job = .idle) (hp : p.takeSpark? i = some p') : Tracked program s₀ p' [] := by
  unfold Pool.takeSpark? at hp
  split at hp
  · cases hp
  · next a rest hsparks =>
    dsimp only at hp
    split at hp
    · cases hp
      exact h.congr rfl rfl rfl rfl rfl rfl
    · cases hp
      let p₁ : Pool κ :=
        { p with queue := { p.queue with sparks := rest, sparksRun := p.queue.sparksRun + 1 } }
      let p₂ := p₁.remark "running spark" [("worker", toString i)]
      have h₁ : Tracked program s₀ p₁ [] := h.congr rfl rfl rfl rfl rfl rfl
      have h₂ : Tracked program s₀ p₂ [] := h₁.remark _ _
      have hw₂ : p₂.workers[i]? = some w := by
        rwa [show p₂.workers = p₁.workers from remark_workers p₁ _ _]
      exact (h₂.spawn a p₂.options.stackLimit.toNat).take hw₂ hidle

theorem leave (h : Tracked program s₀ p extra) (hw : p.workers[i]? = some w)
    (hidle : w.job = .idle) : Tracked program s₀ (p.leave i) extra := by
  let p₁ : Pool κ :=
    { p with counters := p.counters + (p.workers.getD i default).context.counters }
  have h₁ : Tracked program s₀ p₁ extra := h.congr rfl rfl rfl rfl rfl rfl
  refine h₁.setJob hw ?_ ?_ ?_ nofun ?_
  all_goals rw [hidle]
  · rfl
  · rfl
  · rfl
  · exact fun _ _ => List.not_mem_nil

theorem retire (h : Tracked program s₀ p []) (hw : p.workers[i]? = some w)
    (hidle : w.job = .idle) (hp : p.retire? i = some p') : Tracked program s₀ p' [] := by
  unfold Pool.retire? at hp
  split at hp
  · cases hp
    let p₁ : Pool κ := { p with alive := p.alive - 1, retired := p.retired + 1 }
    have h₁ : Tracked program s₀ p₁ [] := h.congr rfl rfl rfl rfl rfl rfl
    refine (h₁.remark _ _).leave ?_ hidle
    rwa [remark_workers]
  · cases hp

theorem mem_ended_jobOf {id : ThreadId} {k : Nat} {turn : Turn κ} {m : Machine κ}
    (h : turn.stack id m = []) : id ∈ (jobOf id k turn).ended := by
  rcases turn with c | outcome
  · cases h
  · cases outcome <;> first | exact List.mem_cons_self | cases h

theorem iterate (hp : program.Conventional) (h₀ : s₀.Initial) {id : ThreadId} {k : Nat}
    {c : Control} (n : Nat) (h : Tracked program s₀ p []) (hw : p.workers[i]? = some w)
    (hjob : w.job = .running id k c) : Tracked program s₀ (p.iterate program i n id k c) [] := by
  obtain ⟨s, hs, hm, ha⟩ := h
  have hget : p.workers.toList[i]? = some w := by rw [Array.getElem?_toList, hw]
  have hid : w.context.thread = id := hm.named w (List.mem_of_getElem? hget) id k c hjob
  have hi : s.stations[i]? = some ⟨w.context, some c⟩ := by
    rw [station_getElem? ⟨_, hm⟩ hw, PoolWorker.station, hjob]
    rfl
  have hyielded : w.job.yielded = [] := by rw [hjob]; rfl
  have hblocked : w.job.blocked = [] := by rw [hjob]; rfl
  have hended : w.job.ended = [] := by rw [hjob]; rfl
  obtain ⟨O, hO, -⟩ := perm_flatMap_set (fun w : PoolWorker κ => w.job.yielded) hget
  have hready : s.ready.Perm (p.queue.threads ++ O) := by
    rw [hyielded] at hO
    exact hm.ready.trans (hO.append_left p.queue.threads)
  cases hr : iterateUpTo program n k c ⟨s.shared, .pool p.queue, w.context⟩ with
  | mk result m =>
    obtain ⟨k', turn⟩ := result
    obtain ⟨s', q', hrun, hq', hshared, hstations, hready', hblocked', hdropped, hthread, hids⟩ :=
      System.reaches_iterateUpTo hp (System.sound_of_reaches hp h₀ hs) hi hready hm.dropped hr
    rw [hm.shared] at hr
    rw [iterate_eq hw hr hq']
    refine ⟨s', hs.trans hrun, ?_, ha.booked, fun e he => ?_⟩
    · refine hm.set hw rfl hshared ?_ (fun others hothers => ?_) (fun others hothers => ?_)
        hdropped ?_
      · rw [hstations, PoolWorker.station, Job.control, turn_jobOf]
        rfl
      · rw [hyielded] at hothers
        have hsame : O.Perm others :=
          (List.perm_append_left_iff _).1 (hready.symm.trans hothers)
        rw [Job.yielded, turn_jobOf]
        refine (hready'.trans ((hsame.append_left _).append_left _)).trans ?_
        exact List.perm_append_comm_assoc _ _ _
      · rw [hblocked] at hothers
        rw [Job.blocked, turn_jobOf, hblocked']
        exact hothers.append_left _
      · intro id' k'' c' hj
        rcases turn with c'' | outcome
        · cases hj
          exact (hthread (Option.some_ne_none _)).trans hid
        · cases hj
    · refine (ha.live e he).set hw rfl (fun u hu => ?_) ?_
      · rcases hids u hu with hu | ⟨hu, hnil⟩
        · exact .inl hu
        · rw [hid] at hu
          rw [hu] at hnil ⊢
          exact .inr (mem_ended_jobOf hnil)
      · rw [hended]
        exact List.not_mem_nil

theorem finish (h : Tracked program s₀ p extra) (id : ThreadId)
    (result : Except RuntimeError Address) :
    Tracked program s₀ (p.finish id result) extra ∧ (p.finish id result).workers = p.workers ∧
      id ∉ (p.finish id result).slots.map Prod.fst := by
  unfold Pool.finish
  split
  · next index hl =>
    obtain ⟨s, hs, hm, ha⟩ := h
    refine ⟨⟨s, hs, ⟨hm.shared, hm.stations, hm.ready, hm.blocked, hm.dropped, hm.named⟩,
      ha.booked.finish (mem_of_lookup hl) result, ?_⟩, rfl, ?_⟩
    · exact fun e he => ha.live e (List.mem_of_mem_filter he)
    · intro hmem
      obtain ⟨e, he, rfl⟩ := List.mem_map.1 hmem
      simpa using (List.mem_filter.1 he).2
  · next hl =>
    have hnot : id ∉ p.slots.map Prod.fst := by
      intro hmem
      obtain ⟨e, he, rfl⟩ := List.mem_map.1 hmem
      have hne := List.lookup_eq_none_iff.1 hl e he
      simp at hne
    cases result with
    | ok v => exact ⟨h, rfl, hnot⟩
    | error e => exact ⟨h.report _ _, rfl, hnot⟩

theorem discharge {id : ThreadId} {outcome : Outcome κ} (h : Tracked program s₀ p extra)
    (hw : p.workers[i]? = some w) (hjob : w.job = .ending id outcome)
    (hout : (∃ v, outcome = .finished v) ∨ ∃ e, outcome = .halted e)
    (hid : id ∉ p.slots.map Prod.fst) : Tracked program s₀ (p.setJob i .idle) extra := by
  refine h.setJob hw ?_ ?_ ?_ nofun fun e he hmem => ?_
  · rw [hjob]
    rcases hout with ⟨v, rfl⟩ | ⟨e, rfl⟩ <;> rfl
  · rw [hjob]
    rcases hout with ⟨v, rfl⟩ | ⟨e, rfl⟩ <;> rfl
  · rw [hjob]
    rcases hout with ⟨v, rfl⟩ | ⟨e, rfl⟩ <;> rfl
  · have hmem : e.1 ∈ [id] := by
      rw [hjob] at hmem
      rcases hout with ⟨v, rfl⟩ | ⟨e, rfl⟩ <;> exact hmem
    refine hid ?_
    rw [← List.mem_singleton.1 hmem]
    exact List.mem_map_of_mem he

theorem requeue {id : ThreadId} {t : Thread κ} (h : Tracked program s₀ p [])
    (hw : p.workers[i]? = some w) (hjob : w.job = .ending id (.yielded t)) :
    Tracked program s₀ ({ p with queue := p.queue.requeue [t] }.setJob i .idle) [] := by
  obtain ⟨s, hs, hm, ha⟩ := h
  have hwork : ({ p with queue := p.queue.requeue [t] } : Pool κ).workers[i]? = some w := hw
  rw [setJob_eq hwork]
  refine ⟨s, hs, ?_, ha.booked, fun e he => ?_⟩
  · refine hm.set hw rfl hm.shared (set_station_eq hm hw (by rw [hjob]; rfl))
      (fun others hr => ?_) ?_ hm.dropped nofun
    · rw [hjob] at hr
      change s.ready.Perm ((p.queue.threads ++ [t]) ++ others)
      rw [List.append_assoc]
      exact hr
    · rw [hjob]
      exact fun _ hb => hb
  · refine (ha.live e he).set hw rfl (fun u hu => .inl hu) ?_
    rw [hjob]
    exact List.not_mem_nil

theorem park {id : ThreadId} {t : Thread κ} {a : Address} (h : Tracked program s₀ p [])
    (hw : p.workers[i]? = some w) (hjob : w.job = .ending id (.blocked t a)) :
    Tracked program s₀ ((p.park t a).setJob i .idle) [] := by
  obtain ⟨s, hs, hm, ha⟩ := h
  have hget : p.workers.toList[i]? = some w := by rw [Array.getElem?_toList, hw]
  obtain ⟨O, hO, -⟩ := perm_flatMap_set (fun w : PoolWorker κ => w.job.blocked) hget
  have hb : s.blocked.Perm ((t, a) :: O) := by
    rw [hjob] at hO
    exact hm.blocked.trans hO
  have hstation : s.stations = s.stations.set i (PoolWorker.station ⟨w.context, .idle⟩) :=
    set_station_eq hm hw (by rw [hjob]; rfl)
  have hblocked : ∀ others, s.blocked.Perm (w.job.blocked ++ others) → O.Perm others := by
    intro others hothers
    rw [hjob] at hothers
    exact (hb.symm.trans hothers).cons_inv
  have hended : ∀ u : ThreadId, u ∉ w.job.ended := by
    rw [hjob]
    exact fun _ => List.not_mem_nil
  cases hpark : p.shared.heap.park? a t with
  | some heap =>
    have hwork : (p.park t a).workers[i]? = some w := by
      rw [Pool.park, hpark]
      exact hw
    rw [setJob_eq hwork, Pool.park, hpark]
    rw [← hm.shared] at hpark
    refine ⟨_, hs.tail ⟨_, .park hb hpark⟩, ?_, ha.booked, fun e he => ?_⟩
    · refine hm.set hw rfl ?_ hstation (fun others hr => ?_) hblocked hm.dropped nofun
      · rw [hm.shared]
      · rw [hjob] at hr
        exact hr
    · exact (ha.live e he).set hw rfl
        (fun u hu => .inl (System.ids_of_perm (System.threadStacks_park hb hpark) hu)) (hended _)
  | none =>
    have hwork : (p.park t a).workers[i]? = some w := by
      rw [Pool.park, hpark]
      exact hw
    rw [setJob_eq hwork, Pool.park, hpark]
    refine ⟨_, hs.tail ⟨_, .retry hb⟩, ?_, ha.booked, fun e he => ?_⟩
    · refine hm.set hw rfl hm.shared hstation (fun others hr => ?_) hblocked hm.dropped nofun
      rw [hjob] at hr
      change s.ready.Perm (p.queue.threads ++ others) at hr
      change (t :: s.ready).Perm ((p.queue.threads ++ [t]) ++ others)
      rw [List.append_assoc]
      exact (hr.cons t).trans List.perm_middle.symm
    · exact (ha.live e he).set hw rfl
        (fun u hu => .inl (System.ids_of_perm (System.threadStacks_retry hb) hu)) (hended _)

theorem conclude {id : ThreadId} {outcome : Outcome κ} (h : Tracked program s₀ p [])
    (hw : p.workers[i]? = some w) (hjob : w.job = .ending id outcome) :
    Tracked program s₀ (p.conclude i id outcome) [] := by
  cases outcome with
  | finished v =>
    obtain ⟨hf, hworkers, hid⟩ := h.finish id (.ok v)
    exact hf.discharge (hworkers ▸ hw) hjob (.inl ⟨v, rfl⟩) hid
  | halted e =>
    obtain ⟨hf, hworkers, hid⟩ := h.finish id (.error e)
    exact hf.discharge (hworkers ▸ hw) hjob (.inr ⟨e, rfl⟩) hid
  | yielded t => exact h.requeue hw hjob
  | blocked t a =>
    refine (h.remark "parking on thunk" [("worker", toString i), ("thread", id.text)]).park ?_ hjob
    rwa [remark_workers]
  | endless => exact h

theorem interrupt (flag : Bool) (h : Tracked program s₀ p extra) (hw : p.workers[i]? = some w) :
    Tracked program s₀ (p.interrupt i flag) extra := by
  obtain ⟨s, hs, hm, ha⟩ := h
  have hi := station_getElem? ⟨_, hm⟩ hw
  let st : Station κ := { w.station with context.interrupted := flag }
  have hstack : (s.stations.flatMap Station.stack).Perm
      ((s.stations.set i st).flatMap Station.stack) := System.flatMap_stack_set_eq hi rfl
  have hperm : s.threadStacks.Perm (System.threadStacks { s with stations := s.stations.set i st }) :=
    System.perm_threadStacks hstack (.refl _)
  rw [interrupt_eq flag hw]
  refine ⟨_, hs.tail ⟨_, .interrupt flag hi⟩, ?_, ha.booked, fun e he => ?_⟩
  · exact hm.set hw rfl hm.shared rfl (fun _ hr => hr) (fun _ hb => hb) hm.dropped
      (hm.named w (List.mem_of_getElem? (by rw [Array.getElem?_toList, hw])))
  · exact (ha.live e he).keep hw rfl rfl fun u hu => System.ids_of_perm hperm hu

theorem move (hp : program.Conventional) (h₀ : s₀.Initial) (h : Tracked program s₀ p [])
    (hmove : Move program p p') : Tracked program s₀ p' [] := by
  obtain ⟨deed, hmove⟩ := hmove
  cases hmove with
  | dequeue hw hidle hd => exact h.dequeue hw hidle hd
  | takeSpark hw hidle ht => exact h.takeSpark hw hidle ht
  | retire hw hidle hr => exact h.retire hw hidle hr
  | leave hw hidle => exact h.leave hw hidle
  | iterate n hw hjob _ => exact h.iterate hp h₀ n hw hjob
  | conclude hw hjob => exact h.conclude hw hjob
  | remark message details => exact h.remark message details
  | interrupt flag hw => exact h.interrupt flag hw

end Tracked

end Pool

end GraphReduction
