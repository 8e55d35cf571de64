import GraphReduction.Proofs.PoolProgress

/-!
What a pool delivers. However its workers take turns, every thread is in one place or has ended, the
counters agree with what is missing, and the results are what the threads of the roots came to.
-/
namespace GraphReduction

open Evaluation GraphReduction.Frame

variable {κ : Type} {program : Program κ}

def Job.hands : Job κ → List ThreadId
  | running id _ _ => [id]
  | ending _ (.yielded t) => [t.id]
  | ending _ (.blocked t _) => [t.id]
  | ending id .endless => [id]
  | _ => []

def Job.endings : Job κ → List Ending
  | ending id outcome => outcome.endings id
  | _ => []

namespace Pool

variable {p p' : Pool κ} {i : Nat} {w : PoolWorker κ} {endings : List Ending}

section Census

/-- The threads that have not ended, by where they are: in the queue, in the hands of a worker, or
parked on a thunk under evaluation. -/
def places (p : Pool κ) : List ThreadId :=
  p.queue.threads.map Thread.id ++ (p.workers.toList.flatMap (fun w => w.job.hands) ++
    p.shared.heap.parked.map Thread.id)

def created (before last : Nat) : List ThreadId :=
  (List.range' (before + 1) (last - before)).map ThreadId.mk

theorem created_succ {before last : Nat} (h : before ≤ last) :
    created before (last + 1) = created before last ++ [⟨last + 1⟩] := by
  have hlast : before + 1 + (last - before) = last + 1 := by omega
  rw [created, Nat.succ_sub h, List.range'_concat, List.map_append, Nat.one_mul, hlast]
  rfl

structure Census (s₀ : Shared κ) (p : Pool κ) (ended : List Ending) : Prop where
  le : s₀.lastThread ≤ p.shared.lastThread
  once : (p.places ++ ended.map Prod.fst).Perm (created s₀.lastThread p.shared.lastThread)

variable {s₀ : Shared κ} {ended : List Ending}

theorem Census.of_perm (h : Census s₀ p ended) (hl : p'.shared.lastThread = p.shared.lastThread)
    (hp : (endings.map Prod.fst ++ p'.places).Perm p.places) :
    Census s₀ p' (ended ++ endings) where
  le := hl ▸ h.le
  once := by
    rw [hl, List.map_append]
    refine List.Perm.trans ?_ ((hp.append_right _).trans h.once)
    refine List.Perm.trans ?_ (List.perm_append_comm.append_right _)
    rw [List.append_assoc]
    exact List.perm_append_comm.append_left _

theorem places_perm {w' : PoolWorker κ} (old new : List ThreadId) (hw : p.workers[i]? = some w)
    (hworkers : p'.workers = p.workers.setIfInBounds i w')
    (hp : (old ++ (p'.queue.threads.map Thread.id ++ (w'.job.hands ++
      p'.shared.heap.parked.map Thread.id))).Perm (new ++ (p.queue.threads.map Thread.id ++
        (w.job.hands ++ p.shared.heap.parked.map Thread.id)))) :
    (old ++ p'.places).Perm (new ++ p.places) := by
  have hget : p.workers.toList[i]? = some w := by rw [Array.getElem?_toList, hw]
  obtain ⟨O, hO, hO'⟩ := perm_flatMap_set (fun w : PoolWorker κ => w.job.hands) hget
  have hlist : p'.workers.toList = p.workers.toList.set i w' := by
    rw [hworkers, Array.toList_setIfInBounds]
  -- Only the part of the worker differs, so counting compares the lists.
  refine List.perm_iff_count.2 fun x => ?_
  have h₁ := hO.count_eq x
  have h₂ := (hO' w').count_eq x
  have h₃ := hp.count_eq x
  rw [places, places, hlist]
  simp only [List.count_append] at h₁ h₂ h₃ ⊢
  omega

theorem places_take {t : Thread κ} (hw : p.workers[i]? = some w) (hidle : w.job = .idle) :
    (p.take i t).places.Perm (t.id :: p.places) ∧
      (p.take i t).shared.lastThread = p.shared.lastThread := by
  obtain ⟨hheap, hlast, -⟩ := System.begin_spec t ⟨p.shared, .pool p.queue, w.context⟩
  rw [take_eq hw]
  refine ⟨places_perm [] [t.id] hw rfl ?_, hlast⟩
  rw [hidle]
  change (_ ++ ([t.id] ++ (begin t _).2.shared.heap.parked.map Thread.id)).Perm _
  rw [hheap]
  exact List.perm_middle

theorem remark_spec (p : Pool κ) (message : String) (details : List (String × String)) :
    (p.remark message details).queue = p.queue ∧ (p.remark message details).workers = p.workers ∧
      (p.remark message details).shared.heap = p.shared.heap ∧
      (p.remark message details).shared.lastThread = p.shared.lastThread := by
  rcases Tracked.remark_eq p message details with he | he <;> rw [he]
  · exact ⟨rfl, rfl, rfl, rfl⟩
  · obtain ⟨hheap, -, hlast⟩ := System.report_spec p.shared .scheduler ⟨.debug, message, details⟩
    exact ⟨rfl, rfl, hheap, hlast⟩

theorem places_setJob {job : Job κ} (hw : p.workers[i]? = some w)
    (hjob : job.hands = w.job.hands) : (p.setJob i job).places.Perm p.places := by
  rw [setJob_eq hw]
  refine places_perm [] [] hw rfl ?_
  rw [hjob]

theorem Mirrors.passage {s : System κ} {id : ThreadId} {k k' n : Nat} {c : Control}
    {turn : Turn κ} {m : Machine κ} (hp : program.Conventional) (hm : Mirrors p [] s)
    (hs : s.Sound) (hw : p.workers[i]? = some w) (hjob : w.job = .running id k c)
    (hr : iterateUpTo program n k c ⟨p.shared, .pool p.queue, w.context⟩ = ((k', turn), m)) :
    w.context.thread = id ∧ Passage id ⟨p.shared, .pool p.queue, w.context⟩ m ∧
      ∃ q, m.scheduler = .pool q ∧ ∀ t ∈ turn.yielded ++ turn.blocked.map Prod.fst, t.id = id := by
  have hmem : w ∈ p.workers.toList := List.mem_of_getElem? (by rw [Array.getElem?_toList, hw])
  have hid : w.context.thread = id := hm.named w hmem id k c hjob
  have hi : s.stations[i]? = some ⟨w.context, some c⟩ := by
    rw [station_getElem? ⟨_, hm⟩ hw, PoolWorker.station, hjob]
    rfl
  have howning := hs.owning hi (.pool p.queue)
  rw [hm.shared] at howning
  obtain ⟨hpass, -, hdetached⟩ := passage_iterateUpTo hp howning
    (fun hc => hs.result _ (List.mem_of_getElem? hi) (congrArg some hc)) hr
  obtain ⟨q, hq⟩ := hpass.alike.exists_pool
  exact ⟨hid, hid ▸ hpass, q, hq, hid ▸ hdetached⟩

namespace Census

theorem congr (h : Census s₀ p ended) (hq : p'.queue.threads = p.queue.threads)
    (hw : p'.workers = p.workers) (hh : p'.shared.heap = p.shared.heap)
    (hl : p'.shared.lastThread = p.shared.lastThread) : Census s₀ p' ended where
  le := hl ▸ h.le
  once := by
    rw [places, hq, hw, hh, hl]
    exact h.once

theorem remark (h : Census s₀ p ended) (message : String) (details : List (String × String)) :
    Census s₀ (p.remark message details) ended := by
  obtain ⟨hq, hw, hh, hl⟩ := remark_spec p message details
  exact h.congr (congrArg RunQueue.threads hq) hw hh hl

theorem setJob {job : Job κ} (h : Census s₀ p ended) (hw : p.workers[i]? = some w)
    (hjob : job.hands = w.job.hands) : Census s₀ (p.setJob i job) ended :=
  ⟨h.le, ((places_setJob hw hjob).append_right _).trans h.once⟩

theorem dequeue (h : Census s₀ p ended) (hw : p.workers[i]? = some w) (hidle : w.job = .idle)
    (hd : p.dequeue? i = some p') : Census s₀ p' ended := by
  unfold Pool.dequeue? at hd
  split at hd
  · cases hd
  · next t rest ht =>
    cases hd
    let p₁ : Pool κ := { p with queue := { p.queue with threads := rest } }
    have hw₁ : p₁.workers[i]? = some w := hw
    obtain ⟨hplaces, hlast⟩ := places_take (t := t) hw₁ hidle
    have hp : p.places = t.id :: p₁.places := by rw [places, ht]; rfl
    have hlast : (p₁.take i t).shared.lastThread = p.shared.lastThread := hlast
    refine ⟨hlast ▸ h.le, ?_⟩
    rw [hlast]
    exact (hplaces.append_right _).trans (hp ▸ h.once)

theorem spawn (h : Census s₀ p ended) (hw : p.workers[i]? = some w) (hidle : w.job = .idle)
    (a : Address) (limit : Nat) :
    Census s₀ ({ p with shared := (p.shared.spawn a limit).2 }.take i (p.shared.spawn a limit).1)
      ended := by
  let p₁ : Pool κ := { p with shared := (p.shared.spawn a limit).2 }
  have hw₁ : p₁.workers[i]? = some w := hw
  obtain ⟨hplaces, hlast⟩ := places_take (t := (p.shared.spawn a limit).1) hw₁ hidle
  have hlast : (p₁.take i (p.shared.spawn a limit).1).shared.lastThread =
      p.shared.lastThread + 1 := hlast
  refine ⟨hlast ▸ Nat.le_succ_of_le h.le, ?_⟩
  rw [hlast, created_succ h.le]
  refine (hplaces.append_right _).trans ?_
  exact (h.once.cons _).trans (List.perm_append_singleton _ _).symm

theorem takeSpark (h : Census s₀ p ended) (hw : p.workers[i]? = some w) (hidle : w.job = .idle)
    (ht : p.takeSpark? i = some p') : Census s₀ p' ended := by
  unfold Pool.takeSpark? at ht
  split at ht
  · cases ht
  · next a rest hsparks =>
    dsimp only at ht
    split at ht
    · cases ht
      exact h.congr rfl rfl rfl rfl
    · cases ht
      let p₁ : Pool κ :=
        { p with queue := { p.queue with sparks := rest, sparksRun := p.queue.sparksRun + 1 } }
      have h₁ : Census s₀ p₁ ended := h.congr rfl rfl rfl rfl
      refine (h₁.remark "running spark" [("worker", toString i)]).spawn ?_ hidle a _
      rwa [Tracked.remark_workers]

theorem leave (h : Census s₀ p ended) (hw : p.workers[i]? = some w) (hidle : w.job = .idle) :
    Census s₀ (p.leave i) ended := by
  let p₁ : Pool κ :=
    { p with counters := p.counters + (p.workers.getD i default).context.counters }
  have h₁ : Census s₀ p₁ ended := h.congr rfl rfl rfl rfl
  exact h₁.setJob hw (by rw [hidle]; rfl)

theorem retire (h : Census s₀ p ended) (hw : p.workers[i]? = some w) (hidle : w.job = .idle)
    (hr : p.retire? i = some p') : Census s₀ p' ended := by
  unfold Pool.retire? at hr
  split at hr
  · cases hr
    let p₁ : Pool κ := { p with alive := p.alive - 1, retired := p.retired + 1 }
    have h₁ : Census s₀ p₁ ended := h.congr rfl rfl rfl rfl
    refine (h₁.remark _ _).leave ?_ hidle
    rwa [Tracked.remark_workers]
  · cases hr

theorem hands_jobOf {id : ThreadId} {k : Nat} {turn : Turn κ}
    (hd : ∀ t ∈ turn.yielded ++ turn.blocked.map Prod.fst, t.id = id) :
    (turn.endings id).map Prod.fst ++ (jobOf id k turn).hands = [id] := by
  rcases turn with c | outcome
  · rfl
  · cases outcome with
    | yielded t => exact congrArg ([·]) (hd t List.mem_cons_self)
    | blocked t a => exact congrArg ([·]) (hd t List.mem_cons_self)
    | _ => rfl

theorem iterate {s : System κ} {id : ThreadId} {k k' n : Nat} {c : Control} {turn : Turn κ}
    {m : Machine κ} (hp : program.Conventional) (hm : Mirrors p [] s) (hs : s.Sound)
    (h : Census s₀ p ended) (hw : p.workers[i]? = some w) (hjob : w.job = .running id k c)
    (hr : iterateUpTo program n k c ⟨p.shared, .pool p.queue, w.context⟩ = ((k', turn), m)) :
    Census s₀ (p.iterate program i n id k c) (ended ++ turn.endings id) := by
  obtain ⟨hid, hpass, q, hq, hdetached⟩ := hm.passage hp hs hw hjob hr
  have hqueue := ((hands_iterateUpTo hr).detached nofun).map Thread.id
  rw [hq] at hqueue
  rw [iterate_eq hw hr hq]
  refine h.of_perm hpass.lastThread (places_perm _ [] hw rfl ?_)
  rw [hjob]
  change (_ ++ (q.threads.map Thread.id ++ ((jobOf id k' turn).hands ++
    m.heap.parked.map Thread.id))).Perm (p.queue.threads.map Thread.id ++
      ([id] ++ p.shared.heap.parked.map Thread.id))
  rw [← hands_jobOf (k := k') hdetached]
  simp only [List.map_append] at hqueue
  refine List.perm_iff_count.2 fun x => ?_
  have hcount := hqueue.count_eq x
  simp only [Scheduler.held, Machine.heap, List.count_append] at hcount ⊢
  omega

theorem finish (h : Census s₀ p ended) (id : ThreadId) (result : Except RuntimeError Address) :
    Census s₀ (p.finish id result) ended := by
  unfold Pool.finish
  split
  · exact h.congr rfl rfl rfl rfl
  · cases result with
    | ok v => exact h
    | error e =>
      obtain ⟨hheap, -, hlast⟩ := System.report_spec p.shared .scheduler
        ⟨.debug, "spark halted", [("thread", id.text), ("error", e.message)]⟩
      exact h.congr rfl rfl hheap hlast

theorem requeue {t : Thread κ} (h : Census s₀ p ended) (hw : p.workers[i]? = some w)
    (hjob : w.job.hands = [t.id]) :
    Census s₀ ({ p with queue := p.queue.requeue [t] }.setJob i .idle) ended := by
  let p₁ : Pool κ := { p with queue := p.queue.requeue [t] }
  have hw₁ : p₁.workers[i]? = some w := hw
  have hp : (p₁.setJob i .idle).places.Perm p.places := by
    rw [setJob_eq hw₁]
    refine places_perm [] [] hw rfl ?_
    rw [hjob]
    change ((p.queue.threads ++ [t]).map Thread.id ++ ([] ++ _)).Perm _
    rw [List.map_append, List.append_assoc]
    exact .refl _
  exact ⟨h.le, (hp.append_right _).trans h.once⟩

theorem park {t : Thread κ} {a : Address} (h : Census s₀ p ended) (hw : p.workers[i]? = some w)
    (hjob : w.job.hands = [t.id]) : Census s₀ ((p.park t a).setJob i .idle) ended := by
  cases hpark : p.shared.heap.park? a t with
  | none =>
    rw [Pool.park, hpark]
    exact h.requeue hw hjob
  | some heap =>
    rw [Pool.park, hpark]
    let p₁ : Pool κ := { p with shared := { p.shared with heap } }
    have hw₁ : p₁.workers[i]? = some w := hw
    have hp : (p₁.setJob i .idle).places.Perm p.places := by
      rw [setJob_eq hw₁]
      refine places_perm [] [] hw rfl ?_
      rw [hjob]
      exact ((Heap.parked_park? hpark).map Thread.id).append_left _
    exact ⟨h.le, (hp.append_right _).trans h.once⟩

theorem conclude {id : ThreadId} {outcome : Outcome κ} (h : Census s₀ p ended)
    (hw : p.workers[i]? = some w) (hjob : w.job = .ending id outcome) :
    Census s₀ (p.conclude i id outcome) ended := by
  cases outcome with
  | finished v => exact (h.finish id (.ok v)).setJob (workers_finish p .. ▸ hw) (by rw [hjob]; rfl)
  | halted e => exact (h.finish id (.error e)).setJob (workers_finish p .. ▸ hw) (by rw [hjob]; rfl)
  | yielded t => exact h.requeue hw (by rw [hjob]; rfl)
  | blocked t a =>
    refine (h.remark "parking on thunk" [("worker", toString i), ("thread", id.text)]).park ?_
      (by rw [hjob]; rfl)
    rwa [Tracked.remark_workers]
  | endless => exact h

theorem start (o : RuntimeOptions) (roots : List Address) (shared : Shared κ)
    (hidle : ∀ a, shared.heap.owner? a = none) : Census shared (Pool.start o roots shared) [] := by
  have hhands : (Pool.start o roots shared).workers.toList.flatMap (fun w => w.job.hands) = [] := by
    refine List.flatMap_eq_nil_iff.2 fun w hw => ?_
    rw [job_start hw]
    rfl
  have hroots := spawnRoots_eq o.stackLimit.toNat roots 0 shared
  have hlast : (Pool.start o roots shared).shared.lastThread =
      shared.lastThread + roots.length := congrArg (·.2.2.lastThread) hroots
  have hparked : (Pool.start o roots shared).shared.heap.parked = [] :=
    (congrArg (·.2.2.heap.parked) hroots).trans (Heap.parked_eq_nil hidle)
  have hqueue : (Pool.start o roots shared).queue.threads.map Thread.id =
      created shared.lastThread (shared.lastThread + roots.length) := by
    refine (congrArg (·.1.map Thread.id) hroots).trans ?_
    rw [created, Nat.add_sub_cancel_left, List.range'_eq_map_range]
    apply List.ext_getElem <;> simp [rootThread]
  refine ⟨hlast ▸ Nat.le_add_right _ _, ?_⟩
  rw [places, hhands, hparked, hlast, hqueue]
  simp only [List.map_nil, List.append_nil]
  exact .refl _

theorem interrupt (flag : Bool) (h : Census s₀ p ended) (hw : p.workers[i]? = some w) :
    Census s₀ (p.interrupt i flag) ended := by
  have hplaces : (p.interrupt i flag).places.Perm p.places := by
    rw [interrupt_eq flag hw]
    exact places_perm [] [] hw rfl (.refl _)
  exact ⟨h.le, (hplaces.append_right _).trans h.once⟩

theorem act {s : System κ} {deed : Deed} (hp : program.Conventional) (hm : Mirrors p [] s)
    (hs : s.Sound) (h : Census s₀ p ended) (ha : Act program p deed p') :
    Census s₀ p' (ended ++ deed.endings) := by
  cases ha
  case iterate hw hjob hr =>
    rw [Deed.endings_ofTurn, (hm.passage hp hs hw hjob hr).1]
    exact h.iterate hp hm hs hw hjob hr
  all_goals
    change Census s₀ _ (ended ++ [])
    rw [List.append_nil]
  case dequeue hw hidle hd => exact h.dequeue hw hidle hd
  case takeSpark hw hidle ht => exact h.takeSpark hw hidle ht
  case retire hw hidle hr => exact h.retire hw hidle hr
  case leave hw hidle => exact h.leave hw hidle
  case conclude hw hjob => exact h.conclude hw hjob
  case remark message details => exact h.remark message details
  case interrupt flag hw => exact h.interrupt flag hw

end Census

end Census

section Books

def jobs (p : Pool κ) : List (Job κ) := p.workers.toList.map PoolWorker.job

def books (p : Pool κ) :
    List (ThreadId × Nat) × Array (Option (Except RuntimeError Address)) × Nat :=
  (p.slots, p.results, p.remaining)

def crew (p : Pool κ) : Nat × Nat := (p.alive, p.retired)

inductive Effect (p p' : Pool κ) : List Ending → Prop where
  | nothing : p'.jobs = p.jobs → p'.books = p.books → p'.crew = p.crew → Effect p p' []
  | changed {i : Nat} {old new : Job κ} {endings : List Ending} : p.jobs[i]? = some old →
      isGone old = false → isGone new = false → new.endings ⊆ endings →
      p'.jobs = p.jobs.set i new → p'.books = p.books → p'.crew = p.crew → Effect p p' endings
  | recorded {i index : Nat} {old : Job κ} {id : ThreadId} {r : Except RuntimeError Address} :
      p.jobs[i]? = some old → isGone old = false → (id, r) ∈ old.endings →
      p.slots.lookup id = some index → p'.jobs = p.jobs.set i .idle →
      p'.books = (p.slots.filter fun e => e.1 ≠ id, p.results.setIfInBounds index (some r),
        p.remaining - 1) →
      p'.crew = p.crew → Effect p p' []
  | retired {i : Nat} : p.jobs[i]? = some .idle → 1 < p.alive → p'.jobs = p.jobs.set i .gone →
      p'.books = p.books → p'.crew = (p.alive - 1, p.retired + 1) → Effect p p' []
  | left {i : Nat} : p.jobs[i]? = some .idle → p.done = true → p'.jobs = p.jobs.set i .gone →
      p'.books = p.books → p'.crew = p.crew → Effect p p' []

theorem jobs_getElem? (hw : p.workers[i]? = some w) : p.jobs[i]? = some w.job := by
  rw [jobs, List.getElem?_map, Array.getElem?_toList, hw]
  rfl

theorem jobs_set (w' : PoolWorker κ) (hworkers : p'.workers = p.workers.setIfInBounds i w') :
    p'.jobs = p.jobs.set i w'.job := by
  rw [jobs, hworkers, Array.toList_setIfInBounds, List.map_set]
  rfl

theorem jobs_setJob {job : Job κ} (hw : p.workers[i]? = some w) :
    (p.setJob i job).jobs = p.jobs.set i job := by
  rw [setJob_eq hw]
  exact jobs_set ⟨w.context, job⟩ rfl

theorem jobs_take {t : Thread κ} (hw : p.workers[i]? = some w) :
    ∃ c, (p.take i t).jobs = p.jobs.set i (.running t.id 0 c) ∧ (p.take i t).books = p.books ∧
      (p.take i t).crew = p.crew := by
  rw [take_eq hw]
  exact ⟨_, jobs_set ⟨_, .running t.id 0 _⟩ rfl, rfl, rfl⟩

theorem remark_books (p : Pool κ) (message : String) (details : List (String × String)) :
    (p.remark message details).jobs = p.jobs ∧ (p.remark message details).books = p.books ∧
      (p.remark message details).crew = p.crew := by
  rcases Tracked.remark_eq p message details with he | he <;> rw [he] <;> exact ⟨rfl, rfl, rfl⟩

namespace Effect

theorem takeSpark (hw : p.workers[i]? = some w) (hidle : w.job = .idle)
    (ht : p.takeSpark? i = some p') : Effect p p' [] := by
  unfold Pool.takeSpark? at ht
  split at ht
  · cases ht
  · next a rest hsparks =>
    dsimp only at ht
    split at ht
    · cases ht
      exact .nothing rfl rfl rfl
    · cases ht
      let p₁ : Pool κ :=
        { p with queue := { p.queue with sparks := rest, sparksRun := p.queue.sparksRun + 1 } }
      let p₂ : Pool κ := p₁.remark "running spark" [("worker", toString i)]
      obtain ⟨hjobs, hbooks, hcrew⟩ := remark_books p₁ "running spark" [("worker", toString i)]
      let p₃ : Pool κ := { p₂ with shared := (p₂.shared.spawn a p₂.options.stackLimit.toNat).2 }
      have hw₃ : p₃.workers[i]? = some w := (Tracked.remark_workers p₁ _ _).symm ▸ hw
      obtain ⟨c, hset, hbooks', hcrew'⟩ :=
        jobs_take (t := (p₂.shared.spawn a p₂.options.stackLimit.toNat).1) hw₃
      exact .changed (jobs_getElem? hw) (by rw [hidle]; rfl) rfl (List.nil_subset _)
        (hset.trans (congrArg (List.set · i _) hjobs)) (hbooks'.trans hbooks) (hcrew'.trans hcrew)

theorem retire (hw : p.workers[i]? = some w) (hidle : w.job = .idle)
    (hr : p.retire? i = some p') : Effect p p' [] := by
  unfold Pool.retire? at hr
  split at hr
  · next hmore =>
    cases hr
    let p₁ : Pool κ := { p with alive := p.alive - 1, retired := p.retired + 1 }
    obtain ⟨hjobs, hbooks, hcrew⟩ := remark_books p₁ "idle worker retiring" [("worker", toString i)]
    have hw₁ := (Tracked.remark_workers p₁ "idle worker retiring" [("worker", toString i)]).symm ▸ hw
    exact .retired (hidle ▸ jobs_getElem? hw) hmore.2
      ((jobs_setJob hw₁).trans (congrArg (List.set · i _) hjobs)) hbooks hcrew
  · cases hr

theorem setJob {p₁ : Pool κ} {job : Job κ} (hw : p.workers[i]? = some w)
    (hold : isGone w.job = false) (hnew : isGone job = false) (hjob : job.endings = [])
    (hworkers : p₁.workers = p.workers) (hbooks : p₁.books = p.books) (hcrew : p₁.crew = p.crew) :
    Effect p (p₁.setJob i job) [] := by
  have hset : (p₁.setJob i job).jobs = p₁.jobs.set i job := jobs_setJob (hworkers.symm ▸ hw)
  rw [jobs, jobs, hworkers] at hset
  exact .changed (jobs_getElem? hw) hold hnew (by rw [hjob]; exact List.nil_subset _) hset hbooks hcrew

theorem finish {id : ThreadId} {outcome : Outcome κ} {r : Except RuntimeError Address}
    (hw : p.workers[i]? = some w) (hjob : w.job = .ending id outcome)
    (hout : outcome.endings id = [(id, r)]) :
    Effect p ((p.finish id r).setJob i .idle) [] := by
  have hold : isGone w.job = false := by rw [hjob]; rfl
  unfold Pool.finish
  split
  · next index hl =>
    refine .recorded (jobs_getElem? hw) hold ?_ hl (jobs_setJob hw) rfl rfl
    rw [hjob, Job.endings, hout]
    exact List.mem_cons_self
  · cases r with
    | ok v => exact setJob hw hold rfl rfl rfl rfl rfl
    | error e => exact setJob hw hold rfl rfl rfl rfl rfl

theorem conclude {id : ThreadId} {outcome : Outcome κ} (hw : p.workers[i]? = some w)
    (hjob : w.job = .ending id outcome) : Effect p (p.conclude i id outcome) [] := by
  have hold : isGone w.job = false := by rw [hjob]; rfl
  cases outcome with
  | finished v => exact finish hw hjob rfl
  | halted e => exact finish hw hjob rfl
  | yielded t => exact setJob hw hold rfl rfl rfl rfl rfl
  | blocked t a =>
    let p₁ : Pool κ := p.remark "parking on thunk" [("worker", toString i), ("thread", id.text)]
    obtain ⟨-, hbooks, hcrew⟩ := remark_books p "parking on thunk"
      [("worker", toString i), ("thread", id.text)]
    have hpark : (p₁.park t a).books = p₁.books ∧ (p₁.park t a).crew = p₁.crew := by
      unfold Pool.park
      split <;> exact ⟨rfl, rfl⟩
    exact setJob hw hold rfl rfl ((workers_park ..).trans (Tracked.remark_workers ..))
      (hpark.1.trans hbooks) (hpark.2.trans hcrew)
  | endless => exact .nothing rfl rfl rfl

end Effect

theorem Act.effect {s : System κ} {deed : Deed} (hp : program.Conventional) (hm : Mirrors p [] s)
    (hs : s.Sound) (ha : Act program p deed p') (hd : deed ≠ .leave false) :
    Effect p p' deed.endings := by
  cases ha with
  | dequeue hw hidle hd =>
    unfold Pool.dequeue? at hd
    split at hd
    · cases hd
    · next t rest ht =>
      cases hd
      let p₁ : Pool κ := { p with queue := { p.queue with threads := rest } }
      have hw₁ : p₁.workers[_]? = some _ := hw
      obtain ⟨c, hset, hbooks, hcrew⟩ := jobs_take (t := t) hw₁
      exact .changed (jobs_getElem? hw) (by rw [hidle]; rfl) rfl (List.nil_subset _) hset hbooks hcrew
  | takeSpark hw hidle ht => exact .takeSpark hw hidle ht
  | retire hw hidle hr => exact .retire hw hidle hr
  | leave hw hidle =>
    have hdone : p.done = true := by
      cases hdone : p.done with
      | true => rfl
      | false => exact absurd (congrArg Deed.leave hdone) hd
    exact .left (hidle ▸ jobs_getElem? hw) hdone (jobs_setJob hw) rfl rfl
  | @iterate i w id k k' c turn m n hw hjob hr =>
    rw [Deed.endings_ofTurn]
    obtain ⟨hid, -, q, hq, -⟩ := hm.passage hp hs hw hjob hr
    have hset : (p.iterate program i n id k c).jobs = p.jobs.set i (jobOf id k' turn) := by
      rw [iterate_eq hw hr hq]
      exact jobs_set ⟨_, jobOf id k' turn⟩ rfl
    rw [iterate_eq hw hr hq] at hset ⊢
    refine .changed (jobs_getElem? hw) (by rw [hjob]; rfl) ?_ ?_ hset rfl rfl
    · cases turn <;> rfl
    · rw [hid]
      cases turn
      · exact List.nil_subset _
      · exact List.Subset.refl _
  | conclude hw hjob => exact .conclude hw hjob
  | remark message details =>
    obtain ⟨hjobs, hbooks, hcrew⟩ := remark_books p message details
    exact .nothing hjobs hbooks hcrew
  | @interrupt i w flag hw =>
    have hjobs : (p.interrupt i flag).jobs = p.jobs := by
      have hset := jobs_set _ (congrArg Pool.workers (interrupt_eq flag hw))
      obtain ⟨hlt, hget⟩ := List.getElem?_eq_some_iff.1 (jobs_getElem? hw)
      rw [hset, ← hget, List.set_getElem_self]
    exact .nothing hjobs rfl rfl

structure Credit (s₀ : Shared κ) (count : Nat) (p : Pool κ) (ended : List Ending) : Prop where
  size : p.results.size = count
  unset : p.remaining = p.results.toList.countP Option.isNone
  slots : ∀ e ∈ p.slots, e.1 = rootThread s₀ e.2
  paid : ∀ (n : Nat) r, p.results[n]? = some (some r) → (rootThread s₀ n, r) ∈ ended
  pending : ∀ job ∈ p.jobs, job.endings ⊆ ended

structure Staffed (p : Pool κ) : Prop where
  total : p.alive + p.retired = p.jobs.length
  pos : 0 < p.alive
  present : p.done = false → p.jobs.countP (fun job => !isGone job) = p.alive

variable {s₀ : Shared κ} {count : Nat} {ended : List Ending}

namespace Credit

theorem start (o : RuntimeOptions) (roots : List Address) (shared : Shared κ) :
    Credit shared roots.length (Pool.start o roots shared) [] where
  size := Array.size_replicate
  unset := by
    change roots.length = (Array.replicate roots.length none).toList.countP Option.isNone
    rw [Array.toList_replicate, List.countP_replicate]
    rfl
  slots e he := by
    have hroots := congrArg (·.2.1) (spawnRoots_eq o.stackLimit.toNat roots 0 shared)
    have he : e ∈ (spawnRoots o.stackLimit.toNat roots 0 shared).2.1 := he
    dsimp only at hroots
    rw [hroots] at he
    obtain ⟨i, -, rfl⟩ := List.mem_map.1 he
    rw [Nat.zero_add]
  paid n r hr := by
    have hr : (Array.replicate roots.length none)[n]? = some (some r) := hr
    rw [Array.getElem?_replicate] at hr
    split at hr <;> cases hr
  pending job hjob := by
    obtain ⟨w, hw, rfl⟩ := List.mem_map.1 hjob
    rw [job_start hw]
    exact List.nil_subset _

theorem keep (h : Credit s₀ count p ended) (hbooks : p'.books = p.books)
    (hpending : ∀ job ∈ p'.jobs, job.endings ⊆ ended ++ endings) :
    Credit s₀ count p' (ended ++ endings) := by
  obtain ⟨hslots, hresults, hremaining⟩ :
      p'.slots = p.slots ∧ p'.results = p.results ∧ p'.remaining = p.remaining := by
    simpa only [books, Prod.mk.injEq] using hbooks
  constructor
  case size => rw [hresults, h.size]
  case unset => rw [hremaining, hresults, h.unset]
  case slots => rw [hslots]; exact h.slots
  case paid =>
    intro n r hr
    rw [hresults] at hr
    exact List.mem_append_left _ (h.paid n r hr)
  case pending => exact hpending

theorem set {new : Job κ} (h : Credit s₀ count p ended) (hjobs : p'.jobs = p.jobs.set i new)
    (hnew : new.endings ⊆ endings) : ∀ job ∈ p'.jobs, job.endings ⊆ ended ++ endings := by
  intro job hjob
  rw [hjobs] at hjob
  rcases List.mem_or_eq_of_mem_set hjob with hjob | rfl
  · exact List.subset_append_of_subset_left _ (h.pending job hjob)
  · exact List.subset_append_of_subset_right _ hnew

theorem recorded {index : Nat} {id : ThreadId} {r : Except RuntimeError Address}
    (hb : Booked p.slots p.results p.remaining) (h : Credit s₀ count p ended)
    (hr : (id, r) ∈ ended) (hl : p.slots.lookup id = some index)
    (hpending : ∀ job ∈ p'.jobs, job.endings ⊆ ended)
    (hbooks : p'.books = (p.slots.filter fun e => e.1 ≠ id,
      p.results.setIfInBounds index (some r), p.remaining - 1)) :
    Credit s₀ count p' ended := by
  obtain ⟨hslots, hresults, hremaining⟩ :
      p'.slots = (p.slots.filter fun e => e.1 ≠ id) ∧
        p'.results = p.results.setIfInBounds index (some r) ∧
          p'.remaining = p.remaining - 1 := by
    simpa only [books, Prod.mk.injEq] using hbooks
  have hmem := mem_of_lookup hl
  have hroot : id = rootThread s₀ index := h.slots _ hmem
  have hnone : p.results[index]? = some none :=
    (hb.missing index).2 (List.mem_map_of_mem hmem)
  obtain ⟨hlt, hget⟩ := Array.getElem?_eq_some_iff.1 hnone
  constructor
  case size => rw [hresults, Array.size_setIfInBounds, h.size]
  case unset =>
    have hset := List.countP_set (p := Option.isNone) (a := some r)
      (show index < p.results.toList.length from hlt)
    rw [Array.getElem_toList, hget] at hset
    rw [hremaining, hresults, Array.toList_setIfInBounds, hset, ← h.unset]
    rfl
  case slots =>
    intro e he
    rw [hslots] at he
    exact h.slots e (List.mem_of_mem_filter he)
  case paid =>
    intro n r' hr'
    rw [hresults, Array.getElem?_setIfInBounds] at hr'
    split at hr'
    · next hn =>
      cases hr'
      exact hn ▸ hroot ▸ hr
    · exact h.paid n r' hr'
  case pending => exact hpending

theorem effect (hb : Booked p.slots p.results p.remaining) (h : Credit s₀ count p ended)
    (he : Effect p p' endings) : Credit s₀ count p' (ended ++ endings) := by
  cases he with
  | nothing hjobs hbooks _ =>
    refine h.keep hbooks fun job hjob => ?_
    rw [List.append_nil]
    exact h.pending job (hjobs ▸ hjob)
  | changed _ _ _ hnew hjobs hbooks _ => exact h.keep hbooks (h.set hjobs hnew)
  | recorded hold _ hr hl hjobs hbooks _ =>
    have hpending := h.set hjobs (List.Subset.refl [])
    rw [List.append_nil] at hpending ⊢
    exact h.recorded hb (h.pending _ (List.mem_of_getElem? hold) hr) hl hpending hbooks
  | retired _ _ hjobs hbooks _ => exact h.keep hbooks (h.set hjobs (List.Subset.refl []))
  | left _ _ hjobs hbooks _ => exact h.keep hbooks (h.set hjobs (List.Subset.refl []))

end Credit

namespace Staffed

theorem start (o : RuntimeOptions) (roots : List Address) (shared : Shared κ) :
    Staffed (Pool.start o roots shared) := by
  have hlength : (Pool.start o roots shared).jobs.length = workerCount o := by
    rw [jobs, List.length_map, Array.length_toList]
    exact Array.size_ofFn
  refine ⟨hlength.symm, Nat.lt_of_lt_of_le Nat.zero_lt_one (Nat.le_max_right _ _), fun _ => ?_⟩
  refine (List.countP_eq_length.2 fun job hjob => ?_).trans hlength
  obtain ⟨w, hw, rfl⟩ := List.mem_map.1 hjob
  rw [job_start hw]
  rfl

theorem countP_set {jobs : List (Job κ)} {old : Job κ} (hold : jobs[i]? = some old)
    (hgone : isGone old = false) (new : Job κ) :
    (jobs.set i new).countP (fun job => !isGone job) + 1 =
      jobs.countP (fun job => !isGone job) + if isGone new then 0 else 1 := by
  obtain ⟨hlt, rfl⟩ := List.getElem?_eq_some_iff.1 hold
  have hpos : 0 < jobs.countP (fun job => !isGone job) :=
    List.countP_pos_iff.2 ⟨_, List.getElem_mem hlt, by rw [hgone]; rfl⟩
  rw [List.countP_set hlt, hgone]
  cases isGone new <;> simp <;> omega

theorem keep (h : p.Staffed) (hcrew : p'.crew = p.crew) (hlength : p'.jobs.length = p.jobs.length)
    (hpresent : p'.done = false → p.done = false ∧
      p'.jobs.countP (fun job => !isGone job) = p.jobs.countP (fun job => !isGone job)) :
    p'.Staffed := by
  obtain ⟨halive, hretired⟩ : p'.alive = p.alive ∧ p'.retired = p.retired := by
    simpa only [crew, Prod.mk.injEq] using hcrew
  refine ⟨by rw [halive, hretired, hlength, h.total], halive ▸ h.pos, fun hdone => ?_⟩
  obtain ⟨hdone, hcount⟩ := hpresent hdone
  rw [hcount, halive, h.present hdone]

theorem done_eq (hbooks : p'.books = p.books) : p'.done = p.done := by
  rw [done, done, show p'.remaining = p.remaining from congrArg (·.2.2) hbooks]

theorem effect (h : p.Staffed) (he : Effect p p' endings) : p'.Staffed := by
  cases he with
  | nothing hjobs hbooks hcrew =>
    exact h.keep hcrew (by rw [hjobs]) fun hdone => ⟨done_eq hbooks ▸ hdone, by rw [hjobs]⟩
  | @changed i old new _ hold hgone hnew _ hjobs hbooks hcrew =>
    refine h.keep hcrew (by rw [hjobs, List.length_set]) fun hdone =>
      ⟨done_eq hbooks ▸ hdone, ?_⟩
    have hset := countP_set hold hgone new
    rw [hnew] at hset
    rw [hjobs]
    exact Nat.succ.inj hset
  | @recorded i index old id r hold hgone _ _ hjobs hbooks hcrew =>
    refine h.keep hcrew (by rw [hjobs, List.length_set]) fun hdone => ⟨?_, ?_⟩
    · have hremaining : p'.remaining = p.remaining - 1 := congrArg (·.2.2) hbooks
      simp only [done, decide_eq_false_iff_not] at hdone ⊢
      omega
    · have hset := countP_set hold hgone .idle
      rw [hjobs]
      exact Nat.succ.inj hset
  | @retired i hold hmore hjobs hbooks hcrew =>
    obtain ⟨halive, hretired⟩ : p'.alive = p.alive - 1 ∧ p'.retired = p.retired + 1 := by
      simpa only [crew, Prod.mk.injEq] using hcrew
    have htotal := h.total
    constructor
    case total =>
      rw [halive, hretired, hjobs, List.length_set]
      omega
    case pos => omega
    case present =>
      intro hdone
      have hset : (p.jobs.set i .gone).countP (fun job => !isGone job) + 1 = p.jobs.countP _ :=
        countP_set hold rfl .gone
      have hpresent := h.present (done_eq hbooks ▸ hdone)
      rw [hjobs, halive]
      omega
  | left _ hdone hjobs hbooks hcrew =>
    refine h.keep hcrew (by rw [hjobs, List.length_set]) fun hdone' => ?_
    rw [done_eq hbooks, hdone] at hdone'
    cases hdone'

end Staffed

end Books

section Delivery

structure Delivers (roots : List Address) (shared : Shared κ) (ended : List Ending)
    (p : Pool κ) : Prop where
  threads : (p.places ++ ended.map Prod.fst).Perm
    (created shared.lastThread p.shared.lastThread)
  slots : p.remaining = p.slots.length
  unset : p.remaining = p.results.toList.countP Option.isNone
  retired : p.retired < p.workers.size
  present : p.done = false →
    (p.workers.toList.countP fun w => !isGone w.job) + p.retired = p.workers.size
  others : ∀ id, (∀ n < roots.length, id ≠ rootThread shared n) →
    ∀ result, (p.finish id result).books = p.books
  results : p.done = true ∨ (∀ w ∈ p.workers, isGone w.job = true) →
    p.results.toList = p.report.results.map some ∧ p.report.results.length = roots.length ∧
      ∀ n < roots.length, ∀ r, p.report.results[n]? = some r ↔ (rootThread shared n, r) ∈ ended

theorem nodup_created (before last : Nat) : (created before last).Nodup :=
  (List.nodup_range').map fun _ _ h => congrArg ThreadId.number h

theorem Census.ending_unique {s₀ : Shared κ} {ended : List Ending} (h : Census s₀ p ended)
    {t : ThreadId} {r r' : Except RuntimeError Address} (hr : (t, r) ∈ ended)
    (hr' : (t, r') ∈ ended) : r = r' := by
  have hnodup := (h.once.nodup_iff.2 (nodup_created _ _)).of_append_right
  exact congrArg Prod.snd (List.inj_on_of_nodup_map hnodup hr hr' rfl)

theorem countP_jobs (p : Pool κ) : p.jobs.countP (fun job => !isGone job) =
    p.workers.toList.countP fun w => !isGone w.job :=
  List.countP_map

theorem Staffed.done_of_gone (h : p.Staffed) (hgone : ∀ w ∈ p.workers, isGone w.job = true) :
    p.done = true := by
  -- The last worker never retires, so that workers all leave only when the pool is done.
  by_contra hnot
  have hpresent := h.present (Bool.eq_false_iff.2 hnot)
  have hnone : p.jobs.countP (fun job => !isGone job) = 0 := by
    rw [countP_jobs]
    exact List.countP_eq_zero.2 fun w hw => by
      rw [hgone w (Array.mem_toList_iff.1 hw)]
      exact Bool.false_ne_true
  have hpos := h.pos
  omega

theorem Credit.isNone_of_done {s₀ : Shared κ} {count : Nat} {ended : List Ending}
    (h : Credit s₀ count p ended) (hdone : p.done = true) :
    ∀ r ∈ p.results.toList, Option.isNone r = false := by
  have hunset := h.unset
  rw [of_decide_eq_true hdone, eq_comm, List.countP_eq_zero] at hunset
  exact fun r hr => Bool.eq_false_iff.2 (hunset r hr)

theorem results_eq_report (h : ∀ r ∈ p.results.toList, Option.isNone r = false) :
    p.results.toList = p.report.results.map some := by
  change _ = (p.results.toList.map _).map some
  rw [List.map_map]
  refine ((List.map_congr_left fun r hr => ?_).trans (List.map_id _)).symm
  cases r with
  | none => cases h _ hr
  | some r => rfl

theorem Credit.books_finish {s₀ : Shared κ} {count : Nat} {ended : List Ending} {id : ThreadId}
    (h : Credit s₀ count p ended) (hb : Booked p.slots p.results p.remaining)
    (hid : ∀ n < count, id ≠ rootThread s₀ n) (result : Except RuntimeError Address) :
    (p.finish id result).books = p.books := by
  have hnone : p.slots.lookup id = none := by
    cases hl : p.slots.lookup id with
    | none => rfl
    | some index =>
      have hmem := mem_of_lookup hl
      have hmissing := (hb.missing index).2 (List.mem_map_of_mem hmem)
      obtain ⟨hlt, -⟩ := Array.getElem?_eq_some_iff.1 hmissing
      exact absurd (h.slots _ hmem) (hid index (h.size ▸ hlt))
  unfold finish
  rw [hnone]
  cases result <;> rfl

theorem delivers_of {roots : List Address} {s₀ : Shared κ} {ended : List Ending}
    (hb : Booked p.slots p.results p.remaining) (hcensus : Census s₀ p ended)
    (hcredit : Credit s₀ roots.length p ended) (hstaffed : p.Staffed) :
    p.Delivers roots s₀ ended := by
  have hsize : p.jobs.length = p.workers.size := by rw [jobs, List.length_map, Array.length_toList]
  have htotal := hstaffed.total
  have hpos := hstaffed.pos
  constructor
  case threads => exact hcensus.once
  case slots => exact hb.remaining
  case unset => exact hcredit.unset
  case retired => omega
  case present =>
    intro hdone
    have hpresent := hstaffed.present hdone
    rw [countP_jobs] at hpresent
    omega
  case others => exact fun id hid result => hcredit.books_finish hb hid result
  case results =>
    intro hover
    have hdone : p.done = true := hover.elim id hstaffed.done_of_gone
    have hall := results_eq_report (hcredit.isNone_of_done hdone)
    have hlength : p.report.results.length = roots.length := by
      rw [← hcredit.size, ← Array.length_toList, hall, List.length_map]
    refine ⟨hall, hlength, fun n hn r => ?_⟩
    have hpaid : ∀ r, p.report.results[n]? = some r → (rootThread s₀ n, r) ∈ ended := by
      intro r hr
      refine hcredit.paid n r ?_
      rw [← Array.getElem?_toList, hall, List.getElem?_map, hr]
      rfl
    refine ⟨hpaid r, fun hr => ?_⟩
    obtain ⟨r', hr'⟩ : ∃ r', p.report.results[n]? = some r' :=
      ⟨_, List.getElem?_eq_getElem (hlength.symm ▸ hn)⟩
    rw [hr', hcensus.ending_unique hr (hpaid r' hr')]

theorem delivers_of_history {o : RuntimeOptions} {roots : List Address} {shared : Shared κ}
    {deeds : List Deed} (hp : program.Conventional) (hidle : ∀ a, shared.heap.owner? a = none)
    (h : History program (start o roots shared) deeds p) :
    p.Delivers roots shared (endingsOf deeds) := by
  have htracked := fun {p : Pool κ} {deeds : List Deed}
      (h : History program (start o roots shared) deeds p) =>
    tracked_of_moves hp hidle h.moves
  have hbooks : Census shared p (endingsOf deeds) ∧
      Credit shared roots.length p (endingsOf deeds) ∧ p.Staffed := by
    induction h with
    | start => exact ⟨.start o roots shared hidle, .start o roots shared, .start o roots shared⟩
    | act h ha hd ih =>
      obtain ⟨hcensus, hcredit, hstaffed⟩ := ih
      obtain ⟨s, hrun, hm, haccounted⟩ := htracked h
      have hs := System.sound_of_reaches hp (initial_vacant o hidle) hrun
      have heffect := ha.effect hp hm hs hd
      rw [endingsOf_append, endingsOf_singleton]
      exact ⟨hcensus.act hp hm hs ha, hcredit.effect haccounted.booked heffect,
        hstaffed.effect heffect⟩
  obtain ⟨_, -, -, haccounted⟩ := htracked h
  exact delivers_of haccounted.booked hbooks.1 hbooks.2.1 hbooks.2.2

theorem exists_works_rest {quantum fuel : Nat} {o : RuntimeOptions} {roots : List Address}
    {shared shared' : Shared κ} {report : PoolReport}
    (h : run program quantum fuel o roots shared = some (report, shared')) :
    ∃ p, Works program (start o roots shared) p ∧
      (p.done = true ∧ (∀ w ∈ p.workers, w.job = .idle) ∨ ∀ w ∈ p.workers, isGone w.job = true) ∧
        report = p.report ∧ shared' = p.drain := by
  -- A run that comes to an end is one of the histories, and then no worker has a thread in its
  -- hands: there was nothing to do from the start, or all workers have left.
  unfold run complete at h
  split at h
  · next hdone =>
    cases h
    exact ⟨_, .refl _, .inl ⟨hdone, fun w hw => job_start (Array.mem_toList_iff.2 hw)⟩, rfl, rfl⟩
  · cases hr : rounds program quantum fuel (start o roots shared).announce with
    | none =>
      rw [hr] at h
      cases h
    | some p =>
      rw [hr] at h
      cases h
      obtain ⟨hrounds, hgone⟩ := works_rounds hr
      exact ⟨p, (works_announce _).trans hrounds,
        .inr fun w hw => by simpa using Array.all_eq_true_iff_forall_mem.1 hgone w hw, rfl, rfl⟩

/-- However the workers of a pool take turns, no thread gets lost or is in two places, and each root
gets what its own thread comes to. -/
theorem delivery (hp : program.Conventional) (o : RuntimeOptions) (roots : List Address)
    (shared : Shared κ) (hidle : ∀ a, shared.heap.owner? a = none) :
    (start o roots shared).queue.threads =
        roots.mapIdx (fun n a => ⟨rootThread shared n, .empty o.stackLimit.toNat, .enter a⟩) ∧
      (∀ deeds p, History program (start o roots shared) deeds p →
        p.Delivers roots shared (endingsOf deeds)) ∧
      ∀ quantum fuel report shared',
        run program quantum fuel o roots shared = some (report, shared') →
          ∃ deeds p, History program (start o roots shared) deeds p ∧ Undisturbed deeds ∧
            shared' = p.drain ∧ p.results.toList = report.results.map some ∧
            report.results.length = roots.length ∧
              ∀ n < roots.length, ∀ r,
                report.results[n]? = some r ↔ (rootThread shared n, r) ∈ endingsOf deeds := by
  refine ⟨congrArg (·.1) (spawnRoots_eq o.stackLimit.toNat roots 0 shared),
    fun deeds p h => delivers_of_history hp hidle h, fun quantum fuel report shared' h => ?_⟩
  obtain ⟨p, ⟨deeds, hhistory, hd⟩, hrest, rfl, hdrain⟩ := exists_works_rest h
  have hover : p.done = true ∨ ∀ w ∈ p.workers, isGone w.job = true := hrest.imp_left And.left
  exact ⟨deeds, p, hhistory, hd, hdrain, (delivers_of_history hp hidle hhistory).results hover⟩

def offering : Program Nat where
  body
    | 0, _ => .spark ⟨3⟩ fun _ => .done (.enter ⟨1⟩)
    | 1, _ => .giveBack ⟨2⟩
    | _, _ => .fail .nonTermination

def offers : Shared Nat := { (Shared.empty default : Shared Nat) with
  heap := ⟨#[.thunk (.unevaluated ⟨0, []⟩), .thunk (.unevaluated ⟨1, []⟩), .data ⟨"Unit", 0⟩ [],
    .thunk (.unevaluated ⟨2, []⟩)]⟩ }

theorem conventional_offering : offering.Conventional where
  disciplined code captured := by
    match code with
    | 0 => exact fun _ => trivial
    | 1 => trivial
    | _ + 2 => trivial
  returns code captured m m' h := by
    match code with
    | 0 => cases h
    | 1 =>
      cases h
      change (Registers.setResult _ _).result? ≠ none
      simp
    | _ + 2 => cases h

theorem owner?_offers (a : Address) : offers.heap.owner? a = none := by
  cases ho : offers.heap.owner? a with
  | none => rfl
  | some t =>
    obtain ⟨body, blocked, hc⟩ := Heap.owner?_eq_some_iff.1 ho
    obtain ⟨i⟩ := a
    have hi : i < offers.heap.size := Heap.lt_size_of_cell_eq_thunk hc
    match i, hi with
    | 0, _ => cases hc
    | 1, _ => cases hc
    | 2, _ => cases hc
    | 3, _ => cases hc

def talkative : RuntimeOptions := ⟨2, 1, 1, 4, ⟨true⟩⟩

theorem delivery_offering :
    offering.Conventional ∧ (∀ a, offers.heap.owner? a = none) ∧
      ∃ report shared', run offering 1 30 talkative [⟨3⟩, ⟨0⟩] offers = some (report, shared') ∧
        report.results = [.error .nonTermination, .ok ⟨2⟩] ∧ report.summary.sparksRun = 1 ∧
          ∃ deeds p, History offering (start talkative [⟨3⟩, ⟨0⟩] offers) deeds p ∧
            shared' = p.drain ∧ (rootThread offers 0, .error .nonTermination) ∈ endingsOf deeds ∧
              (rootThread offers 1, .ok ⟨2⟩) ∈ endingsOf deeds := by
  have hreport : (run offering 1 30 talkative [⟨3⟩, ⟨0⟩] offers).map
      (fun r => (r.1.results, r.1.summary.sparksRun)) =
        some ([.error .nonTermination, .ok ⟨2⟩], 1) := by
    decide +kernel
  obtain ⟨⟨report, shared'⟩, hrun, hreport⟩ := Option.map_eq_some_iff.1 hreport
  obtain ⟨hresults, hsparks⟩ := Prod.mk.inj hreport
  obtain ⟨-, -, hdelivered⟩ :=
    delivery conventional_offering talkative [⟨3⟩, ⟨0⟩] offers owner?_offers
  obtain ⟨deeds, p, hhistory, -, hdrain, -, -, hends⟩ := hdelivered _ _ _ _ hrun
  rw [hresults] at hends
  exact ⟨conventional_offering, owner?_offers, report, shared', hrun, hresults, hsparks, deeds, p,
    hhistory, hdrain, (hends 0 (by decide) _).1 rfl, (hends 1 (by decide) _).1 rfl⟩

end Delivery

end Pool

end GraphReduction
