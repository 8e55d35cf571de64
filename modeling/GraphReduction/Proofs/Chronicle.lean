import GraphReduction.Proofs.Bodies
import GraphReduction.Proofs.PoolDelivery
import GraphReduction.Proofs.Tally
import Mathlib.Algebra.BigOperators.Group.List.Basic

/-!
What of a pool its threads depend on, with what the workers do to it apart from running threads; and
the history of a pool iteration by iteration, with the thunks whose code was started.
-/
namespace GraphReduction

open Evaluation

variable {κ : Type} {program : Program κ}

def Counters.tally (c : Counters) : UInt64 × UInt64 := (c.thunkEntries, c.updates)

structure Scene (κ : Type) where
  heap : Heap κ
  waiting : WaitingMap
  lastThread : Nat
  threads : List (Thread κ)
  sparks : List Address
  workers : List (PoolWorker κ)
  gone : UInt64 × UInt64
  stackLimit : Nat

def PoolWorker.tally (w : PoolWorker κ) : UInt64 × UInt64 :=
  if Pool.isGone w.job then 0 else w.context.counters.tally

def Scene.tally (s : Scene κ) : UInt64 × UInt64 := s.gone + (s.workers.map PoolWorker.tally).sum

section Sums

variable {α M : Type} [AddCommMonoid M] {l rest : List α} {x : α} {i : Nat}

theorem exists_rest (hi : l[i]? = some x) :
    ∃ rest, l.Perm (x :: rest) ∧ ∀ y, (l.set i y).Perm (y :: rest) := by
  obtain ⟨hlt, rfl⟩ := List.getElem?_eq_some_iff.1 hi
  exact ⟨l.eraseIdx i, (List.getElem_cons_eraseIdx_perm hlt).symm,
    List.set_perm_cons_eraseIdx hlt⟩

theorem sum_of_perm (f : α → M) (hp : l.Perm (x :: rest)) :
    (l.map f).sum = f x + (rest.map f).sum := by
  rw [(hp.map f).sum_eq, List.map_cons, List.sum_cons]

theorem Scene.tally_set {s s' : Scene κ} {w w' : PoolWorker κ} {d : UInt64 × UInt64}
    (hi : s.workers[i]? = some w) (hw : s'.workers = s.workers.set i w')
    (hd : s'.gone + w'.tally = s.gone + w.tally + d) : s'.tally = s.tally + d := by
  obtain ⟨rest, hold, hnew⟩ := exists_rest hi
  rw [tally, tally, hw, sum_of_perm _ hold, sum_of_perm _ (hnew w'), ← add_assoc, hd,
    ← add_assoc, add_right_comm]

end Sums

structure Boards (t : Thread κ) (before : Context κ) (c : Control) (after : Context κ) :
    Prop where
  thread : after.thread = t.id
  stack : after.stack = t.stack
  interrupted : after.interrupted = before.interrupted
  counters : after.counters = before.counters
  point : resumePoint? after.registers c = some t.pending
  free : ∀ a, c ≠ .blocked a

theorem boards_begin (t : Thread κ) (m : Machine κ) :
    Boards t m.context (begin t m).1 (begin t m).2.context := by
  obtain ⟨id, stack, pending⟩ := t
  cases pending with
  | enter a => exact ⟨rfl, rfl, rfl, rfl, rfl, nofun⟩
  | apply f args => exact ⟨rfl, rfl, rfl, rfl, rfl, nofun⟩
  | resume a =>
    refine ⟨rfl, rfl, rfl, rfl, ?_, nofun⟩
    exact congrArg (Option.map Pending.resume) (Registers.result?_setResult _ _)

inductive Shift (s : Scene κ) : Scene κ → Prop where
  | takes {i : Nat} {w : PoolWorker κ} {t : Thread κ} {rest : List (Thread κ)} {c : Control}
      {context : Context κ} : s.workers[i]? = some w → w.job = .idle → s.threads = t :: rest →
      Boards t w.context c context →
      Shift s { s with
        waiting := s.waiting.erase t.id
        threads := rest
        workers := s.workers.set i ⟨context, .running t.id 0 c⟩ }
  | drops {a : Address} {rest : List Address} : s.sparks = a :: rest →
      Shift s { s with sparks := rest }
  | sparks {i : Nat} {w : PoolWorker κ} {a : Address} {rest : List Address} {c : Control}
      {context : Context κ} : s.workers[i]? = some w → w.job = .idle → s.sparks = a :: rest →
      Boards ⟨⟨s.lastThread + 1⟩, .empty s.stackLimit, .enter a⟩ w.context c context →
      Shift s { s with
        waiting := s.waiting.erase ⟨s.lastThread + 1⟩
        lastThread := s.lastThread + 1
        sparks := rest
        workers := s.workers.set i ⟨context, .running ⟨s.lastThread + 1⟩ 0 c⟩ }
  | leaves {i : Nat} {w : PoolWorker κ} : s.workers[i]? = some w → w.job = .idle →
      Shift s { s with
        workers := s.workers.set i ⟨w.context, .gone⟩
        gone := s.gone + w.context.counters.tally }
  | ends {i : Nat} {w : PoolWorker κ} {id : ThreadId} {outcome : Outcome κ} :
      s.workers[i]? = some w → w.job = .ending id outcome → outcome.endings id ≠ [] →
      Shift s { s with workers := s.workers.set i ⟨w.context, .idle⟩ }
  | requeues {i : Nat} {w : PoolWorker κ} {id : ThreadId} {t : Thread κ} :
      s.workers[i]? = some w → w.job = .ending id (.yielded t) →
      Shift s { s with
        threads := s.threads ++ [t]
        workers := s.workers.set i ⟨w.context, .idle⟩ }
  | parks {i : Nat} {w : PoolWorker κ} {id : ThreadId} {t : Thread κ} {a : Address}
      {h : Heap κ} : s.workers[i]? = some w → w.job = .ending id (.blocked t a) →
      s.heap.park? a t = some h →
      Shift s { s with heap := h, workers := s.workers.set i ⟨w.context, .idle⟩ }
  | returns {i : Nat} {w : PoolWorker κ} {id : ThreadId} {t : Thread κ} {a : Address} :
      s.workers[i]? = some w → w.job = .ending id (.blocked t a) → s.heap.park? a t = none →
      Shift s { s with
        threads := s.threads ++ [t]
        workers := s.workers.set i ⟨w.context, .idle⟩ }

theorem Shift.tally {s s' : Scene κ} (h : Shift s s') : s'.tally = s.tally := by
  have hsame : ∀ {i : Nat} {w w' : PoolWorker κ} {s' : Scene κ}, s.workers[i]? = some w →
      s'.workers = s.workers.set i w' → s'.gone = s.gone → Pool.isGone w.job = false →
      Pool.isGone w'.job = false → w'.context.counters = w.context.counters → s'.tally = s.tally := by
    intro i w w' s' hi hw hgone hold hnew hc
    refine (Scene.tally_set (d := 0) hi hw ?_).trans (add_zero _)
    rw [hgone, PoolWorker.tally, PoolWorker.tally, hold, hnew, hc, add_zero]
  cases h with
  | takes hi hidle _ hb => exact hsame hi rfl rfl (by rw [hidle]; rfl) rfl hb.counters
  | drops _ => rfl
  | sparks hi hidle _ hb => exact hsame hi rfl rfl (by rw [hidle]; rfl) rfl hb.counters
  | leaves hi hidle =>
    refine (Scene.tally_set (d := 0) hi rfl ?_).trans (add_zero _)
    rw [PoolWorker.tally, PoolWorker.tally, hidle]
    simp [Pool.isGone]
  | ends hi he _ => exact hsame hi rfl rfl (by rw [he]; rfl) rfl rfl
  | requeues hi he => exact hsame hi rfl rfl (by rw [he]; rfl) rfl rfl
  | parks hi he _ => exact hsame hi rfl rfl (by rw [he]; rfl) rfl rfl
  | returns hi he _ => exact hsame hi rfl rfl (by rw [he]; rfl) rfl rfl

namespace Pool

variable {p p' p₀ : Pool κ} {i k : Nat} {w : PoolWorker κ} {id : ThreadId} {c : Control}
  {t : Thread κ} {outcome : Outcome κ} {s : System κ} {log : List Address}
  {ended : List Ending} {deed : Deed}

def scene (p : Pool κ) : Scene κ where
  heap := p.shared.heap
  waiting := p.shared.waiting
  lastThread := p.shared.lastThread
  threads := p.queue.threads
  sparks := p.queue.sparks
  workers := p.workers.toList
  gone := p.counters.tally
  stackLimit := p.options.stackLimit.toNat

section Shifts

theorem scene_worker (hw : p.workers[i]? = some w) : p.scene.workers[i]? = some w := by
  change p.workers.toList[i]? = _
  rw [Array.getElem?_toList, hw]

theorem scene_remark (p : Pool κ) (message : String) (details : List (String × String)) :
    (p.remark message details).scene = p.scene := by
  rcases Tracked.remark_eq p message details with he | he <;> rw [he]
  obtain ⟨hheap, hwaiting, hlast⟩ :=
    System.report_spec p.shared .scheduler ⟨.debug, message, details⟩
  simp only [scene, hheap, hwaiting, hlast]

theorem scene_setJob {job : Job κ} (hw : p.workers[i]? = some w) :
    (p.setJob i job).scene =
      { p.scene with workers := p.scene.workers.set i ⟨w.context, job⟩ } := by
  rw [setJob_eq hw]
  simp only [scene, Array.toList_setIfInBounds]

theorem scene_take (hw : p.workers[i]? = some w) :
    ∃ c context, Boards t w.context c context ∧ (p.take i t).scene = { p.scene with
      waiting := p.scene.waiting.erase t.id
      workers := p.scene.workers.set i ⟨context, .running t.id 0 c⟩ } := by
  obtain ⟨hheap, hlast, hwaiting, -⟩ :=
    System.begin_spec t ⟨p.shared, .pool p.queue, w.context⟩
  refine ⟨_, _, boards_begin t ⟨p.shared, .pool p.queue, w.context⟩, ?_⟩
  rw [take_eq hw]
  simp only [scene, hheap, hlast, hwaiting, Machine.heap, Array.toList_setIfInBounds]

theorem shift_dequeue (hw : p.workers[i]? = some w) (hidle : w.job = .idle)
    (hd : p.dequeue? i = some p') : Shift p.scene p'.scene := by
  unfold dequeue? at hd
  split at hd
  · cases hd
  · next t rest ht =>
    cases hd
    let p₁ : Pool κ := { p with queue := { p.queue with threads := rest } }
    obtain ⟨c, context, hboards, hscene⟩ := scene_take (p := p₁) (t := t) hw
    rw [hscene]
    exact .takes (scene_worker hw) hidle ht hboards

theorem shift_takeSpark (hw : p.workers[i]? = some w) (hidle : w.job = .idle)
    (ht : p.takeSpark? i = some p') : Shift p.scene p'.scene := by
  unfold takeSpark? at ht
  split at ht
  · cases ht
  · next a rest hsparks =>
    dsimp only at ht
    split at ht
    · cases ht
      exact .drops hsparks
    · cases ht
      let p₁ : Pool κ :=
        { p with queue := { p.queue with sparks := rest, sparksRun := p.queue.sparksRun + 1 } }
      let p₂ : Pool κ := p₁.remark "running spark" [("worker", toString i)]
      have hp₂ : p₂.scene = p₁.scene := scene_remark p₁ _ _
      let p₃ : Pool κ := { p₂ with shared := (p₂.shared.spawn a p₂.options.stackLimit.toNat).2 }
      have hp₃ : p₃.scene = { p₁.scene with lastThread := p₁.scene.lastThread + 1 } := by
        rw [← hp₂]
        rfl
      have hthread : (p₂.shared.spawn a p₂.options.stackLimit.toNat).1 =
          ⟨⟨p₁.scene.lastThread + 1⟩, .empty p₁.scene.stackLimit, .enter a⟩ := by
        rw [← hp₂]
        rfl
      have hw₃ : p₃.workers[i]? = some w := (Tracked.remark_workers p₁ _ _).symm ▸ hw
      obtain ⟨c, context, hboards, hscene⟩ := scene_take
        (t := (p₂.shared.spawn a p₂.options.stackLimit.toNat).1) hw₃
      change Shift p.scene (p₃.take i _).scene
      rw [hscene, hp₃, hthread]
      rw [hthread] at hboards
      exact .sparks (scene_worker hw) hidle hsparks hboards

theorem scene_leave (hw : p.workers[i]? = some w) : (p.leave i).scene = { p.scene with
    workers := p.scene.workers.set i ⟨w.context, .gone⟩
    gone := p.scene.gone + w.context.counters.tally } := by
  have hcontext : p.workers.getD i default = w := by
    rw [Array.getD_eq_getD_getElem?, hw]
    rfl
  unfold leave
  rw [hcontext]
  exact scene_setJob (p := { p with counters := p.counters + w.context.counters }) hw

theorem shift_leave (hw : p.workers[i]? = some w) (hidle : w.job = .idle) :
    Shift p.scene (p.leave i).scene := by
  rw [scene_leave hw]
  exact .leaves (scene_worker hw) hidle

theorem shift_retire (hw : p.workers[i]? = some w) (hidle : w.job = .idle)
    (hr : p.retire? i = some p') : Shift p.scene p'.scene := by
  unfold retire? at hr
  split at hr
  · cases hr
    let p₁ : Pool κ := { p with alive := p.alive - 1, retired := p.retired + 1 }
    let p₂ : Pool κ := p₁.remark "idle worker retiring" [("worker", toString i)]
    have hp₂ : p₂.scene = p.scene := scene_remark p₁ _ _
    have hw₂ : p₂.workers[i]? = some w := (Tracked.remark_workers p₁ _ _).symm ▸ hw
    have hshift := shift_leave hw₂ hidle
    rwa [hp₂] at hshift
  · cases hr

theorem scene_finish (p : Pool κ) (id : ThreadId) (result : Except RuntimeError Address) :
    (p.finish id result).scene = p.scene := by
  unfold finish
  split
  · rfl
  · cases result with
    | ok v => rfl
    | error e =>
      obtain ⟨hheap, hwaiting, hlast⟩ := System.report_spec p.shared .scheduler
        ⟨.debug, "spark halted", [("thread", id.text), ("error", e.message)]⟩
      simp only [scene, hheap, hwaiting, hlast]

theorem scene_end (hw : p.workers[i]? = some w) (result : Except RuntimeError Address) :
    ((p.finish id result).setJob i .idle).scene =
      { p.scene with workers := p.scene.workers.set i ⟨w.context, .idle⟩ } := by
  rw [scene_setJob (workers_finish p id result ▸ hw), scene_finish]

theorem shift_conclude (hw : p.workers[i]? = some w) (hjob : w.job = .ending id outcome) :
    (outcome = .endless ∧ p.conclude i id outcome = p) ∨
      Shift p.scene (p.conclude i id outcome).scene := by
  have hs := scene_worker hw
  cases outcome with
  | finished v =>
    have he : (p.conclude i id (.finished v)).scene = _ := scene_end hw _
    rw [he]
    exact .inr (.ends hs hjob (List.cons_ne_nil _ _))
  | halted e =>
    have he : (p.conclude i id (.halted e)).scene = _ := scene_end hw _
    rw [he]
    exact .inr (.ends hs hjob (List.cons_ne_nil _ _))
  | yielded t =>
    let p₁ : Pool κ := { p with queue := p.queue.requeue [t] }
    have he : (p.conclude i id (.yielded t)).scene = _ := scene_setJob (p := p₁) hw
    rw [he]
    exact .inr (.requeues hs hjob)
  | blocked t a =>
    let p₁ : Pool κ := p.remark "parking on thunk" [("worker", toString i), ("thread", id.text)]
    have hp₁ : p₁.scene = p.scene := scene_remark p _ _
    have hheap : p₁.shared.heap = p.scene.heap := congrArg Scene.heap hp₁
    have hw₁ : p₁.workers[i]? = some w := (Tracked.remark_workers p _ _).symm ▸ hw
    refine .inr ?_
    change Shift p.scene ((p₁.park t a).setJob i .idle).scene
    rw [scene_setJob (workers_park p₁ t a ▸ hw₁)]
    unfold park
    cases hpark : p₁.shared.heap.park? a t with
    | some h =>
      have he : Pool.scene { p₁ with shared := { p₁.shared with heap := h } } =
          { p.scene with heap := h } := by rw [← hp₁]; rfl
      dsimp only
      rw [he]
      exact .parks hs hjob (hheap ▸ hpark)
    | none =>
      have he : Pool.scene { p₁ with queue := p₁.queue.requeue [t] } =
          { p.scene with threads := p.scene.threads ++ [t] } := by rw [← hp₁]; rfl
      dsimp only
      rw [he]
      exact .returns hs hjob (hheap ▸ hpark)
  | endless => exact .inl ⟨rfl, rfl⟩

theorem Act.shift (h : Act program p deed p') (hd : deed.Ordinary) :
    (deed.endings = [] ∧ (p'.scene = p.scene ∨ Shift p.scene p'.scene)) ∨
      ∃ i w id k c k' turn m n, p.workers[i]? = some w ∧ w.job = .running id k c ∧
        iterateUpTo program n k c ⟨p.shared, .pool p.queue, w.context⟩ = ((k', turn), m) ∧
        deed.endings = turn.endings w.context.thread ∧ p' = p.iterate program i n id k c := by
  cases h with
  | dequeue hw hidle hd => exact .inl ⟨rfl, .inr (shift_dequeue hw hidle hd)⟩
  | takeSpark hw hidle ht => exact .inl ⟨rfl, .inr (shift_takeSpark hw hidle ht)⟩
  | retire hw hidle hr => exact .inl ⟨rfl, .inr (shift_retire hw hidle hr)⟩
  | leave hw hidle => exact .inl ⟨rfl, .inr (shift_leave hw hidle)⟩
  | iterate n hw hjob hr =>
    exact .inr ⟨_, _, _, _, _, _, _, _, n, hw, hjob, hr, Deed.endings_ofTurn .., rfl⟩
  | conclude hw hjob =>
    exact .inl ⟨rfl, (shift_conclude hw hjob).imp_left fun he => congrArg scene he.2⟩
  | remark message details => exact .inl ⟨rfl, .inl (scene_remark p message details)⟩
  | interrupt flag => exact absurd rfl (hd.2 flag)

theorem shift_turn (quantum : Nat) (hw : p.workers[i]? = some w) :
    (p.turn program quantum i = p ∧ (w.job = .gone ∨ (∃ id, w.job = .ending id .endless) ∨
      w.job = .idle ∧ p.done = false ∧ p.queue.threads = [])) ∨
      Shift p.scene (p.turn program quantum i).scene ∨
        ∃ id k c, w.job = .running id k c ∧
          p.turn program quantum i = p.iterate program i quantum id k c := by
  have hjob : p.job i = w.job := by
    rw [job, Array.getD_eq_getD_getElem?, hw]
    rfl
  unfold turn
  rw [hjob]
  cases hj : w.job with
  | gone => exact .inl ⟨rfl, .inl rfl⟩
  | running id k c => exact .inr (.inr ⟨id, k, c, rfl, rfl⟩)
  | ending id outcome =>
    rcases shift_conclude hw hj with ⟨rfl, he⟩ | hshift
    · exact .inl ⟨he, .inr (.inl ⟨id, rfl⟩)⟩
    · exact .inr (.inl hshift)
  | idle =>
    dsimp only
    split
    · exact .inr (.inl (shift_leave hw hj))
    · next hdone =>
      cases hd : p.dequeue? i with
      | some p' => exact .inr (.inl (shift_dequeue hw hj hd))
      | none =>
        cases hs : p.takeSpark? i with
        | some p' => exact .inr (.inl (shift_takeSpark hw hj hs))
        | none =>
          cases hr : p.retire? i with
          | some p' => exact .inr (.inl (shift_retire hw hj hr))
          | none =>
            refine .inl ⟨rfl, .inr (.inr ⟨rfl, Bool.eq_false_iff.2 hdone, ?_⟩)⟩
            unfold dequeue? at hd
            split at hd
            · assumption
            · cases hd

def Rests (p p' : Pool κ) : Prop :=
  ∀ (i : Nat) w, p.workers[i]? = some w → (∃ id k c, w.job = .running id k c) →
    p'.workers[i]? = some w

theorem rests_of_scene (h : p'.scene = p.scene ∨ Shift p.scene p'.scene) : Rests p p' := by
  intro i w hw hrunning
  obtain ⟨id, k, c, hjob⟩ := hrunning
  have hs := scene_worker hw
  have hset : ∀ {j : Nat} {v v' : PoolWorker κ}, p.scene.workers[j]? = some v →
      (∀ id k c, v.job ≠ .running id k c) → p'.scene.workers = p.scene.workers.set j v' →
      p'.scene.workers[i]? = some w := by
    intro j v v' hv hnot he
    have hne : j ≠ i := by
      rintro rfl
      rw [hs] at hv
      cases hv
      exact hnot id k c hjob
    rw [he, List.getElem?_set_ne hne, hs]
  have hgoal : p'.scene.workers[i]? = some w := by
    rcases h with he | h
    · rw [he, hs]
    generalize p'.scene = s' at h hset
    cases h with
    | drops _ => exact hs
    | takes hv hidle _ _ => exact hset hv (by rw [hidle]; nofun) rfl
    | sparks hv hidle _ _ => exact hset hv (by rw [hidle]; nofun) rfl
    | leaves hv hidle => exact hset hv (by rw [hidle]; nofun) rfl
    | ends hv he _ => exact hset hv (by rw [he]; nofun) rfl
    | requeues hv he => exact hset hv (by rw [he]; nofun) rfl
    | parks hv he _ => exact hset hv (by rw [he]; nofun) rfl
    | returns hv he _ => exact hset hv (by rw [he]; nofun) rfl
  rw [← Array.getElem?_toList]
  exact hgoal

end Shifts

section Iterations

theorem iterateUpTo_one {turn : Turn κ} {m m' : Machine κ}
    (hi : Evaluation.iterate program k c m = (turn, m')) :
    iterateUpTo program 1 k c m = ((k + 1, turn), m') := by
  rcases turn with c' | outcome
  · exact iterateUpTo_of_next hi
  · exact iterateUpTo_of_over hi

theorem lt_of_iterateUpTo {n k' : Nat} {turn : Turn κ} {m m' : Machine κ}
    (h : iterateUpTo program (n + 1) k c m = ((k', turn), m')) : k < k' := by
  induction n generalizing k c m with
  | zero =>
    rw [iterateUpTo_one rfl] at h
    cases h
    exact Nat.lt_succ_self k
  | succ n ih =>
    cases hi : Evaluation.iterate program k c m with
    | mk first m₁ =>
      rcases first with c' | outcome
      · rw [iterateUpTo_of_next hi] at h
        exact Nat.lt_of_succ_lt (ih h)
      · rw [iterateUpTo_of_over hi] at h
        cases h
        exact Nat.lt_succ_self k

theorem iterate_zero (hw : p.workers[i]? = some w) (hjob : w.job = .running id k c) :
    p.iterate program i 0 id k c = p := by
  have hr : iterateUpTo program 0 k c ⟨p.shared, .pool p.queue, w.context⟩ =
      ((k, .next c), ⟨p.shared, .pool p.queue, w.context⟩) := rfl
  obtain ⟨hi, hget⟩ := Array.getElem?_eq_some_iff.1 hw
  have hsame : (⟨w.context, jobOf id k (.next c)⟩ : PoolWorker κ) = p.workers[i] := by
    rw [hget, jobOf, ← hjob]
  rw [iterate_eq hw hr rfl]
  change { p with workers := p.workers.setIfInBounds i ⟨w.context, jobOf id k (.next c)⟩ } = p
  rw [hsame]
  congr 1
  apply Array.toList_inj.1
  rw [Array.toList_setIfInBounds, ← Array.getElem_toList hi, List.set_getElem_self]

variable {n k' : Nat} {turn turn' : Turn κ} {m m' : Machine κ} {q q' : RunQueue κ} {c' : Control}

theorem iterate_one (hw : p.workers[i]? = some w)
    (hi : Evaluation.iterate program k c ⟨p.shared, .pool p.queue, w.context⟩ = (turn, m))
    (hq : m.scheduler = .pool q) :
    p.iterate program i 1 id k c = { p with
      shared := m.shared
      queue := q
      workers := p.workers.setIfInBounds i ⟨m.context, jobOf id (k + 1) turn⟩ } :=
  iterate_eq hw (iterateUpTo_one hi) hq

theorem worker_iterate_one (id : ThreadId) (hw : p.workers[i]? = some w)
    (hi : Evaluation.iterate program k c ⟨p.shared, .pool p.queue, w.context⟩ = (turn, m))
    (hq : m.scheduler = .pool q) :
    (p.iterate program i 1 id k c).workers[i]? = some ⟨m.context, jobOf id (k + 1) turn⟩ := by
  obtain ⟨hlt, -⟩ := Array.getElem?_eq_some_iff.1 hw
  rw [iterate_one hw hi hq]
  exact Array.getElem?_setIfInBounds_self_of_lt hlt

theorem scene_iterate_one (hw : p.workers[i]? = some w)
    (hi : Evaluation.iterate program k c ⟨p.shared, .pool p.queue, w.context⟩ = (turn, m))
    (hq : m.scheduler = .pool q) :
    (p.iterate program i 1 id k c).scene = { p.scene with
      heap := m.heap
      waiting := m.shared.waiting
      lastThread := m.shared.lastThread
      threads := q.threads
      sparks := q.sparks
      workers := p.scene.workers.set i ⟨m.context, jobOf id (k + 1) turn⟩ } := by
  rw [iterate_one hw hi hq]
  simp only [scene, Array.toList_setIfInBounds]
  rfl

theorem machine_iterate_one (id : ThreadId) (hw : p.workers[i]? = some w)
    (hi : Evaluation.iterate program k c ⟨p.shared, .pool p.queue, w.context⟩ = (turn, m))
    (hq : m.scheduler = .pool q) :
    (⟨(p.iterate program i 1 id k c).shared, .pool (p.iterate program i 1 id k c).queue,
      m.context⟩ : Machine κ) = m := by
  rw [iterate_one hw hi hq, ← hq]

theorem iterate_succ (hw : p.workers[i]? = some w)
    (hi : Evaluation.iterate program k c ⟨p.shared, .pool p.queue, w.context⟩ = (.next c', m))
    (hq : m.scheduler = .pool q) (hr : iterateUpTo program n (k + 1) c' m = ((k', turn'), m'))
    (hq' : m'.scheduler = .pool q') :
    p.iterate program i (n + 1) id k c =
      (p.iterate program i 1 id k c).iterate program i n id (k + 1) c' := by
  have hr₀ : iterateUpTo program (n + 1) k c ⟨p.shared, .pool p.queue, w.context⟩ =
      ((k', turn'), m') := (iterateUpTo_of_next hi).trans hr
  have hr₁ := hr
  rw [← machine_iterate_one id hw hi hq] at hr₁
  rw [iterate_eq hw hr₀ hq', iterate_eq (worker_iterate_one id hw hi hq) hr₁ hq',
    iterate_one hw hi hq]
  simp

end Iterations

section Chronicles

inductive Starts (k : Nat) (c : Control) (m : Machine κ) : List Address → Prop where
  | code {a : Address} {body : Suspension κ} {m₁ : Machine κ} : c = .entering a →
      m.heap.cell a = .thunk (.unevaluated body) → Runs k c m body.code body.captured m₁ →
      Starts k c m [a]
  | nothing : (∀ a body m₁, c = .entering a → m.heap.cell a = .thunk (.unevaluated body) →
      ¬ Runs k c m body.code body.captured m₁) → Starts k c m []

theorem exists_starts (k : Nat) (c : Control) (m : Machine κ) : ∃ names, Starts k c m names := by
  by_cases h : ∃ a body m₁, c = .entering a ∧ m.heap.cell a = .thunk (.unevaluated body) ∧
      Runs k c m body.code body.captured m₁
  · obtain ⟨a, body, m₁, hc, hb, hr⟩ := h
    exact ⟨_, .code hc hb hr⟩
  · exact ⟨_, .nothing fun a body m₁ hc hb hr => h ⟨a, body, m₁, hc, hb, hr⟩⟩

theorem Starts.eq_nil_of_over {names : List Address} {m m' : Machine κ}
    (hs : Starts k c m names)
    (hi : Evaluation.iterate program k c m = (.over outcome, m')) : names = [] := by
  cases hs with
  | nothing _ => rfl
  | code _ _ hr => exact absurd (congrArg Prod.fst ((hr program).symm.trans hi)) nofun

theorem runs_of_next {a : Address} {body : Suspension κ} {c' : Control} {m m' : Machine κ}
    (hc : m.heap.cell a = .thunk (.unevaluated body))
    (hroom : m.context.stack.frames.length < m.context.stack.limit)
    (hi : Evaluation.iterate program k (.entering a) m = (.next c', m')) :
    ∃ m₁, Runs k (.entering a) m body.code body.captured m₁ := by
  obtain ⟨m₁, hpoll, ⟨e, -, hi'⟩ | ⟨pending, -, hi'⟩ | hi'⟩ :=
    Halting.iterate_cases k (.entering a) m
  · rw [hi' program] at hi
    cases hi
  · rw [hi' program] at hi
    cases hi
  · obtain ⟨m₂, s, hadv, -⟩ := advance_start (hpoll.heap ▸ hc) (hpoll.stack ▸ hroom)
    exact ⟨m₂, fun p => (hi' p).trans (hadv p)⟩

/-- The acts of the workers in any order, one iteration at a time, with the thunks whose code was
started and the threads that have ended. -/
inductive Chronicle (program : Program κ) (p₀ : Pool κ) :
    List Address → List Ending → Pool κ → Prop where
  | start : Chronicle program p₀ [] [] p₀
  | iterate {log : List Address} {ended : List Ending} {p : Pool κ} {i k : Nat}
      {w : PoolWorker κ} {id : ThreadId} {c : Control} {turn : Turn κ} {m : Machine κ}
      {names : List Address} :
      Chronicle program p₀ log ended p → p.workers[i]? = some w → w.job = .running id k c →
      Evaluation.iterate program k c ⟨p.shared, .pool p.queue, w.context⟩ = (turn, m) →
      Starts k c ⟨p.shared, .pool p.queue, w.context⟩ names →
      Chronicle program p₀ (log ++ names)
        (ended ++ turn.endings w.context.thread) (p.iterate program i 1 id k c)
  | other {log : List Address} {ended : List Ending} {p p' : Pool κ} {deed : Deed} :
      Chronicle program p₀ log ended p → Act program p deed p' → deed.Ordinary →
      deed.endings = [] → Rests p p' → Chronicle program p₀ log ended p'

theorem Chronicle.exists_history (h : Chronicle program p₀ log ended p) :
    ∃ deeds, History program p₀ deeds p ∧ Undisturbed deeds ∧ endingsOf deeds = ended := by
  induction h with
  | start => exact ⟨[], .start, undisturbed_nil, rfl⟩
  | @iterate _ _ _ _ _ w _ c turn _ _ _ hw hjob hi _ ih =>
    obtain ⟨deeds, h, hd, rfl⟩ := ih
    have hordinary := Deed.ordinary_ofTurn w.context.thread c turn
    refine ⟨_, .act h (.iterate 1 hw hjob (iterateUpTo_one hi)) hordinary.1,
      hd.append hordinary.undisturbed, ?_⟩
    rw [endingsOf_append, endingsOf_singleton, Deed.endings_ofTurn]
  | other _ ha hordinary hnone _ ih =>
    obtain ⟨deeds, h, hd, rfl⟩ := ih
    refine ⟨_, .act h ha hordinary.1, hd.append hordinary.undisturbed, ?_⟩
    rw [endingsOf_append, endingsOf_singleton, hnone, List.append_nil]

theorem Chronicle.works (h : Chronicle program p₀ log ended p) : Works program p₀ p := by
  obtain ⟨deeds, h, hd, -⟩ := h.exists_history
  exact ⟨deeds, h, hd⟩

variable {o : RuntimeOptions} {roots : List Address} {shared : Shared κ} {n k' : Nat}
  {turn : Turn κ} {m : Machine κ}

theorem Chronicle.iterations (hp : program.Conventional) (hidle : ∀ a, shared.heap.owner? a = none)
    {P : Pool κ → Prop} (hstep : ∀ {log : List Address} {ended : List Ending} {p : Pool κ} {k : Nat}
      {w : PoolWorker κ} {c : Control} {turn : Turn κ} {m : Machine κ},
      Chronicle program (Pool.start o roots shared) log ended p → p.workers[i]? = some w →
        w.job = .running id k c →
        Evaluation.iterate program k c ⟨p.shared, .pool p.queue, w.context⟩ = (turn, m) →
        P p → P (p.iterate program i 1 id k c))
    (h : Chronicle program (Pool.start o roots shared) log ended p) (hw : p.workers[i]? = some w)
    (hjob : w.job = .running id k c) (hstart : P p)
    (hr : iterateUpTo program n k c ⟨p.shared, .pool p.queue, w.context⟩ = ((k', turn), m)) :
    (∃ log', Chronicle program (Pool.start o roots shared) log'
      (ended ++ turn.endings w.context.thread) (p.iterate program i n id k c)) ∧
      P (p.iterate program i n id k c) := by
  -- What an iteration needs to know of the system holds again after each of them.
  induction n generalizing p w k c log ended with
  | zero =>
    cases hr
    rw [iterate_zero hw hjob, show Turn.endings w.context.thread (.next c) = [] from rfl,
      List.append_nil]
    exact ⟨⟨_, h⟩, hstart⟩
  | succ n ih =>
    have hsound : ∀ {p log ended}, Chronicle program (Pool.start o roots shared) log ended p →
        ∃ s : System κ, Mirrors p [] s ∧ s.Sound := by
      intro p log ended h
      obtain ⟨s, hrun, hm, -⟩ := tracked_of_moves hp hidle h.works.moves
      exact ⟨s, hm, System.sound_of_reaches hp (initial_vacant o hidle) hrun⟩
    -- A slice of several iterations is split into its first one and the slice that is left.
    obtain ⟨s, hm, hs⟩ := hsound h
    obtain ⟨hid, -, q', hq', -⟩ := hm.passage hp hs hw hjob hr
    cases hi : Evaluation.iterate program k c ⟨p.shared, .pool p.queue, w.context⟩ with
    | mk turn₁ m₁ =>
      obtain ⟨-, -, q, hq, -⟩ := hm.passage hp hs hw hjob (iterateUpTo_one hi)
      obtain ⟨names, hstarts⟩ := exists_starts k c ⟨p.shared, .pool p.queue, w.context⟩
      have hone := h.iterate hw hjob hi hstarts
      have hnext := hstep h hw hjob hi hstart
      rcases turn₁ with c' | outcome
      · rw [iterateUpTo_of_next hi] at hr
        have hw₁ := worker_iterate_one id hw hi hq
        obtain ⟨s₁, hm₁, hs₁⟩ := hsound hone
        have hr₁ := hr
        rw [← machine_iterate_one id hw hi hq] at hr₁
        have hthread : m₁.context.thread = w.context.thread :=
          (hm₁.passage hp hs₁ hw₁ rfl hr₁).1.trans hid.symm
        obtain ⟨⟨log', hrest⟩, hlast⟩ := ih hone hw₁ rfl hnext hr₁
        rw [iterate_succ hw hi hq hr hq']
        change Chronicle program _ log' (ended ++ [] ++ turn.endings m₁.context.thread) _ at hrest
        rw [List.append_nil, hthread] at hrest
        exact ⟨⟨log', hrest⟩, hlast⟩
      · have hr₁ := hr
        rw [iterateUpTo_of_over hi] at hr
        cases hr
        rw [iterate_one hw hi hq] at hone hnext
        rw [iterate_eq hw hr₁ hq]
        exact ⟨⟨_, hone⟩, hnext⟩

theorem exists_chronicle {deeds : List Deed} (hp : program.Conventional)
    (hidle : ∀ a, shared.heap.owner? a = none)
    (h : History program (start o roots shared) deeds p) (hd : Undisturbed deeds) :
    ∃ log, Chronicle program (start o roots shared) log (endingsOf deeds) p := by
  induction h with
  | start => exact ⟨_, .start⟩
  | act _ ha htimely ih =>
    obtain ⟨hd, hlast⟩ := undisturbed_append.1 hd
    obtain ⟨log, h⟩ := ih hd
    have hordinary : Deed.Ordinary _ :=
      ⟨htimely, fun flag he => hlast flag (List.mem_singleton.2 he.symm)⟩
    rw [endingsOf_append, endingsOf_singleton]
    rcases ha.shift hordinary with
      ⟨hnone, hscene⟩ | ⟨i, w, id, k, c, k', turn, m, n, hw, hjob, hr, hends, rfl⟩
    · rw [hnone, List.append_nil]
      exact ⟨log, h.other ha hordinary hnone (rests_of_scene hscene)⟩
    · rw [hends]
      exact (h.iterations hp hidle (P := fun _ => True) (fun _ _ _ _ _ => trivial) hw hjob trivial
        hr).1

theorem not_rests_iterate (hm : Mirrors p [] s) (hs : s.Sound) (hp : program.Conventional)
    (hw : p.workers[i]? = some w) (hjob : w.job = .running id k c)
    (hr : iterateUpTo program (n + 1) k c ⟨p.shared, .pool p.queue, w.context⟩ =
      ((k', turn), m)) : ¬ Rests p (p.iterate program i (n + 1) id k c) := by
  intro hrests
  obtain ⟨-, -, q, hq, -⟩ := hm.passage hp hs hw hjob hr
  have hsame := hrests i w hw ⟨id, k, c, hjob⟩
  obtain ⟨hlt, -⟩ := Array.getElem?_eq_some_iff.1 hw
  rw [iterate_eq hw hr hq] at hsame
  have hnew := Option.some.inj ((Array.getElem?_setIfInBounds_self_of_lt hlt).symm.trans hsame)
  have hgt := lt_of_iterateUpTo hr
  have hjob' : jobOf id k' turn = .running id k c :=
    (congrArg PoolWorker.job hnew).trans hjob
  rcases turn with c' | outcome
  · cases hjob'
    exact absurd hgt (Nat.lt_irrefl _)
  · cases hjob'

theorem Rests.shift (hrests : Rests p p') (ha : Act program p deed p') (hd : deed.Ordinary)
    (hm : Mirrors p [] s) (hs : s.Sound) (hp : program.Conventional) :
    p'.scene = p.scene ∨ Shift p.scene p'.scene := by
  rcases ha.shift hd with ⟨-, hscene⟩ | ⟨i, w, id, k, c, k', turn, m, n, hw, hjob, hr, -, rfl⟩
  · exact hscene
  · cases n with
    | zero => exact .inl (congrArg scene (iterate_zero hw hjob))
    | succ n => exact absurd hrests (not_rests_iterate hm hs hp hw hjob hr)

end Chronicles

end Pool

end GraphReduction
