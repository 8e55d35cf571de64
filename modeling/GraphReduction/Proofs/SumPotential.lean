import GraphReduction.Proofs.SumPool
import Mathlib.Algebra.Order.BigOperators.Group.List
import Mathlib.Algebra.Order.Group.Nat

namespace GraphReduction.SharedSum

open Evaluation Pool

variable {n : Int64} {roots i k : Nat} {h h' : Heap Code} {s s' : Scene Code} {p : Pool Code}
  {entered updated : List Address} {w w' : PoolWorker Code} {t : Thread Code} {id : ThreadId}
  {c : Control} {pending : Pending} {turn : Turn Code} {e e' : Bool}

section Costs

def due (e : Bool) (t : Thread Code) : Nat := rank e t.pending t.stack.frames

def ahead (e : Bool) (context : Context Code) (c : Control) : Nat :=
  ((resumePoint? context.registers c).map fun pending => rank e pending context.stack.frames).getD 0

/-- An iteration counts for ten, so that there is room for the acts in between. A thread that is
about to wait for the shared thunk has less of them before it, unless the thunk has its value by
then and it goes back to the queue. -/
def toll (e : Bool) (w : PoolWorker Code) : Nat :=
  match w.job with
  | .idle => 1
  | .running _ _ (.blocked a) => 10 * ahead e w.context (.blocked a) + if e then 9 else 4
  | .running _ k c => 10 * ahead e w.context c + if k = 0 then 5 else 9
  | .ending _ (.yielded t) => 10 * due e t + 8
  | .ending _ (.blocked t _) => 10 * due e t + if e then 8 else 3
  | .ending _ _ => 2
  | .gone => 0

def potential (n : Int64) (s : Scene Code) : Nat :=
  (s.threads.map fun t => 10 * due (ready s.heap) t + 6).sum +
    (s.workers.map (toll (ready s.heap))).sum +
    (s.heap.parked.map fun t => 10 * due (ready s.heap) t).sum +
    70 * s.sparks.length + 10 * reserve n s.heap

theorem rank_anti (he : e = true → e' = true) (pending : Pending) (frames : List (Frame Code)) :
    rank e' pending frames ≤ rank e pending frames := by
  cases pending with
  | enter a =>
    cases e <;> cases e' <;> simp_all [rank]
    split <;> omega
  | apply f args => exact Nat.le_refl _
  | resume v =>
    unfold rank
    split <;> simp_all

theorem ready_of_later (hl : h.Later h') (hr : ready h = true) : ready h' = true :=
  Settled.later hr hl

theorem Working.ahead_eq {context : Context Code} (hw : Working n roots h context c pending) :
    ahead e context c = rank e pending context.stack.frames := by
  rw [ahead, hw.point]
  rfl

theorem Working.pending_eq {context : Context Code} {a : Address}
    (hw : Working n roots h context (.blocked a) pending) : pending = .enter shared := by
  have hpoint := hw.point
  rw [(hw.blocked a rfl).1] at hpoint
  exact (Option.some.inj hpoint).symm

theorem toll_running {context : Context Code} (hw : Working n roots h context c pending)
    (hc : ∀ a, c ≠ .blocked a) : toll e ⟨context, .running id k c⟩ =
      10 * rank e pending context.stack.frames + if k = 0 then 5 else 9 := by
  rw [← hw.ahead_eq]
  cases c with
  | blocked a => exact absurd rfl (hc a)
  | _ => rfl

theorem toll_blocked {context : Context Code} {a : Address}
    (hw : Working n roots h context (.blocked a) pending) :
    toll e ⟨context, .running id k (.blocked a)⟩ =
      10 * rank e pending context.stack.frames + if e then 9 else 4 := by
  rw [← hw.ahead_eq]
  rfl

theorem toll_bounds {context : Context Code} (hw : Working n roots h context c pending) :
    10 * rank e pending context.stack.frames + 4 ≤ toll e ⟨context, .running id k c⟩ ∧
      toll e ⟨context, .running id k c⟩ ≤ 10 * rank e pending context.stack.frames + 9 := by
  by_cases hc : ∃ a, c = .blocked a
  · obtain ⟨a, rfl⟩ := hc
    rw [toll_blocked hw]
    cases e <;> simp
  · rw [toll_running hw fun a ha => hc ⟨a, ha⟩]
    split <;> omega

theorem toll_anti (he : e = true → e' = true) (hw : Serves n roots h w) :
    toll e' w ≤ toll e w := by
  obtain ⟨context, job⟩ := w
  cases hw.hand with
  | idle => exact Nat.le_refl _
  | @running id k c pending hr =>
    have hr : Working n roots h context c pending := hr
    have hrank := rank_anti he pending context.stack.frames
    by_cases hc : ∃ a, c = .blocked a
    · obtain ⟨a, rfl⟩ := hc
      rw [toll_blocked hr, toll_blocked hr]
      rw [hr.pending_eq] at hrank ⊢
      cases e <;> cases e' <;> simp_all [rank]
    · have hc : ∀ a, c ≠ .blocked a := fun a ha => hc ⟨a, ha⟩
      rw [toll_running hr hc, toll_running hr hc]
      omega
  | @yielded id t ht =>
    have hrank := rank_anti he t.pending t.stack.frames
    simp only [toll, due]
    omega
  | @blocked id t ht hpending hb =>
    have hrank := rank_anti he t.pending t.stack.frames
    simp only [toll, due, hpending] at hrank ⊢
    cases e <;> cases e' <;> simp_all [rank]
  | finished => exact Nat.le_refl _
  | gone => exact Nat.le_refl _

theorem exists_tolls (ho : Orderly n roots s) (hi : s.workers[i]? = some w)
    (he : e = true → e' = true) (w' : PoolWorker Code) :
    ∃ r r', r' ≤ r ∧ (s.workers.map (toll e)).sum = toll e w + r ∧
      ((s.workers.set i w').map (toll e')).sum = toll e' w' + r' := by
  obtain ⟨rest, hold, hnew⟩ := exists_rest hi
  refine ⟨_, _, List.sum_le_sum fun v hv => ?_, sum_of_perm _ hold, sum_of_perm _ (hnew w')⟩
  exact toll_anti he (ho.workers v (hold.mem_iff.2 (List.mem_cons_of_mem _ hv)))

end Costs

section Shifts

theorem toll_idle (context : Context Code) : toll e ⟨context, .idle⟩ = 1 := rfl

theorem toll_job (hjob : w.job = .idle) : toll e w = 1 := by
  rw [toll, hjob]

theorem toll_boards {context : Context Code} (hw : Serves n roots h w) (ht : Poised n roots h t)
    (hb : Boards t w.context c context) :
    toll e ⟨context, .running t.id 0 c⟩ = 10 * due e t + 5 := by
  have hserves := hw.of_boards hb ht
  have hhand := hserves.hand
  cases hhand with
  | @running _ _ _ pending hr =>
    have hr : Working n roots h context c pending := hr
    have hpoint := hr.point
    rw [hb.point] at hpoint
    rw [toll_running hr hb.free, ← Option.some.inj hpoint, hb.stack]
    rfl

theorem park_spec (hb : Begun h shared) :
    (h.park? shared t = none → ready h = true) ∧
      ∀ h', h.park? shared t = some h' → ready h = false ∧ ready h' = false ∧
        h'.isFresh shared = h.isFresh shared ∧ h'.parked.Perm (t :: h.parked) := by
  obtain ⟨state, hc, hne⟩ := hb
  constructor
  · intro hp
    unfold Heap.park? at hp
    rw [hc] at hp
    cases state with
    | unevaluated body => exact absurd rfl (hne body)
    | underEvaluation u body blocked => cases hp
    | evaluated v => rw [ready, Heap.target?, hc]; rfl
  · intro h' hp
    have hperm := Heap.parked_park? hp
    obtain ⟨u, body, blocked, hc, rfl⟩ := Heap.park?_eq_some hp
    refine ⟨?_, ?_, ?_, hperm⟩
    · rw [ready, Heap.target?, hc]; rfl
    · rw [ready, Heap.target?, Heap.cell_write_thunk hc]; rfl
    · rw [Heap.isFresh, Heap.isFresh, hc, Heap.cell_write_thunk hc]

theorem potential_shift (ho : Orderly n roots s) (hs : Shift s s') :
    potential n s' < potential n s := by
  cases hs with
  | @takes i w t rest c context hi hidle hthreads hb =>
    have htoll := toll_boards (e := ready s.heap) (ho.serves hi)
      (ho.threads t (hthreads ▸ List.mem_cons_self)) hb
    obtain ⟨r, r', hle, hold, hnew⟩ := exists_tolls ho hi (e := ready s.heap) (fun h => h)
      ⟨context, .running t.id 0 c⟩
    simp only [potential, hold, hnew, hthreads, List.map_cons, List.sum_cons, htoll,
      toll_job hidle]
    omega
  | @drops a rest hsparks =>
    simp only [potential, hsparks, List.length_cons]
    omega
  | @sparks i w a rest c context hi hidle hsparks hb =>
    have ha := ho.sparks a (hsparks ▸ List.mem_cons_self)
    rw [ha] at hb
    have htoll := toll_boards (e := ready s.heap) (ho.serves hi) ho.poised_spark hb
    have hrank := rank_enter_shared_le (ready s.heap) (FrameStack.empty s.stackLimit).frames
    obtain ⟨r, r', hle, hold, hnew⟩ := exists_tolls ho hi (e := ready s.heap) (fun h => h)
      ⟨context, .running ⟨s.lastThread + 1⟩ 0 c⟩
    simp only [potential, hold, hnew, hsparks, List.length_cons, htoll, due, toll_job hidle]
    omega
  | @leaves i w hi hidle =>
    obtain ⟨r, r', hle, hold, hnew⟩ := exists_tolls ho hi (e := ready s.heap) (fun h => h)
      ⟨w.context, .gone⟩
    have hgone : toll (ready s.heap) ⟨w.context, .gone⟩ = 0 := rfl
    simp only [potential, hold, hnew, toll_job hidle, hgone]
    omega
  | @ends i w id outcome hi he hends =>
    have htoll : toll (ready s.heap) w = 2 := by
      rw [toll, he]
      cases outcome with
      | finished v => rfl
      | halted e => rfl
      | _ => exact absurd rfl hends
    obtain ⟨r, r', hle, hold, hnew⟩ := exists_tolls ho hi (e := ready s.heap) (fun h => h)
      ⟨w.context, .idle⟩
    simp only [potential, hold, hnew, htoll, toll_idle]
    omega
  | @requeues i w id t hi he =>
    have htoll : toll (ready s.heap) w = 10 * due (ready s.heap) t + 8 := by rw [toll, he]
    obtain ⟨r, r', hle, hold, hnew⟩ := exists_tolls ho hi (e := ready s.heap) (fun h => h)
      ⟨w.context, .idle⟩
    simp only [potential, hold, hnew, htoll, toll_idle, List.map_append, List.sum_append,
      List.map_cons, List.map_nil, List.sum_cons, List.sum_nil]
    omega
  | @parks i w id t a h hi he hp =>
    have hhand := (ho.serves hi).hand
    rw [he] at hhand
    cases hhand with
    | blocked ht hpending hb =>
      obtain ⟨hbefore, hafter, hfresh, hperm⟩ := (park_spec hb).2 h hp
      have htoll : toll false w = 10 * due false t + 3 := by
        rw [toll, he]
        rfl
      obtain ⟨r, r', hle, hold, hnew⟩ := exists_tolls ho hi (e := false) (fun h => h)
        ⟨w.context, .idle⟩
      have hreserve : reserve n h = reserve n s.heap := by rw [reserve, reserve, hfresh]
      simp only [potential, hbefore, hafter, hold, hnew, htoll, toll_idle, hreserve,
        sum_of_perm _ hperm]
      omega
  | @returns i w id t a hi he hp =>
    have hhand := (ho.serves hi).hand
    rw [he] at hhand
    cases hhand with
    | blocked ht hpending hb =>
      have hready := (park_spec hb).1 hp
      have htoll : toll true w = 10 * due true t + 8 := by
        rw [toll, he]
        rfl
      obtain ⟨r, r', hle, hold, hnew⟩ := exists_tolls ho hi (e := true) (fun h => h)
        ⟨w.context, .idle⟩
      simp only [potential, hready, hold, hnew, htoll, toll_idle, List.map_append,
        List.sum_append, List.map_cons, List.map_nil, List.sum_cons, List.sum_nil]
      omega

end Shifts

section Iterations

theorem released_spec {u : ThreadId} {released : List (Thread Code)}
    (hc : Change n u h h' entered updated released) (ht : t ∈ released) :
    ready h = false ∧ ready h' = true := by
  cases hc with
  | @updated a v blocked hc _ hne =>
    have ha : a = shared := by
      by_contra ha
      rw [(hne ha).2] at ht
      cases ht
    subst ha
    constructor
    · rw [ready, Heap.target?, hc]; rfl
    · rw [ready, Heap.target?, Heap.cell_write_thunk hc]; rfl
  | _ => cases ht

theorem sum_le {l : List (Thread Code)} {f g : Thread Code → Nat} (h : ∀ t ∈ l, f t ≤ g t) :
    (l.map f).sum ≤ (l.map g).sum :=
  List.sum_le_sum h

theorem potential_strides {m : Machine Code} {q : RunQueue Code} {c' : Control}
    {pending' : Pending} {released : List (Thread Code)} (ho : Orderly n roots p.scene)
    (hw : p.workers[i]? = some w) (hjob : w.job = .running id k c)
    (hworking : Working n roots p.shared.heap w.context c pending)
    (hs : Stride n roots c ⟨p.shared, .pool p.queue, w.context⟩ p.queue pending entered updated
      released c' m q pending')
    (hperm : (released ++ m.heap.parked).Perm p.shared.heap.parked) :
    potential n { p.scene with
      heap := m.heap
      waiting := m.shared.waiting
      threads := q.threads
      sparks := q.sparks
      workers := p.scene.workers.set i ⟨m.context, .running id (k + 1) c'⟩ } <
    potential n p.scene := by
  -- Of the threads that waited, those set free cost no more in the queue, now that the shared
  -- thunk has its value.
  have he : ready p.shared.heap = true → ready m.heap = true := ready_of_later hs.change.later
  obtain ⟨r, r', hle, hold, hnew⟩ := exists_tolls ho (scene_worker hw) he
    ⟨m.context, .running id (k + 1) c'⟩
  obtain ⟨context, job⟩ := w
  cases hjob
  have hbefore : 10 * rank (ready p.shared.heap) pending context.stack.frames + 4 ≤
      toll (ready p.shared.heap) ⟨context, .running id k c⟩ := (toll_bounds hworking).1
  have hafter : toll (ready m.heap) ⟨m.context, .running id (k + 1) c'⟩ ≤
      10 * rank (ready m.heap) pending' m.context.stack.frames + 9 := (toll_bounds hs.working).2
  have hqueue : (p.queue.threads.map fun t => 10 * due (ready m.heap) t + 6).sum ≤
      (p.queue.threads.map fun t => 10 * due (ready p.shared.heap) t + 6).sum := by
    refine sum_le fun t _ => ?_
    have hrank := rank_anti he t.pending t.stack.frames
    simp only [due]
    omega
  -- A thread that is set free had its entry of the shared thunk before it, which is now a read.
  have hreleased : (released.map fun t => 10 * due (ready m.heap) t + 6).sum ≤
      (released.map fun t => 10 * due (ready p.shared.heap) t).sum := by
    refine sum_le fun t ht => ?_
    obtain ⟨hnot, hready⟩ := released_spec hs.change ht
    have hpending := (ho.parked t (hperm.mem_iff.1 (List.mem_append_left _ ht))).2
    have hnot : ready p.shared.heap = false := hnot
    rw [due, due, hpending, hnot, hready, rank_enter_shared, rank_enter_shared]
    decide
  have hparked : (m.heap.parked.map fun t => 10 * due (ready m.heap) t).sum ≤
      (m.heap.parked.map fun t => 10 * due (ready p.shared.heap) t).sum := by
    refine sum_le fun t _ => ?_
    have hrank := rank_anti he t.pending t.stack.frames
    simp only [due]
    omega
  have hsplit := (hperm.map fun t => 10 * due (ready p.shared.heap) t).sum_eq
  rw [List.map_append, List.sum_append] at hsplit
  have hrank : rank (ready m.heap) pending' m.context.stack.frames + reserve n m.heap +
      7 * q.sparks.length < rank (ready p.shared.heap) pending context.stack.frames +
        reserve n p.shared.heap + 7 * p.queue.sparks.length := hs.rank_lt
  simp only [potential, hs.threads, hnew, List.map_append, List.sum_append]
  simp only [scene] at hold ⊢
  omega

theorem potential_iteration (ho : Orderly n roots p.scene) (hw : p.workers[i]? = some w)
    (hjob : w.job = .running id k c)
    (hworking : Working n roots p.shared.heap w.context c pending)
    (hi : Iteration n roots p i k id c w pending turn entered updated s') :
    potential n s' < potential n p.scene := by
  have hworker := scene_worker hw
  obtain ⟨context, job⟩ := w
  cases hjob
  cases hi with
  | @yields context' hk hc hfree ht =>
    obtain ⟨r, r', hle, hold, hnew⟩ := exists_tolls ho hworker (e := ready p.scene.heap)
      (fun h => h) ⟨context', .ending id (.yielded ⟨context.thread, context.stack, pending⟩)⟩
    have hyielded : toll (ready p.scene.heap)
        ⟨context', .ending id (.yielded ⟨context.thread, context.stack, pending⟩)⟩ =
          10 * rank (ready p.scene.heap) pending context.stack.frames + 8 := rfl
    simp only [potential, hold, hnew, hyielded, toll_running hworking hc, if_neg hk]
    omega
  | strides hs hperm hentries => exact potential_strides ho hw rfl hworking hs hperm
  | @waits context' waiting hc hstarting hready hentries hw' hstack ht =>
    obtain ⟨r, r', hle, hold, hnew⟩ := exists_tolls ho hworker (e := ready p.scene.heap)
      (fun h => h) ⟨context', .running id (k + 1) (.blocked shared)⟩
    have hready : ready p.scene.heap = false := hready
    rw [hready] at hold hnew
    simp only [potential, hready, hold, hnew, toll_running hworking hc, toll_blocked hw', hstack,
      Bool.false_eq_true, if_false]
    split <;> omega
  | @leaves context' hc hp hfree ht =>
    subst hc hp
    obtain ⟨r, r', hle, hold, hnew⟩ := exists_tolls ho hworker (e := ready p.scene.heap)
      (fun h => h)
      ⟨context', .ending id (.blocked ⟨context.thread, context.stack, .enter shared⟩ shared)⟩
    have hblocked : toll (ready p.scene.heap)
        ⟨context', .ending id (.blocked ⟨context.thread, context.stack, .enter shared⟩ shared)⟩ =
          10 * rank (ready p.scene.heap) (.enter shared) context.stack.frames +
            if ready p.scene.heap then 8 else 3 := rfl
    simp only [potential, hold, hnew, hblocked, toll_blocked hworking]
    split <;> omega
  | @finishes context' v hc hv hsettled hfree ht =>
    subst hc
    obtain ⟨r, r', hle, hold, hnew⟩ := exists_tolls ho hworker (e := ready p.scene.heap)
      (fun h => h) ⟨context', .ending id (.finished v)⟩
    have hfinished : toll (ready p.scene.heap) ⟨context', .ending id (.finished v)⟩ = 2 := rfl
    have hbefore : 10 * rank (ready p.scene.heap) pending context.stack.frames + 4 ≤
        toll (ready p.scene.heap) ⟨context, .running id k .resuming⟩ := (toll_bounds hworking).1
    simp only [potential, hold, hnew, hfinished]
    omega

end Iterations

end GraphReduction.SharedSum
