import GraphReduction.Proofs.PoolSchedule

namespace GraphReduction.Pool

open Evaluation GraphReduction.Frame

variable {κ : Type} {program : Program κ} {o : RuntimeOptions} {roots : List Address}
  {shared : Shared κ} {p p' : Pool κ}

section Runs

def Moves (program : Program κ) : Pool κ → Pool κ → Prop :=
  Relation.ReflTransGen (Move program)

theorem size_work (p : Pool κ) (i : Nat) (x : StateM (Machine κ) (Job κ)) :
    (p.work i x).workers.size = p.workers.size := by
  obtain ⟨options, shared, queue, workers, slots, results, remaining, alive, retired, counters⟩ := p
  unfold work
  split
  · simp only [Array.swapAt_def]
    split
    rw [Array.size_setIfInBounds, Array.size_set]
  · rfl

theorem size_setJob (p : Pool κ) (i : Nat) (job : Job κ) :
    (p.setJob i job).workers.size = p.workers.size :=
  Array.size_modify

theorem size_remark (p : Pool κ) (message : String) (details : List (String × String)) :
    (p.remark message details).workers.size = p.workers.size := by
  rw [Tracked.remark_workers]

theorem workers_finish (p : Pool κ) (id : ThreadId) (result : Except RuntimeError Address) :
    (p.finish id result).workers = p.workers := by
  unfold finish
  split
  · rfl
  · cases result <;> rfl

theorem workers_park (p : Pool κ) (t : Thread κ) (a : Address) :
    (p.park t a).workers = p.workers := by
  unfold park
  split <;> rfl

theorem Move.size_eq (h : Move program p p') : p'.workers.size = p.workers.size := by
  obtain ⟨deed, h⟩ := h
  cases h with
  | dequeue hw hidle hd =>
    unfold dequeue? at hd
    split at hd <;> cases hd
    exact size_work ..
  | takeSpark hw hidle ht =>
    unfold takeSpark? at ht
    split at ht
    · cases ht
    · dsimp only at ht
      split at ht <;> cases ht
      · rfl
      · exact (size_work ..).trans (size_remark ..)
  | retire hw hidle hr =>
    unfold retire? at hr
    split at hr <;> cases hr
    exact (size_setJob ..).trans (size_remark ..)
  | leave hw hidle => exact size_setJob ..
  | iterate n hw hjob _ => exact size_work ..
  | @conclude i w id outcome hw hjob =>
    cases outcome with
    | finished v =>
      exact (size_setJob ..).trans (congrArg Array.size (workers_finish ..))
    | halted e =>
      exact (size_setJob ..).trans (congrArg Array.size (workers_finish ..))
    | yielded t => exact size_setJob ..
    | blocked t a =>
      exact (size_setJob ..).trans ((congrArg Array.size (workers_park ..)).trans (size_remark ..))
    | endless => rfl
  | remark message details => exact size_remark ..
  | interrupt flag hw => exact Array.size_modify

theorem Moves.size_eq (h : Moves program p p') : p'.workers.size = p.workers.size := by
  induction h with
  | refl => rfl
  | tail _ hm ih => exact hm.size_eq.trans ih

def endingsOf (deeds : List Deed) : List Ending := deeds.flatMap Deed.endings

theorem endingsOf_append (deeds deeds' : List Deed) :
    endingsOf (deeds ++ deeds') = endingsOf deeds ++ endingsOf deeds' :=
  List.flatMap_append

theorem endingsOf_singleton (deed : Deed) : endingsOf [deed] = deed.endings :=
  List.flatMap_singleton ..

inductive History (program : Program κ) (p₀ : Pool κ) : List Deed → Pool κ → Prop where
  | start : History program p₀ [] p₀
  | act {deeds : List Deed} {deed : Deed} {p p' : Pool κ} : History program p₀ deeds p →
      Act program p deed p' → deed ≠ .leave false → History program p₀ (deeds ++ [deed]) p'

def Undisturbed (deeds : List Deed) : Prop := ∀ flag, .interrupt flag ∉ deeds

theorem undisturbed_nil : Undisturbed [] := fun _ => List.not_mem_nil

theorem undisturbed_append {deeds deeds' : List Deed} :
    Undisturbed (deeds ++ deeds') ↔ Undisturbed deeds ∧ Undisturbed deeds' := by
  simp only [Undisturbed, List.mem_append, not_or, forall_and]

theorem Undisturbed.append {deeds deeds' : List Deed} (h : Undisturbed deeds)
    (h' : Undisturbed deeds') : Undisturbed (deeds ++ deeds') :=
  undisturbed_append.2 ⟨h, h'⟩

theorem Deed.Ordinary.undisturbed {deed : Deed} (h : deed.Ordinary) : Undisturbed [deed] :=
  fun flag hm => h.2 flag (List.mem_singleton.1 hm).symm

theorem History.moves {deeds : List Deed} (h : History program p deeds p') : Moves program p p' := by
  induction h with
  | start => exact .refl
  | act _ ha _ ih => exact ih.tail ⟨_, ha⟩

theorem History.trans {p'' : Pool κ} {deeds deeds' : List Deed} (h : History program p deeds p')
    (h' : History program p' deeds' p'') : History program p (deeds ++ deeds') p'' := by
  induction h' with
  | start => rwa [List.append_nil]
  | act _ ha hd ih =>
    rw [← List.append_assoc]
    exact .act ih ha hd

def Works (program : Program κ) (p p' : Pool κ) : Prop :=
  ∃ deeds, History program p deeds p' ∧ Undisturbed deeds

theorem Works.refl (p : Pool κ) : Works program p p := ⟨[], .start, undisturbed_nil⟩

theorem Works.trans {p'' : Pool κ} (h : Works program p p') (h' : Works program p' p'') :
    Works program p p'' := by
  obtain ⟨deeds, h, hd⟩ := h
  obtain ⟨deeds', h', hd'⟩ := h'
  exact ⟨_, h.trans h', hd.append hd'⟩

theorem Works.act {deed : Deed} (h : Act program p deed p') (hd : deed.Ordinary) :
    Works program p p' :=
  ⟨_, .act .start h hd.1, hd.undisturbed⟩

theorem Works.moves (h : Works program p p') : Moves program p p' := by
  obtain ⟨deeds, h, -⟩ := h
  exact h.moves

theorem works_turn (quantum : Nat) {i : Nat} (hi : i < p.workers.size) :
    Works program p (p.turn program quantum i) := by
  rcases turn_eq_or_act quantum (Array.getElem?_eq_getElem hi) with he | ⟨deed, ha, hd⟩
  · exact he.symm ▸ .refl p
  · exact .act ha hd

theorem works_turns (quantum : Nat) (order : List Nat) (ho : ∀ i ∈ order, i < p.workers.size) :
    Works program p (order.foldl (turn program quantum) p) := by
  induction order generalizing p with
  | nil => exact .refl p
  | cons i order ih =>
    have h : Works program p (p.turn program quantum i) :=
      works_turn quantum (ho i List.mem_cons_self)
    refine h.trans (ih fun j hj => ?_)
    rw [h.moves.size_eq]
    exact ho j (List.mem_cons_of_mem _ hj)

theorem works_rounds {quantum fuel : Nat} (h : rounds program quantum fuel p = some p') :
    Works program p p' ∧ p'.workers.all (fun w => isGone w.job) = true := by
  induction fuel generalizing p with
  | zero => cases h
  | succ fuel ih =>
    unfold rounds at h
    split at h
    · next hgone =>
      cases h
      exact ⟨.refl _, hgone⟩
    · have hturns : Works program p _ := works_turns quantum (List.range p.workers.size)
        fun i hi => List.mem_range.1 hi
      obtain ⟨hrest, hgone⟩ := ih h
      exact ⟨hturns.trans hrest, hgone⟩

theorem works_announce (p : Pool κ) : Works program p p.announce := by
  unfold announce
  generalize List.range p.workers.size = order
  induction order generalizing p with
  | nil => exact .refl p
  | cons i order ih => exact (Works.act (.remark p _ _) (Deed.ordinary_act _)).trans (ih _)

end Runs

section Start

def rootThread (shared : Shared κ) (i : Nat) : ThreadId := ⟨shared.lastThread + 1 + i⟩

theorem spawnRoots_eq (limit : Nat) (roots : List Address) (n : Nat) (shared : Shared κ) :
    spawnRoots limit roots n shared =
      (roots.mapIdx fun i a => ⟨rootThread shared i, .empty limit, .enter a⟩,
        (List.range roots.length).map fun i => (rootThread shared i, n + i),
        { shared with lastThread := shared.lastThread + roots.length }) := by
  induction roots generalizing n shared with
  | nil => rfl
  | cons a roots ih =>
    have hshift : ∀ i, rootThread (shared.spawn a limit).2 i = rootThread shared (i + 1) :=
      fun i => congrArg ThreadId.mk (by change shared.lastThread + 1 + 1 + i = _; omega)
    have hplace : ∀ i, n + 1 + i = n + (i + 1) := fun i => by omega
    have hlast : (shared.spawn a limit).2.lastThread + roots.length =
        shared.lastThread + (roots.length + 1) := by
      change shared.lastThread + 1 + roots.length = _
      omega
    rw [spawnRoots]
    dsimp only
    rw [ih, List.mapIdx_cons, List.length_cons, List.range_succ_eq_map, List.map_cons, List.map_map]
    simp only [hshift, hplace, hlast]
    rfl

theorem spawnRoots_slots (limit : Nat) (roots : List Address) (n : Nat) (shared : Shared κ) :
    (spawnRoots limit roots n shared).2.1.map Prod.snd = List.range' n roots.length := by
  rw [spawnRoots_eq, List.map_map, List.range'_eq_map_range]
  rfl

theorem spawnRoots_threads (limit : Nat) (roots : List Address) (n : Nat) (shared : Shared κ) :
    (spawnRoots limit roots n shared).2.1.map Prod.fst =
      (spawnRoots limit roots n shared).1.map Thread.id := by
  rw [spawnRoots_eq]
  apply List.ext_getElem <;> simp

theorem reaches_spawnRoots (limit : Nat) (roots : List Address) (n : Nat) (s : System κ) :
    System.Reaches program s { s with
      shared := (spawnRoots limit roots n s.shared).2.2
      ready := (spawnRoots limit roots n s.shared).1.reverse ++ s.ready } := by
  induction roots generalizing n s with
  | nil => exact .refl
  | cons a roots ih =>
    have hrest := ih (n + 1) { s with
      shared := (s.shared.spawn a limit).2
      ready := (s.shared.spawn a limit).1 :: s.ready }
    have hready : (spawnRoots limit (a :: roots) n s.shared).1.reverse ++ s.ready =
        (spawnRoots limit roots (n + 1) (s.shared.spawn a limit).2).1.reverse ++
          ((s.shared.spawn a limit).1 :: s.ready) := by
      change (_ :: _).reverse ++ s.ready = _
      rw [List.reverse_cons, List.append_assoc]
      rfl
    rw [hready]
    exact .head ⟨_, .spawn s a limit⟩ hrest

def vacant (o : RuntimeOptions) (shared : Shared κ) : System κ where
  shared := shared
  stations := (start o [] shared).workers.toList.map PoolWorker.station
  ready := []
  blocked := []
  dropped := []

theorem job_start {w : PoolWorker κ} (hw : w ∈ (start o roots shared).workers.toList) :
    w.job = .idle := by
  have hw : w ∈ Array.ofFn (fun i : Fin (workerCount o) =>
      (⟨.new i o.stackLimit.toNat, .idle⟩ : PoolWorker κ)) := Array.mem_toList_iff.1 hw
  obtain ⟨i, rfl⟩ := Array.mem_ofFn.1 hw
  rfl

theorem initial_vacant (o : RuntimeOptions) (hidle : ∀ a, shared.heap.owner? a = none) :
    (vacant o shared).Initial where
  idle st hm := by
    obtain ⟨w, hw, rfl⟩ := List.mem_map.1 hm
    rw [PoolWorker.station, job_start hw]
    rfl
  ready := rfl
  blocked := rfl
  dropped := rfl
  owner? := hidle

theorem ready_sublist_ids (s : System κ) : (s.ready.map Thread.id).Sublist s.ids := by
  rw [System.ids, System.threadStacks, List.map_append, List.map_map]
  have hdetached : (s.ready.map Thread.id).Sublist (s.detached.map Thread.id) :=
    (List.sublist_append_left ..).map _
  exact hdetached.trans (List.sublist_append_right ..)

theorem booked_start (o : RuntimeOptions) (roots : List Address)
    (hn : ((spawnRoots o.stackLimit.toNat roots 0 shared).1.map Thread.id).Nodup) :
    Booked (start o roots shared).slots (start o roots shared).results
      (start o roots shared).remaining where
  remaining := by
    have hlength := congrArg List.length (spawnRoots_slots o.stackLimit.toNat roots 0 shared)
    rw [List.length_map, List.length_range'] at hlength
    exact hlength.symm
  threads := by
    change ((spawnRoots o.stackLimit.toNat roots 0 shared).2.1.map Prod.fst).Nodup
    rwa [spawnRoots_threads]
  places := by
    change ((spawnRoots o.stackLimit.toNat roots 0 shared).2.1.map Prod.snd).Nodup
    rw [spawnRoots_slots]
    exact List.nodup_range'
  missing n := by
    change (Array.replicate roots.length none)[n]? = some none ↔
      n ∈ (spawnRoots o.stackLimit.toNat roots 0 shared).2.1.map Prod.snd
    rw [spawnRoots_slots, Array.getElem?_replicate, List.mem_range'_1]
    simp

theorem tracked_start (hp : program.Conventional) (o : RuntimeOptions) (roots : List Address)
    (hidle : ∀ a, shared.heap.owner? a = none) :
    Tracked program (vacant o shared) (start o roots shared) [] := by
  have hrun : System.Reaches program (vacant o shared) _ :=
    reaches_spawnRoots o.stackLimit.toNat roots 0 (vacant o shared)
  have hs := System.sound_of_reaches hp (initial_vacant o hidle) hrun
  have hids := ready_sublist_ids { vacant o shared with
    shared := (spawnRoots o.stackLimit.toNat roots 0 shared).2.2
    ready := (spawnRoots o.stackLimit.toNat roots 0 shared).1.reverse ++ [] }
  have hsame : ((spawnRoots o.stackLimit.toNat roots 0 shared).1.reverse ++ []).Perm
      (spawnRoots o.stackLimit.toNat roots 0 shared).1 := by
    rw [List.append_nil]
    exact List.reverse_perm _
  have hnone : ∀ β (f : Job κ → List β), f .idle = [] →
      (start o roots shared).workers.toList.flatMap (fun w => f w.job) = [] := by
    intro β f hf
    refine List.flatMap_eq_nil_iff.2 fun w hw => ?_
    rw [job_start hw, hf]
  refine ⟨_, hrun, ⟨rfl, rfl, ?_, ?_, rfl, fun w hw id n c hj => ?_⟩,
    ⟨booked_start o roots ?_, ?_⟩⟩
  · rw [hnone _ Job.yielded rfl, List.append_nil]
    exact hsame
  · rw [hnone _ Job.blocked rfl]
    exact .refl _
  · rw [job_start hw] at hj
    cases hj
  · exact (hsame.map Thread.id).nodup_iff.1 (hids.nodup hs.nodup)
  · intro e he
    have he : e.1 ∈ (spawnRoots o.stackLimit.toNat roots 0 shared).2.1.map Prod.fst :=
      List.mem_map_of_mem he
    rw [spawnRoots_threads] at he
    exact .inl (hids.subset ((hsame.map Thread.id).mem_iff.2 he))

end Start

section Progress

theorem tracked_of_moves (hp : program.Conventional) (hidle : ∀ a, shared.heap.owner? a = none)
    (h : Moves program (start o roots shared) p) :
    Tracked program (vacant o shared) p [] := by
  induction h with
  | refl => exact tracked_start hp o roots hidle
  | tail _ hm ih => exact ih.move hp (initial_vacant o hidle) hm

theorem job_of_not_busy {j : Job κ} (h : ¬ j.busy) :
    j.control = none ∧ j.yielded = [] ∧ j.blocked = [] ∧ j.ended = [] := by
  cases j with
  | idle => exact ⟨rfl, rfl, rfl, rfl⟩
  | gone => exact ⟨rfl, rfl, rfl, rfl⟩
  | running id n c => exact absurd rfl h
  | ending id outcome => exact absurd rfl h

structure Lively (p : Pool κ) : Prop where
  acyclic : p.shared.waiting.Acyclic p.shared.heap
  unfinished : p.done = false ↔ ∃ n : Nat, p.results[n]? = some none
  working : p.done = false → p.queue.threads ≠ [] ∨ ∃ w ∈ p.workers, w.job.busy

theorem Booked.unfinished (hb : Booked p.slots p.results p.remaining) :
    p.done = false ↔ ∃ n : Nat, p.results[n]? = some none := by
  have hdone : p.done = false ↔ p.slots ≠ [] := by
    rw [done, hb.remaining, decide_eq_false_iff_not, List.length_eq_zero_iff]
  rw [hdone]
  constructor
  · intro hne
    obtain ⟨e, he⟩ := List.exists_mem_of_ne_nil _ hne
    exact ⟨e.2, (hb.missing e.2).2 (List.mem_map_of_mem he)⟩
  · rintro ⟨n, hn⟩ hnil
    have hmem := (hb.missing n).1 hn
    rw [hnil] at hmem
    cases hmem

theorem Mirrors.lively {s : System κ} (hm : Mirrors p [] s) (ha : Accounted p s) (hs : s.Sound)
    (hw : s.Waits) : p.Lively where
  acyclic := hm.shared ▸ hw.acyclic
  unfinished := ha.booked.unfinished
  working := by
    intro hdone
    by_contra hnot
    rw [not_or, not_not] at hnot
    obtain ⟨hqueue, hbusy⟩ := hnot
    have hjob : ∀ w ∈ p.workers.toList, w.job.control = none ∧ w.job.yielded = [] ∧
        w.job.blocked = [] ∧ w.job.ended = [] :=
      fun w hmem => job_of_not_busy fun hb => hbusy ⟨w, Array.mem_toList_iff.1 hmem, hb⟩
    have hidle : ∀ st ∈ s.stations, st.control = none := by
      rw [hm.stations]
      intro st hst
      obtain ⟨w, hw, rfl⟩ := List.mem_map.1 hst
      exact (hjob w hw).1
    have hready : s.ready = [] := by
      have hr := hm.ready
      rw [hqueue, List.flatMap_eq_nil_iff.2 fun w hw => (hjob w hw).2.1] at hr
      exact hr.eq_nil
    have hblocked : s.blocked = [] := by
      have hb := hm.blocked
      rw [List.flatMap_eq_nil_iff.2 fun w hw => (hjob w hw).2.2.1] at hb
      exact hb.eq_nil
    have hstacks := hw.stacks_eq_nil hs hm.dropped hidle hready hblocked
    obtain ⟨n, hn⟩ := ha.booked.unfinished.1 hdone
    obtain ⟨e, he, -⟩ := List.mem_map.1 ((ha.booked.missing n).1 hn)
    rcases ha.live e he with hu | hu
    · rw [System.ids, hstacks] at hu
      cases hu
    · rw [List.flatMap_eq_nil_iff.2 fun w hw => (hjob w hw).2.2.2] at hu
      cases hu

/-- In no state do threads wait for each other in a circle, so as long as no thread is dropped one
of them can go on. A pool, which drops none, always has a thread in its queue or in the hands of a
worker while there are roots to finish. -/
theorem deadlock_free (hp : program.Conventional) (hb : program.NeverBlocks) :
    (∀ s₀ s : System κ, s₀.Initial → s₀.shared.waiting = .empty → System.Reaches program s₀ s →
      s.shared.waiting.Acyclic s.shared.heap ∧
        (s.dropped = [] → s.threadStacks ≠ [] →
          (∃ st ∈ s.stations, st.control.isSome) ∨ s.ready ≠ [] ∨ s.blocked ≠ [])) ∧
      ∀ (o : RuntimeOptions) (roots : List Address) (shared : Shared κ) (p : Pool κ),
        (∀ a, shared.heap.owner? a = none) → shared.waiting = .empty →
          Moves program (start o roots shared) p → p.Lively := by
  constructor
  · intro s₀ s h₀ hw₀ hrun
    have hs := System.sound_of_reaches hp h₀ hrun
    have hw := System.waits_of_reaches hp hb h₀ hw₀ hrun
    refine ⟨hw.acyclic, fun hd hne => ?_⟩
    by_contra hnot
    rw [not_or, not_or, not_not, not_not] at hnot
    obtain ⟨hstations, hready, hblocked⟩ := hnot
    refine hne (hw.stacks_eq_nil hs hd (fun st hm => ?_) hready hblocked)
    exact Option.not_isSome_iff_eq_none.1 fun hc => hstations ⟨st, hm, hc⟩
  · intro o roots shared p hidle hw₀ hrun
    have h₀ := initial_vacant o hidle
    obtain ⟨s, hs, hm, ha⟩ := tracked_of_moves hp hidle hrun
    exact hm.lively ha (System.sound_of_reaches hp h₀ hs)
      (System.waits_of_reaches hp hb h₀ hw₀ hs)

def pair : RuntimeOptions := ⟨2, 0, 0, 4, ⟨false⟩⟩

theorem deadlock_free_contest :
    System.recursive.Conventional ∧ System.recursive.NeverBlocks ∧
      ∃ p, Moves System.recursive (start pair [⟨0⟩, ⟨0⟩] System.contest.shared) p ∧
        p.done = false ∧ p.shared.heap.parked.length = 1 ∧ p.Lively := by
  have hb : System.recursive.NeverBlocks := fun _ _ _ _ _ => nofun
  have hrun : Moves System.recursive (start pair [⟨0⟩, ⟨0⟩] System.contest.shared) _ :=
    (works_turns 1 [0, 1, 0, 1, 1, 1] (by decide)).moves
  exact ⟨System.conventional_recursive, hb, _, hrun, by decide +kernel, by decide +kernel,
    (deadlock_free System.conventional_recursive hb).2 pair [⟨0⟩, ⟨0⟩] System.contest.shared _
      System.initial_contest.owner? rfl hrun⟩

end Progress

end GraphReduction.Pool
