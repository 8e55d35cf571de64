import GraphReduction.Proofs.PoolDrain
import GraphReduction.Proofs.SumPotential
import GraphReduction.Proofs.SumWorkload

namespace GraphReduction.SharedSum

open Evaluation Pool

variable {n : Int64} {roots quantum i k : Nat} {o : RuntimeOptions} {v : Verbosity}
  {p p' : Pool Code} {log : List Address} {ended : List Ending} {w : PoolWorker Code}

section Turns

def Reached (o : RuntimeOptions) (n : Int64) (roots : Nat) (v : Verbosity) (p : Pool Code) : Prop :=
  ∃ log ended, Chronicle program (opening o n roots v) log ended p

def Stays (p : Pool Code) (w : PoolWorker Code) : Prop :=
  w.job = .gone ∨ w.job = .idle ∧ p.done = false ∧ p.queue.threads = []

theorem Reached.tracked (h : Reached o n roots v p) :
    ∃ s : System Code, System.Reaches program (vacant o (workload n roots v)) s ∧
      Mirrors p [] s ∧ Accounted p s ∧ s.Sound := by
  obtain ⟨log, ended, h⟩ := h
  have hidle := owner?_workload n roots v
  obtain ⟨s, hrun, hm, ha⟩ := tracked_of_moves conventional_program hidle h.works.moves
  exact ⟨s, hrun, hm, ha,
    System.sound_of_reaches conventional_program (initial_vacant o hidle) hrun⟩

theorem Reached.trans (h : Reached o n roots v p) (hmore : Works program p p') :
    Reached o n roots v p' := by
  obtain ⟨log, ended, h⟩ := h
  obtain ⟨deeds, hhistory, hd⟩ := h.works.trans hmore
  obtain ⟨log', h'⟩ := exists_chronicle conventional_program (owner?_workload n roots v) hhistory hd
  exact ⟨log', _, h'⟩

theorem Reached.turn (h : Reached o n roots v p) (quantum : Nat) (hi : i < p.workers.size) :
    Reached o n roots v (p.turn program quantum i) :=
  h.trans (works_turn quantum hi)

theorem potential_iterations (hn : 0 ≤ n) (hl : 6 ≤ o.stackLimit.toNat)
    (h : Reached o n roots v p) (hw : p.workers[i]? = some w) {id : ThreadId} {c : Control}
    (hjob : w.job = .running id k c) (hq : 0 < quantum) :
    potential n (p.iterate program i quantum id k c).scene < potential n p.scene := by
  obtain ⟨s, -, hm, -, hs⟩ := h.tracked
  obtain ⟨log, ended, h⟩ := h
  obtain ⟨m, rfl⟩ : ∃ m, quantum = m + 1 := ⟨quantum - 1, by omega⟩
  obtain ⟨r, m', hr⟩ : ∃ r m', iterateUpTo program (m + 1) k c
      ⟨p.shared, .pool p.queue, w.context⟩ = (r, m') := ⟨_, _, rfl⟩
  have hresult : p.iterate program i (m + 1) id k c = p ∨
      potential n (p.iterate program i (m + 1) id k c).scene < potential n p.scene := by
    refine (h.iterations conventional_program (owner?_workload n roots v)
      (P := fun p' => p' = p ∨ potential n p'.scene < potential n p.scene) ?_ hw hjob (.inl rfl)
      hr).2
    intro log ended p₁ k w c turn m h₁ hw hjob hi hle
    obtain ⟨s, -, hm, -, hs⟩ := Reached.tracked ⟨log, ended, h₁⟩
    have ho := (holds_of_chronicle hn hl h₁).1
    obtain ⟨pending, entered, updated, hworking, hiteration⟩ :=
      exists_iteration conventional_program hn ho hm hs hw hjob hi
    have hlt := potential_iteration ho hw hjob hworking hiteration
    rcases hle with rfl | hle
    · exact .inr hlt
    · exact .inr (hlt.trans hle)
  refine hresult.resolve_left fun he => ?_
  refine not_rests_iterate hm hs conventional_program hw hjob hr ?_
  rw [he]
  exact fun _ _ hw _ => hw

theorem turn_spec (hn : 0 ≤ n) (hl : 6 ≤ o.stackLimit.toNat) (h : Reached o n roots v p)
    (hw : p.workers[i]? = some w) (hq : 0 < quantum) :
    (p.turn program quantum i = p ∧ Stays p w) ∨
      potential n (p.turn program quantum i).scene < potential n p.scene := by
  have hreached := h
  obtain ⟨log, ended, h⟩ := h
  have ho := (holds_of_chronicle hn hl h).1
  rcases shift_turn quantum hw with ⟨he, hstays⟩ | hshift | ⟨id, k, c, hjob, he⟩
  · refine .inl ⟨he, ?_⟩
    rcases hstays with hgone | ⟨id, hendless⟩ | hidle
    · exact .inl hgone
    · have hhand := (ho.serves (scene_worker hw)).hand
      rw [hendless] at hhand
      cases hhand
    · exact .inr hidle
  · exact .inr (potential_shift ho hshift)
  · rw [he]
    exact .inr (potential_iterations hn hl hreached hw hjob hq)

theorem gone_of_stays (h : Reached o n roots v p) (hstays : ∀ w ∈ p.workers, Stays p w) :
    ∀ w ∈ p.workers, isGone w.job = true := by
  obtain ⟨s, hrun, hm, ha, hs⟩ := h.tracked
  have hwaits := System.waits_of_reaches conventional_program neverBlocks_program
    (initial_vacant o (owner?_workload n roots v)) rfl hrun
  intro w hw
  rcases hstays w hw with hgone | ⟨-, hdone, hthreads⟩
  · rw [hgone]
    rfl
  · rcases (hm.lively ha hs hwaits).working hdone with hne | ⟨u, hu, hbusy⟩
    · exact absurd hthreads hne
    · rcases hstays u hu with hgone | ⟨hidle, -⟩
      · rw [hgone] at hbusy
        cases hbusy
      · rw [hidle] at hbusy
        cases hbusy

end Turns

section Schedules

/-- Turns of all workers, one after the other and without end. -/
structure Fair {κ : Type} (program : Program κ) (pools : Nat → Pool κ) (order quanta : Nat → Nat) :
    Prop where
  turns : ∀ k, pools (k + 1) = (pools k).turn program (quanta k) (order k)
  works : ∀ k, 0 < quanta k
  inside : ∀ k, order k < (pools 0).workers.size
  again : ∀ i < (pools 0).workers.size, ∀ k, ∃ l, k ≤ l ∧ order l = i

variable {pools : Nat → Pool Code} {order quanta : Nat → Nat}

theorem Fair.reached (hf : Fair program pools order quanta)
    (h : Reached o n roots v (pools 0)) (k : Nat) :
    Reached o n roots v (pools k) ∧ (pools k).workers.size = (pools 0).workers.size := by
  induction k with
  | zero => exact ⟨h, rfl⟩
  | succ k ih =>
    obtain ⟨hreached, hsize⟩ := ih
    have hi : order k < (pools k).workers.size := hsize ▸ hf.inside k
    have hturn : Works program (pools k) ((pools k).turn program (quanta k) (order k)) :=
      works_turn (quanta k) hi
    rw [hf.turns]
    exact ⟨hreached.turn _ hi, hturn.moves.size_eq.trans hsize⟩

theorem Fair.eq_or_lt (hn : 0 ≤ n) (hl : 6 ≤ o.stackLimit.toNat)
    (hf : Fair program pools order quanta) (h : Reached o n roots v (pools 0)) {l : Nat}
    (hkl : k ≤ l) :
    pools l = pools k ∨ potential n (pools l).scene < potential n (pools k).scene := by
  induction l, hkl using Nat.le_induction with
  | base => exact .inl rfl
  | succ l hkl ih =>
    obtain ⟨hreached, hsize⟩ := hf.reached h l
    have hi : order l < (pools l).workers.size := hsize ▸ hf.inside l
    rw [hf.turns]
    rcases turn_spec hn hl hreached (Array.getElem?_eq_getElem hi) (hf.works l) with
      ⟨he, -⟩ | hlt
    · rwa [he]
    · rcases ih with he | hle
      · exact .inr (he ▸ hlt)
      · exact .inr (hlt.trans hle)

theorem Fair.all_gone (hn : 0 ≤ n) (hl : 6 ≤ o.stackLimit.toNat)
    (hf : Fair program pools order quanta) (h : Reached o n roots v (pools 0)) (k : Nat) :
    ∃ l, ∀ w ∈ (pools l).workers, isGone w.job = true := by
  -- By induction on what is left to do.
  induction hm : potential n (pools k).scene using Nat.strong_induction_on generalizing k with
  | _ m ih =>
    obtain ⟨hreached, hsize⟩ := hf.reached h k
    by_cases hstays : ∀ w ∈ (pools k).workers, Stays (pools k) w
    · exact ⟨k, gone_of_stays hreached hstays⟩
    · push Not at hstays
      obtain ⟨w, hw, hnot⟩ := hstays
      obtain ⟨i, hi, rfl⟩ := Array.mem_iff_getElem.1 hw
      -- Until the next turn of this worker, somebody does something, and if only the worker itself.
      obtain ⟨l, hkl, hl'⟩ := hf.again i (hsize ▸ hi) k
      have hlt : potential n (pools (l + 1)).scene < potential n (pools k).scene := by
        rcases hf.eq_or_lt hn hl h hkl with he | hlt
        · rw [hf.turns, he, hl']
          rcases turn_spec hn hl hreached (Array.getElem?_eq_getElem hi) (hf.works l) with
            ⟨-, hyes⟩ | hlt
          · exact absurd hyes hnot
          · exact hlt
        · rcases hf.eq_or_lt hn hl h (Nat.le_succ l) with he | hless
          · rwa [he]
          · exact hless.trans hlt
      exact ih _ (hm ▸ hlt) (l + 1) rfl

end Schedules

section Rounds

theorem turns_spec (hn : 0 ≤ n) (hl : 6 ≤ o.stackLimit.toNat) (h : Reached o n roots v p)
    (hq : 0 < quantum) {order : List Nat} (ho : ∀ i ∈ order, i < p.workers.size) :
    (order.foldl (turn program quantum) p = p ∧
      ∀ i ∈ order, ∀ w, p.workers[i]? = some w → Stays p w) ∨
      potential n (order.foldl (turn program quantum) p).scene < potential n p.scene := by
  induction order generalizing p with
  | nil => exact .inl ⟨rfl, nofun⟩
  | cons i order ih =>
    have hi := ho i List.mem_cons_self
    have hrest := fun j hj => ho j (List.mem_cons_of_mem i hj)
    rw [List.foldl_cons]
    rcases turn_spec hn hl h (Array.getElem?_eq_getElem hi) hq with ⟨he, hstays⟩ | hlt
    · rw [he]
      refine (ih h hrest).imp_left fun ⟨he', hall⟩ => ⟨he', fun j hj w hw => ?_⟩
      rcases List.mem_cons.1 hj with rfl | hj
      · cases (Array.getElem?_eq_getElem hi).symm.trans hw
        exact hstays
      · exact hall j hj w hw
    · have hturn : Works program p (p.turn program quantum i) := works_turn quantum hi
      rcases ih (h.turn quantum hi) (hturn.moves.size_eq ▸ hrest) with ⟨he, -⟩ | hless
      · rw [he]
        exact .inr hlt
      · exact .inr (hless.trans hlt)

theorem isSome_rounds (hn : 0 ≤ n) (hl : 6 ≤ o.stackLimit.toNat) (hq : 0 < quantum) {fuel : Nat}
    (h : Reached o n roots v p) (hfuel : potential n p.scene < fuel) :
    (rounds program quantum fuel p).isSome = true := by
  induction fuel generalizing p with
  | zero => exact absurd hfuel (Nat.not_lt_zero _)
  | succ fuel ih =>
    have hinside : ∀ i ∈ List.range p.workers.size, i < p.workers.size :=
      fun i hi => List.mem_range.1 hi
    unfold rounds
    split
    · rfl
    · next hnot =>
      refine ih (h.trans (works_turns quantum _ hinside)) ?_
      rcases turns_spec hn hl h hq hinside with ⟨-, hstays⟩ | hlt
      · refine absurd (Array.all_eq_true_iff_forall_mem.2 (gone_of_stays h fun w hw => ?_)) hnot
        obtain ⟨i, hi, rfl⟩ := Array.mem_iff_getElem.1 hw
        exact hstays i (List.mem_range.2 hi) _ (Array.getElem?_eq_getElem hi)
      · omega

theorem reached_opening : Reached o n roots v (opening o n roots v) := ⟨_, _, .start⟩

theorem length_addresses (n : Int64) (roots : Nat) : (addresses n roots).length = roots := by
  rw [addresses_eq, List.length_map, List.length_range']

theorem not_done_opening (hr : 1 ≤ roots) : (opening o n roots v).done = false := by
  have hremaining : (opening o n roots v).remaining = roots := length_addresses n roots
  rw [done, hremaining]
  exact decide_eq_false (by omega)

theorem run_eq_rounds (hr : 1 ≤ roots) (fuel : Nat) : run fuel o n roots v =
    (rounds program SharedSum.quantum fuel (opening o n roots v).announce).map
      fun p => (p.report, p.drain) := by
  have hdone : (Pool.start o (addresses n roots) (workload n roots v)).done = false :=
    not_done_opening hr
  rw [run_eq, Pool.run, complete, hdone, if_neg Bool.false_ne_true, opening]
  cases rounds program SharedSum.quantum fuel _ <;> rfl

theorem exists_enough (hn : 0 ≤ n) (hr : 1 ≤ roots) (hl : 6 ≤ o.stackLimit.toNat) :
    ∃ enough, ∀ fuel ≥ enough, (run fuel o n roots v).isSome = true := by
  refine ⟨potential n (opening o n roots v).announce.scene + 1, fun fuel hfuel => ?_⟩
  rw [run_eq_rounds hr, Option.isSome_map]
  exact isSome_rounds hn hl (by decide) (reached_opening.trans (works_announce _)) hfuel

theorem reached_of_run (hr : 1 ≤ roots) {fuel : Nat} {report : PoolReport} {s : Shared Code}
    (h : run fuel o n roots v = some (report, s)) :
    ∃ p, Reached o n roots v p ∧ (∀ w ∈ p.workers, isGone w.job = true) ∧
      report = p.report ∧ s = p.drain := by
  rw [run_eq_rounds hr] at h
  obtain ⟨p, hrounds, he⟩ := Option.map_eq_some_iff.1 h
  obtain ⟨hworks, hgone⟩ := works_rounds hrounds
  obtain ⟨rfl, rfl⟩ := Prod.mk.inj he
  exact ⟨p, (reached_opening.trans (works_announce _)).trans hworks,
    Array.all_eq_true_iff_forall_mem.1 hgone, rfl, rfl⟩

end Rounds

section Results

structure Computes (n : Int64) (roots : Nat) (report : PoolReport) (s : Shared Code) : Prop where
  length : report.results.length = roots
  results : ∀ i < roots, ∃ a, report.results[i]? = some (.ok a) ∧
    s.heap.cell a =
      .data ⟨"Long", 0⟩ [.long (Int64.ofInt (n.toInt * (n.toInt + 1) / 2 + i))]
  thunkEntries : report.counters.thunkEntries = UInt64.ofNat (roots + 1)
  updates : report.counters.updates = UInt64.ofNat (roots + 1)

theorem matures_drain (p : Pool Code) : p.shared.heap.Matures p.drain.heap :=
  (Heap.Matures.of_eq (dismissal_spec p).2.2).trans (p.dismissal.shared.matures_abandonAll _ _)

theorem toInt_triangle (hn : 0 ≤ n) :
    ((triangle n.toNatClampNeg : Nat) : Int) = n.toInt * (n.toInt + 1) / 2 := by
  rw [triangle, ← Int64.cast_toNatClampNeg n hn]
  norm_cast

theorem goal_rootThread (hi : i < roots) :
    goal roots (rootThread (workload n roots v) i) = ⟨i + 2⟩ := by
  have hroot : IsRoot roots (rootThread (workload n roots v) i) := by
    change 1 ≤ 0 + 1 + i ∧ 0 + 1 + i ≤ roots
    omega
  rw [goal, if_pos hroot, rootOf]
  change (⟨0 + 1 + i + 1⟩ : Address) = _
  congr 1
  omega

theorem content_root (hn : 0 ≤ n) (i : Nat) :
    content n ⟨i + 2⟩ = Int64.ofInt (n.toInt * (n.toInt + 1) / 2 + i) := by
  rw [content, if_neg (by simp [shared]), grandTotal, Nat.add_sub_cancel, ← Int64.ofNat_add,
    ← toInt_triangle hn, ← Int64.ofInt_eq_ofNat]
  rfl

theorem thunks_eq (n : Int64) (roots : Nat) :
    shared :: addresses n roots = (List.range' 1 (roots + 1)).map Address.mk := by
  rw [addresses_eq, List.range'_succ, List.map_cons]
  rfl

theorem perm_thunks {l : List Address} (hnodup : l.Nodup)
    (hmem : ∀ a, a ∈ l ↔ 1 ≤ a.index ∧ a.index ≤ roots + 1) :
    l.Perm (shared :: addresses n roots) := by
  rw [thunks_eq]
  refine (List.perm_ext_iff_of_nodup hnodup ?_).2 fun a => ?_
  · exact (List.nodup_range').map fun _ _ h => congrArg Address.index h
  · rw [hmem, List.mem_map]
    constructor
    · intro ha
      exact ⟨a.index, List.mem_range'_1.2 (by omega), rfl⟩
    · rintro ⟨k, hk, rfl⟩
      rw [List.mem_range'_1] at hk
      change 1 ≤ k ∧ k ≤ roots + 1
      omega

theorem result_of_gone (hr : Recorded n roots log ended p.scene)
    (hd : p.Delivers (addresses n roots) (workload n roots v) ended)
    (hgone : ∀ w ∈ p.workers, isGone w.job = true) (hi : i < roots) :
    ∃ a, p.report.results[i]? = some (.ok a) ∧ IsLong p.shared.heap a (content n ⟨i + 2⟩) ∧
      Settled p.shared.heap ⟨i + 2⟩ := by
  obtain ⟨-, hlength, hresults⟩ := hd.results (.inr hgone)
  rw [length_addresses] at hlength hresults
  obtain ⟨r, hget⟩ : ∃ r, p.report.results[i]? = some r :=
    ⟨_, List.getElem?_eq_getElem (hlength.symm ▸ hi)⟩
  obtain ⟨a, ha, hlong, hsettled⟩ := hr.ended _ ((hresults i hi _).1 hget)
  rw [goal_rootThread hi] at hlong hsettled
  exact ⟨a, hget.trans (congrArg some ha), hlong, hsettled⟩

theorem settled_of_gone (hone : 1 ≤ roots) (ho : Orderly n roots p.scene)
    (hr : Recorded n roots log ended p.scene)
    (hd : p.Delivers (addresses n roots) (workload n roots v) ended)
    (hgone : ∀ w ∈ p.workers, isGone w.job = true) (a : Address)
    (ha : 1 ≤ a.index ∧ a.index ≤ roots + 1) : Settled p.shared.heap a := by
  obtain ⟨j⟩ := a
  match j, ha with
  | 1, _ =>
    -- The shared thunk has its value before the first root has.
    obtain ⟨-, -, -, hsettled⟩ := result_of_gone hr hd hgone hone
    obtain ⟨u, hu⟩ := Option.isSome_iff_exists.1 hsettled
    cases ho.stored.kept _ _ (Heap.target?_eq_some_iff.1 hu) with
    | evaluated _ hshared => exact hshared (by simp [shared])
  | i + 2, ha =>
    obtain ⟨-, -, -, hsettled⟩ := result_of_gone hr hd hgone (show i < roots by simp at ha; omega)
    exact hsettled

theorem isThunk_of_begun {a : Address} (ho : Orderly n roots p.scene)
    (ha : Begun p.shared.heap a) : 1 ≤ a.index ∧ a.index ≤ roots + 1 := by
  obtain ⟨state, hc, -⟩ := ha
  exact (ho.stored.isThunk a).1 (Option.isSome_iff_exists.2 ⟨state, Heap.thunk?_eq_some_iff.2 hc⟩)

theorem tally_of_gone (hgone : ∀ w ∈ p.workers, isGone w.job = true) :
    p.scene.tally = p.counters.tally := by
  refine (congrArg (p.scene.gone + ·) (List.sum_eq_zero fun x hx => ?_)).trans (add_zero _)
  obtain ⟨w, hw, rfl⟩ := List.mem_map.1 hx
  rw [PoolWorker.tally, if_pos (hgone w (Array.mem_toList_iff.1 hw))]

theorem computes_of_gone (hn : 0 ≤ n) (hone : 1 ≤ roots) (hl : 6 ≤ o.stackLimit.toNat)
    (h : Chronicle program (opening o n roots v) log ended p)
    (hgone : ∀ w ∈ p.workers, isGone w.job = true) :
    log.Perm (shared :: addresses n roots) ∧ Computes n roots p.report p.drain := by
  obtain ⟨ho, hr⟩ := holds_of_chronicle hn hl h
  obtain ⟨deeds, hhistory, -, rfl⟩ := h.exists_history
  have hd : p.Delivers (addresses n roots) (workload n roots v) (endingsOf deeds) :=
    delivers_of_history conventional_program (owner?_workload n roots v) hhistory
  have hsettled := settled_of_gone hone ho hr hd hgone
  have hlog : log.Perm (shared :: addresses n roots) := by
    refine perm_thunks hr.nodup fun a => (hr.begun a).trans ?_
    exact ⟨isThunk_of_begun ho, fun ha => (hsettled a ha).begun⟩
  obtain ⟨updated, hnodup, hmem, htally⟩ := hr.tally
  have hupdated : updated.Perm (shared :: addresses n roots) := by
    refine perm_thunks hnodup fun a => (hmem a).trans ?_
    exact ⟨fun ha => isThunk_of_begun ho ha.begun, hsettled a⟩
  rw [tally_of_gone hgone, hlog.length_eq, hupdated.length_eq, List.length_cons,
    length_addresses] at htally
  obtain ⟨hentries, hupdates⟩ := Prod.mk.inj htally
  refine ⟨hlog, ?_⟩
  constructor
  case length =>
    obtain ⟨-, hlength, -⟩ := hd.results (.inr hgone)
    rw [hlength, length_addresses]
  case results =>
    intro i hi
    obtain ⟨a, ha, hlong, -⟩ := result_of_gone hr hd hgone hi
    rw [content_root hn] at hlong
    exact ⟨a, ha, hlong.later (matures_drain p).later⟩
  case thunkEntries => exact hentries
  case updates => exact hupdates

end Results

section Outcome

/-- However the workers share out the sum among them, every thunk is entered at most once and, by
the time that all workers have left, exactly once, and the roots have their numbers. Under a fair
schedule all workers do leave, and so a run with enough fuel has a result. -/
theorem sum_computed (hn : 0 ≤ n) (hone : 1 ≤ roots) (hl : 6 ≤ o.stackLimit.toNat)
    (v : Verbosity) :
    (∀ deeds p, History program (opening o n roots v) deeds p → Undisturbed deeds →
      ∃ log, Chronicle program (opening o n roots v) log (endingsOf deeds) p) ∧
    (∀ log ended p, Chronicle program (opening o n roots v) log ended p →
      log.Nodup ∧ ((∀ w ∈ p.workers, isGone w.job = true) →
        log.Perm (shared :: addresses n roots) ∧ Computes n roots p.report p.drain)) ∧
    (∀ pools order quanta, Fair program pools order quanta → Reached o n roots v (pools 0) →
      ∃ k, (∀ w ∈ (pools k).workers, isGone w.job = true) ∧
        Computes n roots (pools k).report (pools k).drain) ∧
    (∀ fuel report s, run fuel o n roots v = some (report, s) → Computes n roots report s) ∧
    ∃ enough, ∀ fuel ≥ enough, (run fuel o n roots v).isSome = true := by
  refine ⟨fun deeds p h hd => ?_, fun log ended p h => ⟨?_, ?_⟩,
    fun pools order quanta hf h => ?_, fun fuel report s h => ?_, exists_enough hn hone hl⟩
  · exact exists_chronicle conventional_program (owner?_workload n roots v) h hd
  · exact (holds_of_chronicle hn hl h).2.nodup
  · exact computes_of_gone hn hone hl h
  · obtain ⟨k, hgone⟩ := hf.all_gone hn hl h 0
    obtain ⟨log, ended, hk⟩ := (hf.reached h k).1
    exact ⟨k, hgone, (computes_of_gone hn hone hl hk hgone).2⟩
  · obtain ⟨p, ⟨log, ended, hp⟩, hgone, rfl, rfl⟩ := reached_of_run hone h
    exact (computes_of_gone hn hone hl hp hgone).2

def narrow : RuntimeOptions := ⟨2, 0, 1, 6, ⟨false⟩⟩

theorem sum_computed_race :
    (0 : Int64) ≤ 3 ∧ 1 ≤ 2 ∧ 6 ≤ narrow.stackLimit.toNat ∧
      (∃ log ended p, Chronicle program (opening narrow 3 2 default) log ended p ∧
        (∀ w ∈ p.workers, isGone w.job = true) ∧ p.queue.sparksRun = 1 ∧ p.queue.requeued = 2 ∧
          log.Perm [⟨1⟩, ⟨2⟩, ⟨3⟩] ∧ p.report.counters.thunkEntries = 3 ∧
            p.report.counters.updates = 3 ∧
              ∃ a b, p.report.results[0]? = some (.ok a) ∧ p.report.results[1]? = some (.ok b) ∧
                p.drain.heap.cell a = .data ⟨"Long", 0⟩ [.long 6] ∧
                  p.drain.heap.cell b = .data ⟨"Long", 0⟩ [.long 7]) ∧
      ∃ report s, run 10 narrow 3 2 default = some (report, s) ∧ Computes 3 2 report s := by
  have hn : (0 : Int64) ≤ 3 := by decide
  have hone : 1 ≤ 2 := by decide
  have hl : 6 ≤ narrow.stackLimit.toNat := by decide
  obtain ⟨hchronicle, hcomputes, -, hrun, -⟩ := sum_computed hn hone hl default
  refine ⟨hn, hone, hl, ?_, ?_⟩
  · obtain ⟨deeds, hhistory, hd⟩ : Works program (opening narrow 3 2 default) _ :=
      works_turns 1 (List.replicate 25 [0, 1]).flatten (by decide +kernel)
    obtain ⟨log, h⟩ := hchronicle deeds _ hhistory hd
    have hgone : ((List.replicate 25 [0, 1]).flatten.foldl (turn program 1)
        (opening narrow 3 2 default)).workers.toList.all (fun w => isGone w.job) = true := by
      decide +kernel
    have hgone : ∀ w ∈ ((List.replicate 25 [0, 1]).flatten.foldl (turn program 1)
        (opening narrow 3 2 default)).workers, isGone w.job = true :=
      fun w hw => List.all_eq_true.1 hgone w (Array.mem_toList_iff.2 hw)
    obtain ⟨hperm, hdone⟩ := (hcomputes log _ _ h).2 hgone
    obtain ⟨a, ha, hcell⟩ := hdone.results 0 (by decide)
    obtain ⟨b, hb, hcell'⟩ := hdone.results 1 (by decide)
    exact ⟨log, _, _, h, hgone, by decide +kernel, by decide +kernel, hperm,
      hdone.thunkEntries, hdone.updates, a, b, ha, hb, hcell, hcell'⟩
  · have hsome : (run 10 narrow 3 2 default).isSome = true := by decide +kernel
    obtain ⟨⟨report, s⟩, h⟩ := Option.isSome_iff_exists.1 hsome
    exact ⟨report, s, h, hrun 10 report s h⟩

end Outcome

end GraphReduction.SharedSum
