import GraphReduction.Proofs.Underway
import GraphReduction.Proofs.UpdateFrames

/-!
Evaluation to weak head normal form. What a worker returns is a value, the closure has it for good, and
evaluating the closure once more is no work.
-/
namespace GraphReduction.WeakHead

open Evaluation CellOperations

variable {κ : Type} {program : Program κ}

section Repeating

variable {c : Address} {s s' : Stage κ} {m m' : Machine κ} {k : Counters} {n : Nat}

theorem enter_of_valued (program : Program κ) (hd : m.heap.Directed) (hv : m.heap.Valued c)
    (happ : ∀ f args, m.heap.cell c ≠ .unsaturated f args) :
    ∃ v, Agree m.heap c v ∧ enter program c m = Exec.giveBack v m := by
  have hthunk {state : ThunkState κ} (hcell : m.heap.cell c = .thunk state) :
      ∃ v, state = .evaluated v := by
    cases hv with
    | value _ hn =>
      rw [Heap.isThunk, Heap.thunk?_eq_some_iff.2 hcell] at hn
      cases hn
    | @indirection _ b ht _ =>
      rw [Heap.target?_eq_some_iff.1 ht] at hcell
      exact ⟨b, (Cell.thunk.inj hcell).symm⟩
  rcases enter_spec program c m with ⟨f, args, hcell, -⟩ | ⟨-, he⟩ | ⟨v, ht, he⟩ | ⟨ho, -⟩ |
    ⟨t, -, ho, -⟩ | ⟨body, hcell, -⟩
  · exact absurd hcell (happ f args)
  · exact ⟨c, agree_self hv, he⟩
  · exact ⟨v, agree_of_target? hd ht, he⟩
  · obtain ⟨body, blocked, hcell⟩ := Heap.owner?_eq_some_iff.1 ho
    obtain ⟨v, he⟩ := hthunk hcell
    cases he
  · obtain ⟨body, blocked, hcell⟩ := Heap.owner?_eq_some_iff.1 ho
    obtain ⟨v, he⟩ := hthunk hcell
    cases he
  · obtain ⟨v, he⟩ := hthunk hcell
    cases he

theorem iterate_unpolled (program : Program κ) (hn : n = 0 ∨ n % pollInterval ≠ 0)
    (control : Control) (hi : m.context.interrupted = false) :
    iterate program n control m = advance program control m := by
  rw [iterate, if_neg (by simp [hi]), if_pos hn]

theorem iterate_entering (program : Program κ) (hd : m.heap.Directed) (hv : m.heap.Valued c)
    (happ : ∀ f args, m.heap.cell c ≠ .unsaturated f args)
    (hi : m.context.interrupted = false) : ∃ v, Agree m.heap c v ∧
      iterate program 0 (.entering c) m =
        (.next .resuming, (reportControl (.entering c) m).setResult v) := by
  have hh := m.heap_reportControl (.entering c)
  rw [← hh] at hd hv happ
  obtain ⟨v, ha, he⟩ := enter_of_valued program hd hv happ
  refine ⟨v, hh ▸ ha, ?_⟩
  rw [iterate_unpolled program (.inl rfl) _ hi]
  exact follow_of_resume he

theorem iterate_resuming (program : Program κ) {v : Address} (hf : m.context.stack.frames = [])
    (hr : m.context.registers.result? = some v) (hi : m.context.interrupted = false) :
    iterate program 1 .resuming m =
      (.over (.finished v), (reportControl .resuming m).release) := by
  rw [iterate_unpolled program (.inr (by decide)) _ hi]
  have hcontext := m.context_reportControl .resuming
  refine advance_of_pop?_eq_none program (Machine.pop?_eq_none ?_) ?_
  · rw [hcontext, hf]
  · rw [hcontext, hr]

theorem iterate_interrupted (program : Program κ) (control : Control)
    (hf : m.context.stack.frames = []) (hi : m.context.interrupted = true) :
    ∃ m', iterate program n control m = (.over (.halted .interrupted), m') ∧
      m'.heap = m.heap ∧ m'.context.counters = m.context.counters := by
  let m₁ := (reportControl (.halted .interrupted) m).report .trampoline fun _ =>
    ⟨.debug, "halting", [("error", RuntimeError.interrupted.message)]⟩
  have hcontext : m₁.context = m.context :=
    (Machine.context_report _ _ _).trans (m.context_reportControl _)
  have hheap : m₁.heap = m.heap :=
    (congrArg Core.heap (Machine.core_report _ _ _)).trans (m.heap_reportControl _)
  have habandon : (abandonFrames m₁.context.stack.frames m₁).2 = m₁ := by
    rw [hcontext, hf]
    rfl
  refine ⟨(abandonFrames m₁.context.stack.frames m₁).2.release, ?_, ?_, ?_⟩
  · rw [iterate, if_pos hi]
    rfl
  · rw [habandon]
    exact hheap
  · rw [habandon]
    exact (congrArg Context.counters hcontext : m₁.context.counters = m.context.counters)

def Repeats (c : Address) (m : Machine κ) : Place κ → Prop
  | .ready t => t.stack.frames = [] ∧ t.pending = .enter c
  | .running n control => m.context.stack.frames = [] ∧
      (n = 0 ∧ control = .entering c ∨ n = 1 ∧ control = .resuming ∧
        ∃ v, m.context.registers.result? = some v ∧ Agree m.heap c v)
  | .waiting _ _ => False
  | .returned r => r = .error .interrupted ∨ ∃ v, r = .ok v ∧ Agree m.heap c v

structure Repeating (c w : Address) (k : Counters) (s : Stage κ) : Prop where
  ordered : Ordered ⟨s.machine.heap, s.resumptions⟩
  valued : s.machine.heap.Valued c
  value : s.machine.heap.resolve c = w
  applicable : ∀ f args, s.machine.heap.cell c ≠ .unsaturated f args
  counters : s.machine.context.counters = k
  place : Repeats c s.machine s.place

theorem Repeating.progress {w : Address} (hs : Repeating c w k s) (h : Progress program s s') :
    Repeating c w k s' := by
  obtain ⟨ho, hv, hw, happ, hk, hplace⟩ := hs
  cases h with
  | begin m rs t =>
    obtain ⟨id, stack, pending⟩ := t
    obtain ⟨hf, he⟩ := hplace
    cases he
    exact ⟨ho, hv, hw, happ, hk, hf, .inl ⟨rfl, rfl⟩⟩
  | @iterate m rs n control p hafter =>
    obtain ⟨hf, hcase⟩ := hplace
    by_cases hi : m.context.interrupted = true
    · obtain ⟨m', hiter, hh, hk'⟩ := iterate_interrupted (n := n) program control hf hi
      rw [hiter] at hafter ⊢
      cases hafter
      rw [← hh] at ho hv hw happ
      exact ⟨ho, hv, hw, happ, hk'.trans hk, .inl rfl⟩
    have hi : m.context.interrupted = false := by simpa using hi
    -- The closure is entered in the first iteration, and its value is returned in the second.
    rcases hcase with ⟨rfl, rfl⟩ | ⟨rfl, rfl, v, hr, ha⟩
    · obtain ⟨v, ha, hiter⟩ := iterate_entering program ho.directed hv happ hi
      have hh := m.heap_reportControl (.entering c)
      have hcontext := m.context_reportControl (.entering c)
      rw [hiter] at hafter ⊢
      cases hafter
      rw [← hh] at ho hv hw happ ha
      refine ⟨ho, hv, hw, happ, (congrArg Context.counters hcontext).trans hk, ?_,
        .inr ⟨rfl, rfl, v, Registers.result?_setResult _ _, ha⟩⟩
      exact (congrArg (fun c => c.stack.frames) hcontext).trans hf
    · have hiter := iterate_resuming program hf hr hi
      have hh := m.heap_reportControl .resuming
      have hcontext := m.context_reportControl .resuming
      rw [hiter] at hafter ⊢
      cases hafter
      rw [← hh] at ho hv hw happ ha
      exact ⟨ho, hv, hw, happ, (congrArg Context.counters hcontext).trans hk, .inr ⟨v, rfl, ha⟩⟩
  | settled => exact hplace.elim
  | @others m m' rs rs' p hops _ hcontext =>
    obtain ⟨ho', hl⟩ := ho.run hops
    have happ' := applicable_later hl hv.lt_size happ
    have hregisters : m'.context.registers = m.context.registers :=
      (congrArg Context.registers hcontext).trans rfl
    have hstack : m'.context.stack = m.context.stack :=
      (congrArg Context.stack hcontext).trans rfl
    have hcounters : m'.context.counters = m.context.counters :=
      (congrArg Context.counters hcontext).trans rfl
    refine ⟨ho', hv.later hl, (hv.resolve_later hl).trans hw, happ', hcounters.trans hk, ?_⟩
    cases p with
    | ready t => exact hplace
    | running n control =>
      obtain ⟨hf, hcase⟩ := hplace
      refine ⟨hstack ▸ hf, hcase.imp_right fun ⟨hn, he, v, hr, ha⟩ => ?_⟩
      exact ⟨hn, he, v, hregisters ▸ hr, ha.later hl⟩
    | waiting t a => exact hplace.elim
    | returned r => exact hplace.imp_right fun ⟨v, he, ha⟩ => ⟨v, he, ha.later hl⟩

theorem Repeating.run {w : Address} (hs : Repeating c w k s) (h : Evaluates program s s') :
    Repeating c w k s' := by
  induction h with
  | refl => exact hs
  | tail _ h ih => exact ih.progress h

section Slices

variable {fuel slices j : Nat} {t : Thread κ} {v : Address}

theorem bind_apply {σ α β : Type} (x : StateM σ α) (f : α → StateM σ β) (s : σ) :
    (x >>= f) s = f (x s).1 (x s).2 := rfl

def continuation (program : Program κ) (fuel slices : Nat) :
    Option (Outcome κ) → StateM (Machine κ) (Option (Except RuntimeError Address))
  | some (.finished v) => pure (some (.ok v))
  | some (.halted e) => pure (some (.error e))
  | some (.yielded t) => runToEnd program fuel slices t
  | some (.blocked t a) => fun m =>
    let m := m.report .scheduler fun m => ⟨.debug, "waiting for thunk",
      [("worker", toString m.context.workerId), ("thread", t.id.text)]⟩
    if (m.heap.owner? a).isSome then (none, m) else runToEnd program fuel slices t m
  | _ => pure none

theorem runToEnd_succ (program : Program κ) (fuel slices : Nat) (t : Thread κ) (m : Machine κ) :
    runToEnd program fuel (slices + 1) t m =
      continuation program fuel slices (runSlice program fuel t m).1
        (runSlice program fuel t m).2 := by
  rw [runToEnd, bind_apply]
  cases (runSlice program fuel t m).1 with
  | none => rfl
  | some outcome =>
    cases outcome with
    | blocked t a =>
      dsimp only [continuation]
      change (if _ then (pure none : StateM (Machine κ) _) else runToEnd program fuel slices t) _ = _
      split <;> rfl
    | _ => rfl

theorem runToEnd_of_slice (h : runSlice program fuel t m = (some (.finished v), m')) :
    runToEnd program fuel (slices + 1) t m = (some (.ok v), m') := by
  rw [runToEnd_succ, h]
  rfl

theorem evaluates_of_iterateUpTo {control : Control} {outcome : Outcome κ} {p : Place κ}
    (rs : List Resumption) (hp : ∀ j, Place.after j (.over outcome) = some p)
    (h : iterateUpTo program fuel n control m = ((j, .over outcome), m')) :
    Evaluates program ⟨m, rs, .running n control⟩ ⟨m', rs, p⟩ := by
  induction fuel generalizing n control m with
  | zero => cases h
  | succ fuel ih =>
    cases hi : iterate program n control m with
    | mk turn m₁ =>
      rcases turn with control' | outcome'
      · rw [iterateUpTo_of_next hi] at h
        have hafter : Place.after n (iterate program n control m).1 =
            some (.running (n + 1) control') := by rw [hi]; rfl
        have hstep := @Progress.iterate _ _ _ rs _ _ _ hafter
        rw [hi] at hstep
        exact .head hstep (ih h)
      · rw [iterateUpTo_of_over hi] at h
        cases h
        have hafter : Place.after n (iterate program n control m).1 = some p := by rw [hi, hp]
        have hstep := @Progress.iterate _ _ _ rs _ _ _ hafter
        rw [hi] at hstep
        exact .single hstep

theorem evaluates_of_runSlice {outcome : Outcome κ} {p : Place κ} (rs : List Resumption)
    (hp : ∀ j, Place.after j (.over outcome) = some p)
    (h : runSlice program fuel t m = (some outcome, m')) :
    Evaluates program ⟨m, rs, .ready t⟩ ⟨m', rs, p⟩ := by
  obtain ⟨k, hk⟩ := runSlice_eq_some h
  exact .head (.begin m rs t) (evaluates_of_iterateUpTo rs hp hk)

theorem evaluates_of_runToEnd {r : Except RuntimeError Address} (rs : List Resumption)
    (h : runToEnd program fuel slices t m = (some r, m')) :
    Evaluates program ⟨m, rs, .ready t⟩ ⟨m', rs, .returned r⟩ := by
  induction slices generalizing t m with
  | zero => cases h
  | succ slices ih =>
    rw [runToEnd_succ] at h
    cases hs : runSlice program fuel t m with
    | mk outcome m₁ =>
      rw [hs] at h
      rcases outcome with _ | outcome
      · cases h
      cases outcome with
      | finished v =>
        cases h
        exact evaluates_of_runSlice rs (fun _ => rfl) hs
      | halted e =>
        cases h
        exact evaluates_of_runSlice rs (fun _ => rfl) hs
      | yielded t' => exact (evaluates_of_runSlice rs (fun _ => rfl) hs).trans (ih h)
      | blocked t' a =>
        have hblocked := evaluates_of_runSlice rs (fun _ => rfl) hs
        dsimp only [continuation] at h
        let m₂ := m₁.report .scheduler fun m => ⟨.debug, "waiting for thunk",
          [("worker", toString m.context.workerId), ("thread", t'.id.text)]⟩
        have hh : m₂.heap = m₁.heap := congrArg Core.heap (Machine.core_report _ _ _)
        -- The remark is not the evaluation's own step: it passes as something that others do.
        have hreport : Progress program ⟨m₁, rs, .waiting t' a⟩ ⟨m₂, rs, .waiting t' a⟩ := by
          refine .others (hh ▸ .refl) (fun hc => hh ▸ hc) ?_
          rw [show m₂.context = m₁.context from Machine.context_report _ _ _]
        split at h
        · cases h
        · next ho =>
          have ho : m₂.heap.owner? a = none := Option.not_isSome_iff_eq_none.1 ho
          exact ((hblocked.tail hreport).tail (.settled ho)).trans (ih h)
      | endless => cases h

theorem evaluates_of_evaluate {limit : Nat} {r : Except RuntimeError Address}
    (rs : List Resumption) (h : evaluate program fuel limit c m = (some r, m')) :
    Evaluates program (.start m rs c limit) ⟨m', rs, .returned r⟩ :=
  evaluates_of_runToEnd rs h

end Slices

theorem evaluate_of_valued (program : Program κ) {fuel : Nat} (limit : Nat) (hfuel : 2 ≤ fuel)
    (hd : m.heap.Directed) (hv : m.heap.Valued c)
    (happ : ∀ f args, m.heap.cell c ≠ .unsaturated f args)
    (hi : m.context.interrupted = false) :
    ∃ v m', evaluate program fuel limit c m = (some (.ok v), m') ∧ Agree m.heap c v ∧
      m'.heap = m.heap ∧ m'.context.counters = m.context.counters := by
  obtain ⟨fuel, rfl⟩ : ∃ k, fuel = k + 2 := ⟨fuel - 2, by omega⟩
  let t := (m.shared.spawn c limit).1
  let m₀ : Machine κ := { m with shared := (m.shared.spawn c limit).2 }
  let m₁ := (begin t m₀).2
  obtain ⟨v, ha, hfirst⟩ := iterate_entering (m := m₁) program hd hv happ hi
  let m₂ := (reportControl (.entering c) m₁).setResult v
  have hcontext₁ := m₁.context_reportControl (.entering c)
  have hstack : m₂.context.stack.frames = [] :=
    (congrArg (fun c => c.stack.frames) hcontext₁).trans rfl
  have hi₂ : m₂.context.interrupted = false := (congrArg Context.interrupted hcontext₁).trans hi
  have hsecond := iterate_resuming program hstack (Registers.result?_setResult _ _) hi₂
  have hcontext₂ := m₂.context_reportControl .resuming
  refine ⟨v, (reportControl .resuming m₂).release, ?_, ha, ?_, ?_⟩
  · have hslice : runSlice program (fuel + 2) t m₀ =
        (some (.finished v), (reportControl .resuming m₂).release) := by
      have hiterate : iterateUpTo program (fuel + 2) 0 (begin t m₀).1 (begin t m₀).2 =
          ((2, .over (.finished v)), (reportControl .resuming m₂).release) :=
        (iterateUpTo_of_next hfirst).trans (iterateUpTo_of_over hsecond)
      rw [runSlice_eq, hiterate]
    exact runToEnd_of_slice hslice
  · exact (m₂.heap_reportControl .resuming).trans (m₁.heap_reportControl (.entering c))
  · have hcounters : m₂.context.counters = m.context.counters :=
      (congrArg Context.counters hcontext₁).trans rfl
    exact (congrArg Context.counters hcontext₂).trans hcounters

end Repeating

section Results

variable {m m' : Machine κ} {c v : Address} {rs rs' : List Resumption} {limit : Nat}

structure Stands (c result : Address) (m : Machine κ) (rs : List Resumption) : Prop where
  returns : ∀ (program : Program κ) (fuel limit : Nat), 2 ≤ fuel → m.context.interrupted = false →
    ∃ v m', evaluate program fuel limit c m = (some (.ok v), m') ∧
      m'.heap.resolve v = result ∧ m'.heap = m.heap ∧
      m'.context.counters = m.context.counters
  among : ∀ (program : Program κ) (limit : Nat) (m' : Machine κ) (rs' : List Resumption)
    (r : Except RuntimeError Address),
    Evaluates program (.start m rs c limit) ⟨m', rs', .returned r⟩ →
    m'.context.counters = m.context.counters ∧
      (r = .error .interrupted ∨ ∃ v, r = .ok v ∧ m'.heap.resolve v = result)

/-- What a worker returns for a closure is in weak head normal form, whatever the threads of other
workers do meanwhile. A thunk has the same value from then on, and evaluating the closure once more
comes to that value and does no work. -/
theorem evaluated_to_weak_head (hp : program.Disciplined)
    (hc : NamesExisting program (.start m rs c limit))
    (hheap : Operations ⟨.empty, []⟩ ⟨m.heap, rs⟩) (hm : m.Closed) (hlt : c.index < m.heap.size)
    (happ : ∀ f args, m.heap.cell c ≠ .unsaturated f args)
    (hrun : Evaluates program (.start m rs c limit) ⟨m', rs', .returned (.ok v)⟩) :
    m'.heap.isValue v = true ∧
      (m.heap.isThunk c = true →
        (∃ b, m'.heap.target? c = some b) ∧ m'.heap.resolve c = m'.heap.resolve v) ∧
      ∀ (m₂ : Machine κ) (rs₂ : List Resumption),
        Operations ⟨m'.heap, rs'⟩ ⟨m₂.heap, rs₂⟩ → Stands c (m'.heap.resolve v) m₂ rs₂ := by
  obtain ⟨ho, -⟩ := ordered_empty.run hheap
  obtain ⟨hend, hl⟩ := (underway_start limit ho hm hlt happ).run hp hc hrun
  have ha : Agree m'.heap c v := hend.standing v rfl
  refine ⟨ha.right.isValue, fun hthunk => ⟨?_, ha.resolve⟩, fun m₂ rs₂ hops => ?_⟩
  · have hthunk : m'.heap.isThunk c = true := hl.thunks c hthunk
    cases ha.left with
    | value _ hn =>
      rw [hthunk] at hn
      cases hn
    | indirection hb _ => exact ⟨_, hb⟩
  obtain ⟨ho₂, hl₂⟩ := hend.ordered.run hops
  have happ₂ := applicable_later hl₂ hend.lt_size hend.applicable
  have hv₂ : m₂.heap.Valued c := ha.left.later hl₂
  have hresolve : m₂.heap.resolve c = m'.heap.resolve v :=
    (ha.left.resolve_later hl₂).trans ha.resolve
  constructor
  case returns =>
    intro program₂ fuel limit₂ hfuel hi
    obtain ⟨v₂, m₃, he, ha₂, hh, hk⟩ :=
      evaluate_of_valued program₂ limit₂ hfuel ho₂.directed hv₂ happ₂ hi
    exact ⟨v₂, m₃, he, by rw [hh, ← ha₂.resolve, hresolve], hh, hk⟩
  case among =>
    intro program₂ limit₂ m₃ rs₃ r hrun₂
    have hstart : Repeating c (m'.heap.resolve v) m₂.context.counters (.start m₂ rs₂ c limit₂) :=
      ⟨ho₂, hv₂, hresolve, happ₂, rfl, rfl, rfl⟩
    obtain ⟨-, -, hw, -, hk, hplace⟩ := hstart.run hrun₂
    exact ⟨hk, hplace.imp_right fun ⟨v₂, he, ha₂⟩ => ⟨v₂, he, ha₂.resolve.symm.trans hw⟩⟩

end Results

section Returned

variable {s s' : Stage κ}

theorem size_le_of_operation {t t' : Traffic κ} (h : Operation t t') :
    t.heap.size ≤ t'.heap.size := by
  cases h with
  | allocate c hc => exact (keeps_allocate hc).later.size_le
  | enter u a => exact (keeps_enter _ u a).later.size_le
  | reset a => exact (keeps_reset _ a).later.size_le
  | park hp => exact (keeps_park hp).later.size_le
  | @publish i a v released h hi hu =>
    unfold Heap.update at hu
    split at hu
    · cases hu
    · have hh : (t.heap.settle a v).2 = h := congrArg Prod.snd (Except.ok.inj hu)
      exact Nat.le_of_eq (hh ▸ (Heap.size_settle t.heap a v).symm)
  | _ => exact Nat.le_refl _

theorem Progress.size_le (h : Progress program s s') :
    s.machine.heap.size ≤ s'.machine.heap.size := by
  cases h with
  | begin m rs t =>
    have hh : (Evaluation.begin t m).2.heap = m.heap := (System.begin_spec t m).1
    exact Nat.le_of_eq (congrArg Heap.size hh.symm)
  | iterate hafter => exact (matures_iterate program _ _ _).later.size_le
  | settled => exact Nat.le_refl _
  | others hops hkeeps hcontext =>
    have hle (t t' : Traffic κ) (h : Operations t t') : t.heap.size ≤ t'.heap.size := by
      induction h with
      | refl => exact Nat.le_refl _
      | tail _ hop ih => exact Nat.le_trans ih (size_le_of_operation hop)
    exact hle _ _ hops

theorem Evaluates.size_le (h : Evaluates program s s') :
    s.machine.heap.size ≤ s'.machine.heap.size := by
  induction h with
  | refl => exact Nat.le_refl _
  | tail _ h ih => exact Nat.le_trans ih h.size_le

theorem namesExisting_of_held (held : Nat) {s₀ : Stage κ} (hheld : held ≤ s₀.machine.heap.size)
    (hc : ∀ code captured (m : Machine κ), m.Closed → held ≤ m.heap.size →
      AllWithin m.heap.size captured → program.ClosedAt code captured m) :
    NamesExisting program s₀ := by
  intro m rs n control hrun code captured m₁ hr hm hv
  have hgrown : s₀.machine.heap.size ≤ m₁.heap.size :=
    Nat.le_trans hrun.size_le hr.matures.later.size_le
  exact hc code captured m₁ hm (Nat.le_trans hheld hgrown) hv

def returning : Program Bool where
  body code _ := match code with
    | true => Action.giveBack ⟨0⟩
    | false => .allocate (.data default []) Action.giveBack

def unreturned : Machine Bool where
  shared := { (Shared.empty default : Shared Bool) with
    heap := ⟨#[.thunk (.unevaluated ⟨false, []⟩), .thunk (.unevaluated ⟨true, []⟩)]⟩ }
  scheduler := .standalone
  context := .new 0 8

theorem disciplined_returning : returning.Disciplined := by
  intro code captured
  rcases code with _ | _
  · exact fun _ => trivial
  · trivial

theorem namesExisting_returning : NamesExisting returning (.start unreturned [] ⟨1⟩ 8) := by
  refine namesExisting_of_held 1 (by decide) fun code captured m hm hsize hv => ?_
  suffices h : (run returning code captured).Carries Exec.Names m from ⟨h.1.closed, h.2⟩
  have hgive (a : Address) (m : Machine Bool) (hm : m.Closed) (ha : a.index < m.heap.size) :
      (Action.giveBack a : Action Bool Step).perform.Carries Exec.Names m :=
    Exec.carries_giveBack hm ha
  rcases code with _ | _
  · obtain ⟨hcarried, hlt⟩ := Carried.allocate (c := .data default []) hm (allWithin_nil _)
    refine .congr ?_ hcarried (hgive _ _ hcarried.closed hlt)
    rfl
  · exact hgive ⟨0⟩ m hm hsize

theorem operations_unreturned : Operations ⟨.empty, []⟩ ⟨unreturned.heap, []⟩ := by
  have hfresh (body : Suspension Bool) (state : ThunkState Bool)
      (h : Cell.thunk (.unevaluated body) = .thunk state) : ∃ b, state = .unevaluated b :=
    ⟨body, (Cell.thunk.inj h).symm⟩
  have hnone : Operations (κ := Bool) ⟨.empty, []⟩ ⟨.empty, []⟩ := .refl
  exact (hnone.tail (.allocate _ _ (hfresh ⟨false, []⟩))).tail
    (.allocate _ _ (hfresh ⟨true, []⟩))

theorem closed_unreturned : unreturned.Closed where
  heap := by
    intro ⟨i⟩
    match i with
    | 0 => exact allWithin_nil _
    | 1 => exact allWithin_nil _
    | i + 2 => exact allWithin_nil _
  registers i a ha := by
    change (Vector.replicate registersPerKind none).get i = some a at ha
    simp [Vector.get] at ha
  frames := nofun

theorem evaluated_to_weak_head_returning :
    returning.Disciplined ∧ NamesExisting returning (.start unreturned [] ⟨1⟩ 8) ∧ ∃ m',
      evaluate returning 10 8 ⟨1⟩ unreturned = (some (.ok ⟨2⟩), m') ∧
        m'.heap.target? ⟨0⟩ = some ⟨2⟩ ∧ m'.heap.isValue ⟨2⟩ = true ∧ Stands ⟨1⟩ ⟨2⟩ m' [] := by
  obtain ⟨m', hrun, htarget, hresolve⟩ : ∃ m',
      evaluate returning 10 8 ⟨1⟩ unreturned = (some (.ok ⟨2⟩), m') ∧
        m'.heap.target? ⟨0⟩ = some ⟨2⟩ ∧ m'.heap.resolve ⟨2⟩ = ⟨2⟩ := by
    have hresult : (evaluate returning 10 8 ⟨1⟩ unreturned).1 = some (.ok ⟨2⟩) := by decide +kernel
    refine ⟨(evaluate returning 10 8 ⟨1⟩ unreturned).2, ?_, by decide +kernel, by decide +kernel⟩
    rw [← hresult]
    exact (Prod.eta _).symm
  obtain ⟨hvalue, -, hstands⟩ := evaluated_to_weak_head disciplined_returning
    namesExisting_returning operations_unreturned closed_unreturned (by decide)
    (fun _ _ h => by cases h) (evaluates_of_evaluate [] hrun)
  exact ⟨disciplined_returning, namesExisting_returning, m', hrun, htarget, hvalue,
    hresolve ▸ hstands m' [] .refl⟩

end Returned

end GraphReduction.WeakHead
