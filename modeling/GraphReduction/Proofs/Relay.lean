import GraphReduction.Proofs.Agreement
import GraphReduction.Proofs.WaitsFor
import Mathlib.Algebra.BigOperators.Fin

namespace GraphReduction

open Evaluation

variable {κ : Type} {n : Nat}

section Iterations

def Evaluation.decision (k : Nat) (c : Control) (m : Machine κ) : (Control ⊕ Pending) × Machine κ :=
  if m.context.interrupted then (.inl (.halted .interrupted), m)
  else if k = 0 ∨ k % pollInterval ≠ 0 then (.inl c, m)
  else
    let asked := m.scheduler.poll.1
    let m := { m with scheduler := m.scheduler.poll.2 }
    if asked then
      match suspensionPoint c m with
      | .ok pending => (.inr pending, m)
      | .error c => (.inl c, m)
    else (.inl c, m)

theorem Evaluation.iterate_eq (program : Program κ) (k : Nat) (c : Control) (m : Machine κ) :
    iterate program k c m = match decision k c m with
      | (.inl c, m) => advance program c m
      | (.inr pending, m) => yieldThread pending m := by
  unfold iterate decision
  split
  · rfl
  · split
    · rfl
    · dsimp only
      split
      · cases suspensionPoint c { m with scheduler := m.scheduler.poll.2 } <;> rfl
      · rfl

def Evaluation.iterateCalls (k : Nat) (c : Control) (m : Machine κ) : List (Call κ) :=
  match decision k c m with
  | (.inl c, m) => callsOf c m
  | (.inr _, _) => []

def Evaluation.iterateUpToCalls (program : Program κ) :
    Nat → Nat → Control → Machine κ → List (Call κ)
  | 0, _, _, _ => []
  | fuel + 1, k, c, m =>
    iterateCalls k c m ++ match iterate program k c m with
      | (.next c, m) => iterateUpToCalls program fuel (k + 1) c m
      | (.over _, _) => []

def Evaluation.sliceCalls (program : Program κ) (fuel : Nat) (t : Thread κ) (m : Machine κ) :
    List (Call κ) :=
  iterateUpToCalls program fuel 0 (begin t m).1 (begin t m).2

abbrev Standing (κ : Type) := Except RuntimeError Address ⊕ Thread κ

def Evaluation.Outcome.standing (h : Heap κ) : Outcome κ → Option (Standing κ)
  | .finished value => some (.inl (.ok value))
  | .halted e => some (.inl (.error e))
  | .yielded t => some (.inr t)
  | .blocked t a => if (h.owner? a).isSome then none else some (.inr t)
  | .endless => none

end Iterations

structure Fleet (κ : Type) (n : Nat) where
  shared : Shared κ
  contexts : Fin n → Context κ

namespace Fleet

def machine (f : Fleet κ n) (place : Fin n × Scheduler κ) : Machine κ :=
  ⟨f.shared, place.2, f.contexts place.1⟩

def put (f : Fleet κ n) (i : Fin n) (m : Machine κ) : Fleet κ n :=
  ⟨m.shared, Function.update f.contexts i m.context⟩

def work (f : Fleet κ n) : Counters := ∑ i, (f.contexts i).counters.work

def Uninterrupted (f : Fleet κ n) : Prop := ∀ i, (f.contexts i).interrupted = false

def others (f : Fleet κ n) (i : Fin n) : Counters :=
  ∑ k ∈ Finset.univ.erase i, (f.contexts k).counters.work

variable (f : Fleet κ n) (i : Fin n) (m : Machine κ)

theorem work_eq : f.work = (f.contexts i).counters.work + f.others i :=
  (Finset.add_sum_erase Finset.univ _ (Finset.mem_univ i)).symm

theorem contexts_put (k : Fin n) :
    (f.put i m).contexts k = if k = i then m.context else f.contexts k :=
  Function.update_apply f.contexts i m.context k

theorem others_put : (f.put i m).others i = f.others i := by
  refine Finset.sum_congr rfl fun k hk => ?_
  rw [contexts_put, if_neg (Finset.ne_of_mem_erase hk)]

theorem work_put : (f.put i m).work = m.context.counters.work + f.others i := by
  rw [work_eq _ i, others_put, contexts_put, if_pos rfl]

theorem others_of_one (f : Fleet κ 1) (i : Fin 1) : f.others i = 0 := by
  rw [others, Subsingleton.elim i 0]
  rfl

variable {f i m}

theorem Uninterrupted.put (hf : f.Uninterrupted) (hm : m.context.interrupted = false) :
    (f.put i m).Uninterrupted := by
  intro k
  rw [contexts_put]
  split
  · exact hm
  · exact hf k

end Fleet

/-- A thread is run to its end from the `j`-th slice on, which may be no slice at all. The worker of
each slice and the scheduler that it answers to are given beforehand. -/
inductive Relay (program : Program κ) (places : Nat → Fin n × Scheduler κ) :
    Nat → Standing κ → Fleet κ n → List (Call κ) → Except RuntimeError Address → Fleet κ n → Prop
    where
  | ended {j : Nat} {r : Except RuntimeError Address} {f : Fleet κ n} :
      Relay program places j (.inl r) f [] r f
  | slice {j fuel : Nat} {t : Thread κ} {f f' : Fleet κ n} {o : Outcome κ} {m : Machine κ}
      {s : Standing κ} {cs : List (Call κ)} {r : Except RuntimeError Address}
      (h : runSlice program fuel t (f.machine (places j)) = (some o, m))
      (hs : o.standing m.heap = some s)
      (rest : Relay program places (j + 1) s (f.put (places j).1 m) cs r f') :
      Relay program places j (.inr t) f
        (sliceCalls program fuel t (f.machine (places j)) ++ cs) r f'

inductive Leg (κ : Type) (n : Nat) where
  | running (j : Nat) (f : Fleet κ n) (k : Nat) (c : Control) (m : Machine κ)
  | ended (r : Except RuntimeError Address) (f : Fleet κ n)

namespace Leg

variable (program : Program κ) (places : Nat → Fin n × Scheduler κ)

def start (j : Nat) (f : Fleet κ n) : Standing κ → Leg κ n
  | .inl r => .ended r f
  | .inr t => .running j f 0 (begin t (f.machine (places j))).1 (begin t (f.machine (places j))).2

def after (j : Nat) (f : Fleet κ n) (k : Nat) (m : Machine κ) : Turn κ → Option (Leg κ n)
  | .next c => some (.running j f (k + 1) c m)
  | .over o => (o.standing m.heap).map (start places (j + 1) (f.put (places j).1 m))

def calls : Leg κ n → List (Call κ)
  | .running _ _ k c m => iterateCalls k c m
  | .ended _ _ => []

def next : Leg κ n → Option (Leg κ n)
  | .running j f k c m => after places j f k (iterate program k c m).2 (iterate program k c m).1
  | .ended _ _ => none

inductive Ends : Leg κ n → List (Call κ) → Except RuntimeError Address → Fleet κ n → Prop where
  | ended {r : Except RuntimeError Address} {f : Fleet κ n} : Ends (.ended r f) [] r f
  | step {p q : Leg κ n} {cs : List (Call κ)} {r : Except RuntimeError Address} {f : Fleet κ n}
      (h : p.next program places = some q) (rest : Ends q cs r f) : Ends p (p.calls ++ cs) r f

variable {program places} {j k : Nat} {f f' : Fleet κ n} {c : Control} {m m' : Machine κ}
  {o : Outcome κ} {s : Standing κ} {q : Leg κ n} {cs : List (Call κ)}
  {r : Except RuntimeError Address}

theorem next_running {x : Turn κ × Machine κ} (h : iterate program k c m = x) :
    (running j f k c m).next program places = after places j f k x.2 x.1 := by
  rw [next, h]

theorem calls_running : (running j f k c m).calls = match decision k c m with
    | (.inl c, m) => callsOf c m
    | (.inr _, _) => [] := rfl

theorem after_over_of_none (hs : o.standing m.heap = none) :
    after places j f k m (.over o) = none := by
  rw [after, hs]
  rfl

theorem after_over (hs : o.standing m.heap = some s) :
    after places j f k m (.over o) = some (start places (j + 1) (f.put (places j).1 m) s) := by
  rw [after, hs]
  rfl

theorem ends_of_iterateUpTo {fuel k' : Nat}
    (h : iterateUpTo program fuel k c m = ((k', .over o), m')) (hs : o.standing m'.heap = some s)
    (rest : Ends program places (start places (j + 1) (f.put (places j).1 m') s) cs r f') :
    Ends program places (.running j f k c m) (iterateUpToCalls program fuel k c m ++ cs) r f' := by
  induction fuel generalizing k c m with
  | zero => cases h
  | succ fuel ih =>
    unfold iterateUpToCalls
    cases ht : iterate program k c m with
    | mk turn m₁ =>
      rcases turn with c' | o'
      · rw [iterateUpTo_of_next ht] at h
        rw [List.append_assoc]
        exact .step (next_running ht) (ih h)
      · rw [iterateUpTo_of_over ht] at h
        cases h
        rw [List.append_nil]
        exact .step ((next_running ht).trans (after_over hs)) rest

theorem ends_of_relay (h : Relay program places j s f cs r f') :
    Ends program places (start places j f s) cs r f' := by
  induction h with
  | ended => exact .ended
  | slice h hs rest ih =>
    obtain ⟨k, hk⟩ := runSlice_eq_some h
    exact ends_of_iterateUpTo hk hs ih

def Continues (program : Program κ) (places : Nat → Fin n × Scheduler κ) (cs : List (Call κ))
    (r : Except RuntimeError Address) (f' : Fleet κ n) : Leg κ n → Prop
  | .ended r₁ f => r₁ = r ∧ f = f' ∧ cs = []
  | .running j f k c m => ∃ fuel k' o m' s cs',
      iterateUpTo program fuel k c m = ((k', .over o), m') ∧ o.standing m'.heap = some s ∧
      cs = iterateUpToCalls program fuel k c m ++ cs' ∧
      Relay program places (j + 1) s (f.put (places j).1 m') cs' r f'

theorem relay_of_continues (h : Continues program places cs r f' (start places j f s)) :
    Relay program places j s f cs r f' := by
  cases s with
  | inl r' =>
    obtain ⟨rfl, rfl, rfl⟩ := h
    exact .ended
  | inr t =>
    obtain ⟨fuel, k', o, m', s, cs', hi, hs, rfl, hr⟩ := h
    refine .slice ?_ hs hr
    rw [runSlice_eq, hi]

theorem continues_of_ends {p : Leg κ n} (h : Ends program places p cs r f') :
    Continues program places cs r f' p := by
  induction h with
  | ended => exact ⟨rfl, rfl, rfl⟩
  | @step p q cs r f h rest ih =>
    cases p with
    | ended r₁ f₁ => cases h
    | running j f₁ k c m =>
      cases ht : iterate program k c m with
      | mk turn m₁ =>
        rw [next_running ht] at h
        rcases turn with c' | o
        · cases h
          obtain ⟨fuel, k', o, m', s, cs', hi, hs, rfl, hr⟩ := ih
          refine ⟨fuel + 1, k', o, m', s, cs', (iterateUpTo_of_next ht).trans hi, hs, ?_, hr⟩
          rw [iterateUpToCalls, ht, List.append_assoc]
          rfl
        · obtain ⟨s, hs, rfl⟩ := Option.map_eq_some_iff.1 h
          refine ⟨1, k + 1, o, m₁, s, cs, iterateUpTo_of_over ht, hs, ?_, relay_of_continues ih⟩
          rw [iterateUpToCalls, ht, List.append_nil]
          rfl

theorem relay_iff_ends :
    Relay program places j s f cs r f' ↔ Ends program places (start places j f s) cs r f' :=
  ⟨ends_of_relay, fun h => relay_of_continues (continues_of_ends h)⟩

end Leg

end GraphReduction
