import GraphReduction.Proofs.Entering
import GraphReduction.Proofs.WaitsFor
import Mathlib.Data.Finset.Card
import Mathlib.Logic.Relation

namespace GraphReduction.WaitingMap

open Evaluation

variable {κ : Type} {w w' : WaitingMap} {h : Heap κ} {me t u : ThreadId} {thunk : Address}

def Awaits (w : WaitingMap) (h : Heap κ) (t u : ThreadId) : Prop :=
  ∃ a, w.find? t = some a ∧ h.owner? a = some u

/-- The owner of a thunk waits for `me`, perhaps through others, or is `me`. -/
def ClosesCycle (w : WaitingMap) (h : Heap κ) (me : ThreadId) (thunk : Address) : Prop :=
  ∃ owner, h.owner? thunk = some owner ∧ Relation.ReflTransGen (w.Awaits h) owner me

def keys (w : WaitingMap) : Finset ThreadId := (w.entries.map Prod.fst).toFinset

theorem reaches_iff_awaits : w.Reaches h me t ↔ Relation.ReflTransGen (w.Awaits h) t me := by
  constructor
  · intro hr
    induction hr with
    | here => exact .refl
    | hop hn _ ih => exact .head (next?_eq_some_iff.1 hn) ih
  · intro hr
    induction hr using Relation.ReflTransGen.head_induction_on with
    | refl => exact .here
    | head he _ ih => exact .hop (next?_eq_some_iff.2 he) ih

theorem mem_keys_iff : t ∈ w.keys ↔ ∃ a, w.find? t = some a := by
  rw [keys, List.mem_toFinset]
  constructor
  · intro ht
    obtain ⟨e, he, rfl⟩ := List.mem_map.1 ht
    rw [← Option.isSome_iff_exists, find?, Option.isSome_iff_ne_none, ne_eq,
      List.lookup_eq_none_iff]
    intro hno
    simpa using hno e he
  · rintro ⟨a, ha⟩
    exact mem_keys_of_find? ha

theorem card_keys_le (w : WaitingMap) : w.keys.card ≤ w.entries.length := by
  have hl := (w.entries.map Prod.fst).toFinset_card_le
  rwa [List.length_map] at hl

theorem meets_iff_closesCycle {n : Nat} (hn : w.keys.card < n) :
    w.meets h me n (h.owner? thunk) = true ↔ w.ClosesCycle h me thunk := by
  cases ho : h.owner? thunk with
  | none =>
    have hno : ¬ w.ClosesCycle h me thunk := by
      rintro ⟨u, hu, -⟩
      rw [ho] at hu
      cases hu
    simp only [hno, iff_false]
    cases n with
    | zero => exact absurd hn (Nat.not_lt_zero _)
    | succ n => simp [meets]
  | some t =>
    have hkeys : ∀ v a, w.find? v = some a → v ∈ w.keys.toList := by
      intro v a hv
      rw [Finset.mem_toList, mem_keys_iff]
      exact ⟨a, hv⟩
    rw [meets_iff_reaches hkeys (by rwa [Finset.length_toList]), reaches_iff_awaits, ClosesCycle]
    simp [ho]

theorem register?_eq_none_iff (hme : me ≠ .nobody) :
    w.register? h me thunk = none ↔ w.ClosesCycle h me thunk := by
  rw [register?, if_neg hme, ← meets_iff_closesCycle (Nat.lt_succ_of_le w.card_keys_le)]
  split <;> simp_all

theorem find?_of_register? (hme : me ≠ .nobody) (hr : w.register? h me thunk = some w')
    (t : ThreadId) : w'.find? t = if t = me then some thunk else w.find? t := by
  rw [register?, if_neg hme] at hr
  split at hr
  · cases hr
  · cases hr
    exact find?_insert w me t thunk

theorem enterBusy_cases {m : Machine κ} (hme : m.context.thread ≠ .nobody) (thunk : Address) :
    ∃ m', (m.shared.waiting.ClosesCycle m.heap m.context.thread thunk ∧
        enterBusy thunk m = .error (.error .nonTermination) m' ∧ m'.core = m.core) ∨
      (¬ m.shared.waiting.ClosesCycle m.heap m.context.thread thunk ∧
        enterBusy thunk m = .ok (.block thunk) m' ∧
        ∃ w, m'.core = { m.core with waiting := w } ∧
          ∀ t, w.find? t =
            if t = m.context.thread then some thunk else m.shared.waiting.find? t) := by
  -- What entering a thunk under evaluation does to the map: it stays when an exception is
  -- raised, and gets one entry when the thread blocks.
  cases hr : m.shared.waiting.register? m.heap m.context.thread thunk with
  | none =>
    obtain ⟨m', hx, hcore⟩ := enterBusy_of_cycle hr
    exact ⟨m', .inl ⟨(register?_eq_none_iff hme).1 hr, hx, hcore⟩⟩
  | some w =>
    obtain ⟨m', hx, hcore⟩ := enterBusy_of_register? hr
    refine ⟨m', .inr ⟨?_, hx, w, hcore, find?_of_register? hme hr⟩⟩
    rw [← register?_eq_none_iff hme, hr]
    exact Option.some_ne_none w

/-- A thread must not wait if the owner of the thunk waits for it already, at whatever distance: the
count of hops never ends the search too soon, and a cycle among others does not mislead it. -/
theorem cycle_check_exact (w : WaitingMap) (h : Heap κ) {me : ThreadId} (hme : me ≠ .nobody)
    (thunk : Address) :
    (w.register? h me thunk = none ↔ w.ClosesCycle h me thunk) ∧
    (∀ w', w.register? h me thunk = some w' →
      ∀ t, w'.find? t = if t = me then some thunk else w.find? t) ∧
    (∀ n, w.keys.card < n → (w.meets h me n (h.owner? thunk) = true ↔ w.ClosesCycle h me thunk)) ∧
    ∀ m : Machine κ, m.heap = h → m.shared.waiting = w → m.context.thread = me →
      ∃ m', (w.ClosesCycle h me thunk ∧
          enterBusy thunk m = .error (.error .nonTermination) m' ∧ m'.core = m.core) ∨
        (¬ w.ClosesCycle h me thunk ∧ enterBusy thunk m = .ok (.block thunk) m' ∧
          ∃ w', m'.core = { m.core with waiting := w' } ∧
            ∀ t, w'.find? t = if t = me then some thunk else w.find? t) := by
  refine ⟨register?_eq_none_iff hme, fun w' hr => find?_of_register? hme hr,
    fun n hn => meets_iff_closesCycle hn, ?_⟩
  rintro m rfl rfl rfl
  exact enterBusy_cases hme thunk

section Tangles

def contested : Heap Unit :=
  ⟨⟨[1, 2, 3, 4, 5].map fun n => .thunk (.underEvaluation ⟨n⟩ ⟨(), []⟩ [])⟩⟩

def tangled : WaitingMap := ⟨[(⟨1⟩, ⟨1⟩), (⟨2⟩, ⟨2⟩), (⟨4⟩, ⟨4⟩), (⟨5⟩, ⟨3⟩)]⟩

theorem cycle_check_exact_tangled :
    (⟨3⟩ : ThreadId) ≠ .nobody ∧ tangled.ClosesCycle contested ⟨3⟩ ⟨0⟩ ∧
      ¬ tangled.ClosesCycle contested ⟨3⟩ ⟨3⟩ ∧
      ∃ w, tangled.register? contested ⟨3⟩ ⟨3⟩ = some w ∧ w.find? ⟨3⟩ = some ⟨3⟩ ∧
        ∀ t ≠ ⟨3⟩, w.find? t = tangled.find? t := by
  have hme : (⟨3⟩ : ThreadId) ≠ .nobody := by decide
  obtain ⟨hfirst, -⟩ := cycle_check_exact tangled contested hme ⟨0⟩
  obtain ⟨hfourth, hnew, -⟩ := cycle_check_exact tangled contested hme ⟨3⟩
  have hsome : tangled.register? contested ⟨3⟩ ⟨3⟩ = some (tangled.insert ⟨3⟩ ⟨3⟩) := rfl
  refine ⟨hme, hfirst.1 rfl, ?_, _, hsome, ?_, fun t ht => ?_⟩
  · rw [← hfourth, hsome]
    exact Option.some_ne_none _
  · rw [hnew _ hsome, if_pos rfl]
  · rw [hnew _ hsome, if_neg ht]

example : let w : WaitingMap := ⟨[(⟨1⟩, ⟨1⟩), (⟨2⟩, ⟨2⟩)]⟩
    w.meets contested ⟨3⟩ 2 (contested.owner? ⟨0⟩) = false ∧
      w.meets contested ⟨3⟩ 3 (contested.owner? ⟨0⟩) = true := by
  decide

end Tangles

end GraphReduction.WaitingMap
