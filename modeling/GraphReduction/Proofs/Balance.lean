import GraphReduction.Proofs.Chronicle
import GraphReduction.Proofs.Exchange
import GraphReduction.Proofs.Lasting
import GraphReduction.Proofs.Ledger

/-!
The counters of all workers, in any system of threads. Main statement: as many thunks have been
entered as have been updated, have an update frame on the stack of some thread, or have lost theirs.
-/
namespace GraphReduction

open Evaluation GraphReduction.Frame

variable {κ : Type} {program : Program κ}

namespace Balance

section Definitions

/-- The frames that a step loses. Threads may be parked where a standalone worker sets them free. -/
def losses (program : Program κ) : System.Deed κ → List (Loss κ)
  | .iterate n c m released =>
    iterateLosses program n c m ++ (m.scheduler.drops released).map .dropped
  | .abandon t => [.abandoned t]
  | _ => []

inductive Run (program : Program κ) (s₀ : System κ) : List (Loss κ) → System κ → Prop where
  | nil : Run program s₀ [] s₀
  | act {s s' : System κ} {log : List (Loss κ)} {deed : System.Deed κ} : Run program s₀ log s →
      System.Act program s deed s' → Run program s₀ (log ++ losses program deed) s'

def live (s : System κ) : List Address := s.threadStacks.flatMap fun p => updates p.2

def tally (s : System κ) : UInt64 × UInt64 :=
  (s.stations.map fun st => st.context.counters.tally).sum

def account (s : System κ) : Account := ⟨tally s, s.shared.heap.evaluated.card, (live s).length⟩

def turned (s₀ s : System κ) : Finset Address := s.shared.heap.evaluated \ s₀.shared.heap.evaluated

end Definitions

theorem Run.reaches {s₀ s : System κ} {log : List (Loss κ)} (run : Run program s₀ log s) :
    System.Reaches program s₀ s := by
  induction run with
  | nil => exact .refl
  | act _ h ih => exact ih.tail ⟨_, h⟩

section Accounting

variable {s s' : System κ}

theorem length_lost_append (log log' : List (Loss κ)) :
    (lost (log ++ log')).length = (lost log).length + (lost log').length := by
  rw [lost, List.flatMap_append, List.length_append, lost, lost]

theorem live_perm (h : s.threadStacks.Perm s'.threadStacks) :
    (live s').length = (live s).length :=
  (h.symm.flatMap_right _).length_eq

theorem tally_set {i : Nat} {st : Station κ} (hi : s.stations[i]? = some st) :
    ∃ others : UInt64 × UInt64, tally s = st.context.counters.tally + others ∧
      ∀ (st' : Station κ) (shared : Shared κ) (ready : List (Thread κ))
        (blocked : List (Thread κ × Address)) (dropped : List (Thread κ)),
        tally ⟨shared, s.stations.set i st', ready, blocked, dropped⟩ =
          st'.context.counters.tally + others := by
  obtain ⟨rest, hold, hnew⟩ := exists_rest hi
  exact ⟨_, sum_of_perm _ hold, fun st' _ _ _ _ => sum_of_perm _ (hnew st')⟩

theorem account_eq (ht : tally s' = tally s)
    (hv : s'.shared.heap.evaluated = s.shared.heap.evaluated)
    (hs : s.threadStacks.Perm s'.threadStacks) : account s' = account s := by
  rw [account, ht, hv, live_perm hs, account]

theorem evaluated_resetFrames (frames : List (Frame κ)) (s : Shared κ) :
    (s.resetFrames frames).2.heap.evaluated = s.heap.evaluated := by
  induction frames generalizing s with
  | nil => rfl
  | cons frame rest ih =>
    cases frame with
    | update a =>
      exact (ih { s with heap := (s.heap.reset a).2 }).trans (s.heap.restored_reset a).evaluated
    | _ => exact ih s

theorem live_abandon {t : Thread κ} {rest : List (Thread κ)} (hready : s.ready.Perm (t :: rest)) :
    (live { s with
      shared := (s.shared.abandon t).2
      ready := (s.shared.abandon t).1 ++ rest }).length + (lost [.abandoned t]).length =
        (live s).length := by
  have hlive := ((System.threadStacks_abandon hready).flatMap_right fun p => updates p.2).length_eq
  have hlost : lost [.abandoned t] = updates t.stack.frames := by simp [lost, Loss.frames]
  rw [List.flatMap_cons, List.length_append, Nat.add_comm] at hlive
  rw [hlost]
  exact hlive.symm

theorem updates_turn_stack (turn : Turn κ) (id : ThreadId) (m : Machine κ) :
    ((turn.stack id m).flatMap fun p => updates p.2) = updates (turn.frames m) := by
  rcases turn.stack_cases id m with he | ⟨he, hn⟩
  · rw [he]
    simp
  · rw [he, hn]
    rfl

theorem balances_leave {i n : Nat} {context : Context κ} {c : Control} {q : Scheduler κ}
    {rest released : List (Thread κ)} {turn : Turn κ} {m : Machine κ} (dropped : List (Thread κ))
    (hi : s.stations[i]? = some ⟨context, some c⟩) (hready : s.ready.Perm (q.held ++ rest))
    (hparked : (released ++ m.heap.parked).Perm s.shared.heap.parked)
    (hands : Machine.Hands ⟨s.shared, q, context⟩ m)
    (h : Iterated program c ⟨s.shared, q, context⟩ turn m)
    (hbalances : (Machine.account ⟨s.shared, q, context⟩).Balances n (turn.account m)) :
    (account s).Balances (n + (lost ((q.drops released).map .dropped)).length) (account {
      shared := m.shared
      stations := s.stations.set i ⟨m.context, turn.control⟩
      ready := turn.yielded ++ (m.scheduler.held ++ rest)
      blocked := turn.blocked ++ s.blocked
      dropped := dropped }) := by
  obtain ⟨O, h₁, h₂⟩ := System.threadStacks_iterate dropped hi hready h hands hparked
  obtain ⟨others, hold, hnew⟩ := tally_set hi
  have hbefore : account s = ⟨context.counters.tally + others, s.shared.heap.evaluated.card,
      (updates context.stack.frames).length + (O.flatMap fun p => updates p.2).length⟩ := by
    rw [account, hold, live, (h₁.flatMap_right _).length_eq, List.flatMap_cons,
      List.length_append]
  have hafter := (h₂.flatMap_right fun p => updates p.2).length_eq
  rw [List.flatMap_append, List.length_append, List.flatMap_append, List.length_append,
    updates_turn_stack] at hafter
  rw [hbefore]
  refine (hbalances.add others _).lose ?_ rfl ?_
  · exact hnew _ _ _ _ _
  · rw [lost, List.flatMap_map]
    rw [List.flatMap_map] at hafter
    exact hafter

theorem balances_act (hp : program.Conventional) {deed : System.Deed κ}
    (h : System.Act program s deed s') (hs : s.Sound) :
    (account s).Balances (lost (losses program deed)).length (account s') := by
  cases h with
  | spawn a limit =>
    have hperm : (System.threadStacks { s with
        shared := (s.shared.spawn a limit).2
        ready := (s.shared.spawn a limit).1 :: s.ready }).Perm
          ((⟨s.shared.lastThread + 1⟩, []) :: s.threadStacks) := List.perm_middle
    exact (Account.Balances.refl _).lose (k := 0) rfl rfl
      (hperm.flatMap_right fun p : ThreadId × List (Frame κ) => updates p.2).length_eq
  | @attach i context t rest q hi hready =>
    obtain ⟨others, hold, hnew⟩ := tally_set hi
    have hcounters : (begin t ⟨s.shared, q, context⟩).2.context.counters = context.counters := by
      obtain ⟨id, stack, pending⟩ := t
      cases pending <;> rfl
    refine .of_eq (account_eq ?_ ?_ (System.threadStacks_attach q hi hready))
    · rw [hnew, hold, hcounters]
    · exact congrArg _ (System.begin_spec t ⟨s.shared, q, context⟩).1
  | park hb hpark =>
    obtain ⟨_, _, _, hc, rfl⟩ := Heap.park?_eq_some hpark
    exact .of_eq (account_eq rfl (Heap.evaluated_write hc nofun nofun)
      (System.threadStacks_park hb hpark))
  | retry hb => exact .of_eq (account_eq rfl rfl (System.threadStacks_retry hb))
  | @abandon t rest hready =>
    change (account s).Balances (lost [.abandoned t]).length _
    rw [← Nat.zero_add (lost _).length]
    exact (Account.Balances.refl _).lose rfl
      (congrArg Finset.card (evaluated_resetFrames t.stack.frames _)) (live_abandon hready)
  | @interrupt i st flag hi =>
    obtain ⟨others, hold, hnew⟩ := tally_set hi
    refine .of_eq (account_eq ?_ rfl ?_)
    · rw [hnew, hold]
    · exact System.perm_threadStacks (System.flatMap_stack_set_eq hi rfl) (.refl _)
  | report target remark =>
    refine .of_eq (account_eq rfl ?_ ?_)
    · exact congrArg _ (System.report_spec s.shared target remark).1
    · rw [System.threadStacks_report]
  | @iterate i context c q rest turn m n released hi hready ht hparked =>
    have hbalances := balances_iterate (m := ⟨s.shared, q, context⟩) hp n c (hs.owning hi q)
      fun hc => hs.result _ (List.mem_of_getElem? hi) (congrArg some hc)
    rw [ht] at hbalances
    have hiter := hs.iterated hp hi ht
    rw [losses, length_lost_append]
    exact balances_leave _ hi hready hparked (hands_of_iterate ht) hiter hbalances

end Accounting

section Running

variable {s₀ s : System κ} {log : List (Loss κ)}

theorem Run.balances (hp : program.Conventional) (h₀ : s₀.Initial) (run : Run program s₀ log s) :
    (account s₀).Balances (lost log).length (account s) := by
  induction run with
  | nil => exact .refl _
  | act run h ih =>
    rw [length_lost_append]
    exact ih.trans (balances_act hp h (System.sound_of_reaches hp h₀ run.reaches))

structure Balanced (s₀ : System κ) (log : List (Loss κ)) (s : System κ) : Prop where
  tally : tally s = tally s₀ +
    (UInt64.ofNat ((turned s₀ s).card + (live s).length + (lost log).length),
      UInt64.ofNat (turned s₀ s).card)
  kept : ∀ a v, s₀.shared.heap.target? a = some v → s.shared.heap.target? a = some v
  finished : lost log = [] → s.threadStacks = [] → Balance.tally s = Balance.tally s₀ +
    (UInt64.ofNat (turned s₀ s).card, UInt64.ofNat (turned s₀ s).card)

/-- Whatever threads run on whatever workers, a thunk that was entered has been updated, or has an
update frame on the stack of a thread, or the frame was unwound, abandoned or dropped with its
thread; only standalone workers drop threads. The iterations of workers are steps of such runs. -/
theorem balanced_of_run (hp : program.Conventional) (h₀ : s₀.Initial)
    (run : Run program s₀ log s) :
    Balanced s₀ log s ∧
      ∀ (i n : Nat) (context : Context κ) (c : Control) (q : Scheduler κ) (rest : List (Thread κ)),
        s.stations[i]? = some ⟨context, some c⟩ → s.ready.Perm (q.held ++ rest) →
        ∃ deed s', System.Act program s deed s' ∧
          s'.shared = (iterate program n c ⟨s.shared, q, context⟩).2.shared ∧
          (q ≠ .standalone →
            losses program deed = iterateLosses program n c ⟨s.shared, q, context⟩) := by
  obtain ⟨entered, updated, ht, hv, hf⟩ := run.balances hp h₀
  have htargets := run.reaches.matures.later.targets
  have hsubset : s₀.shared.heap.evaluated ⊆ s.shared.heap.evaluated := by
    intro a ha
    obtain ⟨v, hv⟩ := Option.isSome_iff_exists.1 (Heap.mem_evaluated.1 ha)
    rw [Heap.mem_evaluated, htargets a v hv]
    rfl
  have hturned : (turned s₀ s).card = updated := by
    rw [turned, Finset.card_sdiff_of_subset hsubset]
    exact Nat.sub_eq_of_eq_add (hv.trans (Nat.add_comm _ _))
  have hstart : (account s₀).frames = 0 := by
    change (live s₀).length = 0
    rw [live, h₀.threadStacks]
    rfl
  have hentered : (turned s₀ s).card + (live s).length + (lost log).length = entered := by
    change (live s).length + updated + (lost log).length = _ at hf
    omega
  have htally : tally s = tally s₀ +
      (UInt64.ofNat ((turned s₀ s).card + (live s).length + (lost log).length),
        UInt64.ofNat (turned s₀ s).card) := by
    rw [hentered, hturned]
    exact ht
  refine ⟨⟨htally, htargets, ?_⟩, ?_⟩
  · intro hlog hs
    rw [htally, hlog, live, hs]
    rfl
  · intro i n context c q rest hi hready
    obtain ⟨released, hparked, -, -⟩ := hands_iterate program n c ⟨s.shared, q, context⟩
    refine ⟨_, _, .iterate n released hi hready rfl hparked, rfl, fun hq => ?_⟩
    rw [losses, Scheduler.drops_of_ne hq]
    exact List.append_nil _

end Running

section Forking

open GraphReduction.System

theorem run_waiting : Run forking fork [] waiting := by
  have h₀ : Run forking fork [] fork := .nil
  have h₁ := h₀.act (.spawn _ ⟨0⟩ 4)
  have h₂ := h₁.act (.spawn _ ⟨1⟩ 4)
  have h₃ := h₂.act (.attach (i := 0) .standalone rfl (.swap _ _ _))
  have h₄ := h₃.act (.iterate (i := 0) (q := .standalone) (m := first) 0 [] rfl (.refl _) rfl .nil)
  have h₅ := h₄.act (.attach (i := 1) patient rfl (.refl _))
  have h₆ := h₅.act (.iterate (i := 1) (q := patient) (m := second) 0 [] rfl (.refl _) rfl .nil)
  have h₇ := h₆.act (.iterate (i := 1) (q := patient) (m := third) 1 [] rfl (.refl _) rfl .nil)
  have h₈ := h₇.act (.iterate (i := 1) (q := patient) (m := fourth) 2 [] rfl (.refl _) rfl .nil)
  exact h₈.act (.park (h := waitingHeap) (.refl _) rfl)

theorem balanced_fork : ∃ s, Run forking fork [] s ∧ s.ready = [waiter] ∧ live s = [⟨1⟩] ∧
    tally s = (2, 1) ∧ Balanced fork [] s := by
  have run := run_waiting.act (.iterate (i := 0) (q := patient) (m := resumed patient) 1 [waiter]
    rfl (.refl _) rfl (.refl _))
  exact ⟨_, run, rfl, rfl, by decide +kernel,
    (balanced_of_run conventional_forking initial_fork run).1⟩

theorem dropped_fork : forking.Conventional ∧ fork.Initial ∧ ∃ s,
    Run forking fork [.dropped waiter] s ∧ live s = [] ∧ tally fork = 0 ∧ tally s = (2, 1) := by
  have run := run_waiting.act (.iterate (i := 0) (q := .standalone) (m := resumed .standalone) 1
    [waiter] rfl (.refl _) rfl (.refl _))
  exact ⟨conventional_forking, initial_fork, _, run, rfl, by decide +kernel, by decide +kernel⟩

end Forking

end Balance

end GraphReduction
