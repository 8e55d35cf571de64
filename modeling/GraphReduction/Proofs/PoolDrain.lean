import GraphReduction.Proofs.PoolDelivery
import GraphReduction.Proofs.Registry

namespace GraphReduction

open Evaluation GraphReduction.Frame

variable {κ : Type} {program : Program κ}

section Loop

namespace Shared

variable {s s' : Shared κ} {threads : List (Thread κ)} {n : Nat}

inductive Drains : List (Thread κ) → Shared κ → Nat → Shared κ → Prop where
  | done (s : Shared κ) : Drains [] s 0 s
  | abandon {threads : List (Thread κ)} {t : Thread κ} {s s' : Shared κ} {n : Nat} :
      Drains (threads ++ (s.abandon t).1) (s.abandon t).2 n s' →
        Drains (threads ++ [t]) s (n + 1) s'

theorem abandonAll_append (n : Nat) (threads : List (Thread κ)) (t : Thread κ) (s : Shared κ) :
    abandonAll (n + 1) (threads ++ [t]) s =
      abandonAll n (threads ++ (s.abandon t).1) (s.abandon t).2 := by
  rw [abandonAll, List.getLast?_concat]
  dsimp only
  rw [List.dropLast_concat]

theorem Drains.abandonAll_eq (h : Drains threads s n s') (k : Nat) :
    abandonAll (n + k) threads s = s' := by
  induction h with
  | done s => cases k <;> rfl
  | @abandon threads t s s' n _ ih => rw [Nat.add_right_comm, abandonAll_append, ih]

structure AtRest (s : Shared κ) (stale : List (ThreadId × Address)) : Prop where
  owner? : ∀ a, s.heap.owner? a = none
  parked : s.heap.parked = []
  waiting : ∀ t a, s.waiting.find? t = some a ↔ (t, a) ∈ stale

end Shared

namespace System

variable {s : System κ}

def pending (threads : List (Thread κ)) (s : Shared κ) : List (Thread κ) :=
  threads ++ s.heap.parked

structure Entered (stale : List (ThreadId × Address)) (threads : List (Thread κ)) (s : Shared κ) :
    Prop where
  found : ∀ t a, s.waiting.find? t = some a →
    t ∈ (pending threads s).map Thread.id ∨ (t, a) ∈ stale
  kept : ∀ t a, (t, a) ∈ stale →
    s.waiting.find? t = some a ∧ t ∉ (pending threads s).map Thread.id

variable {threads : List (Thread κ)} {stale : List (ThreadId × Address)}

theorem Sound.atRest (hs : s.Sound) (hw : s.Waits) (hd : s.dropped = [])
    (hidle : ∀ st ∈ s.stations, st.control = none) (hblocked : s.blocked = [])
    (hready : s.ready = []) (hentered : Entered stale [] s.shared) : s.shared.AtRest stale := by
  have hstacks := hw.stacks_eq_nil hs hd hidle hready hblocked
  have howner : ∀ a, s.shared.heap.owner? a = none := by
    intro a
    cases ho : s.shared.heap.owner? a with
    | none => rfl
    | some t =>
      have hm := hs.divided.owned a t ho
      rw [allStacks_of_dropped hd, hstacks] at hm
      cases hm
  have hparked := Heap.parked_eq_nil howner
  refine ⟨howner, hparked, fun t a => ⟨fun hf => ?_, fun hm => (hentered.kept t a hm).1⟩⟩
  refine (hentered.found t a hf).resolve_left fun hm => ?_
  rw [pending, hparked] at hm
  cases hm

theorem Entered.abandon {rest : List (Thread κ)} {t : Thread κ} {s s' : Shared κ}
    (h : Entered stale threads s) (hwaiting : s'.waiting = s.waiting.erase t.id)
    (hpending : (pending threads s).Perm (t :: pending rest s')) : Entered stale rest s' := by
  have hids := hpending.map Thread.id
  constructor
  case found =>
    intro u a hu
    rw [hwaiting, WaitingMap.find?_erase] at hu
    split at hu
    · cases hu
    · next hne =>
      refine (h.found u a hu).imp_left fun hm => ?_
      exact (List.mem_cons.1 (hids.mem_iff.1 hm)).resolve_left hne
  case kept =>
    intro u a hm
    obtain ⟨hfind, hnot⟩ := h.kept u a hm
    rw [hids.mem_iff, List.map_cons, List.mem_cons, not_or] at hnot
    rw [hwaiting, WaitingMap.find?_erase, if_neg hnot.1]
    exact ⟨hfind, hnot.2⟩

theorem Sound.drains (hp : program.Conventional) {n : Nat} (hs : s.Sound) (hw : s.Waits)
    (hd : s.dropped = []) (hidle : ∀ st ∈ s.stations, st.control = none)
    (hblocked : s.blocked = []) (hready : s.ready.Perm threads)
    (hn : (pending threads s.shared).length = n) (hentered : Entered stale threads s.shared) :
    ∃ s', s.shared.Drains threads n s' ∧ s'.AtRest stale := by
  -- Each round is the last of one thread: there is a thread to abandon as long as some are
  -- parked, since the owners of their thunks wait in turn for others, but not in a circle.
  induction n generalizing s threads with
  | zero =>
    have hnil : threads = [] := (List.append_eq_nil_iff.1 (List.eq_nil_of_length_eq_zero hn)).1
    subst hnil
    exact ⟨s.shared, .done _, hs.atRest hw hd hidle hblocked hready.eq_nil hentered⟩
  | succ n ih =>
    rcases List.eq_nil_or_concat threads with rfl | ⟨rest, t, rfl⟩
    · have hrest := hs.atRest hw hd hidle hblocked hready.eq_nil hentered
      rw [pending, hrest.parked] at hn
      cases hn
    · rw [List.concat_eq_append] at hready hn hentered ⊢
      have hlast : s.ready.Perm (t :: rest) := hready.trans (List.perm_append_singleton t rest)
      have hstep : Step program s _ := ⟨_, .abandon hlast⟩
      have hm := mem_allStacks_of_ready (hlast.mem_iff.2 List.mem_cons_self)
      have hreset := s.shared.reset_abandon t (hs.divided.owns _ hm)
      -- The threads set free were parked, and so nobody but `t` has gone.
      have hpending : (pending (rest ++ [t]) s.shared).Perm
          (t :: pending (rest ++ (s.shared.abandon t).1) (s.shared.abandon t).2) := by
        rw [pending, pending, List.append_assoc, List.append_assoc]
        exact List.perm_middle.trans
          (((s.shared.parked_abandon t).symm.append_left rest).cons t)
      have hlength : (pending (rest ++ (s.shared.abandon t).1) (s.shared.abandon t).2).length = n := by
        have hlength := hpending.length_eq
        rw [hn, List.length_cons] at hlength
        exact (Nat.succ.inj hlength).symm
      obtain ⟨s', hdrains, hrest⟩ := ih (hstep.sound hp hs) (hw.abandon hs hlast) hd hidle hblocked
        List.perm_append_comm hlength (hentered.abandon hreset.waiting hpending)
      exact ⟨s', .abandon hdrains, hrest⟩

end System

end Loop

section Entries

variable {m : Machine κ} {n : Nat} {c : Control}

theorem Evaluation.Turn.eq_of_mem_endings {turn : Turn κ} {t u : ThreadId}
    (h : u ∈ (turn.endings t).map Prod.fst) : u = t := by
  obtain ⟨e, he, rfl⟩ := List.mem_map.1 h
  rcases turn with c | outcome
  · cases he
  · cases outcome with
    | finished v => rw [List.mem_singleton.1 he]
    | halted r => rw [List.mem_singleton.1 he]
    | _ => cases he

namespace System

theorem waiting_iterateUpTo (hp : program.Conventional) (hb : program.NeverBlocks) {s : System κ}
    {i : Nat} {context : Context κ} {q : RunQueue κ} {rest : List (Thread κ)} {fuel k : Nat}
    {turn : Turn κ} (hs : s.Sound) (hw : s.Waits)
    (hi : s.stations[i]? = some ⟨context, some c⟩) (hready : s.ready.Perm (q.threads ++ rest))
    (h : iterateUpTo program fuel n c ⟨s.shared, .pool q, context⟩ = ((k, turn), m)) :
    (∀ u, u ≠ context.thread → m.shared.waiting.find? u = s.shared.waiting.find? u) ∧
      (turn.endings context.thread ≠ [] →
        m.shared.waiting.find? context.thread = c.awaits? ∧
          ∀ a, c = .blocked a → context.interrupted = true ∧ turn = .over (.halted .interrupted)) ∧
      ((∀ a, c = .blocked a → context.interrupted = false) →
        ∀ a, turn = .next (.blocked a) → m.context.interrupted = false) := by
  -- Only the thread that runs makes an entry, and from then on it does nothing but leave the
  -- worker, unless it is interrupted there. Within the slice nobody does that.
  induction fuel generalizing s n context c q with
  | zero =>
    cases h
    exact ⟨fun _ _ => rfl, fun hne => absurd rfl hne, fun hc a ha => hc a (Turn.next.inj ha)⟩
  | succ fuel ih =>
    obtain ⟨first, m₁, q₁, ht, hiter, -, hstep, hcase⟩ := hs.slice_succ hp hi hready h
    have hfind := fun u (hu : u ≠ context.thread) => hw.find?_iterate hs hi hiter hu
    rcases hcase with ⟨c', rfl, hthread, hi₁, hrest⟩ | ⟨⟨outcome, rfl⟩, rfl, rfl⟩
    · have hc₁ : ∀ a, c' = .blocked a → m₁.context.interrupted = false := by
        rintro a rfl
        exact (hiter.blocks hb a rfl).interrupted.trans (interrupted_of_next program ht)
      obtain ⟨hothers, hends, hlast⟩ := ih (hstep.sound hp hs) (hstep.waits hp hb hs hw) hi₁
        (.refl _) hrest
      rw [hthread] at hothers hends
      have hc : c.awaits? = none := by
        refine Registry.awaits?_of_control program n c ⟨s.shared, .pool q, context⟩ ?_
        rw [ht]
        exact Option.some_ne_none _
      refine ⟨fun u hu => (hothers u hu).trans (hfind u hu), fun hne => ?_, fun _ => hlast hc₁⟩
      obtain ⟨hself, hcut⟩ := hends hne
      have hc' : c'.awaits? = none := by
        cases c' with
        | blocked a =>
          have hfalse := hc₁ a rfl
          rw [(hcut a rfl).1] at hfalse
          cases hfalse
        | _ => rfl
      refine ⟨hself.trans (hc'.trans hc.symm), ?_⟩
      rintro a rfl
      cases hc
    · refine ⟨hfind, fun hne => ?_, fun _ => nofun⟩
      have hwaiting : m.shared.waiting = s.shared.waiting := by
        rcases hiter.waiting with heq | ⟨a, hturn, -⟩
        · exact heq
        · cases hturn
      rw [hwaiting]
      cases c with
      | blocked a =>
        refine ⟨hw.blocking _ (List.mem_of_getElem? hi) a rfl, fun b hb => ?_⟩
        cases hflag : context.interrupted with
        | true =>
          have hover := iterate_of_interrupted (m := ⟨s.shared, .pool q, context⟩) program n
            (.blocked a) hflag
          rw [ht] at hover
          exact ⟨rfl, hover⟩
        | false =>
          obtain ⟨t, hover⟩ := iterate_blocked (m := ⟨s.shared, .pool q, context⟩) program n a hflag
          rw [ht] at hover
          cases hover
          exact absurd rfl hne
      | _ =>
        refine ⟨?_, nofun⟩
        cases hf : s.shared.waiting.find? context.thread with
        | none => rfl
        | some a => cases hw.eq_blocked hi hf

end System

end Entries

namespace Pool

variable {p p' : Pool κ} {i : Nat} {w : PoolWorker κ} {deeds : List Deed} {deed : Deed}

def Deed.cuts : Deed → List (ThreadId × Address)
  | cut t a _ => [(t, a)]
  | _ => []

def cutsOf (deeds : List Deed) : List (ThreadId × Address) := deeds.flatMap Deed.cuts

theorem mem_cutsOf_append {x : ThreadId × Address} :
    x ∈ cutsOf (deeds ++ [deed]) ↔ x ∈ cutsOf deeds ∨ x ∈ deed.cuts := by
  rw [cutsOf, List.flatMap_append, List.flatMap_singleton, List.mem_append, cutsOf]

theorem Deed.mem_cuts_ofTurn {t u : ThreadId} {c : Control} {turn : Turn κ} {a : Address} :
    (u, a) ∈ (ofTurn t c turn).cuts ↔ u = t ∧ c = .blocked a ∧ ∃ e, turn = .over (.halted e) := by
  unfold ofTurn
  split
  · next b e =>
    simp only [cuts, List.mem_singleton, Prod.mk.injEq, Control.blocked.injEq]
    exact ⟨fun h => ⟨h.1, h.2.symm, e, rfl⟩, fun h => ⟨h.1, h.2.1.symm⟩⟩
  · next hnot =>
    refine ⟨nofun, fun ⟨_, hc, e, ht⟩ => ?_⟩
    exact absurd ht (hnot a e hc)

def Alert (w : PoolWorker κ) : Prop :=
  ∀ id k a, w.job = .running id k (.blocked a) → w.context.interrupted = false

structure Calm (p p' : Pool κ) : Prop where
  lastThread : p.shared.lastThread ≤ p'.shared.lastThread
  waiting : p'.shared.waiting = p.shared.waiting
  alert : ∀ w' ∈ p'.workers.toList, w' ∈ p.workers.toList ∨ Alert w'

namespace Calm

theorem of_eq (hshared : p'.shared = p.shared) (hworkers : p'.workers = p.workers) :
    Calm p p' where
  lastThread := Nat.le_of_eq (by rw [hshared])
  waiting := by rw [hshared]
  alert w' hm := .inl (hworkers ▸ hm)

theorem trans {p'' : Pool κ} (h : Calm p p') (h' : Calm p' p'') : Calm p p'' where
  lastThread := Nat.le_trans h.lastThread h'.lastThread
  waiting := h'.waiting.trans h.waiting
  alert w' hm := (h'.alert w' hm).elim (h.alert w') .inr

theorem report (p : Pool κ) (target : Target) (remark : Remark) :
    Calm p { p with shared := p.shared.report target remark } := by
  obtain ⟨-, hwaiting, hlast⟩ := System.report_spec p.shared target remark
  exact ⟨Nat.le_of_eq hlast.symm, hwaiting, fun w' hm => .inl hm⟩

theorem remark (p : Pool κ) (message : String) (details : List (String × String)) :
    Calm p (p.remark message details) := by
  rcases Tracked.remark_eq p message details with he | he <;> rw [he]
  · exact of_eq rfl rfl
  · exact report p _ _

theorem mem_set {w' : PoolWorker κ} (hm : w' ∈ (p.workers.setIfInBounds i w).toList) :
    w' ∈ p.workers.toList ∨ w' = w := by
  rw [Array.toList_setIfInBounds] at hm
  exact List.mem_or_eq_of_mem_set hm

theorem setJob {job : Job κ} (hw : p.workers[i]? = some w)
    (hjob : ∀ id k a, job ≠ .running id k (.blocked a)) : Calm p (p.setJob i job) := by
  rw [setJob_eq hw]
  refine ⟨Nat.le_refl _, rfl, fun w' hm => ?_⟩
  rcases mem_set hm with hm | rfl
  · exact .inl hm
  · exact .inr fun id k a ha => absurd ha (hjob id k a)

theorem leave (hw : p.workers[i]? = some w) : Calm p (p.leave i) := by
  let p₁ : Pool κ :=
    { p with counters := p.counters + (p.workers.getD i default).context.counters }
  have h₁ : Calm p p₁ := of_eq rfl rfl
  exact h₁.trans (setJob hw nofun)

theorem retire (hw : p.workers[i]? = some w) (hr : p.retire? i = some p') : Calm p p' := by
  unfold Pool.retire? at hr
  split at hr
  · cases hr
    let p₁ : Pool κ := { p with alive := p.alive - 1, retired := p.retired + 1 }
    have h₁ : Calm p p₁ := of_eq rfl rfl
    refine (h₁.trans (remark p₁ _ _)).trans (leave (w := w) ?_)
    rwa [Tracked.remark_workers]
  · cases hr

theorem finish (p : Pool κ) (id : ThreadId) (result : Except RuntimeError Address) :
    Calm p (p.finish id result) := by
  unfold Pool.finish
  split
  · exact of_eq rfl rfl
  · cases result with
    | ok v => exact of_eq rfl rfl
    | error e => exact report p _ _

theorem park (p : Pool κ) (t : Thread κ) (a : Address) : Calm p (p.park t a) := by
  unfold Pool.park
  split
  · exact ⟨Nat.le_refl _, rfl, fun w' hm => .inl hm⟩
  · exact of_eq rfl rfl

theorem conclude {id : ThreadId} {outcome : Outcome κ} (hw : p.workers[i]? = some w) :
    Calm p (p.conclude i id outcome) := by
  cases outcome with
  | finished v => exact (finish p id (.ok v)).trans (setJob (workers_finish p .. ▸ hw) nofun)
  | halted e => exact (finish p id (.error e)).trans (setJob (workers_finish p .. ▸ hw) nofun)
  | yielded t =>
    let p₁ : Pool κ := { p with queue := p.queue.requeue [t] }
    have h₁ : Calm p p₁ := of_eq rfl rfl
    exact h₁.trans (setJob hw nofun)
  | blocked t a =>
    refine ((remark p _ _).trans (park _ t a)).trans (setJob (w := w) ?_ nofun)
    rwa [workers_park, Tracked.remark_workers]
  | endless => exact of_eq rfl rfl

end Calm

def Taken (p p' : Pool κ) : Prop :=
  ∃ p₁ i w, ∃ t : Thread κ, Calm p p₁ ∧ p₁.workers[i]? = some w ∧ w.job = .idle ∧ p' = p₁.take i t

theorem taken_dequeue (hw : p.workers[i]? = some w) (hidle : w.job = .idle)
    (hd : p.dequeue? i = some p') : Taken p p' := by
  unfold Pool.dequeue? at hd
  split at hd
  · cases hd
  · next t rest _ =>
    cases hd
    let p₁ : Pool κ := { p with queue := { p.queue with threads := rest } }
    have h₁ : Calm p p₁ := .of_eq rfl rfl
    exact ⟨p₁, i, w, t, h₁, hw, hidle, rfl⟩

theorem calm_or_taken_takeSpark (hw : p.workers[i]? = some w) (hidle : w.job = .idle)
    (ht : p.takeSpark? i = some p') : Calm p p' ∨ Taken p p' := by
  unfold Pool.takeSpark? at ht
  split at ht
  · cases ht
  · next a rest _ =>
    dsimp only at ht
    split at ht
    · cases ht
      exact .inl (.of_eq rfl rfl)
    · cases ht
      let p₁ : Pool κ :=
        { p with queue := { p.queue with sparks := rest, sparksRun := p.queue.sparksRun + 1 } }
      let p₂ := p₁.remark "running spark" [("worker", toString i)]
      let p₃ : Pool κ := { p₂ with shared := (p₂.shared.spawn a p₂.options.stackLimit.toNat).2 }
      have h₁ : Calm p p₁ := .of_eq rfl rfl
      have h₃ : Calm p₂ p₃ := ⟨Nat.le_succ _, rfl, fun _ hm => .inl hm⟩
      have hw₃ : p₃.workers[i]? = some w := (Tracked.remark_workers p₁ _ _).symm ▸ hw
      exact .inr ⟨p₃, i, w, _, (h₁.trans (.remark p₁ _ _)).trans h₃, hw₃, hidle, rfl⟩

structure Listed (p : Pool κ) (deeds : List Deed) : Prop where
  found : ∀ u a, p.shared.waiting.find? u = some a → u ∈ p.places ∨ (u, a) ∈ cutsOf deeds
  kept : ∀ u a, (u, a) ∈ cutsOf deeds →
    p.shared.waiting.find? u = some a ∧ u ∈ (endingsOf deeds).map Prod.fst
  undisturbed : Undisturbed deeds → cutsOf deeds = [] ∧ ∀ w ∈ p.workers.toList, Alert w

variable {s₀ : Shared κ} {ended endings : List Ending}

theorem mem_places_of_running {id : ThreadId} {k : Nat} {c : Control} (hw : p.workers[i]? = some w)
    (hjob : w.job = .running id k c) : id ∈ p.places := by
  have hmem : w ∈ p.workers.toList := List.mem_of_getElem? (by rw [Array.getElem?_toList, hw])
  refine List.mem_append_right _ (List.mem_append_left _ (List.mem_flatMap.2 ⟨w, hmem, ?_⟩))
  rw [hjob]
  exact List.mem_cons_self

theorem Census.not_mem_places (h : Census s₀ p ended) {u : ThreadId}
    (hu : u ∈ ended.map Prod.fst) : u ∉ p.places :=
  fun hm => (h.once.nodup_iff.2 (nodup_created _ _)).disjoint hm hu

theorem Census.stays {u : ThreadId} (h : Census s₀ p ended) (h' : Census s₀ p' (ended ++ endings))
    (hl : p.shared.lastThread ≤ p'.shared.lastThread) (hu : u ∈ p.places)
    (hnot : u ∉ endings.map Prod.fst) : u ∈ p'.places := by
  have hcreated : u ∈ created s₀.lastThread p.shared.lastThread :=
    h.once.mem_iff.1 (List.mem_append_left _ hu)
  have hended : u ∉ ended.map Prod.fst := fun hm => h.not_mem_places hm hu
  have hlater : u ∈ created s₀.lastThread p'.shared.lastThread := by
    obtain ⟨k, hk, rfl⟩ := List.mem_map.1 hcreated
    rw [List.mem_range'_1] at hk
    refine List.mem_map.2 ⟨k, List.mem_range'_1.2 ⟨hk.1, ?_⟩, rfl⟩
    omega
  have hm := h'.once.mem_iff.2 hlater
  rw [List.map_append, List.mem_append, List.mem_append] at hm
  exact hm.resolve_right fun hm => hm.elim hended hnot

namespace Listed

theorem of_silent (h : Listed p deeds) (hc : Census s₀ p (endingsOf deeds))
    (hc' : Census s₀ p' (endingsOf deeds ++ [])) (hends : deed.endings = []) (hcuts : deed.cuts = [])
    (hl : p.shared.lastThread ≤ p'.shared.lastThread)
    (hwaiting : ∀ u, p'.shared.waiting.find? u = p.shared.waiting.find? u ∨
      p'.shared.waiting.find? u = none ∧ u ∈ p'.places)
    (halert : Undisturbed [deed] → ∀ w' ∈ p'.workers.toList, w' ∈ p.workers.toList ∨ Alert w') :
    Listed p' (deeds ++ [deed]) := by
  have hnone : ∀ x, x ∈ cutsOf (deeds ++ [deed]) ↔ x ∈ cutsOf deeds := fun x => by
    rw [mem_cutsOf_append, hcuts]
    simp
  have hsame : endingsOf (deeds ++ [deed]) = endingsOf deeds := by
    rw [endingsOf_append, endingsOf_singleton, hends, List.append_nil]
  constructor
  case found =>
    intro u a hu
    rw [hnone]
    rcases hwaiting u with he | ⟨he, -⟩
    · exact (h.found u a (he ▸ hu)).imp_left fun hm => hc.stays hc' hl hm List.not_mem_nil
    · rw [he] at hu
      cases hu
  case kept =>
    intro u a hm
    rw [hnone] at hm
    obtain ⟨hfind, hended⟩ := h.kept u a hm
    rw [hsame]
    refine ⟨?_, hended⟩
    rcases hwaiting u with he | ⟨-, hplace⟩
    · exact he.trans hfind
    · rw [List.append_nil] at hc'
      exact absurd hplace (hc'.not_mem_places hended)
  case undisturbed =>
    intro hd
    obtain ⟨hnil, hworkers⟩ := h.undisturbed (undisturbed_append.1 hd).1
    refine ⟨List.eq_nil_iff_forall_not_mem.2 fun x hx => ?_, fun w' hm => ?_⟩
    · rw [hnone, hnil] at hx
      cases hx
    · exact (halert (undisturbed_append.1 hd).2 w' hm).elim (hworkers w') id

theorem of_calm (h : Listed p deeds) (hcalm : Calm p p') (hc : Census s₀ p (endingsOf deeds))
    (hc' : Census s₀ p' (endingsOf deeds ++ [])) (hends : deed.endings = [])
    (hcuts : deed.cuts = []) : Listed p' (deeds ++ [deed]) :=
  h.of_silent hc hc' hends hcuts hcalm.lastThread (fun u => .inl (by rw [hcalm.waiting]))
    fun _ => hcalm.alert

theorem of_taken (h : Listed p deeds) (htaken : Taken p p') (hc : Census s₀ p (endingsOf deeds))
    (hc' : Census s₀ p' (endingsOf deeds ++ [])) (hends : deed.endings = [])
    (hcuts : deed.cuts = []) : Listed p' (deeds ++ [deed]) := by
  obtain ⟨p₁, i, w, t, hcalm, hw, hidle, rfl⟩ := htaken
  obtain ⟨-, -, hwaiting, -, -, hblocked, -⟩ :=
    System.begin_spec t ⟨p₁.shared, .pool p₁.queue, w.context⟩
  obtain ⟨hplaces, hlast⟩ := places_take (t := t) hw hidle
  refine h.of_silent hc hc' hends hcuts (hlast ▸ hcalm.lastThread) (fun u => ?_) fun _ w' hm => ?_
  · have hfind : (p₁.take i t).shared.waiting = p₁.shared.waiting.erase t.id := by
      rw [take_eq hw]
      exact hwaiting
    rw [hfind, WaitingMap.find?_erase]
    split
    · next he => exact .inr ⟨rfl, hplaces.mem_iff.2 (he ▸ List.mem_cons_self)⟩
    · exact .inl (by rw [hcalm.waiting])
  · rw [take_eq hw] at hm
    rcases Calm.mem_set hm with hm | rfl
    · exact hcalm.alert w' hm
    · exact .inr fun id k a ha => absurd (Job.running.inj ha).2.2 (hblocked a)

theorem interrupt (flag : Bool) (h : Listed p deeds) (hc : Census s₀ p (endingsOf deeds))
    (hw : p.workers[i]? = some w) : Listed (p.interrupt i flag) (deeds ++ [.interrupt flag]) := by
  have hc' := hc.interrupt flag hw
  rw [← List.append_nil (endingsOf deeds)] at hc'
  refine h.of_silent hc hc' rfl rfl (Nat.le_refl _) (fun u => .inl rfl) fun hd => ?_
  exact absurd List.mem_cons_self (hd flag)

theorem iterate {s : System κ} {id : ThreadId} {k k' n : Nat} {c : Control} {turn : Turn κ}
    {m : Machine κ} (hp : program.Conventional) (hb : program.NeverBlocks) (hm : Mirrors p [] s)
    (hs : s.Sound) (hwaits : s.Waits) (h : Listed p deeds) (hc : Census s₀ p (endingsOf deeds))
    (hc' : Census s₀ (p.iterate program i n id k c)
      (endingsOf deeds ++ turn.endings w.context.thread))
    (hw : p.workers[i]? = some w) (hjob : w.job = .running id k c)
    (hr : iterateUpTo program n k c ⟨p.shared, .pool p.queue, w.context⟩ = ((k', turn), m)) :
    Listed (p.iterate program i n id k c) (deeds ++ [.ofTurn w.context.thread c turn]) := by
  obtain ⟨hid, hpass, q, hq, -⟩ := hm.passage hp hs hw hjob hr
  have hmem : w ∈ p.workers.toList := List.mem_of_getElem? (by rw [Array.getElem?_toList, hw])
  have hi : s.stations[i]? = some ⟨w.context, some c⟩ := by
    rw [station_getElem? ⟨_, hm⟩ hw, PoolWorker.station, hjob]
    rfl
  obtain ⟨rest, hready⟩ : ∃ rest, s.ready.Perm (p.queue.threads ++ rest) := ⟨_, hm.ready⟩
  have hr' := hr
  rw [← hm.shared] at hr'
  obtain ⟨hothers, hends, hlast⟩ := System.waiting_iterateUpTo hp hb hs hwaits hi hready hr'
  have hself : w.context.thread ∈ p.places := hid ▸ mem_places_of_running hw hjob
  rw [iterate_eq hw hr hq] at hc' ⊢
  have hstays : ∀ u ∈ p.places, u ∉ (turn.endings w.context.thread).map Prod.fst →
      u ∈ Pool.places { p with
        shared := m.shared
        queue := q
        workers := p.workers.setIfInBounds i ⟨m.context, jobOf id k' turn⟩ } :=
    fun u => hc.stays hc' (Nat.le_of_eq hpass.lastThread.symm)
  rw [hm.shared] at hothers
  constructor
  case found =>
    intro u a hu
    rw [mem_cutsOf_append]
    by_cases hne : u = w.context.thread
    · subst hne
      by_cases hnil : turn.endings w.context.thread = []
      · exact .inl (hstays _ hself (by rw [hnil]; exact List.not_mem_nil))
      -- A thread that ends has an entry only if it was about to wait.
      · obtain ⟨hfind, hcut⟩ := hends hnil
        have hawaits : c.awaits? = some a := hfind.symm.trans hu
        have hblocked : c = .blocked a := by
          cases c <;> cases hawaits
          rfl
        exact .inr (.inr (Deed.mem_cuts_ofTurn.2 ⟨rfl, hblocked, _, (hcut a hblocked).2⟩))
    · rcases h.found u a ((hothers u hne).symm.trans hu) with hplace | hstale
      · exact .inl (hstays u hplace fun hmem' => hne (Turn.eq_of_mem_endings hmem'))
      · exact .inr (.inl hstale)
  case kept =>
    intro u a hu
    rw [endingsOf_append, endingsOf_singleton, Deed.endings_ofTurn, List.map_append, List.mem_append]
    rcases mem_cutsOf_append.1 hu with hu | hu
    · obtain ⟨hfind, hended⟩ := h.kept u a hu
      have hne : u ≠ w.context.thread := fun he => hc.not_mem_places hended (he ▸ hself)
      exact ⟨(hothers u hne).trans hfind, .inl hended⟩
    · obtain ⟨rfl, rfl, e, rfl⟩ := Deed.mem_cuts_ofTurn.1 hu
      exact ⟨(hends (List.cons_ne_nil _ _)).1, .inr List.mem_cons_self⟩
  case undisturbed =>
    intro hd
    obtain ⟨hnil, hworkers⟩ := h.undisturbed (undisturbed_append.1 hd).1
    have halert : ∀ a, c = .blocked a → w.context.interrupted = false :=
      fun a ha => hworkers w hmem id k a (ha ▸ hjob)
    refine ⟨List.eq_nil_iff_forall_not_mem.2 fun x hx => ?_, fun w' hm' => ?_⟩
    · rcases mem_cutsOf_append.1 hx with hx | hx
      · rw [hnil] at hx
        cases hx
      · obtain ⟨-, hblocked, e, rfl⟩ := Deed.mem_cuts_ofTurn.1 hx
        have htrue := ((hends (List.cons_ne_nil _ _)).2 _ hblocked).1
        rw [halert _ hblocked] at htrue
        cases htrue
    · rcases Calm.mem_set hm' with hm' | rfl
      · exact hworkers w' hm'
      · rcases turn with c' | outcome
        · intro _ _ a ha
          exact hlast halert a (congrArg Turn.next (Job.running.inj ha).2.2)
        · intro _ _ a ha
          cases ha

theorem act {s : System κ} (hp : program.Conventional) (hb : program.NeverBlocks)
    (hm : Mirrors p [] s) (hs : s.Sound) (hwaits : s.Waits) (h : Listed p deeds)
    (hc : Census s₀ p (endingsOf deeds)) (ha : Act program p deed p') :
    Listed p' (deeds ++ [deed]) := by
  have hc' := hc.act hp hm hs ha
  cases ha with
  | dequeue hw hidle hd => exact h.of_taken (taken_dequeue hw hidle hd) hc hc' rfl rfl
  | takeSpark hw hidle ht =>
    rcases calm_or_taken_takeSpark hw hidle ht with hcalm | htaken
    · exact h.of_calm hcalm hc hc' rfl rfl
    · exact h.of_taken htaken hc hc' rfl rfl
  | retire hw _ hr => exact h.of_calm (.retire hw hr) hc hc' rfl rfl
  | leave hw _ => exact h.of_calm (.leave hw) hc hc' rfl rfl
  | iterate n hw hjob hr =>
    rw [Deed.endings_ofTurn] at hc'
    exact h.iterate hp hb hm hs hwaits hc hc' hw hjob hr
  | conclude hw hjob => exact h.of_calm (.conclude hw) hc hc' rfl rfl
  | remark message details => exact h.of_calm (.remark p message details) hc hc' rfl rfl
  | interrupt flag hw => exact h.interrupt flag hc hw

end Listed

section Rest

variable {o : RuntimeOptions} {roots : List Address} {shared : Shared κ}

theorem Listed.start (o : RuntimeOptions) (roots : List Address) (hw : shared.waiting = .empty) :
    Listed (Pool.start o roots shared) [] where
  found u a hu := by
    have hwaiting : (Pool.start o roots shared).shared.waiting = shared.waiting :=
      congrArg (·.2.2.waiting) (spawnRoots_eq o.stackLimit.toNat roots 0 shared)
    rw [hwaiting, hw] at hu
    cases hu
  kept _ _ hm := by cases hm
  undisturbed _ := by
    refine ⟨rfl, fun w hm id k a ha => ?_⟩
    rw [job_start hm] at ha
    cases ha

theorem listed_of_history (hp : program.Conventional) (hb : program.NeverBlocks)
    (hidle : ∀ a, shared.heap.owner? a = none) (hw : shared.waiting = .empty)
    (h : History program (start o roots shared) deeds p) :
    Census shared p (endingsOf deeds) ∧ Listed p deeds := by
  induction h with
  | start => exact ⟨.start o roots shared hidle, .start o roots hw⟩
  | act h ha _ ih =>
    obtain ⟨hcensus, hlisted⟩ := ih
    obtain ⟨s, hrun, hm, -⟩ := tracked_of_moves hp hidle h.moves
    have hs := System.sound_of_reaches hp (initial_vacant o hidle) hrun
    have hwaits := System.waits_of_reaches hp hb (initial_vacant o hidle) hw hrun
    rw [endingsOf_append, endingsOf_singleton]
    exact ⟨hcensus.act hp hm hs ha, hlisted.act hp hb hm hs hwaits hcensus ha⟩

theorem drains_of_history (hp : program.Conventional) (hb : program.NeverBlocks)
    (hidle : ∀ a, shared.heap.owner? a = none) (hw : shared.waiting = .empty)
    (h : History program (start o roots shared) deeds p) (hrest : ∀ w ∈ p.workers, ¬ w.job.busy) :
    ∃ s', p.shared.Drains p.queue.threads
      (p.queue.threads.length + p.shared.heap.parked.length) s' ∧ s'.AtRest (cutsOf deeds) := by
  obtain ⟨s, hrun, hm, -⟩ := tracked_of_moves hp hidle h.moves
  have hs := System.sound_of_reaches hp (initial_vacant o hidle) hrun
  have hwaits := System.waits_of_reaches hp hb (initial_vacant o hidle) hw hrun
  obtain ⟨hcensus, hlisted⟩ := listed_of_history hp hb hidle hw h
  have hjob := fun w (hmem : w ∈ p.workers.toList) =>
    job_of_not_busy (hrest w (Array.mem_toList_iff.1 hmem))
  have hstations : ∀ st ∈ s.stations, st.control = none := by
    rw [hm.stations]
    intro st hst
    obtain ⟨w, hmem, rfl⟩ := List.mem_map.1 hst
    exact (hjob w hmem).1
  have hready : s.ready.Perm p.queue.threads := by
    have hr := hm.ready
    rwa [List.flatMap_eq_nil_iff.2 fun w hmem => (hjob w hmem).2.1, List.append_nil] at hr
  have hblocked : s.blocked = [] := by
    have hbl := hm.blocked
    rw [List.flatMap_eq_nil_iff.2 fun w hmem => (hjob w hmem).2.2.1] at hbl
    exact hbl.eq_nil
  have hhands : p.workers.toList.flatMap (fun w => w.job.hands) = [] := by
    refine List.flatMap_eq_nil_iff.2 fun w hmem => ?_
    have hbusy := hrest w (Array.mem_toList_iff.1 hmem)
    cases hj : w.job with
    | idle => rfl
    | gone => rfl
    | running id n c => exact absurd (by rw [hj]; rfl) hbusy
    | ending id outcome => exact absurd (by rw [hj]; rfl) hbusy
  have hplaces : p.places = (System.pending p.queue.threads p.shared).map Thread.id := by
    rw [places, hhands, System.pending, List.map_append, List.nil_append]
  have hentered : System.Entered (cutsOf deeds) p.queue.threads s.shared := by
    rw [hm.shared]
    refine ⟨fun t a ht => hplaces ▸ hlisted.found t a ht, fun t a ht => ?_⟩
    obtain ⟨hfind, hended⟩ := hlisted.kept t a ht
    exact ⟨hfind, hplaces ▸ hcensus.not_mem_places hended⟩
  obtain ⟨s', hdrains, hs'⟩ :=
    hs.drains hp hwaits hm.dropped hstations hblocked hready rfl hentered
  rw [hm.shared, System.pending, List.length_append] at hdrains
  exact ⟨s', hdrains, hs'⟩

def dismissal (p : Pool κ) : Pool κ :=
  if p.queue.threads.isEmpty then p
  else p.remark "abandoning leftover threads" [("count", toString p.queue.threads.length)]

theorem exists_history_dismissal {p₀ : Pool κ} (h : History program p₀ deeds p) :
    ∃ deeds', History program p₀ deeds' p.dismissal ∧ cutsOf deeds' = cutsOf deeds := by
  unfold dismissal
  split
  · exact ⟨deeds, h, rfl⟩
  · refine ⟨_, .act h (.remark p _ _) nofun, ?_⟩
    rw [cutsOf, List.flatMap_append]
    exact List.append_nil _

theorem dismissal_spec (p : Pool κ) :
    p.dismissal.queue = p.queue ∧ p.dismissal.workers = p.workers ∧
      p.dismissal.shared.heap = p.shared.heap := by
  unfold dismissal
  split
  · exact ⟨rfl, rfl, rfl⟩
  · obtain ⟨hqueue, hworkers, hheap, -⟩ := remark_spec p "abandoning leftover threads"
      [("count", toString p.queue.threads.length)]
    exact ⟨hqueue, hworkers, hheap⟩

/-- Once no worker has a thread in its hands, the loop over the leftover threads ends, and then no
thunk is under evaluation, no thread is parked, and the waiting map has the entries of those threads
that were interrupted on their way from a busy thunk. Without interrupts there are none of these. -/
theorem drained (hp : program.Conventional) (hb : program.NeverBlocks) (o : RuntimeOptions)
    (roots : List Address) (shared : Shared κ) (hidle : ∀ a, shared.heap.owner? a = none)
    (hw : shared.waiting = .empty) :
    (∀ deeds p, History program (start o roots shared) deeds p →
      (∀ w ∈ p.workers, ¬ w.job.busy) →
        p.dismissal.shared.Drains p.queue.threads
          (p.queue.threads.length + p.shared.heap.parked.length) p.drain ∧
        p.drain.AtRest (cutsOf deeds) ∧ (Undisturbed deeds → cutsOf deeds = [])) ∧
      ∀ quantum fuel report shared',
        run program quantum fuel o roots shared = some (report, shared') →
          shared'.AtRest [] ∧ ∃ deeds p, History program (start o roots shared) deeds p ∧
            Undisturbed deeds ∧ (∀ w ∈ p.workers, ¬ w.job.busy) ∧ shared' = p.drain := by
  have hdrained : ∀ deeds p, History program (start o roots shared) deeds p →
      (∀ w ∈ p.workers, ¬ w.job.busy) →
        p.dismissal.shared.Drains p.queue.threads
          (p.queue.threads.length + p.shared.heap.parked.length) p.drain ∧
        p.drain.AtRest (cutsOf deeds) ∧ (Undisturbed deeds → cutsOf deeds = []) := by
    intro deeds p h hrest
    obtain ⟨hqueue, hworkers, hheap⟩ := dismissal_spec p
    obtain ⟨deeds', h', hcuts⟩ := exists_history_dismissal h
    obtain ⟨s', hdrains, hs'⟩ := drains_of_history hp hb hidle hw h' (by rwa [hworkers])
    rw [hqueue, hheap] at hdrains
    rw [hcuts] at hs'
    have hdrain : p.drain = s' := by
      have heq := hdrains.abandonAll_eq 0
      rw [Nat.add_zero] at heq
      rw [← heq, drain]
      change p.dismissal.shared.abandonAll (p.dismissal.queue.threads.length +
        p.dismissal.shared.heap.parked.length) p.dismissal.queue.threads = _
      rw [hqueue, hheap]
    obtain ⟨-, hlisted⟩ := listed_of_history hp hb hidle hw h
    exact ⟨hdrain ▸ hdrains, hdrain ▸ hs', fun hd => (hlisted.undisturbed hd).1⟩
  refine ⟨hdrained, fun quantum fuel report shared' h => ?_⟩
  obtain ⟨p, ⟨deeds, hhistory, hd⟩, hover, -, rfl⟩ := exists_works_rest h
  have hrest : ∀ w ∈ p.workers, ¬ w.job.busy := by
    intro w hmem hbusy
    rcases hover with ⟨-, hidle⟩ | hgone
    · rw [hidle w hmem] at hbusy
      cases hbusy
    · have hjob := hgone w hmem
      cases hj : w.job with
      | gone =>
        rw [hj] at hbusy
        cases hbusy
      | _ =>
        rw [hj] at hjob
        cases hjob
  obtain ⟨-, hatRest, hcuts⟩ := hdrained deeds p hhistory hrest
  rw [hcuts hd] at hatRest
  exact ⟨hatRest, deeds, p, hhistory, hd, hrest, rfl⟩

def chained : Program Nat where
  body
    | 0, _ => .spark ⟨1⟩ fun _ => .spark ⟨2⟩ fun _ => .done (.enter ⟨3⟩)
    | 1, _ => .done (.enter ⟨0⟩)
    | 2, _ => .done (.enter ⟨1⟩)
    | _, _ => .giveBack ⟨4⟩

def chain : Shared Nat := { (Shared.empty default : Shared Nat) with
  heap := ⟨#[.thunk (.unevaluated ⟨0, []⟩), .thunk (.unevaluated ⟨1, []⟩),
    .thunk (.unevaluated ⟨2, []⟩), .thunk (.unevaluated ⟨3, []⟩), .data ⟨"Unit", 0⟩ []]⟩ }

def roomy : RuntimeOptions := ⟨2, 0, 2, 4, ⟨false⟩⟩

theorem conventional_chained : chained.Conventional where
  disciplined code captured := by
    match code with
    | 0 => exact fun _ _ => trivial
    | 1 => trivial
    | 2 => trivial
    | _ + 3 => trivial
  returns code captured m m' h := by
    match code with
    | 0 => cases h
    | 1 => cases h
    | 2 => cases h
    | _ + 3 =>
      cases h
      change (Registers.setResult _ _).result? ≠ none
      simp

theorem neverBlocks_chained : chained.NeverBlocks := by
  intro code captured m a m'
  match code with
  | 0 => exact nofun
  | 1 => exact nofun
  | 2 => exact nofun
  | _ + 3 => exact nofun

theorem owner?_chain (a : Address) : chain.heap.owner? a = none := by
  cases ho : chain.heap.owner? a with
  | none => rfl
  | some t =>
    obtain ⟨body, blocked, hc⟩ := Heap.owner?_eq_some_iff.1 ho
    obtain ⟨i⟩ := a
    have hi : i < chain.heap.size := Heap.lt_size_of_cell_eq_thunk hc
    match i, hi with
    | 0, _ => cases hc
    | 1, _ => cases hc
    | 2, _ => cases hc
    | 3, _ => cases hc
    | 4, _ => cases hc

theorem drained_chained :
    chained.Conventional ∧ chained.NeverBlocks ∧ (∀ a, chain.heap.owner? a = none) ∧
      chain.waiting = .empty ∧
      ∃ deeds p, History chained (start roomy [⟨0⟩] chain) deeds p ∧
        (∀ w ∈ p.workers, ¬ w.job.busy) ∧ p.queue.threads.length = 1 ∧
          p.shared.heap.parked.length = 1 ∧ p.drain.AtRest [] := by
  obtain ⟨deeds, hrun, hd⟩ : Works chained (start roomy [⟨0⟩] chain) _ :=
    works_turns 1 [0, 0, 1, 1, 1, 1, 1, 1, 1, 1, 1, 1, 0, 0, 0, 0, 0, 0, 1] (by decide)
  obtain ⟨-, hrest, hcuts⟩ := (drained conventional_chained neverBlocks_chained roomy [⟨0⟩] chain
    owner?_chain rfl).1 deeds _ hrun (by decide +kernel)
  rw [hcuts hd] at hrest
  exact ⟨conventional_chained, neverBlocks_chained, owner?_chain, rfl, deeds, _, hrun,
    by decide +kernel, by decide +kernel, by decide +kernel, hrest⟩

def hesitant : Pool Unit :=
  [0, 1, 0, 1].foldl (turn System.recursive 1) (start pair [⟨0⟩, ⟨0⟩] System.contest.shared)

def abandoned : Pool Unit :=
  [1, 1, 1, 0, 0, 0, 0, 1].foldl (turn System.recursive 1) (hesitant.interrupt 1 true)

/-- No thread exists any more and no worker, but the second thread is still said to wait. -/
theorem stale_pool :
    System.recursive.Conventional ∧ System.recursive.NeverBlocks ∧
      (∀ a, System.contest.shared.heap.owner? a = none) ∧ System.contest.shared.waiting = .empty ∧
      (∃ deeds, History System.recursive (start pair [⟨0⟩, ⟨0⟩] System.contest.shared) deeds
        abandoned) ∧
      abandoned.done = true ∧ (∀ w ∈ abandoned.workers, isGone w.job = true) ∧
      abandoned.places = [] ∧ abandoned.drain.waiting.find? ⟨2⟩ = some ⟨0⟩ := by
  have hb : System.recursive.NeverBlocks := fun _ _ _ _ _ => nofun
  have hhistory : ∃ deeds, History System.recursive
      (start pair [⟨0⟩, ⟨0⟩] System.contest.shared) deeds abandoned := by
    obtain ⟨_, hfirst, -⟩ : Works System.recursive _ hesitant := works_turns 1 _ (by decide)
    have hsize : 1 < hesitant.workers.size := by
      rw [hfirst.moves.size_eq]
      decide
    have hinterrupt : Act System.recursive hesitant _ (hesitant.interrupt 1 true) :=
      .interrupt true (Array.getElem?_eq_getElem hsize)
    obtain ⟨_, hlast, -⟩ : Works System.recursive (hesitant.interrupt 1 true) abandoned :=
      works_turns 1 _ (by decide +kernel)
    exact ⟨_, (hfirst.act hinterrupt nofun).trans hlast⟩
  exact ⟨System.conventional_recursive, hb, System.initial_contest.owner?, rfl, hhistory,
    by decide +kernel, by decide +kernel, by decide +kernel, by decide +kernel⟩

end Rest

end Pool

end GraphReduction
