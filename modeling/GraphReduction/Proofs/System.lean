import GraphReduction.Proofs.Effects
import Mathlib.Data.List.Perm.Basic
import Mathlib.Logic.Relation

/-!
Any number of workers and threads over one heap, under whatever schedule, and who evaluates which
thunk in the states that they get to.
-/
namespace GraphReduction

open Evaluation GraphReduction.Frame

variable {κ : Type} {program : Program κ}

structure Station (κ : Type) where
  context : Context κ
  control : Option Control

structure System (κ : Type) where
  shared : Shared κ
  stations : List (Station κ)
  ready : List (Thread κ)
  blocked : List (Thread κ × Address)
  /-- Threads that standalone schedulers were handed and dropped. Nothing resumes them. -/
  dropped : List (Thread κ)

def Station.stack (st : Station κ) : List (ThreadId × List (Frame κ)) :=
  if st.control.isSome then [(st.context.thread, st.context.stack.frames)] else []

def Thread.owned (t : Thread κ) : ThreadId × List (Frame κ) := (t.id, t.stack.frames)

namespace System

def detached (s : System κ) : List (Thread κ) :=
  s.ready ++ (s.blocked.map Prod.fst ++ s.shared.heap.parked)

def threadStacks (s : System κ) : List (ThreadId × List (Frame κ)) :=
  s.stations.flatMap Station.stack ++ s.detached.map Thread.owned

def allStacks (s : System κ) : List (ThreadId × List (Frame κ)) :=
  s.threadStacks ++ s.dropped.map Thread.owned

inductive Deed (κ : Type) where
  | attach (t : Thread κ)
  | iterate (n : Nat) (c : Control) (m : Machine κ) (released : List (Thread κ))
  | abandon (t : Thread κ)
  | other

/-- What may happen next. Schedulers are the environment's: whichever of the ready threads they
hold and whatever they answer, a thread iterates under one of them. The threads that it sets free
are handed to that one, wherever they come from. -/
inductive Act (program : Program κ) : System κ → Deed κ → System κ → Prop where
  | spawn (s : System κ) (a : Address) (limit : Nat) :
      Act program s .other { s with
        shared := (s.shared.spawn a limit).2
        ready := (s.shared.spawn a limit).1 :: s.ready }
  | attach {s : System κ} {i : Nat} {context : Context κ} {t : Thread κ} {rest : List (Thread κ)}
      (q : Scheduler κ) : s.stations[i]? = some ⟨context, none⟩ → s.ready.Perm (t :: rest) →
      Act program s (.attach t) { s with
        shared := (begin t ⟨s.shared, q, context⟩).2.shared
        stations := s.stations.set i
          ⟨(begin t ⟨s.shared, q, context⟩).2.context, (begin t ⟨s.shared, q, context⟩).1⟩
        ready := rest }
  | iterate {s : System κ} {i : Nat} {context : Context κ} {c : Control} {q : Scheduler κ}
      {rest : List (Thread κ)} {turn : Turn κ} {m : Machine κ} (n : Nat)
      (released : List (Thread κ)) : s.stations[i]? = some ⟨context, some c⟩ →
      s.ready.Perm (q.held ++ rest) →
      Evaluation.iterate program n c ⟨s.shared, q, context⟩ = (turn, m) →
      (released ++ m.heap.parked).Perm s.shared.heap.parked →
      Act program s (.iterate n c ⟨s.shared, q, context⟩ released) {
        shared := m.shared
        stations := s.stations.set i ⟨m.context, turn.control⟩
        ready := turn.yielded ++ (m.scheduler.held ++ rest)
        blocked := turn.blocked ++ s.blocked
        dropped := q.drops released ++ s.dropped }
  | park {s : System κ} {t : Thread κ} {a : Address} {rest : List (Thread κ × Address)}
      {h : Heap κ} : s.blocked.Perm ((t, a) :: rest) → s.shared.heap.park? a t = some h →
      Act program s .other { s with shared := { s.shared with heap := h }, blocked := rest }
  | retry {s : System κ} {t : Thread κ} {a : Address} {rest : List (Thread κ × Address)} :
      s.blocked.Perm ((t, a) :: rest) →
      Act program s .other { s with ready := t :: s.ready, blocked := rest }
  | abandon {s : System κ} {t : Thread κ} {rest : List (Thread κ)} : s.ready.Perm (t :: rest) →
      Act program s (.abandon t) { s with
        shared := (s.shared.abandon t).2
        ready := (s.shared.abandon t).1 ++ rest }
  | interrupt {s : System κ} {i : Nat} {st : Station κ} (flag : Bool) :
      s.stations[i]? = some st →
      Act program s .other { s with
        stations := s.stations.set i { st with context.interrupted := flag } }
  | report (s : System κ) (target : Target) (remark : Remark) :
      Act program s .other { s with shared := s.shared.report target remark }

def Step (program : Program κ) (s s' : System κ) : Prop := ∃ deed, Act program s deed s'

def Reaches (program : Program κ) : System κ → System κ → Prop :=
  Relation.ReflTransGen (Step program)

structure Initial (s : System κ) : Prop where
  idle : ∀ st ∈ s.stations, st.control = none
  ready : s.ready = []
  blocked : s.blocked = []
  dropped : s.dropped = []
  owner? : ∀ a, s.shared.heap.owner? a = none

end System

/-- The thunks under evaluation are divided among threads: each thread has one stack, and its
update frames are those of the thunks that it evaluates. -/
structure Divided (h : Heap κ) (last : Nat) (ts : List (ThreadId × List (Frame κ))) : Prop where
  nodup : (ts.map Prod.fst).Nodup
  numbered : ∀ p ∈ ts, 0 < p.1.number ∧ p.1.number ≤ last
  owns : ∀ p ∈ ts, h.Owns p.1 (updates p.2)
  owned : ∀ a t, h.owner? a = some t → t ∈ ts.map Prod.fst

namespace Divided

variable {h h' : Heap κ} {last : Nat} {t : ThreadId} {frames frames' : List (Frame κ)}
  {ts ts' others : List (ThreadId × List (Frame κ))}

theorem perm (d : Divided h last ts) (hp : ts.Perm ts') : Divided h last ts' where
  nodup := (hp.map _).nodup_iff.1 d.nodup
  numbered p hm := d.numbered p (hp.mem_iff.2 hm)
  owns p hm := d.owns p (hp.mem_iff.2 hm)
  owned a t ho := (hp.map _).mem_iff.1 (d.owned a t ho)

theorem congr (d : Divided h last ts) (ho : ∀ a, h'.owner? a = h.owner? a) :
    Divided h' last ts where
  nodup := d.nodup
  numbered := d.numbered
  owns p hm := (d.owns p hm).congr fun a => by rw [ho]
  owned a t h := d.owned a t (ho a ▸ h)

theorem spawn (d : Divided h last ts) : Divided h (last + 1) ((⟨last + 1⟩, []) :: ts) where
  nodup := by
    refine List.nodup_cons.2 ⟨fun hm => ?_, d.nodup⟩
    obtain ⟨p, hp, he⟩ := List.mem_map.1 hm
    have hn := (d.numbered p hp).2
    rw [he] at hn
    exact absurd hn (Nat.not_succ_le_self last)
  numbered p hm := by
    rcases List.mem_cons.1 hm with rfl | hm
    · exact ⟨Nat.succ_pos _, Nat.le_refl _⟩
    · exact ⟨(d.numbered p hm).1, Nat.le_succ_of_le (d.numbered p hm).2⟩
  owns p hm := by
    rcases List.mem_cons.1 hm with rfl | hm
    · refine ⟨List.nodup_nil, fun a => ⟨nofun, fun ho => ?_⟩⟩
      obtain ⟨p, hp, he⟩ := List.mem_map.1 (d.owned a _ ho)
      have hn := (d.numbered p hp).2
      rw [he] at hn
      exact absurd hn (Nat.not_succ_le_self last)
    · exact d.owns p hm
  owned a t ho := List.mem_cons_of_mem _ (d.owned a t ho)

theorem change {new : List (ThreadId × List (Frame κ))} (d : Divided h last ((t, frames) :: others))
    (hothers : ∀ a u, u ≠ t → (h'.owner? a = some u ↔ h.owner? a = some u))
    (howns : h'.Owns t (updates frames'))
    (hnew : new = [(t, frames')] ∨ new = [] ∧ frames' = []) : Divided h' last (new ++ others) := by
  obtain ⟨hnt, hnd⟩ := List.nodup_cons.1 d.nodup
  have hne : ∀ p ∈ others, p.1 ≠ t := fun p hm he => hnt (List.mem_map.2 ⟨p, hm, he⟩)
  have hothers' : ∀ p ∈ others, h'.Owns p.1 (updates p.2) := fun p hm =>
    (d.owns p (List.mem_cons_of_mem _ hm)).congr fun a => hothers a p.1 (hne p hm)
  have howned : ∀ a u, u ≠ t → h'.owner? a = some u → u ∈ others.map Prod.fst := by
    intro a u hu ho
    rcases List.mem_cons.1 (d.owned a u ((hothers a u hu).1 ho)) with rfl | hm
    · exact absurd rfl hu
    · exact hm
  rcases hnew with rfl | ⟨rfl, rfl⟩
  · constructor
    case nodup => exact d.nodup
    case numbered =>
      intro p hm
      rcases List.mem_cons.1 hm with rfl | hm
      · exact d.numbered (t, frames) List.mem_cons_self
      · exact d.numbered p (List.mem_cons_of_mem _ hm)
    case owns =>
      intro p hm
      rcases List.mem_cons.1 hm with rfl | hm
      · exact howns
      · exact hothers' p hm
    case owned =>
      intro a u ho
      by_cases hu : u = t
      · rw [hu]
        exact List.mem_cons_self
      · exact List.mem_cons_of_mem _ (howned a u hu ho)
  · constructor
    case nodup => exact hnd
    case numbered => exact fun p hm => d.numbered p (List.mem_cons_of_mem _ hm)
    case owns => exact hothers'
    case owned =>
      intro a u ho
      refine howned a u ?_ ho
      rintro rfl
      exact absurd ((howns.2 a).2 ho) List.not_mem_nil

theorem leave (d : Divided h last ((t, frames) :: others))
    (hothers : ∀ a u, u ≠ t → (h'.owner? a = some u ↔ h.owner? a = some u))
    (howns : h'.Owns t (updates ([] : List (Frame κ)))) : Divided h' last others :=
  d.change hothers howns (.inr ⟨rfl, rfl⟩)

end Divided

structure System.Sound (s : System κ) : Prop where
  divided : Divided s.shared.heap s.shared.lastThread s.allStacks
  result : ∀ st ∈ s.stations, st.control = some .resuming → st.context.registers.result? ≠ none

section Stacks

theorem perm_flatMap_set {α β : Type} (f : α → List β) {l : List α} {i : Nat} {x : α}
    (h : l[i]? = some x) :
    ∃ others, (l.flatMap f).Perm (f x ++ others) ∧
      ∀ y, ((l.set i y).flatMap f).Perm (f y ++ others) := by
  obtain ⟨hi, rfl⟩ := List.getElem?_eq_some_iff.1 h
  refine ⟨(l.eraseIdx i).flatMap f, ?_, fun y => ?_⟩
  · exact (List.getElem_cons_eraseIdx_perm hi).symm.flatMap_right f
  · exact (List.set_perm_cons_eraseIdx hi y).flatMap_right f

theorem mem_of_mem_set {stations : List (Station κ)} {i : Nat} {old st st' : Station κ}
    (hi : stations[i]? = some old) (h : st ∈ stations.set i st') :
    st = st' ∨ st ∈ stations.eraseIdx i := by
  obtain ⟨hlt, -⟩ := List.getElem?_eq_some_iff.1 hi
  exact List.mem_cons.1 ((List.set_perm_cons_eraseIdx hlt st').mem_iff.1 h)

theorem stack_of_iterated {c : Control} {m m' : Machine κ} {turn : Turn κ}
    (h : Iterated program c m turn m') :
    (Station.mk m'.context turn.control).stack ++
        (turn.yielded ++ turn.blocked.map Prod.fst).map Thread.owned =
      turn.stack m.context.thread m' := by
  have hid := h.detached
  rcases turn with c' | outcome
  · change [(m'.context.thread, m'.context.stack.frames)] ++ [] = _
    rw [h.attached nofun]
    rfl
  · cases outcome with
    | finished v => rfl
    | halted e => rfl
    | endless =>
      change [(m'.context.thread, m'.context.stack.frames)] ++ [] = _
      rw [h.attached nofun]
      rfl
    | yielded t =>
      change [(t.id, t.stack.frames)] = _
      rw [hid t List.mem_cons_self]
      rfl
    | blocked t a =>
      change [(t.id, t.stack.frames)] = _
      rw [hid t List.mem_cons_self]
      rfl

theorem Evaluation.Turn.stack_cases (t : ThreadId) (m : Machine κ) (turn : Turn κ) :
    turn.stack t m = [(t, turn.frames m)] ∨ turn.stack t m = [] ∧ turn.frames m = [] := by
  rcases turn with c | outcome
  · exact .inl rfl
  · cases outcome <;> first | exact .inl rfl | exact .inr ⟨rfl, rfl⟩

theorem Evaluation.Turn.eq_next_of_control {c : Control} {turn : Turn κ}
    (h : turn.control = some c) (hc : c ≠ .endless) : turn = .next c := by
  rcases turn with c' | outcome
  · cases h
    rfl
  · cases outcome with
    | endless =>
      cases h
      exact absurd rfl hc
    | _ => cases h

end Stacks

namespace System

variable {s s' : System κ}

theorem mem_allStacks_of_station {i : Nat} {context : Context κ} {c : Control}
    (hi : s.stations[i]? = some ⟨context, some c⟩) :
    (context.thread, context.stack.frames) ∈ s.allStacks := by
  obtain ⟨others, hp, -⟩ := perm_flatMap_set Station.stack hi
  exact List.mem_append_left _ (List.mem_append_left _ (hp.mem_iff.2 List.mem_cons_self))

theorem mem_allStacks_of_ready {t : Thread κ} (ht : t ∈ s.ready) : t.owned ∈ s.allStacks :=
  List.mem_append_left _ (List.mem_append_right _
    (List.mem_map_of_mem (List.mem_append_left _ ht)))

theorem allStacks_of_dropped (h : s.dropped = []) : s.allStacks = s.threadStacks := by
  rw [allStacks, h]
  exact List.append_nil _

theorem Sound.owning {i : Nat} {context : Context κ} {c : Control} (hs : s.Sound)
    (hi : s.stations[i]? = some ⟨context, some c⟩) (q : Scheduler κ) :
    Machine.Owning ⟨s.shared, q, context⟩ :=
  hs.divided.owns _ (mem_allStacks_of_station hi)

theorem Sound.iterated {i : Nat} {context : Context κ} {c : Control} {q : Scheduler κ} {n : Nat}
    {turn : Turn κ} {m : Machine κ} (hp : program.Conventional) (hs : s.Sound)
    (hi : s.stations[i]? = some ⟨context, some c⟩)
    (ht : Evaluation.iterate program n c ⟨s.shared, q, context⟩ = (turn, m)) :
    Iterated program c ⟨s.shared, q, context⟩ turn m := by
  have h := iterated_iterate (m := ⟨s.shared, q, context⟩) hp n c (hs.owning hi q)
    fun hc => hs.result _ (List.mem_of_getElem? hi) (congrArg some hc)
  rwa [ht] at h

theorem threadStacks_iterate {i : Nat} {context : Context κ} {c : Control} {q : Scheduler κ}
    {rest released : List (Thread κ)} {turn : Turn κ} {m : Machine κ} (dropped : List (Thread κ))
    (hi : s.stations[i]? = some ⟨context, some c⟩) (hready : s.ready.Perm (q.held ++ rest))
    (h : Iterated program c ⟨s.shared, q, context⟩ turn m)
    (hands : Machine.Hands ⟨s.shared, q, context⟩ m)
    (hparked : (released ++ m.heap.parked).Perm s.shared.heap.parked) :
    ∃ others, s.threadStacks.Perm ((context.thread, context.stack.frames) :: others) ∧
      (System.threadStacks {
        shared := m.shared
        stations := s.stations.set i ⟨m.context, turn.control⟩
        ready := turn.yielded ++ (m.scheduler.held ++ rest)
        blocked := turn.blocked ++ s.blocked
        dropped := dropped } ++ (q.drops released).map Thread.owned).Perm
          (turn.stack context.thread m ++ others) := by
  obtain ⟨O, hO, hO'⟩ := perm_flatMap_set Station.stack hi
  have hleft := stack_of_iterated h
  have hheld := hands.held hparked
  -- All lists are put together from the same parts, so counting compares them.
  refine ⟨O ++ (q.held ++ s.shared.heap.parked ++ (rest ++ s.blocked.map Prod.fst)).map
    Thread.owned, ?_, ?_⟩
  · classical
    refine List.perm_iff_count.2 fun x => ?_
    have h₁ := hO.count_eq x
    have h₂ := (hready.map Thread.owned).count_eq x
    simp only [threadStacks, detached, List.map_append, List.count_append, Station.stack] at h₁ h₂ ⊢
    simp only [Option.isSome_some, if_true, List.count_cons, List.count_nil,
      List.count_append] at h₁ ⊢
    omega
  · classical
    rw [← hleft]
    refine List.perm_iff_count.2 fun x => ?_
    have h₁ := (hO' ⟨m.context, turn.control⟩).count_eq x
    have h₂ := (hparked.map Thread.owned).count_eq x
    have h₃ := (hheld.map Thread.owned).count_eq x
    have h₄ := congrArg (fun ts => (ts.map Thread.owned).count x) (q.keeps_append_drops released)
    simp only [threadStacks, detached, List.map_append, List.count_append,
      Machine.heap] at h₁ h₂ h₃ h₄ ⊢
    omega

theorem Step.exists_iterate {i n : Nat} {context : Context κ} {c : Control} {q : Scheduler κ}
    {rest : List (Thread κ)} {turn : Turn κ} {m : Machine κ}
    (hi : s.stations[i]? = some ⟨context, some c⟩) (hready : s.ready.Perm (q.held ++ rest))
    (ht : Evaluation.iterate program n c ⟨s.shared, q, context⟩ = (turn, m)) :
    ∃ released, (released ++ m.heap.parked).Perm s.shared.heap.parked ∧ Step program s {
      shared := m.shared
      stations := s.stations.set i ⟨m.context, turn.control⟩
      ready := turn.yielded ++ (m.scheduler.held ++ rest)
      blocked := turn.blocked ++ s.blocked
      dropped := q.drops released ++ s.dropped } := by
  obtain ⟨released, hparked, -⟩ := hands_of_iterate ht
  exact ⟨released, hparked, _, .iterate n released hi hready ht hparked⟩

theorem Step.requeue {i n : Nat} {context : Context κ} {c : Control} {q : Scheduler κ}
    {rest : List (Thread κ)} {turn : Turn κ} {m : Machine κ}
    (hi : s.stations[i]? = some ⟨context, some c⟩) (hready : s.ready.Perm (q.held ++ rest))
    (hq : q ≠ .standalone)
    (ht : Evaluation.iterate program n c ⟨s.shared, q, context⟩ = (turn, m)) :
    Step program s {
      shared := m.shared
      stations := s.stations.set i ⟨m.context, turn.control⟩
      ready := turn.yielded ++ (m.scheduler.held ++ rest)
      blocked := turn.blocked ++ s.blocked
      dropped := s.dropped } := by
  obtain ⟨released, -, hstep⟩ := Step.exists_iterate hi hready ht
  rwa [Scheduler.drops_of_ne hq, List.nil_append] at hstep

theorem Initial.threadStacks (h : s.Initial) : s.threadStacks = [] := by
  have hst : s.stations.flatMap Station.stack = [] := by
    refine List.flatMap_eq_nil_iff.2 fun st hm => ?_
    rw [Station.stack, h.idle st hm]
    rfl
  rw [System.threadStacks, hst, detached, h.ready, h.blocked, Heap.parked_eq_nil h.owner?]
  rfl

theorem Initial.sound (h : s.Initial) : s.Sound where
  divided := by
    rw [allStacks_of_dropped h.dropped, h.threadStacks]
    exact ⟨List.nodup_nil, nofun, nofun, fun a t ho => by rw [h.owner?] at ho; cases ho⟩
  result st hm hc := by
    rw [h.idle st hm] at hc
    cases hc

theorem perm_threadStacks (hst : (s.stations.flatMap Station.stack).Perm
      (s'.stations.flatMap Station.stack))
    (hd : s.detached.Perm s'.detached) : s.threadStacks.Perm s'.threadStacks :=
  hst.append (hd.map Thread.owned)

theorem perm_allStacks (h : s.threadStacks.Perm s'.threadStacks) (hd : s'.dropped = s.dropped) :
    s.allStacks.Perm s'.allStacks := by
  rw [allStacks, allStacks, hd]
  exact h.append_right _

theorem flatMap_stack_set_eq {stations : List (Station κ)} {i : Nat} {st st' : Station κ}
    (hi : stations[i]? = some st) (h : st'.stack = st.stack) :
    (stations.flatMap Station.stack).Perm ((stations.set i st').flatMap Station.stack) := by
  obtain ⟨O, hO, hO'⟩ := perm_flatMap_set Station.stack hi
  exact hO.trans (h ▸ (hO' st').symm)

theorem begin_spec (t : Thread κ) (m : Machine κ) :
    (begin t m).2.shared.heap = m.heap ∧
      (begin t m).2.shared.lastThread = m.shared.lastThread ∧
      (begin t m).2.shared.waiting = m.shared.waiting.erase t.id ∧
      (begin t m).2.context.thread = t.id ∧
      (begin t m).2.context.stack = t.stack ∧
      (∀ a, (begin t m).1 ≠ .blocked a) ∧
      ((begin t m).1 = .resuming → (begin t m).2.context.registers.result? ≠ none) := by
  obtain ⟨id, stack, pending⟩ := t
  cases pending with
  | enter a => exact ⟨rfl, rfl, rfl, rfl, rfl, nofun, nofun⟩
  | apply f args => exact ⟨rfl, rfl, rfl, rfl, rfl, nofun, nofun⟩
  | resume a =>
    refine ⟨rfl, rfl, rfl, rfl, rfl, nofun, fun _ => ?_⟩
    change (Registers.setResult _ a).result? ≠ none
    simp

theorem detached_attach {t : Thread κ} {rest : List (Thread κ)} (i : Nat) (context : Context κ)
    (q : Scheduler κ) (hready : s.ready.Perm (t :: rest)) :
    s.detached.Perm (t :: System.detached { s with
      shared := (begin t ⟨s.shared, q, context⟩).2.shared
      stations := s.stations.set i
        ⟨(begin t ⟨s.shared, q, context⟩).2.context, (begin t ⟨s.shared, q, context⟩).1⟩
      ready := rest }) := by
  have hheap := (begin_spec t ⟨s.shared, q, context⟩).1
  rw [detached, detached, hheap]
  exact hready.append_right _

theorem threadStacks_attach {i : Nat} {context : Context κ} {t : Thread κ} {rest : List (Thread κ)}
    (q : Scheduler κ) (hi : s.stations[i]? = some ⟨context, none⟩)
    (hready : s.ready.Perm (t :: rest)) :
    s.threadStacks.Perm (System.threadStacks { s with
      shared := (begin t ⟨s.shared, q, context⟩).2.shared
      stations := s.stations.set i
        ⟨(begin t ⟨s.shared, q, context⟩).2.context, (begin t ⟨s.shared, q, context⟩).1⟩
      ready := rest }) := by
  obtain ⟨-, -, -, hthread, hstack, -, -⟩ := begin_spec t ⟨s.shared, q, context⟩
  obtain ⟨others, hold, hset⟩ := perm_flatMap_set Station.stack hi
  have hnew := hset ⟨(begin t ⟨s.shared, q, context⟩).2.context,
    (begin t ⟨s.shared, q, context⟩).1⟩
  have hone : Station.stack ⟨(begin t ⟨s.shared, q, context⟩).2.context,
      (begin t ⟨s.shared, q, context⟩).1⟩ = [t.owned] := by
    change [((begin t ⟨s.shared, q, context⟩).2.context.thread, _)] = _
    rw [hthread, hstack]
    rfl
  rw [hone] at hnew
  -- The stack of the thread moves from the ready threads to the worker, which had none.
  have hmove := hold.append ((detached_attach i context q hready).map Thread.owned)
  exact hmove.trans (List.perm_middle.trans (hnew.symm.append_right _))

theorem detached_park {t : Thread κ} {a : Address} {rest : List (Thread κ × Address)} {h : Heap κ}
    (hb : s.blocked.Perm ((t, a) :: rest)) (hpark : s.shared.heap.park? a t = some h) :
    s.detached.Perm (System.detached
      { s with shared := { s.shared with heap := h }, blocked := rest }) := by
  refine List.Perm.append_left s.ready ?_
  have hmap : (s.blocked.map Prod.fst).Perm (t :: rest.map Prod.fst) := hb.map Prod.fst
  refine (hmap.append_right _).trans ?_
  exact List.perm_middle.symm.trans ((Heap.parked_park? hpark).symm.append_left _)

theorem detached_retry {t : Thread κ} {a : Address} {rest : List (Thread κ × Address)}
    (hb : s.blocked.Perm ((t, a) :: rest)) :
    s.detached.Perm (System.detached { s with ready := t :: s.ready, blocked := rest }) := by
  have hmap : (s.blocked.map Prod.fst).Perm (t :: rest.map Prod.fst) := hb.map Prod.fst
  exact ((hmap.append_right _).append_left s.ready).trans List.perm_middle

theorem detached_abandon {t : Thread κ} {rest : List (Thread κ)}
    (hready : s.ready.Perm (t :: rest)) :
    s.detached.Perm (t :: System.detached { s with
      shared := (s.shared.abandon t).2
      ready := (s.shared.abandon t).1 ++ rest }) := by
  classical
  refine List.perm_iff_count.2 fun x => ?_
  have hleft := hready.count_eq x
  have hreleased := (Shared.parked_abandon t s.shared).count_eq x
  simp only [detached, List.count_append, List.count_cons] at hleft hreleased ⊢
  omega

theorem threadStacks_park {t : Thread κ} {a : Address} {rest : List (Thread κ × Address)}
    {h : Heap κ} (hb : s.blocked.Perm ((t, a) :: rest))
    (hpark : s.shared.heap.park? a t = some h) :
    s.threadStacks.Perm (System.threadStacks
      { s with shared := { s.shared with heap := h }, blocked := rest }) :=
  perm_threadStacks (.refl _) (detached_park hb hpark)

theorem threadStacks_retry {t : Thread κ} {a : Address} {rest : List (Thread κ × Address)}
    (hb : s.blocked.Perm ((t, a) :: rest)) :
    s.threadStacks.Perm
      (System.threadStacks { s with ready := t :: s.ready, blocked := rest }) :=
  perm_threadStacks (.refl _) (detached_retry hb)

theorem threadStacks_abandon {t : Thread κ} {rest : List (Thread κ)}
    (hready : s.ready.Perm (t :: rest)) :
    s.threadStacks.Perm (t.owned :: System.threadStacks { s with
      shared := (s.shared.abandon t).2
      ready := (s.shared.abandon t).1 ++ rest }) :=
  (((detached_abandon hready).map Thread.owned).append_left _).trans List.perm_middle

theorem report_spec (s : Shared κ) (target : Target) (remark : Remark) :
    (s.report target remark).heap = s.heap ∧ (s.report target remark).waiting = s.waiting ∧
      (s.report target remark).lastThread = s.lastThread := by
  unfold Shared.report
  split <;> exact ⟨rfl, rfl, rfl⟩

theorem detached_report (s : System κ) (target : Target) (remark : Remark) :
    System.detached { s with shared := s.shared.report target remark } = s.detached := by
  rw [detached, detached, (report_spec s.shared target remark).1]

theorem threadStacks_report (s : System κ) (target : Target) (remark : Remark) :
    System.threadStacks { s with shared := s.shared.report target remark } = s.threadStacks := by
  rw [threadStacks, threadStacks, detached_report]

theorem Step.sound (hp : program.Conventional) (h : Step program s s') (hs : s.Sound) :
    s'.Sound := by
  obtain ⟨deed, h⟩ := h
  cases h with
  | spawn a limit =>
    refine ⟨hs.divided.spawn.perm (List.Perm.symm ?_), hs.result⟩
    exact List.Perm.append_right (s.dropped.map Thread.owned) List.perm_middle
  | @attach i context t rest q hi hready =>
    obtain ⟨hheap, hlast, -, -, -, -, hres⟩ := begin_spec t ⟨s.shared, q, context⟩
    refine ⟨?_, fun st hm hc => ?_⟩
    · change Divided (begin t ⟨s.shared, q, context⟩).2.shared.heap
        (begin t ⟨s.shared, q, context⟩).2.shared.lastThread _
      rw [hheap, hlast]
      exact hs.divided.perm (perm_allStacks (threadStacks_attach q hi hready) rfl)
    · rcases mem_of_mem_set hi hm with rfl | hm
      · exact hres (Option.some.inj hc)
      · exact hs.result st (List.mem_of_mem_eraseIdx hm) hc
  | @iterate i context c q rest turn m n released hi hready ht hparked =>
    have hiter := hs.iterated hp hi ht
    obtain ⟨others, h₁, h₂⟩ := threadStacks_iterate (q.drops released ++ s.dropped) hi hready
      hiter (hands_of_iterate ht) hparked
    have hbefore := h₁.append_right (s.dropped.map Thread.owned)
    have hafter := h₂.append_right (s.dropped.map Thread.owned)
    rw [List.append_assoc, ← List.map_append, List.append_assoc] at hafter
    refine ⟨?_, fun st hm hc => ?_⟩
    · refine Divided.perm ?_ hafter.symm
      rw [show m.shared.lastThread = s.shared.lastThread from hiter.passage.lastThread]
      exact (hs.divided.perm hbefore).change hiter.passage.others hiter.owns
        (turn.stack_cases context.thread m)
    · rcases mem_of_mem_set hi hm with rfl | hm
      · exact hiter.result (Turn.eq_next_of_control hc (by simp))
      · exact hs.result st (List.mem_of_mem_eraseIdx hm) hc
  | park hb hpark =>
    refine ⟨(hs.divided.perm ?_).congr (Heap.owner?_park? hpark), hs.result⟩
    exact perm_allStacks (threadStacks_park hb hpark) rfl
  | retry hb =>
    exact ⟨hs.divided.perm (perm_allStacks (threadStacks_retry hb) rfl), hs.result⟩
  | @abandon t rest hready =>
    have hmove := (threadStacks_abandon hready).append_right (s.dropped.map Thread.owned)
    have hd := hs.divided.perm hmove
    have hreset := Shared.reset_abandon t s.shared (hd.owns _ List.mem_cons_self)
    refine ⟨?_, hs.result⟩
    change Divided (s.shared.abandon t).2.heap (s.shared.abandon t).2.lastThread _
    rw [hreset.lastThread]
    exact hd.leave hreset.others hreset.owns
  | @interrupt i st flag hi =>
    have hsame : s.threadStacks.Perm (System.threadStacks
        { s with stations := s.stations.set i { st with context.interrupted := flag } }) :=
      perm_threadStacks (flatMap_stack_set_eq hi rfl) (.refl _)
    refine ⟨hs.divided.perm (perm_allStacks hsame rfl), ?_⟩
    intro st' hm hc
    rcases mem_of_mem_set hi hm with rfl | hm
    · exact hs.result st (List.mem_of_getElem? hi) hc
    · exact hs.result st' (List.mem_of_mem_eraseIdx hm) hc
  | report target remark =>
    obtain ⟨hheap, -, hlast⟩ := report_spec s.shared target remark
    refine ⟨?_, hs.result⟩
    rw [allStacks, threadStacks_report]
    change Divided (s.shared.report target remark).heap (s.shared.report target remark).lastThread _
    rw [hheap, hlast]
    exact hs.divided

theorem sound_of_reaches {s₀ : System κ} (hp : program.Conventional) (h₀ : s₀.Initial)
    (h : Reaches program s₀ s) : s.Sound := by
  induction h with
  | refl => exact h₀.sound
  | tail _ hstep ih => exact hstep.sound hp ih

section Holding

def holders (ts : List (ThreadId × List (Frame κ))) (a : Address) : List ThreadId :=
  ts.flatMap fun p => List.replicate ((updates p.2).count a) p.1

theorem holders_append (ts us : List (ThreadId × List (Frame κ))) (a : Address) :
    holders (ts ++ us) a = holders ts a ++ holders us a :=
  List.flatMap_append

theorem mem_of_mem_holders {ts : List (ThreadId × List (Frame κ))} {a : Address} {t : ThreadId}
    (h : t ∈ holders ts a) : t ∈ ts.map Prod.fst := by
  obtain ⟨p, hp, ht⟩ := List.mem_flatMap.1 h
  exact List.mem_map.2 ⟨p, hp, (List.eq_of_mem_replicate ht).symm⟩

theorem holders_eq_of_divided {h : Heap κ} {last : Nat}
    {ts : List (ThreadId × List (Frame κ))} (d : Divided h last ts) (a : Address) :
    holders ts a = (h.owner? a).toList := by
  have hone : ∀ p ∈ ts, List.replicate ((updates p.2).count a) p.1 =
      if h.owner? a = some p.1 then [p.1] else [] := by
    intro p hp
    rw [(d.owns p hp).1.count]
    simp only [(d.owns p hp).2 a]
    split <;> rfl
  have hfilter : holders ts a = (ts.map Prod.fst).filter fun t => h.owner? a = some t := by
    clear d
    induction ts with
    | nil => rfl
    | cons p rest ih =>
      rw [holders, List.flatMap_cons, ← holders, ih fun q hq => hone q (List.mem_cons_of_mem _ hq),
        hone p List.mem_cons_self, List.map_cons, List.filter_cons]
      split <;> simp_all
  rw [hfilter]
  cases ho : h.owner? a with
  | none => simp
  | some t =>
    have hcount : (ts.map Prod.fst).count t = 1 := by
      rw [d.nodup.count, if_pos (d.owned a t ho)]
    have heq : (ts.map Prod.fst).filter (fun u => some t = some u) =
        (ts.map Prod.fst).filter fun u => u = t := by
      congr 1
      funext u
      simp [eq_comm]
    rw [heq, List.filter_eq, hcount]
    rfl

theorem holders_eq_of_append {h : Heap κ} {last : Nat}
    {ts us : List (ThreadId × List (Frame κ))} (d : Divided h last (ts ++ us)) (a : Address) :
    holders ts a = (h.owner? a).toList.filter (· ∉ us.map Prod.fst) := by
  have hall := holders_eq_of_divided d a
  rw [holders_append] at hall
  have hnodup := d.nodup
  rw [List.map_append, List.nodup_append] at hnodup
  rw [← hall, List.filter_append, List.filter_eq_self.2, List.filter_eq_nil_iff.2,
    List.append_nil]
  · exact fun t ht hn => (of_decide_eq_true hn) (mem_of_mem_holders ht)
  · intro t ht
    exact decide_eq_true fun hu => hnodup.2.2 t (mem_of_mem_holders ht) t hu rfl

theorem enter_eq_loop_iff {h : Heap κ} {t : ThreadId} {a : Address} :
    (h.enter t a).1 = .loop ↔ h.owner? a = some t := by
  unfold Heap.enter Heap.owner?
  split <;> simp_all

structure Ownership (s : System κ) : Prop where
  apart : (s.allStacks.map Prod.fst).Nodup
  holders : ∀ a, holders s.allStacks a = (s.shared.heap.owner? a).toList
  live : ∀ a, System.holders s.threadStacks a =
    (s.shared.heap.owner? a).toList.filter (· ∉ s.dropped.map Thread.id)
  updates : ∀ t frames, (t, frames) ∈ s.allStacks → ∀ a, .update a ∈ frames →
    s.shared.heap.owner? a = some t
  loop : ∀ st ∈ s.stations, st.control.isSome → ∀ a,
    (s.shared.heap.enter st.context.thread a).1 = .loop ↔ .update a ∈ st.context.stack.frames
  raises : ∀ st ∈ s.stations, st.control.isSome → ∀ a, .update a ∈ st.context.stack.frames →
    ∀ (program : Program κ) (q : Scheduler κ),
      enter program a ⟨s.shared, q, st.context⟩ =
        .error (.error .nonTermination) ⟨s.shared, q, st.context⟩

theorem Sound.ownership (hs : s.Sound) : s.Ownership := by
  have hstack : ∀ st ∈ s.stations, st.control.isSome →
      (st.context.thread, st.context.stack.frames) ∈ s.allStacks := by
    intro st hm hc
    refine List.mem_append_left _ (List.mem_append_left _ (List.mem_flatMap.2 ⟨st, hm, ?_⟩))
    rw [Station.stack, if_pos hc]
    exact List.mem_cons_self
  have hupdate : ∀ t frames, (t, frames) ∈ s.allStacks → ∀ a,
      .update a ∈ frames ↔ s.shared.heap.owner? a = some t := by
    intro t frames hm a
    rw [← mem_updates]
    exact (hs.divided.owns _ hm).2 a
  constructor
  case apart => exact hs.divided.nodup
  case holders => exact holders_eq_of_divided hs.divided
  case live =>
    intro a
    have hids : (s.dropped.map Thread.owned).map Prod.fst = s.dropped.map Thread.id :=
      List.map_map
    rw [← hids]
    exact holders_eq_of_append hs.divided a
  case updates => exact fun t frames hm a ha => (hupdate t frames hm a).1 ha
  case loop =>
    intro st hm hc a
    rw [enter_eq_loop_iff]
    exact (hupdate _ _ (hstack st hm hc) a).symm
  case raises =>
    intro st hm hc a ha program q
    have ho := (hupdate _ _ (hstack st hm hc) a).1 ha
    rw [enter_eq_of_owner (m := ⟨s.shared, q, st.context⟩) program ho, if_pos rfl]
    rfl

theorem ownership_of_reaches {s₀ : System κ} (hp : program.Conventional) (h₀ : s₀.Initial)
    (h : Reaches program s₀ s) : s.Ownership :=
  (sound_of_reaches hp h₀ h).ownership

end Holding

def patient : Scheduler κ := .manual ⟨.always, 0, [], []⟩

section Contest

def recursive : Program Unit := ⟨fun _ _ => .done (.enter ⟨0⟩)⟩

def contest : System Unit where
  shared := { (Shared.empty default : Shared Unit) with
    heap := ⟨#[.thunk (.unevaluated ⟨(), []⟩)]⟩ }
  stations := [⟨.new 0 4, none⟩, ⟨.new 1 4, none⟩]
  ready := []
  blocked := []
  dropped := []

theorem conventional_recursive : recursive.Conventional where
  disciplined _ _ := trivial
  returns _ _ _ _ h := by cases h

theorem initial_contest : contest.Initial where
  idle := by decide
  ready := rfl
  blocked := rfl
  dropped := rfl
  owner? a := by
    cases ho : contest.shared.heap.owner? a with
    | none => rfl
    | some t =>
      obtain ⟨body, blocked, hc⟩ := Heap.owner?_eq_some_iff.1 ho
      obtain ⟨i⟩ := a
      have hi : i < contest.shared.heap.size := Heap.lt_size_of_cell_eq_thunk hc
      obtain rfl : i = 0 := Nat.lt_one_iff.1 hi
      cases hc

theorem ownership_contest :
    recursive.Conventional ∧ contest.Initial ∧ ∃ s, Reaches recursive contest s ∧
      s.shared.heap.owner? ⟨0⟩ = some ⟨1⟩ ∧ s.shared.heap.parked.length = 1 ∧ s.Ownership := by
  have h₀ : Reaches recursive contest contest := .refl
  have h₁ := h₀.tail ⟨_, .spawn _ ⟨0⟩ 4⟩
  have h₂ := h₁.tail ⟨_, .spawn _ ⟨0⟩ 4⟩
  have h₃ := h₂.tail ⟨_, .attach (i := 0) .standalone rfl (List.Perm.swap _ _ _)⟩
  have h₄ := h₃.tail ⟨_, .attach (i := 1) .standalone rfl (.refl _)⟩
  have h₅ := h₄.tail (.requeue (i := 0) (n := 0) (q := patient) rfl (.refl _) nofun rfl)
  have h₆ := h₅.tail (.requeue (i := 1) (n := 0) (q := patient) rfl (.refl _) nofun rfl)
  have h₇ := h₆.tail (.requeue (i := 1) (n := 1) (q := patient) rfl (.refl _) nofun rfl)
  have h₈ := h₇.tail ⟨_, .park (.refl _) rfl⟩
  exact ⟨conventional_recursive, initial_contest, _, h₈, rfl, rfl,
    ownership_of_reaches conventional_recursive initial_contest h₈⟩

end Contest

section Forking

def forking : Program Bool :=
  ⟨fun code _ => if code then .done (.enter ⟨0⟩) else .setResult ⟨2⟩ (.done .resume)⟩

def fork : System Bool where
  shared := { (Shared.empty default : Shared Bool) with
    heap := ⟨#[.thunk (.unevaluated ⟨false, []⟩), .thunk (.unevaluated ⟨true, []⟩),
      .data default []]⟩ }
  stations := [⟨.new 0 4, none⟩, ⟨.new 1 4, none⟩]
  ready := []
  blocked := []
  dropped := []

theorem conventional_forking : forking.Conventional where
  disciplined code _ := by cases code <;> trivial
  returns code _ m m' h := by
    cases code with
    | true => cases h
    | false =>
      cases h
      change (Registers.setResult _ _).result? ≠ none
      simp

theorem initial_fork : fork.Initial where
  idle := by decide
  ready := rfl
  blocked := rfl
  dropped := rfl
  owner? a := by
    cases ho : fork.shared.heap.owner? a with
    | none => rfl
    | some t =>
      obtain ⟨body, blocked, hc⟩ := Heap.owner?_eq_some_iff.1 ho
      obtain ⟨i⟩ := a
      have hi : i < fork.shared.heap.size := Heap.lt_size_of_cell_eq_thunk hc
      match i, hi with
      | 0, _ => cases hc
      | 1, _ => cases hc
      | 2, _ => cases hc

def first : Machine Bool :=
  (iterate forking 0 (.entering ⟨0⟩) (begin ⟨⟨1⟩, .empty 4, .enter ⟨0⟩⟩
    ⟨{ fork.shared with lastThread := 2 }, .standalone, .new 0 4⟩).2).2

def second : Machine Bool :=
  (iterate forking 0 (.entering ⟨1⟩)
    (begin ⟨⟨2⟩, .empty 4, .enter ⟨1⟩⟩ ⟨first.shared, patient, .new 1 4⟩).2).2

def third : Machine Bool := (iterate forking 1 (.entering ⟨0⟩) second).2

def fourth : Machine Bool := (iterate forking 2 (.blocked ⟨0⟩) third).2

def waiter : Thread Bool := ⟨⟨2⟩, second.context.stack, .enter ⟨0⟩⟩

def waitingHeap : Heap Bool := (fourth.heap.park? ⟨0⟩ waiter).getD .empty

def resumed (q : Scheduler Bool) : Machine Bool :=
  (iterate forking 1 .resuming ⟨{ fourth.shared with heap := waitingHeap }, q, first.context⟩).2

def waiting : System Bool where
  shared := { fourth.shared with heap := waitingHeap }
  stations := [⟨first.context, some .resuming⟩, ⟨fourth.context, none⟩]
  ready := []
  blocked := []
  dropped := []

theorem reaches_waiting : Reaches forking fork waiting := by
  have h₀ : Reaches forking fork fork := .refl
  have h₁ := h₀.tail ⟨_, .spawn _ ⟨0⟩ 4⟩
  have h₂ := h₁.tail ⟨_, .spawn _ ⟨1⟩ 4⟩
  have h₃ := h₂.tail ⟨_, .attach (i := 0) .standalone rfl (.swap _ _ _)⟩
  have h₄ := h₃.tail ⟨_, .iterate (i := 0) (q := .standalone) (m := first) 0 [] rfl (.refl _) rfl .nil⟩
  have h₅ := h₄.tail ⟨_, .attach (i := 1) patient rfl (.refl _)⟩
  have h₆ := h₅.tail ⟨_, .iterate (i := 1) (q := patient) (m := second) 0 [] rfl (.refl _) rfl .nil⟩
  have h₇ := h₆.tail ⟨_, .iterate (i := 1) (q := patient) (m := third) 1 [] rfl (.refl _) rfl .nil⟩
  have h₈ := h₇.tail ⟨_, .iterate (i := 1) (q := patient) (m := fourth) 2 [] rfl (.refl _) rfl .nil⟩
  exact h₈.tail ⟨_, .park (h := waitingHeap) (.refl _) rfl⟩

/-- A standalone worker settles the first thunk and drops the thread that waits for it. The other
thunk stays with that thread, though none of the stacks left has its update frame. -/
theorem forsaken_fork : forking.Conventional ∧ fork.Initial ∧ ∃ s, Reaches forking fork s ∧
    s.shared.heap.owner? ⟨1⟩ = some ⟨2⟩ ∧ holders s.threadStacks ⟨1⟩ = [] := by
  have h := reaches_waiting.tail ⟨_, .iterate (i := 0) (q := .standalone) (m := resumed .standalone) 1
    [waiter] rfl (.refl _) rfl (.refl _)⟩
  exact ⟨conventional_forking, initial_fork, _, h, rfl, rfl⟩

end Forking
end System

end GraphReduction
