import GraphReduction.Proofs.System
import GraphReduction.Proofs.WaitsFor

namespace GraphReduction.System

open Evaluation GraphReduction.Frame

variable {κ : Type} {program : Program κ} {s s' : System κ}

/-- Who waits for which thunk. A thread that runs has no entry, so the thunks it enters are no
threads' way to somebody else. Entries of threads that are ready again, or have ended, may be left
over. -/
structure Waits (s : System κ) : Prop where
  acyclic : s.shared.waiting.Acyclic s.shared.heap
  running : ∀ st ∈ s.stations, ∀ c, st.control = some c →
    ∀ a, s.shared.waiting.find? st.context.thread = some a → c = .blocked a
  blocking : ∀ st ∈ s.stations, ∀ a, st.control = some (.blocked a) →
    s.shared.waiting.find? st.context.thread = some a
  left : ∀ p ∈ s.blocked, s.shared.waiting.find? p.1.id = some p.2
  parked : ∀ a, ∀ t ∈ Heap.parkedAt (s.shared.heap.cell a), s.shared.waiting.find? t.id = some a

section Apart

theorem Sound.nodup (hs : s.Sound) : (s.threadStacks.map Prod.fst).Nodup :=
  ((List.sublist_append_left ..).map Prod.fst).nodup hs.divided.nodup

theorem Sound.apart_of_perm {p : ThreadId × List (Frame κ)} {stations : List (Station κ)}
    {threads : List (Thread κ)} (hs : s.Sound)
    (hp : s.threadStacks.Perm
      (p :: (stations.flatMap Station.stack ++ threads.map Thread.owned))) :
    (∀ st ∈ stations, st.control.isSome → st.context.thread ≠ p.1) ∧
      ∀ u ∈ threads, u.id ≠ p.1 := by
  have hn := (hp.map Prod.fst).nodup_iff.1 hs.nodup
  rw [List.map_cons, List.nodup_cons, List.map_append, List.mem_append, not_or] at hn
  refine ⟨fun st hm hc he => hn.1.1 ?_, fun u hm he => hn.1.2 ?_⟩
  · refine List.mem_map.2 ⟨(st.context.thread, st.context.stack.frames), ?_, he⟩
    refine List.mem_flatMap.2 ⟨st, hm, ?_⟩
    rw [Station.stack, if_pos hc]
    exact List.mem_cons_self
  · exact List.mem_map.2 ⟨u.owned, List.mem_map_of_mem hm, he⟩

theorem Sound.apart_station {i : Nat} {context : Context κ} {c : Control} (hs : s.Sound)
    (hi : s.stations[i]? = some ⟨context, some c⟩) :
    (∀ st ∈ s.stations.eraseIdx i, st.control.isSome → st.context.thread ≠ context.thread) ∧
      ∀ t ∈ s.detached, t.id ≠ context.thread := by
  obtain ⟨hlt, hget⟩ := List.getElem?_eq_some_iff.1 hi
  have hstations : (s.stations.flatMap Station.stack).Perm
      ((context.thread, context.stack.frames) ::
        (s.stations.eraseIdx i).flatMap Station.stack) := by
    have hp := (List.getElem_cons_eraseIdx_perm hlt).symm.flatMap_right Station.stack
    rwa [List.flatMap_cons, hget] at hp
  exact hs.apart_of_perm (hstations.append_right (s.detached.map Thread.owned))

theorem Sound.apart_thread {t : Thread κ} {rest : List (Thread κ)} (hs : s.Sound)
    (hd : s.detached.Perm (t :: rest)) :
    (∀ st ∈ s.stations, st.control.isSome → st.context.thread ≠ t.id) ∧
      ∀ u ∈ rest, u.id ≠ t.id := by
  have hstacks := (hd.map Thread.owned).append_left (s.stations.flatMap Station.stack)
  exact hs.apart_of_perm (hstacks.trans List.perm_middle)

theorem mem_detached_of_blocked {p : Thread κ × Address} (hp : p ∈ s.blocked) :
    p.1 ∈ s.detached :=
  List.mem_append_right _ (List.mem_append_left _ (List.mem_map_of_mem hp))

theorem mem_detached_of_parkedAt {a : Address} {t : Thread κ}
    (ht : t ∈ Heap.parkedAt (s.shared.heap.cell a)) : t ∈ s.detached :=
  List.mem_append_right _ (List.mem_append_right _ (Heap.mem_parked_iff.2 ⟨a, ht⟩))

end Apart

theorem Initial.waits (h : s.Initial) (hw : s.shared.waiting = .empty) : s.Waits where
  acyclic := hw ▸ WaitingMap.acyclic_empty _
  running st hm c hc := by
    rw [h.idle st hm] at hc
    cases hc
  blocking st hm a hc := by
    rw [h.idle st hm] at hc
    cases hc
  left p hp := by
    rw [h.blocked] at hp
    cases hp
  parked a t ht := by
    have hidle : Heap.Idle (s.shared.heap.cell a) := fun u body blocked he => by
      have ho := Heap.owner?_eq_some_iff.2 ⟨body, blocked, he⟩
      rw [h.owner?] at ho
      cases ho
    rw [Heap.parkedAt_of_idle hidle] at ht
    cases ht

section Steps

theorem find?_erase_of_ne {w : WaitingMap} {t u : ThreadId} (hu : u ≠ t) :
    (w.erase t).find? u = w.find? u := by
  rw [WaitingMap.find?_erase, if_neg hu]

theorem Waits.of_erase {t : Thread κ} {rest : List (Thread κ)} (hs : s.Sound) (hw : s.Waits)
    (hd : s.detached.Perm (t :: (rest ++ (s.blocked.map Prod.fst ++ s.shared.heap.parked))))
    (hwaiting : s'.shared.waiting = s.shared.waiting.erase t.id)
    (howner : ∀ a u, s'.shared.heap.owner? a = some u → s.shared.heap.owner? a = some u)
    (hstay : ∀ a, Heap.parkedAt (s'.shared.heap.cell a) ⊆ Heap.parkedAt (s.shared.heap.cell a))
    (hblocked : s'.blocked = s.blocked)
    (hstations : ∀ st ∈ s'.stations, st ∈ s.stations ∨
      st.context.thread = t.id ∧ ∀ a, st.control ≠ some (.blocked a)) : s'.Waits := by
  obtain ⟨hst, hrest⟩ := hs.apart_thread hd
  constructor
  case acyclic =>
    -- An edge of the new map is one of the old map, as the entry of `t` only is gone.
    refine hw.acyclic.mono fun x y hxy => ?_
    rw [hwaiting] at hxy
    obtain ⟨a, ha, ho⟩ := WaitingMap.next?_eq_some_iff.1 hxy
    rw [WaitingMap.find?_erase] at ha
    split at ha
    · cases ha
    · exact WaitingMap.next?_eq_some_iff.2 ⟨a, ha, howner a y ho⟩
  case running =>
    intro st hm c hc a ha
    rw [hwaiting] at ha
    rcases hstations st hm with hm | ⟨hthread, -⟩
    · rw [find?_erase_of_ne (hst st hm (by rw [hc]; rfl))] at ha
      exact hw.running st hm c hc a ha
    · rw [hthread, WaitingMap.find?_erase, if_pos rfl] at ha
      cases ha
  case blocking =>
    intro st hm a hc
    rw [hwaiting]
    rcases hstations st hm with hm | ⟨-, hcontrol⟩
    · rw [find?_erase_of_ne (hst st hm (by rw [hc]; rfl))]
      exact hw.blocking st hm a hc
    · exact absurd hc (hcontrol a)
  case left =>
    intro p hp
    rw [hblocked] at hp
    rw [hwaiting, find?_erase_of_ne (hrest p.1 ?_)]
    · exact hw.left p hp
    · exact List.mem_append_right _ (List.mem_append_left _ (List.mem_map_of_mem hp))
  case parked =>
    intro a u hu
    have hu := hstay a hu
    rw [hwaiting, find?_erase_of_ne (hrest u ?_)]
    · exact hw.parked a u hu
    · exact List.mem_append_right _ (List.mem_append_right _ (Heap.mem_parked_iff.2 ⟨a, hu⟩))

theorem Waits.attach {i : Nat} {context : Context κ} {t : Thread κ} {rest : List (Thread κ)}
    (q : Scheduler κ) (hs : s.Sound) (hw : s.Waits) (hi : s.stations[i]? = some ⟨context, none⟩)
    (hready : s.ready.Perm (t :: rest)) :
    Waits { s with
      shared := (begin t ⟨s.shared, q, context⟩).2.shared
      stations := s.stations.set i
        ⟨(begin t ⟨s.shared, q, context⟩).2.context, (begin t ⟨s.shared, q, context⟩).1⟩
      ready := rest } := by
  obtain ⟨hheap, -, hwaiting, hthread, -, hblocked, -⟩ := begin_spec t ⟨s.shared, q, context⟩
  refine hw.of_erase hs (hready.append_right _) hwaiting ?_ ?_ rfl fun st hm => ?_
  · intro a u ho
    rwa [hheap] at ho
  · intro a
    rw [hheap]
    exact List.Subset.refl _
  · rcases mem_of_mem_set hi hm with rfl | hm
    · exact .inr ⟨hthread, fun a ha => hblocked a (Option.some.inj ha)⟩
    · exact .inl (List.mem_of_mem_eraseIdx hm)

theorem Waits.abandon {t : Thread κ} {rest : List (Thread κ)} (hs : s.Sound) (hw : s.Waits)
    (hready : s.ready.Perm (t :: rest)) :
    Waits { s with
      shared := (s.shared.abandon t).2
      ready := (s.shared.abandon t).1 ++ rest } := by
  have hd : s.detached.Perm (t :: (rest ++ (s.blocked.map Prod.fst ++ s.shared.heap.parked))) :=
    hready.append_right _
  have hm := mem_allStacks_of_ready (hready.mem_iff.2 List.mem_cons_self)
  have hreset := Shared.reset_abandon t s.shared (hs.divided.owns _ hm)
  refine hw.of_erase hs hd hreset.waiting (fun a u ho => ?_) hreset.stay rfl fun st hm => .inl hm
  by_cases hu : u = t.id
  · subst hu
    exact absurd ((hreset.owns.2 a).2 ho) List.not_mem_nil
  · exact (hreset.others a u hu).1 ho

theorem Waits.park {t : Thread κ} {a : Address} {rest : List (Thread κ × Address)} {h : Heap κ}
    (hw : s.Waits) (hb : s.blocked.Perm ((t, a) :: rest))
    (hpark : s.shared.heap.park? a t = some h) :
    Waits { s with shared := { s.shared with heap := h }, blocked := rest } := by
  constructor
  case acyclic =>
    refine hw.acyclic.mono fun x y hxy => ?_
    obtain ⟨b, hb, ho⟩ := WaitingMap.next?_eq_some_iff.1 hxy
    exact WaitingMap.next?_eq_some_iff.2 ⟨b, hb, Heap.owner?_park? hpark b ▸ ho⟩
  case running => exact hw.running
  case blocking => exact hw.blocking
  case left => exact fun p hp => hw.left p (hb.mem_iff.2 (List.mem_cons_of_mem _ hp))
  case parked =>
    intro b u hu
    rcases Heap.parkedAt_park? hpark hu with hu | ⟨rfl, rfl⟩
    · exact hw.parked b u hu
    · exact hw.left _ (hb.mem_iff.2 List.mem_cons_self)

section Iterating

variable {i : Nat} {context : Context κ} {c : Control} {q : Scheduler κ} {turn : Turn κ}
  {m : Machine κ}

theorem Waits.eq_blocked (hw : s.Waits) (hi : s.stations[i]? = some ⟨context, some c⟩)
    {a : Address} (hf : s.shared.waiting.find? context.thread = some a) : c = .blocked a :=
  hw.running _ (List.mem_of_getElem? hi) c rfl a hf

theorem Waits.register (hs : s.Sound) (hw : s.Waits)
    (hi : s.stations[i]? = some ⟨context, some c⟩)
    (h : Iterated program c ⟨s.shared, q, context⟩ turn m) {a : Address}
    (hturn : turn = .next (.blocked a)) (hblock : Blocks ⟨s.shared, q, context⟩ a m) :
    m.shared.waiting = s.shared.waiting.insert context.thread a ∧
      m.shared.waiting.Acyclic s.shared.heap := by
  have hnobody : context.thread ≠ .nobody := fun he => by
    have hpos := (hs.divided.numbered _ (mem_allStacks_of_station hi)).1
    rw [he] at hpos
    exact absurd hpos (Nat.lt_irrefl 0)
  have hnone : s.shared.waiting.find? context.thread = none := by
    cases hf : s.shared.waiting.find? context.thread with
    | none => rfl
    | some b =>
      have hcontrol := (h.still b (hw.eq_blocked hi hf)).1
      rw [hturn] at hcontrol
      cases hcontrol
  exact hw.acyclic.register hnobody hnone hblock.registered

theorem Waits.find?_iterate (hs : s.Sound) (hw : s.Waits)
    (hi : s.stations[i]? = some ⟨context, some c⟩)
    (h : Iterated program c ⟨s.shared, q, context⟩ turn m) {u : ThreadId}
    (hu : u ≠ context.thread) : m.shared.waiting.find? u = s.shared.waiting.find? u := by
  rcases h.waiting with heq | ⟨a, hturn, hblock⟩
  · rw [heq]
  · rw [(hw.register hs hi h hturn hblock).1, WaitingMap.find?_insert, if_neg hu]

theorem Waits.acyclic_iterate (hs : s.Sound) (hw : s.Waits)
    (hi : s.stations[i]? = some ⟨context, some c⟩)
    (h : Iterated program c ⟨s.shared, q, context⟩ turn m) :
    m.shared.waiting.Acyclic m.shared.heap := by
  -- An iteration closes no circle: the thread has no entry as long as it takes thunks, and an
  -- entry that it makes has been checked.
  rcases h.waiting with heq | ⟨a, hturn, hblock⟩
  · rw [heq]
    by_cases hc : ∃ b, c = .blocked b
    · obtain ⟨b, hc⟩ := hc
      refine hw.acyclic.mono fun x y hxy => ?_
      obtain ⟨a, ha, ho⟩ := WaitingMap.next?_eq_some_iff.1 hxy
      refine WaitingMap.next?_eq_some_iff.2 ⟨a, ha, ?_⟩
      by_cases hy : y = context.thread
      · rw [hy] at ho ⊢
        exact (h.still b hc).2 a ho
      · exact (h.passage.others a y hy).1 ho
    · have hnone : s.shared.waiting.find? context.thread = none := by
        cases hf : s.shared.waiting.find? context.thread with
        | none => rfl
        | some b => exact absurd ⟨b, hw.eq_blocked hi hf⟩ hc
      -- Stale entries may now name the thread as an owner, but there the way ends.
      refine hw.acyclic.of_sink (v := context.thread) (fun x y hxy => ?_) ?_
      · obtain ⟨a, ha, ho⟩ := WaitingMap.next?_eq_some_iff.1 hxy
        by_cases hy : y = context.thread
        · exact .inr hy
        · exact .inl (WaitingMap.next?_eq_some_iff.2
            ⟨a, ha, (h.passage.others a y hy).1 ho⟩)
      · rw [WaitingMap.next?, hnone]
        rfl
  · have hheap : m.shared.heap = s.shared.heap := hblock.heap
    rw [hheap]
    exact (hw.register hs hi h hturn hblock).2

theorem Waits.iterate {rest dropped : List (Thread κ)} (hb : program.NeverBlocks) (hs : s.Sound)
    (hw : s.Waits) (hi : s.stations[i]? = some ⟨context, some c⟩)
    (h : Iterated program c ⟨s.shared, q, context⟩ turn m) :
    Waits {
      shared := m.shared
      stations := s.stations.set i ⟨m.context, turn.control⟩
      ready := turn.yielded ++ (m.scheduler.held ++ rest)
      blocked := turn.blocked ++ s.blocked
      dropped := dropped } := by
  obtain ⟨hst, hdet⟩ := hs.apart_station hi
  have hmem := List.mem_of_getElem? hi
  constructor
  case acyclic => exact hw.acyclic_iterate hs hi h
  case running =>
    intro st hm c' hc' a ha
    rcases mem_of_mem_set hi hm with rfl | hm
    · have hthread : m.context.thread = context.thread :=
        h.attached (by simp [show turn.control = some c' from hc'])
      rw [hthread] at ha
      rcases h.waiting with heq | ⟨b, hturn, hblock⟩
      · change WaitingMap.find? m.shared.waiting _ = _ at ha
        rw [heq] at ha
        have hcontrol := (h.still a (hw.eq_blocked hi ha)).1
        rw [show turn.control = some c' from hc'] at hcontrol
        cases hcontrol
      · change WaitingMap.find? m.shared.waiting _ = _ at ha
        rw [(hw.register hs hi h hturn hblock).1, WaitingMap.find?_insert, if_pos rfl] at ha
        cases ha
        rw [hturn] at hc'
        cases hc'
        rfl
    · have hne := hst st hm (by rw [hc']; rfl)
      change WaitingMap.find? m.shared.waiting _ = _ at ha
      rw [hw.find?_iterate hs hi h hne] at ha
      exact hw.running st (List.mem_of_mem_eraseIdx hm) c' hc' a ha
  case blocking =>
    intro st hm a hc'
    change WaitingMap.find? m.shared.waiting _ = _
    rcases mem_of_mem_set hi hm with rfl | hm
    · have hc' : turn.control = some (.blocked a) := hc'
      have hturn : turn = .next (.blocked a) := Turn.eq_next_of_control hc' (by simp)
      have hthread : m.context.thread = context.thread := h.attached (by simp [hc'])
      rw [hthread, (hw.register hs hi h hturn (h.blocks hb a hturn)).1, WaitingMap.find?_insert,
        if_pos rfl]
    · rw [hw.find?_iterate hs hi h (hst st hm (by rw [hc']; rfl))]
      exact hw.blocking st (List.mem_of_mem_eraseIdx hm) a hc'
  case left =>
    intro p hp
    change WaitingMap.find? m.shared.waiting _ = _
    rcases List.mem_append.1 hp with hp | hp
    · rcases turn with c' | outcome
      · cases hp
      · cases outcome with
        | blocked t a =>
          obtain rfl := List.mem_singleton.1 hp
          have hid : t.id = context.thread := h.detached t List.mem_cons_self
          rcases h.waiting with heq | ⟨b, hturn, -⟩
          · rw [heq, hid]
            exact hw.blocking _ hmem a (congrArg some (h.blocked t a rfl))
          · cases hturn
        | _ => cases hp
    · rw [hw.find?_iterate hs hi h (hdet _ (mem_detached_of_blocked hp))]
      exact hw.left p hp
  case parked =>
    intro a u hu
    have hu := h.passage.stay a hu
    change WaitingMap.find? m.shared.waiting _ = _
    rw [hw.find?_iterate hs hi h (hdet u (mem_detached_of_parkedAt hu))]
    exact hw.parked a u hu

end Iterating

theorem Step.waits (hp : program.Conventional) (hb : program.NeverBlocks)
    (h : Step program s s') (hs : s.Sound) (hw : s.Waits) : s'.Waits := by
  obtain ⟨deed, h⟩ := h
  cases h with
  | spawn a limit => exact ⟨hw.acyclic, hw.running, hw.blocking, hw.left, hw.parked⟩
  | attach q hi hready => exact hw.attach q hs hi hready
  | iterate n released hi hready ht hparked => exact hw.iterate hb hs hi (hs.iterated hp hi ht)
  | park hbl hpark => exact hw.park hbl hpark
  | retry hbl =>
    exact ⟨hw.acyclic, hw.running, hw.blocking,
      fun p hp => hw.left p (hbl.mem_iff.2 (List.mem_cons_of_mem _ hp)), hw.parked⟩
  | abandon hready => exact hw.abandon hs hready
  | @interrupt i st flag hi =>
    refine ⟨hw.acyclic, fun st' hm => ?_, fun st' hm => ?_, hw.left, hw.parked⟩
    · rcases mem_of_mem_set hi hm with rfl | hm
      · exact hw.running st (List.mem_of_getElem? hi)
      · exact hw.running st' (List.mem_of_mem_eraseIdx hm)
    · rcases mem_of_mem_set hi hm with rfl | hm
      · exact hw.blocking st (List.mem_of_getElem? hi)
      · exact hw.blocking st' (List.mem_of_mem_eraseIdx hm)
  | report target remark =>
    obtain ⟨hheap, hwaiting, -⟩ := report_spec s.shared target remark
    obtain ⟨hacyclic, hrunning, hblocking, hleft, hparked⟩ := hw
    exact ⟨by rwa [hheap, hwaiting], by rwa [hwaiting], by rwa [hwaiting], by rwa [hwaiting],
      by rwa [hheap, hwaiting]⟩

theorem waits_of_reaches {s₀ : System κ} (hp : program.Conventional) (hb : program.NeverBlocks)
    (h₀ : s₀.Initial) (hw : s₀.shared.waiting = .empty) (h : Reaches program s₀ s) : s.Waits := by
  induction h with
  | refl => exact h₀.waits hw
  | tail hrun hstep ih => exact hstep.waits hp hb (sound_of_reaches hp h₀ hrun) ih

end Steps

theorem Waits.stacks_eq_nil (hs : s.Sound) (hw : s.Waits) (hd : s.dropped = [])
    (hidle : ∀ st ∈ s.stations, st.control = none) (hready : s.ready = [])
    (hblocked : s.blocked = []) : s.threadStacks = [] := by
  have hstacks : s.threadStacks = s.shared.heap.parked.map Thread.owned := by
    have hst : s.stations.flatMap Station.stack = [] := by
      refine List.flatMap_eq_nil_iff.2 fun st hm => ?_
      rw [Station.stack, hidle st hm]
      rfl
    rw [threadStacks, hst, detached, hready, hblocked]
    rfl
  by_contra hne
  obtain ⟨p, hp⟩ := List.exists_mem_of_ne_nil _ hne
  have hthread : p.1 ∈ s.threadStacks.map Prod.fst := List.mem_map_of_mem hp
  -- The thread at the end is parked as well, and its thunk has an owner, who has a stack.
  obtain ⟨u, hu, hend⟩ := hw.acyclic.exists_end hthread
  obtain ⟨q, hq, rfl⟩ := List.mem_map.1 hu
  rw [hstacks] at hq
  obtain ⟨t, ht, rfl⟩ := List.mem_map.1 hq
  obtain ⟨a, ha⟩ := Heap.mem_parked_iff.1 ht
  have hbusy : ∃ v, s.shared.heap.owner? a = some v := by
    unfold Heap.parkedAt at ha
    split at ha
    · next v body blocked hc => exact ⟨v, Heap.owner?_eq_some_iff.2 ⟨body, blocked, hc⟩⟩
    · cases ha
  obtain ⟨v, hv⟩ := hbusy
  have hnext : s.shared.waiting.next? s.shared.heap t.id = some v :=
    WaitingMap.next?_eq_some_iff.2 ⟨a, hw.parked a t ha, hv⟩
  have howned := hs.divided.owned a v hv
  rw [allStacks_of_dropped hd] at howned
  exact hend v hnext howned

end GraphReduction.System
