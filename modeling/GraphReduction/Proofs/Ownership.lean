import GraphReduction.Proofs.Conduct
import GraphReduction.Proofs.Entering

namespace GraphReduction

open Evaluation GraphReduction.Frame

variable {κ : Type}

namespace Heap

variable {h h' : Heap κ} {t : ThreadId} {a : Address} {as : List Address}

/-- The thunks that a thread evaluates, each once. -/
def Owns (h : Heap κ) (t : ThreadId) (as : List Address) : Prop :=
  as.Nodup ∧ ∀ a, a ∈ as ↔ h.owner? a = some t

theorem Owns.congr (ho : ∀ a, h'.owner? a = some t ↔ h.owner? a = some t) (hs : h.Owns t as) :
    h'.Owns t as :=
  ⟨hs.1, fun a => (hs.2 a).trans (ho a).symm⟩

theorem Owns.mem_right {lost freed : List Address} (ho : h.Owns t (lost ++ freed)) (a : Address) :
    a ∈ freed ↔ h.owner? a = some t ∧ a ∉ lost := by
  have hdisjoint := (List.nodup_append.1 ho.1).2.2
  rw [← ho.2, List.mem_append]
  exact ⟨fun h => ⟨.inr h, fun hl => hdisjoint a hl a h rfl⟩, fun h => h.1.resolve_left h.2⟩

def Idle (c : Cell κ) : Prop := ∀ t body blocked, c ≠ .thunk (.underEvaluation t body blocked)

theorem idle_unevaluated {body : Suspension κ} : Idle (.thunk (.unevaluated body)) := by
  intro t body' blocked h
  cases h

theorem idle_evaluated {v : Address} : Idle (.thunk (.evaluated v) : Cell κ) := by
  intro t body blocked h
  cases h

theorem owner?_write_of_idle {state : ThunkState κ} {c : Cell κ} (ha : h.cell a = .thunk state)
    (hc : Idle c) (b : Address) :
    (h.write a c).owner? b = if a = b then none else h.owner? b := by
  by_cases hab : a = b
  · subst hab
    rw [if_pos rfl, owner?, cell_write_thunk ha]
    split
    · next heq => exact absurd rfl (hc _ _ _)
    · rfl
  · rw [if_neg hab, owner?, owner?, cell_write_of_ne hab]

theorem owner?_write_evaluating {state : ThunkState κ} {body : Suspension κ}
    {blocked : List (Thread κ)} (ha : h.cell a = .thunk state) (b : Address) :
    (h.write a (.thunk (.underEvaluation t body blocked))).owner? b =
      if a = b then some t else h.owner? b := by
  by_cases hab : a = b
  · subst hab
    rw [if_pos rfl, owner?, cell_write_thunk ha]
  · rw [if_neg hab, owner?, owner?, cell_write_of_ne hab]

theorem owner?_acquire {body : Suspension κ} (ha : h.cell a = .thunk (.unevaluated body))
    (b : Address) :
    (h.write a (.thunk (.underEvaluation t body []))).owner? b =
      if a = b then some t else h.owner? b :=
  owner?_write_evaluating ha b

theorem parkedAt_of_idle {c : Cell κ} (hc : Idle c) : parkedAt c = [] := by
  unfold parkedAt
  split
  · exact absurd rfl (hc _ _ _)
  · rfl

theorem parked_eq_nil (hidle : ∀ a, h.owner? a = none) : h.parked = [] := by
  refine List.flatMap_eq_nil_iff.2 fun c hc => ?_
  obtain ⟨a, rfl⟩ := exists_cell_eq hc
  refine parkedAt_of_idle fun t body blocked he => ?_
  have ho := owner?_eq_some_iff.2 ⟨body, blocked, he⟩
  rw [hidle] at ho
  cases ho

theorem parked_write (ha : a.index < h.size) :
    ∃ pre post, h.parked = pre ++ (parkedAt (h.cell a) ++ post) ∧
      ∀ c, (h.write a c).parked = pre ++ (parkedAt c ++ post) := by
  have hlen : a.index < h.cells.toList.length := by simpa [size] using ha
  have hcell : h.cells.toList[a.index] = h.cell a := by
    rw [cell, Array.getD_eq_getD_getElem?, Array.getElem?_eq_getElem ha]
    rfl
  refine ⟨(h.cells.toList.take a.index).flatMap parkedAt,
    (h.cells.toList.drop (a.index + 1)).flatMap parkedAt, ?_, fun c => ?_⟩
  · have hsplit : h.cells.toList =
        h.cells.toList.take a.index ++ h.cell a :: h.cells.toList.drop (a.index + 1) := by
      rw [← hcell, ← List.drop_eq_getElem_cons hlen, List.take_append_drop]
    rw [parked, ← List.flatMap_cons, ← List.flatMap_append, ← hsplit]
  · have hset : (h.write a c).cells.toList =
        h.cells.toList.take a.index ++ c :: h.cells.toList.drop (a.index + 1) := by
      rw [write, Array.toList_setIfInBounds, List.set_eq_take_append_cons_drop, if_pos hlen]
    rw [parked, ← List.flatMap_cons, ← List.flatMap_append, ← hset]

theorem mem_parked_iff {u : Thread κ} : u ∈ h.parked ↔ ∃ a, u ∈ parkedAt (h.cell a) := by
  constructor
  · intro hu
    obtain ⟨c, hc, hu⟩ := List.mem_flatMap.1 hu
    obtain ⟨a, rfl⟩ := exists_cell_eq hc
    exact ⟨a, hu⟩
  · rintro ⟨a, hu⟩
    have ha : a.index < h.size := lt_size_of_cell_ne_default fun hd => by
      rw [hd] at hu
      cases hu
    obtain ⟨pre, post, hp, -⟩ := parked_write ha
    rw [hp]
    exact List.mem_append_right _ (List.mem_append_left _ hu)

theorem flat_write {state state' : ThunkState κ} (hf : h.Flat) (ha : h.cell a = .thunk state) :
    (h.write a (.thunk state')).Flat := by
  have hne : ∀ b, b ≠ a → (h.write a (.thunk state')).cell b = h.cell b :=
    fun b hb => cell_write_of_ne (Ne.symm hb)
  have hself : (h.write a (.thunk state')).cell a = .thunk state' := cell_write_thunk ha
  intro b f args hb
  have hba : b ≠ a := by
    rintro rfl
    rw [hself] at hb
    cases hb
  rw [hne b hba] at hb
  obtain ⟨info, captured, hi, hl⟩ := hf b f args hb
  have hfa : f ≠ a := by
    rintro rfl
    rw [function?_eq_some_iff, ha] at hi
    cases hi
  refine ⟨info, captured, ?_, hl⟩
  rw [function?_eq_some_iff] at hi ⊢
  rw [hne f hfa, hi]

section Discharge

variable {body : Suspension κ} {blocked : List (Thread κ)} {state : ThunkState κ}

theorem owner?_discharge {u : ThreadId} (hc : h.cell a = .thunk (.underEvaluation t body blocked))
    (hi : Idle (.thunk state)) (hu : u ≠ t) (b : Address) :
    (h.write a (.thunk state)).owner? b = some u ↔ h.owner? b = some u := by
  have ht : h.owner? a = some t := owner?_eq_some_iff.2 ⟨body, blocked, hc⟩
  rw [owner?_write_of_idle hc hi]
  split
  · next hab =>
    subst hab
    rw [ht]
    simp [Ne.symm hu]
  · rfl

theorem parkedAt_discharge (hc : h.cell a = .thunk (.underEvaluation t body blocked))
    (hi : Idle (.thunk state)) (b : Address) :
    parkedAt ((h.write a (.thunk state)).cell b) ⊆ parkedAt (h.cell b) := by
  by_cases hab : a = b
  · subst hab
    rw [cell_write_thunk hc, parkedAt_of_idle hi]
    exact List.nil_subset _
  · rw [cell_write_of_ne hab]
    exact List.Subset.refl _

theorem Owns.discharge {as : List Address} (ho : h.Owns t (a :: as))
    (hc : h.cell a = .thunk (.underEvaluation t body blocked)) (hi : Idle (.thunk state)) :
    (h.write a (.thunk state)).Owns t as := by
  have hown := owner?_write_of_idle hc hi
  obtain ⟨ha, hn⟩ := List.nodup_cons.1 ho.1
  refine ⟨hn, fun b => ?_⟩
  rw [hown]
  by_cases hab : a = b
  · subst hab
    simp [ha]
  · rw [if_neg hab, ← ho.2, List.mem_cons]
    simp [Ne.symm hab]

theorem Owns.cell_head {as : List Address} (ho : h.Owns t (a :: as)) :
    ∃ body blocked, h.cell a = .thunk (.underEvaluation t body blocked) :=
  owner?_eq_some_iff.1 ((ho.2 a).1 List.mem_cons_self)

end Discharge

section Parking

variable {u : Thread κ}

theorem park?_eq_some (hp : h.park? a u = some h') :
    ∃ t body blocked, h.cell a = .thunk (.underEvaluation t body blocked) ∧
      h' = h.write a (.thunk (.underEvaluation t body (u :: blocked))) := by
  unfold park? at hp
  split at hp
  · next t body blocked hc =>
    cases hp
    exact ⟨t, body, blocked, hc, rfl⟩
  · cases hp

theorem owner?_park? (hp : h.park? a u = some h') (b : Address) : h'.owner? b = h.owner? b := by
  obtain ⟨t, body, blocked, hc, rfl⟩ := park?_eq_some hp
  rw [owner?_write_evaluating hc]
  split
  · next hab =>
    subst hab
    rw [owner?, hc]
  · rfl

theorem parked_park? (hp : h.park? a u = some h') : h'.parked.Perm (u :: h.parked) := by
  obtain ⟨t, body, blocked, hc, rfl⟩ := park?_eq_some hp
  obtain ⟨pre, post, hpre, hw⟩ := parked_write (lt_size_of_cell_eq_thunk hc)
  have hnew : parkedAt (.thunk (.underEvaluation t body (u :: blocked)) : Cell κ) =
      parkedAt (h.cell a) ++ [u] := by
    rw [hc]
    exact List.reverse_cons
  rw [hw, hpre, hnew, List.append_assoc (parkedAt _), ← List.append_assoc pre,
    ← List.append_assoc pre]
  exact List.perm_middle

theorem parkedAt_park? (hp : h.park? a u = some h') {b : Address} {v : Thread κ}
    (hv : v ∈ parkedAt (h'.cell b)) : v ∈ parkedAt (h.cell b) ∨ v = u ∧ a = b := by
  obtain ⟨t, body, blocked, hc, rfl⟩ := park?_eq_some hp
  by_cases hab : a = b
  · subst hab
    rw [cell_write_thunk hc] at hv
    simp only [parkedAt, List.mem_reverse, List.mem_cons] at hv
    rcases hv with rfl | hv
    · exact .inr ⟨rfl, rfl⟩
    · left
      rw [hc]
      exact List.mem_reverse.2 hv
  · rw [cell_write_of_ne hab] at hv
    exact .inl hv

end Parking

end Heap

structure Passage (t : ThreadId) (m m' : Machine κ) : Prop where
  others : ∀ a u, u ≠ t → (m'.heap.owner? a = some u ↔ m.heap.owner? a = some u)
  stay : ∀ a, Heap.parkedAt (m'.heap.cell a) ⊆ Heap.parkedAt (m.heap.cell a)
  alike : m.scheduler.Alike m'.scheduler
  lastThread : m'.shared.lastThread = m.shared.lastThread

namespace Passage

variable {t : ThreadId} {m m₁ m₂ : Machine κ}

theorem trans (p₁ : Passage t m m₁) (p₂ : Passage t m₁ m₂) : Passage t m m₂ where
  others a u hu := (p₂.others a u hu).trans (p₁.others a u hu)
  stay a := List.Subset.trans (p₂.stay a) (p₁.stay a)
  alike := p₁.alike.trans p₂.alike
  lastThread := p₂.lastThread.trans p₁.lastThread

theorem of_eq (hh : m₁.heap = m.heap) (hs : m₁.scheduler = m.scheduler)
    (hl : m₁.shared.lastThread = m.shared.lastThread) : Passage t m m₁ := by
  constructor
  case others => exact fun a u _ => by rw [hh]
  case stay => exact fun a => by rw [hh]; exact List.Subset.refl _
  case alike => rw [hs]; exact .refl _
  case lastThread => exact hl

end Passage

theorem Heap.Grown.stay {h h' : Heap κ} (g : h.Grown h') (a : Address) :
    Heap.parkedAt (h'.cell a) ⊆ Heap.parkedAt (h.cell a) := by
  intro u hu
  unfold parkedAt at hu
  split at hu
  · next t body blocked hc =>
    rw [g.cell_evaluating.1 hc]
    exact hu
  · cases hu

theorem Quiet.passage {m m₁ : Machine κ} (q : Quiet m m₁) (t : ThreadId) : Passage t m m₁ where
  others a u _ := by rw [q.grown.owner?]
  stay := q.grown.stay
  alike := q.alike
  lastThread := q.lastThread

def Machine.Owning (m : Machine κ) : Prop :=
  m.heap.Owns m.context.thread (updates m.context.stack.frames)

structure Orderly (m m' : Machine κ) : Prop where
  passage : Passage m.context.thread m m'
  waiting : m'.shared.waiting = m.shared.waiting
  thread : m'.context.thread = m.context.thread
  owning : m'.Owning

theorem Orderly.trans {m m₁ m₂ : Machine κ} (h₁ : Orderly m m₁) (h₂ : Orderly m₁ m₂) :
    Orderly m m₂ where
  passage := h₁.passage.trans (h₁.thread ▸ h₂.passage)
  waiting := h₂.waiting.trans h₁.waiting
  thread := h₂.thread.trans h₁.thread
  owning := h₂.owning

theorem Quiet.owning {m m₁ : Machine κ} (q : Quiet m m₁) (ho : m.Owning) : m₁.Owning := by
  unfold Machine.Owning
  rw [q.thread, q.updates]
  exact Heap.Owns.congr (fun a => by rw [q.grown.owner?]) ho

theorem Quiet.orderly {m m₁ : Machine κ} (q : Quiet m m₁) (ho : m.Owning) : Orderly m m₁ :=
  ⟨q.passage _, q.waiting, q.thread, q.owning ho⟩

section Cells

variable {m m' : Machine κ} {t : ThreadId} {a : Address} {body : Suspension κ}
  {blocked : List (Thread κ)}

theorem Passage.of_acquire (hc : m.heap.cell a = .thunk (.unevaluated body)) :
    Passage t m (m.setHeap (m.heap.write a (.thunk (.underEvaluation t body [])))) := by
  have hown := Heap.owner?_acquire (t := t) hc
  have hnone : m.heap.owner? a = none := by rw [Heap.owner?, hc]
  constructor
  case others =>
    intro b u hu
    change (m.heap.write a _).owner? b = some u ↔ _
    rw [hown]
    split
    · next hab =>
      subst hab
      rw [hnone]
      simp [Ne.symm hu]
    · rfl
  case stay =>
    intro b
    change Heap.parkedAt ((m.heap.write a _).cell b) ⊆ _
    by_cases hab : a = b
    · subst hab
      rw [Heap.cell_write_thunk hc]
      exact List.nil_subset _
    · rw [Heap.cell_write_of_ne hab]
      exact List.Subset.refl _
  case alike => exact .refl _
  case lastThread => rfl

theorem Heap.Owns.acquire {h : Heap κ} {as : List Address} (ho : h.Owns t as)
    (hc : h.cell a = .thunk (.unevaluated body)) :
    (h.write a (.thunk (.underEvaluation t body []))).Owns t (a :: as) := by
  have hown := owner?_acquire (t := t) hc
  have hnone : h.owner? a = none := by rw [owner?, hc]
  have ha : a ∉ as := by
    rw [ho.2, hnone]
    exact nofun
  refine ⟨List.nodup_cons.2 ⟨ha, ho.1⟩, fun b => ?_⟩
  rw [List.mem_cons, hown, ho.2]
  by_cases hab : a = b
  · simp [hab]
  · rw [if_neg hab]
    simp [Ne.symm hab]

theorem Passage.of_discharge {state : ThunkState κ}
    (hc : m.heap.cell a = .thunk (.underEvaluation t body blocked)) (hi : Heap.Idle (.thunk state))
    (hh : m'.heap = m.heap.write a (.thunk state))
    (hs : m'.scheduler = m.scheduler.wake a blocked.reverse)
    (hl : m'.shared.lastThread = m.shared.lastThread) : Passage t m m' := by
  constructor
  case others => exact fun b u hu => hh ▸ Heap.owner?_discharge hc hi hu b
  case stay => exact fun b => hh ▸ Heap.parkedAt_discharge hc hi b
  case alike =>
    rw [hs]
    exact m.scheduler.alike_wake a _
  case lastThread => exact hl

end Cells

namespace Machine

theorem core_resetThunk (m : Machine κ) (a : Address) (remark : Nat → Option Remark) :
    (m.resetThunk a remark).core =
      { m.core with
        heap := (m.heap.reset a).2
        scheduler := m.scheduler.wake a (m.heap.reset a).1 } := by
  unfold resetThunk
  rw [onHeap_eq]
  dsimp only
  cases remark (m.heap.reset a).1.length with
  | none => rw [core_wake]; rfl
  | some r =>
    have hc := (m.setHeap (m.heap.reset a).2).core_report .update fun _ => r
    rw [core_wake]
    dsimp only
    rw [hc, show ((m.setHeap (m.heap.reset a).2).report .update fun _ => r).scheduler =
      m.scheduler from congrArg Core.scheduler hc]
    rfl

end Machine

section Operations

variable {m m' : Machine κ} {a : Address} {body : Suspension κ}

theorem Orderly.of_discharge {state : ThunkState κ} {blocked : List (Thread κ)}
    (ho : m.heap.Owns m.context.thread (a :: updates m.context.stack.frames))
    (hc : m.heap.cell a = .thunk (.underEvaluation m.context.thread body blocked))
    (hcore : m'.core = { m.core with
      heap := m.heap.write a (.thunk state)
      scheduler := m.scheduler.wake a blocked.reverse })
    (hi : Heap.Idle (.thunk state)) : Orderly m m' where
  passage := .of_discharge hc hi (congrArg Core.heap hcore) (congrArg Core.scheduler hcore)
    (congrArg Core.lastThread hcore)
  waiting := congrArg Core.waiting hcore
  thread := congrArg Core.thread hcore
  owning := by
    rw [Machine.Owning, show m'.heap = m.heap.write a (.thunk state) from congrArg Core.heap hcore,
      show m'.context.thread = m.context.thread from congrArg Core.thread hcore,
      show m'.context.stack = m.context.stack from congrArg Core.stack hcore]
    exact ho.discharge hc hi

theorem Orderly.of_stack {s : FrameStack κ} (hcore : m'.core = { m.core with stack := s })
    (ho : m.heap.Owns m.context.thread (updates s.frames)) : Orderly m m' where
  passage := .of_eq (congrArg Core.heap hcore) (congrArg Core.scheduler hcore)
    (congrArg Core.lastThread hcore)
  waiting := congrArg Core.waiting hcore
  thread := congrArg Core.thread hcore
  owning := by
    rw [Machine.Owning, show m'.heap = m.heap from congrArg Core.heap hcore,
      show m'.context.thread = m.context.thread from congrArg Core.thread hcore,
      show m'.context.stack = s from congrArg Core.stack hcore]
    exact ho

theorem orderly_resetThunk (remark : Nat → Option Remark)
    (ho : m.heap.Owns m.context.thread (a :: updates m.context.stack.frames)) :
    Orderly m (m.resetThunk a remark) := by
  obtain ⟨body, blocked, hc⟩ := ho.cell_head
  have hcore := m.core_resetThunk a remark
  have hreset : m.heap.reset a =
      (blocked.reverse, m.heap.write a (.thunk (.unevaluated body))) := by
    simp only [Heap.reset, hc]
  rw [hreset] at hcore
  exact .of_discharge ho hc hcore Heap.idle_unevaluated

theorem orderly_start {program : Program κ} (hp : program.Disciplined)
    (ho : m.heap.Owns m.context.thread (a :: updates m.context.stack.frames)) :
    Orderly m ((start program a body).outcome m).2 := by
  cases hpush : m.push (.update a) with
  | error e =>
    have hs : start program a body m = .error (.error e) (m.resetThunk a fun _ => none) := by
      rw [start, hpush]
    rw [Exec.outcome_of_error hs]
    exact orderly_resetThunk (fun _ => none) ho
  | ok m₁ =>
    obtain ⟨s, hs, hc⟩ := Machine.push_eq_ok hpush
    let m₂ := m₁.count fun c => { c with thunkEntries := c.thunkEntries + 1 }
    have h₂ : Orderly m m₂ := .of_stack hc (by rwa [(FrameStack.frames_of_push hs).1])
    have hq : Quiet m₂ ((run program body.code body.captured).outcome m₂).2 :=
      (hp body.code body.captured).isQuiet m₂
    have hs : start program a body m = run program body.code body.captured m₂ := by
      rw [start, hpush]
    rw [Exec.outcome, hs]
    exact h₂.trans (hq.orderly h₂.owning)

theorem Orderly.of_popped {m₁ : Machine κ} {s : FrameStack κ}
    (hc : m₁.core = { m.core with stack := s }) (h : Orderly m₁ m') : Orderly m m' where
  passage := by
    have hp : Passage m.context.thread m m₁ := .of_eq (congrArg Core.heap hc)
      (congrArg Core.scheduler hc) (congrArg Core.lastThread hc)
    have ht : m₁.context.thread = m.context.thread := congrArg Core.thread hc
    exact hp.trans (ht ▸ h.passage)
  waiting := h.waiting.trans (congrArg Core.waiting hc)
  thread := h.thread.trans (congrArg Core.thread hc)
  owning := h.owning

theorem exists_drop {frame : Frame κ} {rest : List (Frame κ)}
    (h : m.context.stack.frames = frame :: rest) :
    ∃ s, m.drop.core = { m.core with stack := s } ∧ s.frames = rest := by
  obtain ⟨m₁, s, hp, hc, hf, -⟩ := Machine.exists_pop? h
  refine ⟨s, ?_, hf⟩
  rw [Machine.drop, hp, hc]

theorem owns_of_popped {m₁ : Machine κ} {s : FrameStack κ} {rest : List (Frame κ)} (ho : m.Owning)
    (hf : m.context.stack.frames = .update a :: rest) (hc : m₁.core = { m.core with stack := s })
    (hs : s.frames = rest) :
    m₁.heap.Owns m₁.context.thread (a :: updates m₁.context.stack.frames) := by
  rw [Machine.Owning, hf] at ho
  rwa [show m₁.heap = m.heap from congrArg Core.heap hc,
    show m₁.context.thread = m.context.thread from congrArg Core.thread hc,
    show m₁.context.stack = s from congrArg Core.stack hc, hs]

theorem quiet_drop {frame : Frame κ} {rest : List (Frame κ)}
    (h : m.context.stack.frames = frame :: rest) (hn : ∀ a, frame ≠ .update a) :
    Quiet m m.drop ∧ m.drop.context.stack.frames = rest := by
  obtain ⟨s, hc, hf⟩ := exists_drop h
  refine ⟨.of_core hc ?_, ?_⟩
  · rw [hf, h, updates_cons_of_ne _ hn]
  · rw [show m.drop.context.stack = s from congrArg Core.stack hc, hf]

theorem orderly_drop_reset {rest : List (Frame κ)} (remark : Nat → Option Remark) (ho : m.Owning)
    (h : m.context.stack.frames = .update a :: rest) :
    Orderly m (if m.drop.heap.isThunk a then m.drop.resetThunk a remark else m.drop) ∧
      (if m.drop.heap.isThunk a then m.drop.resetThunk a remark else m.drop).context.stack.frames =
        rest := by
  obtain ⟨s, hc, hf⟩ := exists_drop h
  have hown := owns_of_popped ho h hc hf
  obtain ⟨body, blocked, hcell⟩ := hown.cell_head
  have hthunk : m.drop.heap.isThunk a = true := by simp [Heap.isThunk, Heap.thunk?, hcell]
  rw [if_pos hthunk]
  refine ⟨.of_popped hc (orderly_resetThunk remark hown), ?_⟩
  rw [show (m.drop.resetThunk a remark).context.stack = m.drop.context.stack from
    congrArg Core.stack (m.drop.core_resetThunk a remark),
    show m.drop.context.stack = s from congrArg Core.stack hc, hf]

theorem orderly_unwindFrames (exception : Address) (frames : List (Frame κ)) (n : Nat)
    (hf : m.context.stack.frames = frames) (ho : m.Owning) :
    Orderly m (unwindFrames exception frames n m).2 := by
  induction frames generalizing m n with
  | nil => exact (Quiet.refl m).orderly ho
  | cons frame rest ih =>
    cases frame with
    | handler f =>
      obtain ⟨hq, -⟩ := quiet_drop hf nofun
      let m₁ := (m.drop.count fun c => { c with exceptionsCaught := c.exceptionsCaught + 1 })
      have hq₁ : Quiet m.drop (m₁.setException none) := .of_core rfl rfl
      have hq₂ := Quiet.report (m₁.setException none) .trampoline fun m =>
        ⟨.debug, "exception caught",
          [("exception", (m.heap.text? exception).getD "<endless>"), ("discarded", toString n)]⟩
      exact ((hq.trans hq₁).trans hq₂).orderly ho
    | update a =>
      obtain ⟨hd, hr⟩ := orderly_drop_reset resetRemark ho hf
      exact hd.trans (ih (n + 1) hr hd.owning)
    | apply v =>
      obtain ⟨hq, hr⟩ := quiet_drop hf nofun
      exact (hq.orderly ho).trans (ih (n + 1) hr (hq.owning ho))
    | case code captured =>
      obtain ⟨hq, hr⟩ := quiet_drop hf nofun
      exact (hq.orderly ho).trans (ih (n + 1) hr (hq.owning ho))

theorem orderly_unwind (exception : Address) (ho : m.Owning) :
    Orderly m (unwind exception m).2 := by
  have hq : Quiet m (m.setException (some exception)) := .of_core rfl rfl
  exact (hq.orderly ho).trans
    (orderly_unwindFrames exception _ 0 rfl (hq.owning ho))

theorem orderly_abandonFrames (frames : List (Frame κ)) (hf : m.context.stack.frames = frames)
    (ho : m.Owning) :
    Orderly m (abandonFrames frames m).2 ∧
      (abandonFrames frames m).2.context.stack.frames = [] := by
  induction frames generalizing m with
  | nil => exact ⟨(Quiet.refl m).orderly ho, hf⟩
  | cons frame rest ih =>
    cases frame with
    | update a =>
      obtain ⟨hd, hr⟩ := orderly_drop_reset (fun _ => none) ho hf
      exact ⟨hd.trans (ih hr hd.owning).1, (ih hr hd.owning).2⟩
    | _ =>
      obtain ⟨hq, hr⟩ := quiet_drop hf nofun
      exact ⟨(hq.orderly ho).trans (ih hr (hq.owning ho)).1, (ih hr (hq.owning ho)).2⟩

theorem updateThunk_cases {p : Address} (hr : m.context.registers.result? = some p)
    (hroom : m.context.stack.frames.length < m.context.stack.limit)
    (ho : m.heap.Owns m.context.thread (a :: updates m.context.stack.frames)) :
    ∃ step m', updateThunk a m = .ok step m' ∧ Orderly m m' ∧
      (step = .resume ∧ m'.context.registers.result? ≠ none ∨ ∃ b, step = .enter b) := by
  obtain ⟨body, blocked, hc⟩ := ho.cell_head
  rcases updateThunk_spec a m with ⟨e, m', -, -, ⟨hn, -⟩ | ⟨hn, -⟩ | ⟨-, hn, -⟩⟩ |
    ⟨q, s, m', -, -, -, hs, hx, hcore⟩ | ⟨q, w, m', -, -, hw, -⟩ |
    ⟨q, m', -, -, -, -, hx, hcore⟩
  · rw [hr] at hn
    cases hn
  · exact absurd (by simp [Heap.isThunk, Heap.thunk?, hc]) hn
  · exact absurd hn (Nat.ne_of_lt hroom)
  -- The frame goes back on the stack, and the thunk stays with the thread.
  · exact ⟨_, m', hx, .of_stack hcore (by rwa [(FrameStack.frames_of_push hs).1]), .inr ⟨_, rfl⟩⟩
  · rw [Heap.target?_eq_some_iff, hc] at hw
    cases hw
  · have hsettle : m.heap.settle a (m.heap.resolve q) =
        (blocked.reverse, m.heap.write a (.thunk (.evaluated (m.heap.resolve q)))) := by
      simp only [Heap.settle, hc]
    rw [hsettle] at hcore
    refine ⟨_, m', hx, .of_discharge ho hc hcore Heap.idle_evaluated, .inl ⟨rfl, ?_⟩⟩
    rw [show m'.context.registers = m.context.registers from congrArg Core.registers hcore, hr]
    exact Option.some_ne_none p

theorem room_of_popped {m₁ : Machine κ} {frame : Frame κ} {s : FrameStack κ}
    (hf : m.context.stack.frames = frame :: s.frames) (hl : s.limit = m.context.stack.limit)
    (hc : m₁.core = { m.core with stack := s }) :
    m₁.context.stack.frames.length < m₁.context.stack.limit := by
  have hd := m.context.stack.depth_le_limit
  rw [m.context.stack.depth_eq, hf, List.length_cons] at hd
  rw [show m₁.context.stack = s from congrArg Core.stack hc, hl]
  omega

end Operations

section Abandoning

structure Shared.Reset (t : ThreadId) (s s' : Shared κ) : Prop where
  others : ∀ a u, u ≠ t → (s'.heap.owner? a = some u ↔ s.heap.owner? a = some u)
  owns : s'.heap.Owns t []
  stay : ∀ a, Heap.parkedAt (s'.heap.cell a) ⊆ Heap.parkedAt (s.heap.cell a)
  waiting : s'.waiting = s.waiting
  lastThread : s'.lastThread = s.lastThread

theorem Shared.reset_resetFrames {t : ThreadId} (frames : List (Frame κ)) (s : Shared κ)
    (ho : s.heap.Owns t (updates frames)) :
    s.Reset t (s.resetFrames frames).2 := by
  induction frames generalizing s with
  | nil =>
    exact ⟨fun _ _ _ => Iff.rfl, ho, fun _ => List.Subset.refl _, rfl, rfl⟩
  | cons frame rest ih =>
    cases frame with
    | update a =>
      obtain ⟨body, blocked, hc⟩ := Heap.Owns.cell_head ho
      let s₁ : Shared κ := { s with heap := s.heap.write a (.thunk (.unevaluated body)) }
      have hr : (s.resetFrames (.update a :: rest)).2 = (s₁.resetFrames rest).2 := by
        have hreset : s.heap.reset a = (blocked.reverse, s₁.heap) := by
          simp only [Heap.reset, hc, s₁]
        simp only [resetFrames, hreset]
        rfl
      have hi : Heap.Idle (.thunk (.unevaluated body) : Cell κ) := Heap.idle_unevaluated
      have h₁ := ih s₁ (ho.discharge hc hi)
      rw [hr]
      constructor
      case others => exact fun b u hu =>
        (h₁.others b u hu).trans (Heap.owner?_discharge hc hi hu b)
      case owns => exact h₁.owns
      case stay => exact fun b =>
        List.Subset.trans (h₁.stay b) (Heap.parkedAt_discharge hc hi b)
      case waiting => exact h₁.waiting
      case lastThread => exact h₁.lastThread
    | _ => exact ih s ho

theorem Shared.reset_abandon (t : Thread κ) (s : Shared κ)
    (ho : s.heap.Owns t.id (updates t.stack.frames)) :
    ({ s with waiting := s.waiting.erase t.id }).Reset t.id (s.abandon t).2 :=
  Shared.reset_resetFrames t.stack.frames { s with waiting := s.waiting.erase t.id } ho

end Abandoning

end GraphReduction
