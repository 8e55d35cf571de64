import GraphReduction.Proofs.Calling
import GraphReduction.Proofs.Dispatch
import GraphReduction.Proofs.Undoing

/-!
What an exception does to the stack and to the thunks it passes. Main statement: the nearest handler
is applied to it on the stack that lay beneath, or it halts the thread, and on the way down each
thunk whose update frame is dropped is as it was before it was entered.
-/
namespace GraphReduction

open Evaluation GraphReduction.Frame

variable {κ α β : Type}

def Cell.restored : Cell κ → Cell κ
  | .thunk (.underEvaluation _ body _) => .thunk (.unevaluated body)
  | c => c

theorem Cell.restored_restored (c : Cell κ) : c.restored.restored = c.restored := by
  rcases c with _ | (_ | _ | _) | _ | _ <;> rfl

namespace Heap

variable {h h' : Heap κ} {a b : Address}

theorem reset_fst (h : Heap κ) (a : Address) : (h.reset a).1 = parkedAt (h.cell a) := by
  unfold reset parkedAt
  split <;> simp_all

theorem cell_reset (h : Heap κ) (a b : Address) :
    (h.reset a).2.cell b = if b = a then (h.cell b).restored else h.cell b := by
  by_cases hab : b = a
  · subst hab
    rw [if_pos rfl]
    unfold reset
    split
    · next hc =>
      rw [cell_write_thunk hc, hc]
      rfl
    · next hn =>
      cases hc : h.cell b with
      | thunk state =>
        cases state with
        | underEvaluation t body blocked => exact absurd hc (hn t body blocked)
        | _ => rfl
      | _ => rfl
  · rw [if_neg hab]
    unfold reset
    split
    · exact cell_write_of_ne (Ne.symm hab)
    · rfl

theorem isThunk_restored (hc : h'.cell a = (h.cell a).restored) : h'.isThunk a = h.isThunk a := by
  unfold isThunk thunk?
  rw [hc]
  rcases h.cell a with _ | (_ | _ | _) | _ | _ <;> rfl

theorem restored_of_not_isThunk (ha : ¬ h.isThunk a = true) : (h.cell a).restored = h.cell a := by
  unfold isThunk thunk? at ha
  rcases hc : h.cell a with _ | state | _ | _
  case thunk => simp [hc] at ha
  all_goals rfl

section Texts

def Restored (h h' : Heap κ) : Prop := ∀ a, h'.cell a = h.cell a ∨ h'.cell a = (h.cell a).restored

theorem Restored.function? (hr : h.Restored h') (f : Address) : h'.function? f = h.function? f := by
  unfold Heap.function?
  rcases hr f with hc | hc <;> rw [hc]
  rcases h.cell f with _ | (_ | _ | _) | _ | _ <;> rfl

theorem Restored.textTo (hr : h.Restored h') (n : Nat) (a : Address) :
    h'.textTo n a = h.textTo n a := by
  induction n generalizing a with
  | zero => rfl
  | succ n ih =>
    unfold Heap.textTo
    simp only [Heap.arity, hr.function?, ih]
    rcases hr a with hc | hc <;> rw [hc]
    rcases h.cell a with _ | (_ | _ | _) | _ | _ <;> rfl

theorem Restored.text? (hr : h.Restored h') (hs : h'.size = h.size) (a : Address) :
    h'.text? a = h.text? a := by
  rw [Heap.text?, hs, hr.textTo]
  rfl

end Texts

end Heap

namespace Raising

open Halting

section Passing

variable {as bs : List Address} {ws vs : List (Wake κ)} {m m₁ m₂ : Machine κ}

structure Unwound (as : List Address) (wakes : List (Wake κ)) (m m' : Machine κ) : Prop where
  size : m'.heap.size = m.heap.size
  cells : ∀ a, m'.heap.cell a = if a ∈ as then (m.heap.cell a).restored else m.heap.cell a
  woken : wakes.map Wake.thunk = as.filter m.heap.isThunk
  released : ∀ i w, wakes[i]? = some w → w.released =
    if w.thunk ∈ (wakes.take i).map Wake.thunk then [] else Heap.parkedAt (m.heap.cell w.thunk)
  scheduler : m'.scheduler = wakes.foldl (fun s w => s.wake w.thunk w.released) m.scheduler
  core : m'.core = { m.core with
    heap := m'.heap
    scheduler := m'.scheduler
    stack := m'.context.stack
    exception := m'.context.exception }
  limit : m'.context.stack.limit = m.context.stack.limit

namespace Unwound

theorem refl (m : Machine κ) : Unwound [] [] m m :=
  ⟨rfl, fun _ => rfl, rfl, nofun, rfl, rfl, rfl⟩

theorem restored (u : Unwound as ws m m₁) : m.heap.Restored m₁.heap := by
  intro a
  rw [u.cells]
  split
  · exact .inr rfl
  · exact .inl rfl

theorem isThunk (u : Unwound as ws m m₁) (a : Address) : m₁.heap.isThunk a = m.heap.isThunk a := by
  rcases u.restored a with hc | hc
  · rw [Heap.isThunk, Heap.thunk?, hc]
    rfl
  · exact Heap.isThunk_restored hc

theorem mem_woken (u : Unwound as ws m m₁) {a : Address} :
    a ∈ ws.map Wake.thunk ↔ a ∈ as ∧ m.heap.isThunk a = true := by
  rw [u.woken, List.mem_filter]

theorem trans (u : Unwound as ws m m₁) (v : Unwound bs vs m₁ m₂) :
    Unwound (as ++ bs) (ws ++ vs) m m₂ where
  size := v.size.trans u.size
  cells a := by
    rw [v.cells, u.cells]
    by_cases ha : a ∈ as <;> by_cases hb : a ∈ bs <;> simp [ha, hb, Cell.restored_restored]
  woken := by
    rw [List.map_append, List.filter_append, u.woken, v.woken]
    exact congrArg _ (List.filter_congr fun a _ => u.isThunk a)
  released i w hw := by
    rcases Nat.lt_or_ge i ws.length with hi | hi
    · rw [List.getElem?_append_left hi] at hw
      rw [List.take_append_of_le_length (Nat.le_of_lt hi)]
      exact u.released i w hw
    · rw [List.getElem?_append_right hi] at hw
      have hthunk : m.heap.isThunk w.thunk = true := by
        rw [← u.isThunk]
        exact (v.mem_woken.1 (List.mem_map_of_mem (List.mem_of_getElem? hw))).2
      rw [List.take_append, List.take_of_length_le hi, List.map_append, v.released _ w hw, u.cells]
      by_cases ha : w.thunk ∈ as
      · have hidle : Heap.parkedAt (m.heap.cell w.thunk).restored = [] := by
          rcases m.heap.cell w.thunk with _ | (_ | _ | _) | _ | _ <;> rfl
        rw [if_pos ha, hidle, ite_self,
          if_pos (List.mem_append_left _ (u.mem_woken.2 ⟨ha, hthunk⟩))]
      · have hn : w.thunk ∉ ws.map Wake.thunk := fun hm => ha (u.mem_woken.1 hm).1
        simp only [List.mem_append, hn, ha, false_or, if_false]
  scheduler := by rw [v.scheduler, u.scheduler, List.foldl_append]
  core := by rw [v.core, u.core]
  limit := v.limit.trans u.limit

end Unwound

theorem unwound_setStack {s : FrameStack κ} (hl : s.limit = m.context.stack.limit) :
    Unwound [] [] m (m.setStack s) :=
  ⟨rfl, fun _ => rfl, rfl, nofun, rfl, rfl, hl⟩

theorem context_wake (m : Machine κ) (a : Address) (released : List (Thread κ)) :
    (m.wake a released).context = m.context := by
  unfold Machine.wake
  cases m.scheduler.wakeRemark? released with
  | none => rfl
  | some r => exact m.context_report _ _

theorem context_resetThunk (m : Machine κ) (a : Address) (remark : Nat → Option Remark) :
    (m.resetThunk a remark).context = m.context := by
  unfold Machine.resetThunk
  rw [onHeap_eq]
  dsimp only
  cases remark (m.heap.reset a).1.length with
  | none => rw [context_wake]; rfl
  | some r =>
    rw [context_wake]
    dsimp only
    rw [Machine.context_report]
    rfl

theorem unwound_resetThunk {a : Address} (remark : Nat → Option Remark)
    (ht : m.heap.isThunk a = true) :
    Unwound [a] [⟨a, Heap.parkedAt (m.heap.cell a)⟩] m (m.resetThunk a remark) := by
  have hcore := m.core_resetThunk a remark
  have hcontext := context_resetThunk m a remark
  have hheap : (m.resetThunk a remark).heap = (m.heap.reset a).2 := congrArg Core.heap hcore
  have hscheduler : (m.resetThunk a remark).scheduler = m.scheduler.wake a (m.heap.reset a).1 :=
    congrArg Core.scheduler hcore
  constructor
  case size => rw [hheap, Heap.size_reset]
  case cells =>
    intro b
    rw [hheap, Heap.cell_reset]
    simp only [List.mem_singleton]
  case woken => simp [ht]
  case released =>
    intro i w hw
    cases i with
    | zero =>
      cases hw
      rfl
    | succ i => cases hw
  case scheduler =>
    rw [hscheduler, Heap.reset_fst]
    rfl
  case core =>
    rw [hheap, hscheduler, hcore, hcontext]
    rfl
  case limit => rw [hcontext]

theorem Unwound.of_not_isThunk {a : Address} (u : Unwound [] [] m m₁)
    (ht : ¬ m.heap.isThunk a = true) : Unwound [a] [] m m₁ where
  size := u.size
  cells b := by
    rw [u.cells, if_neg List.not_mem_nil]
    split
    · next hb => rw [List.mem_singleton.1 hb, Heap.restored_of_not_isThunk ht]
    · rfl
  woken := by simp [ht]
  released := nofun
  scheduler := u.scheduler
  core := u.core
  limit := u.limit

theorem exists_drop_eq {frame : Frame κ} {rest : List (Frame κ)}
    (hf : m.context.stack.frames = frame :: rest) :
    ∃ s, m.drop = m.setStack s ∧ s.frames = rest ∧ s.limit = m.context.stack.limit := by
  obtain ⟨s, hs, hr, hl⟩ := FrameStack.exists_pop? hf
  refine ⟨s, ?_, hr, hl⟩
  rw [Machine.drop, Machine.pop?, hs]

theorem unwound_discard {frame : Frame κ} {rest : List (Frame κ)} (remark : Nat → Option Remark)
    (hf : m.context.stack.frames = frame :: rest) :
    ∃ ws s, Unwound (updates [frame]) ws m (Halting.discard remark frame m) ∧
      (Halting.discard remark frame m).context = { m.context with stack := s } ∧
      s.frames = rest := by
  obtain ⟨s, hd, hs, hl⟩ := exists_drop_eq hf
  have hdropped : Unwound [] [] m (m.setStack s) := unwound_setStack hl
  cases frame with
  | update a =>
    rw [Halting.discard, hd]
    by_cases ht : m.heap.isThunk a = true
    · have hthunk : (m.setStack s).heap.isThunk a = true := ht
      rw [if_pos hthunk]
      exact ⟨_, s, hdropped.trans (unwound_resetThunk remark ht), context_resetThunk _ a remark, hs⟩
    · have hthunk : ¬ (m.setStack s).heap.isThunk a = true := ht
      rw [if_neg hthunk]
      exact ⟨[], s, hdropped.of_not_isThunk ht, rfl, hs⟩
  | _ =>
    rw [show Halting.discard remark _ m = m.drop from rfl, hd]
    exact ⟨[], s, hdropped, rfl, hs⟩

theorem unwindFrames_append (exception : Address) (above below : List (Frame κ)) (n : Nat)
    (hf : m.context.stack.frames = above ++ below) (hn : ∀ f, .handler f ∉ above) :
    ∃ ws s m₁, unwindFrames exception (above ++ below) n m =
        unwindFrames exception below (n + above.length) m₁ ∧
      Unwound (updates above) ws m m₁ ∧ m₁.context = { m.context with stack := s } ∧
      s.frames = below := by
  induction above generalizing m n with
  | nil => exact ⟨[], m.context.stack, m, rfl, .refl m, rfl, hf⟩
  | cons frame above ih =>
    obtain ⟨ws, s, hu, hc, hs⟩ := unwound_discard resetRemark hf
    obtain ⟨vs, s', m₁, he, hv, hc', hs'⟩ := ih (n + 1) (by rw [hc]; exact hs)
      fun f hm => hn f (List.mem_cons_of_mem _ hm)
    refine ⟨ws ++ vs, s', m₁, ?_, ?_, by rw [hc', hc], hs'⟩
    · rw [List.length_cons, Nat.add_comm above.length 1, ← Nat.add_assoc, ← he]
      cases frame with
      | handler f => exact absurd List.mem_cons_self (hn f)
      | _ => rfl
    · have happ : updates (frame :: above) = updates [frame] ++ updates above := by
        cases frame <;> rfl
      rw [happ]
      exact hu.trans hv

end Passing

section Raising

variable {x : Exec κ Step} {m n n' : Machine κ} {cause : Option RuntimeError} {a : Address}

inductive Raises (x : Exec κ Step) (m : Machine κ) :
    Option RuntimeError → Address → Machine κ → Prop where
  | thrown {a : Address} {n : Machine κ} : x m = .ok (.throw a) n → Raises x m none a n
  | failed {e : RuntimeError} {n : Machine κ} : e.isCatchable = true → x m = .error (.error e) n →
    Raises x m (some e) (raised e n).1 (raised e n).2

/-- An exception that no handler takes halts the thread with its error, or else with its text. A value
without a text does not halt it: the thread goes on for ever with a text that does not end. -/
def unhandled (cause : Option RuntimeError) (a : Address) (h : Heap κ) : Control :=
  match cause with
  | some e => .halted e
  | none => match h.text? a with
    | some text => .halted (.uncaught text)
    | none => .endless

theorem Raises.follow_eq (hx : Raises x m cause a n) :
    follow x m =
      (.next (match (unwind a n).1 with
        | some step => controlOf step
        | none => unhandled cause a (unwind a n).2.heap), (unwind a n).2) := by
  cases hx with
  | thrown h =>
    rw [Evaluation.follow_eq, Exec.outcome_of_ok h]
    change (Turn.next (throwValue a n).1, (throwValue a n).2) = _
    rw [throwValue_eq]
    rfl
  | failed hc h =>
    rw [Evaluation.follow_eq, Exec.outcome_of_error h]
    change (Turn.next (raiseError _ _).1, (raiseError _ _).2) = _
    rw [raiseError_eq hc]
    rfl

structure Caught (a : Address) (handler : Address) (below : List (Frame κ)) (as : List Address)
    (m : Machine κ) (r : Turn κ × Machine κ) : Prop where
  turn : r.1 = .next (.applying handler [.boxed a])
  unwound : ∃ wakes, Unwound as wakes m r.2
  frames : r.2.context.stack.frames = below
  exception : r.2.context.exception = none
  counters : r.2.context.counters =
    { m.context.counters with exceptionsCaught := m.context.counters.exceptionsCaught + 1 }

structure Uncaught (cause : Option RuntimeError) (a : Address) (as : List Address) (m : Machine κ)
    (r : Turn κ × Machine κ) : Prop where
  turn : r.1 = .next (unhandled cause a m.heap)
  unwound : ∃ wakes, Unwound as wakes m r.2
  frames : r.2.context.stack.frames = []
  counters : r.2.context.counters = m.context.counters

theorem unwound_setException (e : Option Address) : Unwound [] [] m (m.setException e) :=
  ⟨rfl, fun _ => rfl, rfl, nofun, rfl, rfl, rfl⟩

theorem unwindFrames_handler {handler : Address} {below : List (Frame κ)} (a : Address) (k : Nat)
    (hf : m.context.stack.frames = .handler handler :: below) :
    ∃ m', unwindFrames a (.handler handler :: below) k m =
        (some (.apply handler [.boxed a]), m') ∧ Unwound [] [] m m' ∧
      m'.context.stack.frames = below ∧ m'.context.exception = none ∧ m'.context.counters =
        { m.context.counters with exceptionsCaught := m.context.counters.exceptionsCaught + 1 } := by
  obtain ⟨s, hd, hs, hl⟩ := exists_drop_eq hf
  let m₁ := ((m.drop.count fun c =>
    { c with exceptionsCaught := c.exceptionsCaught + 1 }).setException none)
  let m' := m₁.report .trampoline fun m => ⟨.debug, "exception caught",
    [("exception", (m.heap.text? a).getD "<endless>"), ("discarded", toString k)]⟩
  have hcore : m'.core = { m.core with stack := s, exception := none } := by
    rw [Machine.core_report, show m₁ = ((m.setStack s).count _).setException none by rw [← hd]]
    rfl
  have hcontext : m'.context = { m.context with
      stack := s
      exception := none
      counters := { m.context.counters with
        exceptionsCaught := m.context.counters.exceptionsCaught + 1 } } := by
    rw [Machine.context_report, show m₁ = ((m.setStack s).count _).setException none by rw [← hd]]
    rfl
  have hheap : m'.heap = m.heap := congrArg Core.heap hcore
  have hscheduler : m'.scheduler = m.scheduler := congrArg Core.scheduler hcore
  refine ⟨m', rfl, ⟨?_, ?_, rfl, nofun, hscheduler, ?_, ?_⟩, ?_, ?_, ?_⟩
  · rw [hheap]
  · intro b
    rw [hheap]
    rfl
  · rw [hcore, hheap, hscheduler, hcontext]
    rfl
  all_goals rw [hcontext]
  · exact hl
  · exact hs

theorem caught_of_raises (hx : Raises x m cause a n) {above below : List (Frame κ)}
    {handler : Address} (hf : n.context.stack.frames = above ++ .handler handler :: below)
    (hn : ∀ f, .handler f ∉ above) :
    Caught a handler below (updates above) n (follow x m) := by
  let n₁ := n.setException (some a)
  obtain ⟨ws, s, m₁, he, hu, hc, hs⟩ :=
    unwindFrames_append (m := n₁) a above (.handler handler :: below) 0 hf hn
  obtain ⟨m', he', hu', hb, hexc, hcounters⟩ :=
    unwindFrames_handler (m := m₁) a (0 + above.length) (by rw [hc]; exact hs)
  have hunwind : unwind a n = (some (.apply handler [.boxed a]), m') := by
    change unwindFrames a n.context.stack.frames 0 n₁ = _
    rw [hf, he, he']
  rw [hx.follow_eq, hunwind]
  have htotal := (unwound_setException (m := n) (some a)).trans (hu.trans hu')
  rw [List.append_nil] at htotal
  refine ⟨rfl, ⟨_, htotal⟩, hb, hexc, ?_⟩
  rw [hcounters, hc]
  rfl

theorem uncaught_of_raises (hx : Raises x m cause a n)
    (hn : ∀ f, .handler f ∉ n.context.stack.frames) :
    Uncaught cause a (updates n.context.stack.frames) n (follow x m) := by
  let n₁ := n.setException (some a)
  obtain ⟨ws, s, m₁, he, hu, hc, hs⟩ :=
    unwindFrames_append (m := n₁) a n.context.stack.frames [] 0 (List.append_nil _).symm hn
  have hunwind : unwind a n = (none, m₁) := by
    change unwindFrames a n.context.stack.frames 0 n₁ = _
    rw [List.append_nil] at he
    rw [he]
    rfl
  have htotal := (unwound_setException (m := n) (some a)).trans hu
  rw [hx.follow_eq, hunwind]
  refine ⟨?_, ⟨_, htotal⟩, by rw [hc]; exact hs, by rw [hc]; rfl⟩
  cases cause with
  | some e => rfl
  | none =>
    dsimp only [unhandled]
    rw [htotal.restored.text? htotal.size]

end Raising

section Shifting

variable {x : Exec κ α} {f : α → Exec κ β} {m m₁ m₂ : Machine κ}

structure Shifted (m m' : Machine κ) : Prop where
  core : m'.core = { m.core with stack := m'.context.stack, registers := m'.context.registers }
  frames : underArguments m'.context.stack.frames = underArguments m.context.stack.frames
  caught : m'.context.counters.exceptionsCaught = m.context.counters.exceptionsCaught

namespace Shifted

theorem refl (m : Machine κ) : Shifted m m := ⟨rfl, rfl, rfl⟩

theorem trans (h₁ : Shifted m m₁) (h₂ : Shifted m₁ m₂) : Shifted m m₂ :=
  ⟨by rw [h₂.core, h₁.core], h₂.frames.trans h₁.frames, h₂.caught.trans h₁.caught⟩

theorem report (m : Machine κ) (target : Target) (remark : Machine κ → Remark) :
    Shifted m (m.report target remark) := by
  have hcore := m.core_report target remark
  have hcontext := m.context_report target remark
  exact ⟨by rw [hcore, hcontext]; rfl, by rw [hcontext], by rw [hcontext]⟩

theorem of_stack {s : FrameStack κ}
    (hs : underArguments s.frames = underArguments m.context.stack.frames) :
    Shifted m (m.setStack s) := ⟨rfl, hs, rfl⟩

theorem exists_above (h : Shifted m m₁) {above below : List (Frame κ)} {handler : Address}
    (hf : m.context.stack.frames = above ++ .handler handler :: below)
    (hn : ∀ f, .handler f ∉ above) :
    ∃ above', m₁.context.stack.frames = above' ++ .handler handler :: below ∧
      (∀ f, .handler f ∉ above') ∧ updates above' = updates above := by
  have hunder : ∀ frames : List (Frame κ), underArguments (frames ++ .handler handler :: below) =
      underArguments frames ++ .handler handler :: below := by
    intro frames
    induction frames with
    | nil => rfl
    | cons frame rest ih => cases frame <;> first | exact ih | rfl
  have hupdates : ∀ frames : List (Frame κ), updates (underArguments frames) = updates frames := by
    intro frames
    induction frames with
    | nil => rfl
    | cons frame rest ih => cases frame <;> first | exact ih | rfl
  have hmap : ∀ (vs : List Value) (frames : List (Frame κ)),
      updates (vs.map .apply ++ frames) = updates frames := by
    intro vs frames
    induction vs with
    | nil => rfl
    | cons v vs ih => exact ih
  have hsub : ∀ (f : Address) (frames : List (Frame κ)),
      .handler f ∈ underArguments frames → .handler f ∈ frames := by
    intro f frames hm
    rw [← map_arguments_append frames]
    exact List.mem_append_right _ hm
  refine ⟨(arguments m₁.context.stack.frames).map .apply ++ underArguments above, ?_, ?_, ?_⟩
  · rw [List.append_assoc, ← hunder, ← hf, ← h.frames, map_arguments_append]
  · intro f hm
    rcases List.mem_append.1 hm with hm | hm
    · obtain ⟨v, -, hv⟩ := List.mem_map.1 hm
      cases hv
    · exact hn f (hsub f above hm)
  · rw [hmap, hupdates]

end Shifted

def Shifts (x : Exec κ α) : Prop := x.Respects Shifted

def FailsShifted (x : Exec κ α) : Prop := ∀ m e n, x m = .error e n → Shifted m n

theorem Shifts.fails (hx : Shifts x) : FailsShifted x := by
  intro m e n h
  have hm := hx m
  rwa [Exec.outcome_of_error h] at hm

theorem Shifts.ok (hx : Shifts x) {a : α} {n : Machine κ} (h : x m = .ok a n) : Shifted m n := by
  have hm := hx m
  rwa [Exec.outcome_of_ok h] at hm

theorem FailsShifted.bind (hx : Shifts x) (hf : ∀ a, FailsShifted (f a)) :
    FailsShifted (x >>= f) := by
  intro m e n h
  cases hm : x m with
  | ok a m₁ =>
    rw [Exec.bind_of_ok hm] at h
    exact (hx.ok hm).trans (hf a m₁ e n h)
  | error e' m₁ =>
    rw [Exec.bind_of_error hm] at h
    cases h
    exact hx.fails m e n hm

theorem Shifts.bind (hx : Shifts x) (hf : ∀ a, Shifts (f a)) : Shifts (x >>= f) := by
  intro m
  cases hm : x m with
  | ok a m₁ =>
    have ho : (x >>= f).outcome m = (f a).outcome m₁ := by
      rw [Exec.outcome, Exec.bind_of_ok hm, Exec.outcome]
    rw [ho]
    exact (hx.ok hm).trans (hf a m₁)
  | error e m₁ =>
    rw [Exec.outcome_of_error (Exec.bind_of_error hm)]
    exact hx.fails m e m₁ hm

theorem shifts_pure (a : α) : Shifts (pure a : Exec κ α) := Shifted.refl

theorem shifts_raise (e : RuntimeError) : Shifts (Exec.raise e : Exec κ α) := Shifted.refl

theorem shifts_ofExcept (r : Except RuntimeError α) : Shifts (Exec.ofExcept r : Exec κ α) := by
  cases r with
  | ok a => exact shifts_pure a
  | error e => exact shifts_raise e

theorem shifts_report (target : Target) (remark : Machine κ → Remark) :
    Shifts (Exec.report target remark) := fun m => .report m target remark

theorem shifts_count (g : Counters → Counters)
    (hg : ∀ c, (g c).exceptionsCaught = c.exceptionsCaught) : Shifts (Exec.count g : Exec κ Unit) :=
  fun m => ⟨rfl, rfl, hg m.context.counters⟩

theorem shifts_giveBack (a : Address) : Shifts (Exec.giveBack a : Exec κ Step) :=
  fun _ => ⟨rfl, rfl, rfl⟩

theorem shifts_pushArgument (v : Value) : Shifts (Exec.push (.apply v) : Exec κ Unit) := by
  intro m
  cases hs : m.context.stack.push (.apply v) with
  | ok s =>
    have hp : Exec.push (.apply v) m = .ok () ((m.setStack s).count fun c =>
        { c with framesPushed := c.framesPushed + 1 }) := by
      rw [Exec.push, Machine.push, hs]
    rw [Exec.outcome_of_ok hp]
    refine ⟨rfl, ?_, rfl⟩
    change underArguments s.frames = _
    rw [(FrameStack.frames_of_push hs).1]
    rfl
  | error e =>
    have hp : Exec.push (.apply v) m = .error (.error e) m := by
      rw [Exec.push, Machine.push, hs]
    rw [Exec.outcome_of_error hp]
    exact .refl m

theorem shifts_pushArguments (vs : List Value) : Shifts (Exec.pushArguments vs : Exec κ Unit) := by
  induction vs with
  | nil => exact shifts_pure ()
  | cons v vs ih => exact ih.bind fun _ => shifts_pushArgument v

theorem shifts_popArguments (n : Nat) : Shifts (popArguments n : Exec κ (List Value)) := by
  induction n with
  | zero => exact shifts_pure []
  | succ n ih =>
    intro m
    cases hs : m.context.stack.popArgument? with
    | none =>
      simp only [Exec.outcome, popArguments, hs]
      exact .refl m
    | some p =>
      obtain ⟨v, s⟩ := p
      have hq : Shifted m (m.setStack s) := by
        refine .of_stack ?_
        unfold FrameStack.popArgument? at hs
        split at hs
        · next hpop =>
          cases hs
          rw [(FrameStack.frames_of_pop? hpop).1]
          rfl
        · cases hs
      simp only [Exec.outcome, popArguments, hs]
      exact hq.trans ((ih.bind fun vs => shifts_pure (v :: vs)) (m.setStack s))

theorem shifts_load (args : List Value) (slots : List Slot) :
    Shifts (load args slots : Exec κ Unit) := by
  induction args generalizing slots with
  | nil => exact shifts_pure ()
  | cons v vs ih =>
    cases slots with
    | nil => exact shifts_pure ()
    | cons s ss =>
      intro m
      let m₁ := m.setRegisters (m.context.registers.put s.offset v)
      have hm₁ : Shifted m m₁ := ⟨rfl, rfl, rfl⟩
      by_cases hk : s.kind = v.kind
      · rw [Exec.outcome, load_cons, if_pos hk]
        exact hm₁.trans (ih ss m₁)
      · rw [Exec.outcome, load_cons, if_neg hk]
        exact .refl m

theorem shifts_dispatchAt (f : Address) (args : List Value) (slots : List Slot) :
    Shifts (dispatchAt f args slots : Exec κ (Dispatch κ)) := by
  intro m
  cases hf : m.heap.function? f with
  | none =>
    simp only [Exec.outcome, dispatchAt, hf]
    exact .refl m
  | some p =>
    simp only [Exec.outcome, dispatchAt, hf]
    exact ((shifts_load args slots).bind fun _ => shifts_pure _) m

theorem shifts_dispatchCall (f : Address) (args : List Value) :
    Shifts (dispatchCall f args : Exec κ (Dispatch κ)) :=
  (shifts_ofExcept _).bind fun slots => shifts_dispatchAt f args slots

theorem shifts_stepped {y : Exec κ Step} (hy : Shifts y) : Shifts (stepped y) :=
  hy.bind fun s => shifts_pure (Dispatch.step s)

theorem shifts_dispatchExact (f : Address) (args : List Value) :
    Shifts (dispatchExact f args : Exec κ (Dispatch κ)) := by
  unfold dispatchExact
  split
  · exact shifts_dispatchAt f args []
  · split
    · exact .bind (shifts_count _ fun _ => rfl) fun _ => shifts_dispatchAt f args _
    · exact .bind (shifts_count _ fun _ => rfl) fun _ => .bind (shifts_report _ _) fun _ =>
        .bind (shifts_pushArguments args) fun _ => shifts_stepped (shifts_giveBack f)

theorem shifts_arityOf (f : Address) (n : Nat) : Shifts (arityOf f n : Exec κ Nat) := by
  intro m
  simp only [Exec.outcome, arityOf]
  cases m.heap.function? f <;> exact .refl m

theorem failsShifted_bindArgs (f : Address) (args : List Value) {g : Address → Exec κ β}
    (hg : ∀ c m, ∃ b n, g c m = .ok b n) : FailsShifted (bindArgs f args >>= g) := by
  intro m e n h
  cases hb : m.heap.bind f args with
  | ok c =>
    have hbind : bindArgs f args m = .ok (m.allocate c).1 (m.allocate c).2 := by
      simp only [bindArgs, hb]
    obtain ⟨b, n', hok⟩ := hg (m.allocate c).1 (m.allocate c).2
    rw [Exec.bind_of_ok hbind, hok] at h
    cases h
  | error e' =>
    have hbind : bindArgs f args m = .error (.error e') m := by
      simp only [bindArgs, hb]
      rfl
    rw [Exec.bind_of_error hbind] at h
    cases h
    exact .refl m

theorem failsShifted_dispatchFunction (f : Address) (args : List Value) :
    FailsShifted (dispatchFunction f args : Exec κ (Dispatch κ)) := by
  refine .bind (shifts_arityOf f args.length) fun arity => ?_
  split
  · exact (shifts_dispatchExact f args).fails
  · split
    · refine .bind (shifts_count _ fun _ => rfl) fun _ => failsShifted_bindArgs f args ?_
      exact fun c m => ⟨_, _, rfl⟩
    · exact .bind (shifts_count _ fun _ => rfl) fun _ => .bind (shifts_report _ _) fun _ =>
        .bind (shifts_pushArguments _) fun _ => (shifts_dispatchExact f _).fails

theorem failsShifted_dispatchApply (c : Address) (args : List Value) :
    FailsShifted (dispatchApply c args : Exec κ (Dispatch κ)) := by
  intro m e n h
  unfold dispatchApply at h
  dsimp only at h
  split at h
  · split at h <;> cases h
  · split at h
    · exact failsShifted_dispatchFunction _ _ m e n h
    · cases h
      exact .refl m

theorem failsShifted_dispatchArgument (v : Value) :
    FailsShifted (dispatchArgument v : Exec κ (Dispatch κ)) := by
  have hread : Shifts (fun m => Exec.ofExcept (m.context.registers.readClosure 1) m :
      Exec κ Address) := fun m => shifts_ofExcept _ m
  have hget : Shifts (get : Exec κ (Machine κ)) := Shifted.refl
  refine .bind hread fun result => .bind hget fun m => ?_
  dsimp only
  cases m.heap.callee? (m.heap.resolve result) with
  | none => exact (shifts_raise _).fails
  | some p =>
    obtain ⟨f, bound⟩ := p
    refine .bind (shifts_arityOf f _) fun arity => ?_
    split
    · exact .bind (shifts_pushArgument v) fun _ => (shifts_dispatchAt f bound []).fails
    · refine .bind (shifts_popArguments _) fun more => ?_
      split
      · exact (shifts_dispatchCall f _).fails
      · refine .bind (shifts_count _ fun _ => rfl) fun _ => failsShifted_bindArgs f _ ?_
        exact fun c m => ⟨_, _, rfl⟩

end Shifting

section Exceptions

inductive Applying (program : Program κ) : Exec κ Step → Exec κ (Dispatch κ) → Prop where
  | callee (c : Address) (args : List Value) :
    Applying program (apply program c args) (dispatchApply c args)
  | frame (v : Value) : Applying program (applyFrame program v) (dispatchArgument v)

variable {program : Program κ} {x : Exec κ Step} {y : Exec κ (Dispatch κ)} {m n : Machine κ}
  {cause : Option RuntimeError} {a : Address} {e : RuntimeError}

theorem Applying.eq_finish (h : Applying program x y) : x = y >>= finish program := by
  cases h with
  | callee c args => exact apply_eq_finish c args
  | frame v => exact applyFrame_eq_finish v

theorem Applying.failsShifted (h : Applying program x y) : FailsShifted y := by
  cases h with
  | callee c args => exact failsShifted_dispatchApply c args
  | frame v => exact failsShifted_dispatchArgument v

theorem stack_raised (e : RuntimeError) (m : Machine κ) :
    (raised e m).2.context.stack = m.context.stack := by
  unfold raised
  exact (congrArg Core.stack (Machine.core_allocate _ _)).trans
    (congrArg Context.stack (m.context_report _ _))

theorem raises_applying (hx : Raises x m cause a n) (hy : Applying program x y) {n₀ : Machine κ}
    (h : y m = .error (.error e) n₀) :
    cause = some e ∧ n = (raised e n₀).2 ∧ Shifted m n₀ := by
  have hxm : x m = .error (.error e) n₀ := by
    rw [hy.eq_finish]
    exact Exec.bind_of_error h
  cases hx with
  | thrown ht =>
    rw [hxm] at ht
    cases ht
  | failed hc hf =>
    rw [hxm] at hf
    cases hf
    exact ⟨rfl, rfl, hy.failsShifted m _ _ h⟩

theorem raising_unwinds (hx : Raises x m cause a n) :
    (∀ above handler below, n.context.stack.frames = above ++ .handler handler :: below →
      (∀ f, .handler f ∉ above) → Caught a handler below (updates above) n (follow x m)) ∧
    ((∀ f, .handler f ∉ n.context.stack.frames) →
      Uncaught cause a (updates n.context.stack.frames) n (follow x m) ∧
      ∀ (program : Program κ) k e, (follow x m).1 = .next (.halted e) →
        n.context.interrupted = false →
        (iterate program k (.halted e) (follow x m).2).1 = .over (.halted e)) ∧
    ∀ (program : Program κ) y e n₀, Applying program x y → y m = .error (.error e) n₀ →
      cause = some e ∧ n = (raised e n₀).2 ∧
      n₀.core = { m.core with stack := n₀.context.stack, registers := n₀.context.registers } ∧
      ∀ above handler below, m.context.stack.frames = above ++ .handler handler :: below →
        (∀ f, .handler f ∉ above) → Caught a handler below (updates above) n (follow x m) := by
  refine ⟨fun above handler below hf hn => caught_of_raises hx hf hn, fun hn => ?_,
    fun program y e n₀ hy h => ?_⟩
  · have hu := uncaught_of_raises hx hn
    refine ⟨hu, fun program k e _ hi => iterate_halted program k e ?_⟩
    obtain ⟨wakes, hw⟩ := hu.unwound
    have hcore := congrArg Core.interrupted hw.core
    exact hcore.trans hi
  · obtain ⟨hcause, hmachine, hs⟩ := raises_applying hx hy h
    refine ⟨hcause, hmachine, hs.core, fun above handler below hf hn => ?_⟩
    obtain ⟨above', hf', hn', hup⟩ := hs.exists_above hf hn
    rw [← hup]
    refine caught_of_raises hx ?_ hn'
    rw [hmachine, stack_raised, hf']

def crowded : Machine Unit where
  shared := {
    heap := ⟨#[.function ⟨"first", 1, ()⟩ [],
      .thunk (.underEvaluation ⟨1⟩ ⟨(), [.bool true]⟩ [⟨⟨2⟩, .empty 8, .enter ⟨1⟩⟩]),
      .data ⟨"X", 0⟩ [], .function ⟨"recover", 1, ()⟩ []]⟩
    waiting := .empty
    lastThread := 2
    journal := .empty
    trace := .empty .silent }
  scheduler := .manual ⟨.always, 0, [], []⟩
  context := { (Context.new 0 7 : Context Unit) with
    thread := ⟨1⟩
    stack := .holding [.update ⟨1⟩, .apply (.int 4), .update ⟨1⟩, .update ⟨2⟩, .handler ⟨3⟩,
      .apply (.char 'z')] 1 }

def overcrowded : Machine Unit :=
  ((dispatchApply ⟨0⟩ [.boxed ⟨2⟩, .int 1, .int 2]).outcome crowded).2

def idle : Program Unit := ⟨fun _ _ => .done .resume⟩

theorem raising_unwinds_crowded :
    Raises (apply idle ⟨0⟩ [.boxed ⟨2⟩, .int 1, .int 2]) crowded (some (.stackOverflow 7)) ⟨4⟩
      (raised (.stackOverflow 7) overcrowded).2 ∧
    overcrowded.context.stack.frames = .apply (.int 2) :: crowded.context.stack.frames ∧
    Caught ⟨4⟩ ⟨3⟩ [.apply (.char 'z')] [⟨1⟩, ⟨1⟩, ⟨2⟩] (raised (.stackOverflow 7) overcrowded).2
      (follow (apply idle ⟨0⟩ [.boxed ⟨2⟩, .int 1, .int 2]) crowded) := by
  have hd : dispatchApply ⟨0⟩ [.boxed ⟨2⟩, .int 1, .int 2] crowded =
      .error (.error (.stackOverflow 7)) overcrowded := rfl
  have hx : Raises (apply idle ⟨0⟩ [.boxed ⟨2⟩, .int 1, .int 2]) crowded
      (some (.stackOverflow 7)) (raised (.stackOverflow 7) overcrowded).1
      (raised (.stackOverflow 7) overcrowded).2 := by
    refine .failed (by decide) ?_
    rw [apply_eq_finish]
    exact Exec.bind_of_error hd
  refine ⟨hx, rfl, ?_⟩
  exact ((raising_unwinds hx).2.2 idle _ _ _ (.callee _ _) hd).2.2.2
    [.update ⟨1⟩, .apply (.int 4), .update ⟨1⟩, .update ⟨2⟩] ⟨3⟩ [.apply (.char 'z')] rfl (by simp)

end Exceptions

end Raising

end GraphReduction
