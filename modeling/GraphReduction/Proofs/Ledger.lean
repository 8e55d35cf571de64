import GraphReduction.Proofs.Effects
import GraphReduction.Proofs.Raising
import GraphReduction.Proofs.Relay
import GraphReduction.Proofs.Tally
import Mathlib.Data.Finset.Card

namespace GraphReduction

open Evaluation GraphReduction.Frame

variable {κ : Type} {program : Program κ}

namespace Heap

variable {h h' : Heap κ} {a b : Address}

def evaluated (h : Heap κ) : Finset Address :=
  ((Finset.range h.size).image Address.mk).filter fun a => (h.target? a).isSome

theorem mem_evaluated : a ∈ h.evaluated ↔ (h.target? a).isSome := by
  simp only [evaluated, Finset.mem_filter, Finset.mem_image, Finset.mem_range, and_iff_right_iff_imp,
    Option.isSome_iff_exists]
  rintro ⟨v, hv⟩
  exact ⟨a.index, lt_size_of_cell_eq_thunk (target?_eq_some_iff.1 hv), rfl⟩

theorem Restored.evaluated (hr : h.Restored h') : h'.evaluated = h.evaluated := by
  ext a
  rw [mem_evaluated, mem_evaluated, target?, target?]
  rcases hr a with hc | hc <;> rw [hc]
  rcases h.cell a with _ | (_ | _ | _) | _ | _ <;> rfl

theorem restored_reset (h : Heap κ) (a : Address) : h.Restored (h.reset a).2 := by
  intro b
  rw [cell_reset]
  split
  · exact .inr rfl
  · exact .inl rfl

theorem Grown.evaluated (g : h.Grown h') : h'.evaluated = h.evaluated := by
  ext a
  simp only [mem_evaluated, Option.isSome_iff_exists, target?_eq_some_iff]
  by_cases ha : a.index < h.size
  · rw [g.old a ha]
  · constructor
    · rintro ⟨v, hv⟩
      obtain ⟨body, hb⟩ := g.new a _ (Nat.le_of_not_lt ha) hv
      cases hb
    · rintro ⟨v, hv⟩
      exact absurd (lt_size_of_cell_eq_thunk hv) ha

theorem mem_evaluated_write {s s' : ThunkState κ} (ha : h.cell a = .thunk s) :
    b ∈ (h.write a (.thunk s')).evaluated ↔
      if a = b then ∃ v, s' = .evaluated v else b ∈ h.evaluated := by
  split
  · next hab =>
    subst hab
    simp [mem_evaluated, Option.isSome_iff_exists, target?_eq_some_iff, cell_write_thunk ha]
  · next hab => rw [mem_evaluated, mem_evaluated, target?, target?, cell_write_of_ne hab]

theorem evaluated_write {s s' : ThunkState κ} (ha : h.cell a = .thunk s)
    (hs : ∀ v, s ≠ .evaluated v) (hs' : ∀ v, s' ≠ .evaluated v) :
    (h.write a (.thunk s')).evaluated = h.evaluated := by
  ext b
  rw [mem_evaluated_write ha]
  split
  · next hab =>
    subst hab
    simp [mem_evaluated, Option.isSome_iff_exists, target?_eq_some_iff, ha, hs, hs']
  · rfl

theorem card_evaluated_settle (ha : h.isThunk a = true) (ht : h.target? a = none) (v : Address) :
    (h.settle a v).2.evaluated.card = h.evaluated.card + 1 := by
  have hwrite : ∀ {s : ThunkState κ}, h.cell a = .thunk s →
      (h.write a (.thunk (.evaluated v))).evaluated.card = h.evaluated.card + 1 := by
    intro s hc
    have hinsert : (h.write a (.thunk (.evaluated v))).evaluated = insert a h.evaluated := by
      ext b
      rw [mem_evaluated_write hc, Finset.mem_insert]
      split
      · next hab => simp [hab]
      · next hab => simp [Ne.symm hab]
    rw [hinsert, Finset.card_insert_of_notMem]
    simp [mem_evaluated, ht]
  unfold settle
  split
  · next hc => exact hwrite hc
  · next hc => exact hwrite hc
  · next hn hn' =>
    rcases hc : h.cell a with _ | (_ | _ | _) | _ | _
    case thunk.unevaluated => exact absurd hc (hn _)
    case thunk.underEvaluation => exact absurd hc (hn' _ _ _)
    case thunk.evaluated => simp [target?, hc] at ht
    all_goals simp [isThunk, thunk?, hc] at ha

end Heap

section Accounts

structure Account where
  tally : UInt64 × UInt64
  evaluated : Nat
  frames : Nat

/-- Each thunk that is entered brings an update frame, which goes when the thunk gets its value; some
update frames go in other ways. -/
def Account.Balances (x : Account) (lost : Nat) (y : Account) : Prop :=
  ∃ entered updated : Nat, y.tally = x.tally + (UInt64.ofNat entered, UInt64.ofNat updated) ∧
    y.evaluated = x.evaluated + updated ∧ y.frames + updated + lost = x.frames + entered

namespace Account.Balances

variable {x y z : Account} {n k : Nat}

theorem refl (x : Account) : x.Balances 0 x := ⟨0, 0, by simp, rfl, rfl⟩

theorem of_eq (h : y = x) : x.Balances 0 y := h ▸ refl x

theorem trans (h : x.Balances n y) (h' : y.Balances k z) : x.Balances (n + k) z := by
  obtain ⟨e, u, ht, hv, hf⟩ := h
  obtain ⟨e', u', ht', hv', hf'⟩ := h'
  refine ⟨e + e', u + u', ?_, by omega, by omega⟩
  rw [ht', ht, add_assoc]
  simp only [Prod.mk_add_mk, UInt64.ofNat_add]

theorem trans_eq (h : x.Balances n y) (he : z = y) : x.Balances n z := he ▸ h

theorem lose (h : x.Balances n y) (ht : z.tally = y.tally) (hv : z.evaluated = y.evaluated)
    (hf : z.frames + k = y.frames) : x.Balances (n + k) z :=
  h.trans ⟨0, 0, by simp [ht], hv, by omega⟩

theorem add (h : x.Balances n y) (t : UInt64 × UInt64) (frames : Nat) :
    Balances ⟨x.tally + t, x.evaluated, x.frames + frames⟩ n
      ⟨y.tally + t, y.evaluated, y.frames + frames⟩ := by
  obtain ⟨e, u, ht, hv, hf⟩ := h
  refine ⟨e, u, ?_, hv, ?_⟩
  · change y.tally + t = _
    rw [ht, add_right_comm]
  · change y.frames + frames + u + n = x.frames + frames + e
    omega

end Account.Balances

def Machine.account (m : Machine κ) : Account :=
  ⟨m.tally, m.heap.evaluated.card, (updates m.context.stack.frames).length⟩

def Evaluation.Turn.account (turn : Turn κ) (m : Machine κ) : Account :=
  ⟨m.tally, m.heap.evaluated.card, (updates (turn.frames m)).length⟩

variable {m m' m₁ : Machine κ}

theorem Quiet.account (q : Quiet m m') (ht : m'.tally = m.tally) : m'.account = m.account := by
  rw [Machine.account, ht, q.grown.evaluated, q.updates, Machine.account]

theorem tolerant_account : Machine.Tolerant (κ := κ) fun m m' => m'.account = m.account :=
  ⟨fun p => p.toQuiet.account p.tally, fun h h' => h'.trans h⟩

theorem Evaluation.respects_run_account (hp : program.Disciplined) (code : κ)
    (captured : List Value) :
    (run program code captured).Respects fun m m' => m'.account = m.account :=
  fun m => ((hp code captured).isQuiet m).account (respects_run_tally program code captured m)

theorem Machine.account_resetThunk (m : Machine κ) (a : Address) (remark : Nat → Option Remark) :
    (m.resetThunk a remark).account = m.account := by
  have hh : (m.resetThunk a remark).heap = (m.heap.reset a).2 :=
    congrArg Core.heap (m.core_resetThunk a remark)
  rw [account, tally, Raising.context_resetThunk, hh, (Heap.restored_reset _ a).evaluated]
  rfl

end Accounts

section Executing

variable {m m' m₁ : Machine κ} {a p : Address}

theorem Machine.account_report (m : Machine κ) (target : Target) (remark : Machine κ → Remark) :
    (m.report target remark).account = m.account :=
  tolerant_account.plain (.report m target remark)

theorem account_enterBusy (a : Address) (m : Machine κ) :
    ((enterBusy a).outcome m).2.account = m.account := by
  unfold Exec.outcome enterBusy
  dsimp only
  cases m.shared.waiting.register? m.heap m.context.thread a with
  | none => exact m.account_report _ _
  | some w => exact Machine.account_report _ _ _

theorem balances_start (hp : program.Disciplined) (a : Address) (body : Suspension κ)
    (m : Machine κ) : m.account.Balances 0 ((start program a body).outcome m).2.account := by
  -- An update frame that finds no room is not counted, and the evaluation is taken back.
  cases hpush : m.push (.update a) with
  | error e =>
    have hx : start program a body m = .error (.error e) (m.resetThunk a fun _ => none) := by
      simp only [start, hpush]
    rw [Exec.outcome_of_error hx]
    exact .of_eq (m.account_resetThunk a _)
  | ok m₁ =>
    obtain ⟨s, hs, hc⟩ := Machine.push_eq_ok hpush
    let m₂ := m₁.count fun c => { c with thunkEntries := c.thunkEntries + 1 }
    have hx : start program a body m = run program body.code body.captured m₂ := by
      simp only [start, hpush]
      rfl
    have hentered : m.account.Balances 0 m₂.account := by
      refine ⟨1, 0, ?_, ?_, ?_⟩
      · change (m₁.tally.1 + 1, m₁.tally.2) = _
        rw [Machine.tally_push hpush]
        ext <;> simp [Machine.account]
      · change m₁.heap.evaluated.card = m.heap.evaluated.card
        rw [show m₁.heap = m.heap from congrArg Core.heap hc]
      · change (updates m₁.context.stack.frames).length = _
        rw [show m₁.context.stack = s from congrArg Core.stack hc, (FrameStack.frames_of_push hs).1]
        rfl
    rw [Exec.outcome, hx]
    exact hentered.trans_eq (respects_run_account hp body.code body.captured m₂)

theorem balances_enter (hp : program.Disciplined) (a : Address) (m : Machine κ) :
    m.account.Balances 0 ((enter program a).outcome m).2.account := by
  rcases enter_cases program a m with
    ⟨v, hx⟩ | ⟨e, hx⟩ | ⟨t, -, -, hx⟩ | ⟨body, hcell, hx⟩
  · rw [Exec.outcome, hx]
    exact .of_eq (tolerant_account.plain (Exec.isPlain_giveBack v m))
  · rw [Exec.outcome, hx]
    exact .refl _
  · rw [Exec.outcome, hx, ← Exec.outcome]
    exact .of_eq (account_enterBusy a m)
  · let m₁ := m.setHeap (m.heap.write a (.thunk (.underEvaluation m.context.thread body [])))
    have hentered : m₁.account = m.account := by
      rw [Machine.account, show m₁.heap.evaluated = m.heap.evaluated from
        Heap.evaluated_write hcell (by simp) (by simp)]
      rfl
    rw [Exec.outcome, hx, ← Exec.outcome]
    exact hentered ▸ balances_start hp a body m₁

theorem tally_wake (m : Machine κ) (a : Address) (released : List (Thread κ)) :
    (m.wake a released).tally = m.tally := by
  rw [Machine.tally, Raising.context_wake, Machine.tally]

theorem balances_updateThunk (hr : m.context.registers.result? = some p)
    (hroom : m.context.stack.frames.length < m.context.stack.limit)
    (ha : m.heap.isThunk a = true) (ht : m.heap.target? a = none) :
    ∃ s m', updateThunk a m = .ok s m' ∧
      Account.Balances { m.account with frames := m.account.frames + 1 } 0 m'.account := by
  -- An update frame that is resumed goes when its thunk gets the value, which is counted, and
  -- stays while an unevaluated result is evaluated.
  have hread : m.context.registers.readClosure 1 = .ok p := by
    rw [Registers.readClosure_one, hr]
  by_cases hv : m.heap.isValue (m.heap.resolve p) = true
  · let m₁ := (m.setHeap (m.heap.settle a (m.heap.resolve p)).2).count
      fun c => { c with updates := c.updates + 1 }
    let released := (m.heap.settle a (m.heap.resolve p)).1
    let m₂ := m₁.report .update fun _ => ⟨.trace, "thunk updated",
      [("thread", m.context.thread.text), ("released", toString released.length)]⟩
    have hc : m₂.core = m₁.core := Machine.core_report _ _ _
    refine ⟨.resume, m₂.wake a released, ?_, 0, 1, ?_, ?_, ?_⟩
    · simp only [updateThunk, hread, ha, hv, ht, onHeap_eq]
      rfl
    · change (m₂.wake a released).tally = m.tally + (0, 1)
      rw [tally_wake, Machine.tally_report]
      simp [m₁, Machine.tally, Machine.count, Machine.setHeap]
    · change (m₂.wake a released).heap.evaluated.card = _
      rw [show (m₂.wake a released).heap = m₂.heap from congrArg Core.heap (m₂.core_wake _ _),
        show m₂.heap = (m.heap.settle a (m.heap.resolve p)).2 from congrArg Core.heap hc]
      exact Heap.card_evaluated_settle ha ht _
    · change (updates (m₂.wake a released).context.stack.frames).length + 1 + 0 = _
      rw [Raising.context_wake, Machine.context_report]
      rfl
  · let m₁ := m.report .update fun _ => ⟨.trace, "result is unevaluated; entering it first",
      [("thread", m.context.thread.text)]⟩
    have hc₁ : m₁.core = m.core := Machine.core_report _ _ _
    have hs₁ : m₁.context.stack = m.context.stack := congrArg Core.stack hc₁
    obtain ⟨m₂, s, hpush, hc₂, hf, -⟩ := Machine.exists_push (m := m₁) (.update a) (by rwa [hs₁])
    refine ⟨.enter (m.heap.resolve p), m₂, ?_, .of_eq ?_⟩
    · simp only [updateThunk, hread, ha, hv]
      exact Exec.bind_of_ok (m := m₁) (Exec.push_of_ok hpush)
    · rw [Machine.account, Machine.tally_push hpush, Machine.tally_report,
        show m₂.heap = m.heap from (congrArg Core.heap hc₂).trans (congrArg Core.heap hc₁),
        show m₂.context.stack = s from congrArg Core.stack hc₂, hf, hs₁]
      rfl

end Executing

section Losing

def aboveHandler : List (Frame κ) → List (Frame κ)
  | [] => []
  | .handler _ :: _ => []
  | frame :: rest => frame :: aboveHandler rest

theorem aboveHandler_spec (frames : List (Frame κ)) :
    (∀ f, .handler f ∉ aboveHandler frames) ∧
      (aboveHandler frames = frames ∨
        ∃ f below, frames = aboveHandler frames ++ .handler f :: below) := by
  induction frames with
  | nil => exact ⟨nofun, .inl rfl⟩
  | cons frame rest ih =>
    obtain ⟨hn, hs⟩ := ih
    cases frame with
    | handler f => exact ⟨nofun, .inr ⟨f, rest, rfl⟩⟩
    | _ =>
      refine ⟨fun f hm => (List.mem_cons.1 hm).elim nofun (hn f), ?_⟩
      refine hs.imp (congrArg _) ?_
      rintro ⟨f, below, hb⟩
      exact ⟨f, below, congrArg _ hb⟩

inductive Loss (κ : Type) where
  | unwound (frames : List (Frame κ))
  | halted (frames : List (Frame κ))
  | abandoned (thread : Thread κ)
  | dropped (thread : Thread κ)

def Loss.frames : Loss κ → List (Frame κ)
  | unwound frames => frames
  | halted frames => frames
  | abandoned t => t.stack.frames
  | dropped t => t.stack.frames

def lost (log : List (Loss κ)) : List Address := log.flatMap fun l => updates l.frames

def Exec.losses (x : Exec κ Step) (m : Machine κ) : List (Loss κ) :=
  match x m with
  | .ok (.throw _) m => [.unwound (aboveHandler m.context.stack.frames)]
  | .error (.error e) m =>
    if e.isCatchable then [.unwound (aboveHandler m.context.stack.frames)] else []
  | _ => []

def Evaluation.advanceLosses (program : Program κ) (c : Control) (m : Machine κ) :
    List (Loss κ) :=
  let m := reportControl c m
  match c with
  | .entering a => (enter program a).losses m
  | .applying f args => (apply program f args).losses m
  | .resuming =>
    match m.pop? with
    | some (frame, m) => (resumeFrame program frame).losses m
    | none => []
  | .halted _ => [.halted m.context.stack.frames]
  | .blocked _ => []
  | .endless => []

def Evaluation.iterateLosses (program : Program κ) (n : Nat) (c : Control) (m : Machine κ) :
    List (Loss κ) :=
  match decision n c m with
  | (.inl c, m) => advanceLosses program c m
  | (.inr _, _) => []

end Losing

section Unwinding

theorem Frame.updates_append (above below : List (Frame κ)) :
    updates (above ++ below) = updates above ++ updates below := by
  induction above with
  | nil => rfl
  | cons frame rest ih => cases frame <;> simp [updates, ih]

variable {x : Exec κ Step} {m m' n : Machine κ} {cause : Option RuntimeError} {a : Address}

theorem discards_kept : Machine.Discards (κ := κ) fun m m' =>
    m'.tally = m.tally ∧ m'.heap.evaluated = m.heap.evaluated where
  plain p := ⟨p.tally, p.grown.evaluated⟩
  trans h h' := ⟨h'.1.trans h.1, h'.2.trans h.2⟩
  discard remark frame m := by
    have hdrop : m.drop.tally = m.tally ∧ m.drop.heap.evaluated = m.heap.evaluated := by
      unfold Machine.drop
      cases hp : m.pop? with
      | none => exact ⟨rfl, rfl⟩
      | some p =>
        obtain ⟨frame, m₁⟩ := p
        obtain ⟨c, rfl, -⟩ := Machine.exists_context_of_pop? hp
        exact ⟨Machine.tally_pop? hp, rfl⟩
    cases frame with
    | update a =>
      change (if m.drop.heap.isThunk a then m.drop.resetThunk a remark else m.drop).tally = _ ∧
        (if m.drop.heap.isThunk a then m.drop.resetThunk a remark else m.drop).heap.evaluated = _
      split
      · have hh : (m.drop.resetThunk a remark).heap = (m.drop.heap.reset a).2 :=
          congrArg Core.heap (m.drop.core_resetThunk a remark)
        rw [Machine.tally, Raising.context_resetThunk, hh, (Heap.restored_reset _ a).evaluated]
        exact hdrop
      · exact hdrop
    | _ => exact hdrop

theorem updates_of_raises (hx : Raising.Raises x m cause a n) :
    updates n.context.stack.frames =
      updates (aboveHandler n.context.stack.frames) ++
        updates (follow x m).2.context.stack.frames := by
  obtain ⟨hn, hs | ⟨f, below, hs⟩⟩ := aboveHandler_spec n.context.stack.frames
  · rw [hs] at hn
    rw [(Raising.uncaught_of_raises hx hn).frames, hs]
    exact (List.append_nil _).symm
  · rw [(Raising.caught_of_raises hx hs hn).frames]
    conv_lhs => rw [hs, updates_append]
    rfl

theorem updates_follow (x : Exec κ Step) (m : Machine κ) :
    updates (x.outcome m).2.context.stack.frames =
      lost (x.losses m) ++ updates (follow x m).2.context.stack.frames := by
  cases hx : x m with
  | ok s m' =>
    rw [Exec.outcome_of_ok hx]
    by_cases hs : ∃ e, s = .throw e
    · obtain ⟨e, rfl⟩ := hs
      rw [updates_of_raises (.thrown hx)]
      simp [Exec.losses, hx, lost, Loss.frames]
    · rw [follow_of_ok hx fun e he => hs ⟨e, he⟩]
      simp only [Exec.losses, hx]
      cases s with
      | throw e => exact absurd ⟨e, rfl⟩ hs
      | _ => rfl
  | error fault m' =>
    rw [Exec.outcome_of_error hx]
    cases fault with
    | endless =>
      rw [follow_eq, Exec.outcome_of_error hx]
      simp only [Exec.losses, hx]
      rfl
    | error e =>
      by_cases hc : e.isCatchable = true
      · have hcontext : (raised e m').2.context = m'.context :=
          m'.context_report .trampoline fun _ =>
            ⟨.debug, "raising runtime exception", [("error", e.message)]⟩
        have hsplit := updates_of_raises (.failed hc hx)
        rw [hcontext] at hsplit
        rw [hsplit]
        simp [Exec.losses, hx, hc, lost, Loss.frames]
      · rw [follow_eq, Exec.outcome_of_error hx]
        simp only [Exec.losses, hx, if_neg hc]
        change updates m'.context.stack.frames = updates (raiseError e m').2.context.stack.frames
        rw [raiseError_of_not_catchable hc]

theorem balances_follow {y : Account} (h : y.Balances 0 (x.outcome m).2.account) :
    y.Balances (lost (x.losses m)).length (follow x m).2.account := by
  obtain ⟨ht, hv⟩ := discards_kept.settle (x.outcome m).1 (x.outcome m).2
  have hframes := congrArg List.length (updates_follow x m)
  rw [List.length_append] at hframes
  rw [← Nat.zero_add (lost (x.losses m)).length]
  refine h.lose ht (congrArg Finset.card hv) ?_
  rw [Nat.add_comm]
  exact hframes.symm

end Unwinding

section Iterating

variable {c : Control} {m m₁ m₂ : Machine κ}

theorem account_reportControl (c : Control) (m : Machine κ) :
    (reportControl c m).account = m.account := by
  rw [Machine.account, m.tally_reportControl, m.heap_reportControl, m.context_reportControl,
    Machine.account]

theorem balances_resumeFrame {frame : Frame κ} {s : FrameStack κ} (hp : program.Disciplined)
    (ho : m.Owning) (hr : m.context.registers.result? ≠ none)
    (hf : m.context.stack.frames = frame :: s.frames) (hl : s.limit = m.context.stack.limit)
    (hcore : m₂.core = { m.core with stack := s }) (ht : m₂.tally = m.tally) :
    m.account.Balances 0 ((resumeFrame program frame).outcome m₂).2.account := by
  -- The frame that is resumed was on top of the stack.
  have hheap : m₂.heap = m.heap := congrArg Core.heap hcore
  have hstack : m₂.context.stack = s := congrArg Core.stack hcore
  have hpopped (hn : ∀ a, frame ≠ .update a) : m₂.account = m.account := by
    rw [Machine.account, ht, hheap, hstack, Machine.account, hf, updates_cons_of_ne _ hn]
  cases frame with
  | apply v =>
    have happlied := respects_applyFrame tolerant_account (respects_run_account hp) v m₂
    exact .of_eq (happlied.trans (hpopped nofun))
  | case code captured =>
    exact .of_eq ((respects_run_account hp code captured m₂).trans (hpopped nofun))
  | handler f => exact .of_eq (hpopped nofun)
  | update a =>
    obtain ⟨p, hp'⟩ := Option.ne_none_iff_exists'.1 hr
    obtain ⟨body, blocked, hcell⟩ := (owns_of_popped ho hf hcore rfl).cell_head
    obtain ⟨step, m', hx, hupdate⟩ := balances_updateThunk (a := a)
      ((congrArg (fun c => c.registers.result?) hcore).trans hp') (room_of_popped hf hl hcore)
      (by simp [Heap.isThunk, Heap.thunk?, hcell]) (by simp [Heap.target?, hcell])
    have htop : m.account = { m₂.account with frames := m₂.account.frames + 1 } := by
      rw [Machine.account, hf, Machine.account, ht, hheap, hstack]
      rfl
    rw [htop, show resumeFrame program (.update a) = updateThunk a from rfl,
      Exec.outcome_of_ok hx]
    exact hupdate

theorem balances_advance (hp : program.Conventional) (c : Control) (ho : m.Owning)
    (hr : c = .resuming → m.context.registers.result? ≠ none) :
    m.account.Balances (lost (advanceLosses program c m)).length
      ((advance program c m).1.account (advance program c m).2) := by
  have hd := hp.disciplined
  have hpoll : Polled m (reportControl c m) := .report m c
  have hreport := account_reportControl c m
  rw [← hreport]
  cases c with
  | entering a => exact balances_follow (balances_enter hd a _)
  | applying f args =>
    exact balances_follow (.of_eq (respects_apply tolerant_account (respects_run_account hd) f args _))
  | resuming =>
    have hr₁ : (reportControl .resuming m).context.registers.result? ≠ none := by
      rw [hpoll.registers]
      exact hr rfl
    cases hf : (reportControl .resuming m).context.stack.frames with
    | nil =>
      obtain ⟨v, hv⟩ := Option.ne_none_iff_exists'.1 hr₁
      have hnone := Machine.pop?_eq_none hf
      rw [advance_of_pop?_eq_none program hnone hv]
      simp only [advanceLosses, hnone]
      refine .of_eq ?_
      rw [Machine.account, hf]
      rfl
    | cons frame rest =>
      obtain ⟨m₂, s, hpop, hcore, hs, hl⟩ := Machine.exists_pop? hf
      rw [advance_of_pop? program hpop]
      simp only [advanceLosses, hpop]
      exact balances_follow (balances_resumeFrame hd (hpoll.owning ho) hr₁ (hs ▸ hf) hl hcore
        (Machine.tally_pop? hpop))
  | blocked a =>
    obtain ⟨m', hadv, hh, -, -, ht⟩ := advance_blocked program a m
    rw [hadv, hreport]
    refine .of_eq ?_
    rw [Turn.account, hh, ht]
    rfl
  | halted e =>
    -- All update frames are lost, and the thread leaves with an empty stack.
    let m₁ := (reportControl (.halted e) m).report .trampoline fun _ =>
      ⟨.debug, "halting", [("error", e.message)]⟩
    have hm₁ : m₁.account = (reportControl (.halted e) m).account := Machine.account_report _ _ _
    obtain ⟨ht, hv⟩ := discards_kept.abandonFrames m₁.context.stack.frames m₁
    rw [← hm₁]
    have hlost : (lost (advanceLosses program (.halted e) m)).length = m₁.account.frames := by
      rw [hm₁]
      simp [advanceLosses, lost, Loss.frames, Machine.account]
    rw [← Nat.zero_add (lost _).length, hlost]
    exact (Account.Balances.refl _).lose ht (congrArg Finset.card hv) (Nat.zero_add _)
  | endless => exact .refl _

theorem polled_decision (n : Nat) (c : Control) (m : Machine κ) :
    Polled m (decision n c m).2 ∧ (decision n c m).2.context = m.context ∧
      ∀ c', (decision n c m).1 = .inl c' → c' = c ∨ ∃ e, c' = .halted e := by
  unfold decision
  split
  · exact ⟨.refl m, rfl, fun c' h => .inr ⟨_, (Sum.inl.inj h).symm⟩⟩
  · split
    · exact ⟨.refl m, rfl, fun c' h => .inl (Sum.inl.inj h).symm⟩
    · dsimp only
      split
      · split
        · exact ⟨.poll m, rfl, nofun⟩
        · next c₁ hc₁ =>
          refine ⟨.poll m, rfl, fun c' h => ?_⟩
          obtain rfl := Sum.inl.inj h
          exact suspensionPoint_eq_error hc₁
      · exact ⟨.poll m, rfl, fun c' h => .inl (Sum.inl.inj h).symm⟩

theorem balances_iterate (hp : program.Conventional) (n : Nat) (c : Control) (ho : m.Owning)
    (hr : c = .resuming → m.context.registers.result? ≠ none) :
    m.account.Balances (lost (iterateLosses program n c m)).length
      ((iterate program n c m).1.account (iterate program n c m).2) := by
  obtain ⟨hpoll, hcontext, hcontrol⟩ := polled_decision n c m
  rw [iterate_eq, iterateLosses]
  rcases hd : decision n c m with ⟨c' | pending, m₁⟩
  all_goals
    rw [hd] at hpoll hcontext hcontrol
    have hm₁ : m₁.account = m.account := by
      rw [Machine.account, hpoll.heap, Machine.tally, hcontext]
      rfl
    rw [← hm₁]
  · refine balances_advance hp c' (hpoll.owning ho) fun hc => ?_
    rw [hpoll.registers]
    rcases hcontrol c' rfl with rfl | ⟨e, rfl⟩
    · exact hr hc
    · cases hc
  · obtain ⟨m', hy, hh, -, -, ht⟩ := yieldThread_eq pending m₁
    dsimp only
    rw [hy]
    refine .of_eq ?_
    rw [Turn.account, hh, ht]
    rfl

end Iterating

end GraphReduction
