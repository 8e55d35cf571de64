import GraphReduction.Proofs.InternalErrors
import GraphReduction.Proofs.Raising

namespace GraphReduction

open Evaluation Relation

variable {κ : Type} {program : Program κ}

namespace Heap

variable {h h' : Heap κ} {a b x v : Address} {as : List Address}

section Descending

inductive Shows (h : Heap κ) : Address → Address → Prop where
  | field {a b : Address} {c : Constructor} {fields : List Value} :
      h.cell a = .data c fields → .boxed b ∈ fields → Shows h a b
  | target {a b : Address} : h.target? a = some b → Shows h a b

def Grounded (h : Heap κ) (a : Address) : Prop :=
  ∀ b, ReflTransGen h.Shows a b → ¬ TransGen h.Shows b b

theorem isSome_textList (f : Value → Option String) (vs : List Value) :
    (textList f vs).isSome ↔ ∀ v ∈ vs, (f v).isSome := by
  induction vs with
  | nil => simp [textList]
  | cons v vs ih =>
    rw [List.forall_mem_cons, ← ih, textList]
    cases f v <;> cases textList f vs <;> simp

theorem isSome_textTo_succ (n : Nat) (a : Address) :
    (h.textTo (n + 1) a).isSome ↔ ∀ b, h.Shows a b → (h.textTo n b).isSome := by
  cases hc : h.cell a with
  | function info captured =>
    refine iff_of_true (by simp [textTo, hc]) fun b hb => ?_
    cases hb with
    | field ha _ => cases hc.symm.trans ha
    | target ha => cases hc.symm.trans (target?_eq_some_iff.1 ha)
  | unsaturated f args =>
    refine iff_of_true (by simp [textTo, hc]) fun b hb => ?_
    cases hb with
    | field ha _ => cases hc.symm.trans ha
    | target ha => cases hc.symm.trans (target?_eq_some_iff.1 ha)
  | thunk state =>
    cases state with
    | evaluated v =>
      simp only [textTo, hc]
      refine ⟨fun hv b hb => ?_, fun hall => hall v (.target (target?_eq_some_iff.2 hc))⟩
      cases hb with
      | field ha _ => cases hc.symm.trans ha
      | target ha =>
        cases hc.symm.trans (target?_eq_some_iff.1 ha)
        exact hv
    | _ =>
      refine iff_of_true (by simp [textTo, hc]) fun b hb => ?_
      cases hb with
      | field ha _ => cases hc.symm.trans ha
      | target ha => cases hc.symm.trans (target?_eq_some_iff.1 ha)
  | data c fields =>
    have hshows : ∀ b, h.Shows a b ↔ .boxed b ∈ fields := by
      refine fun b => ⟨fun hb => ?_, .field hc⟩
      cases hb with
      | field ha hb =>
        cases hc.symm.trans ha
        exact hb
      | target ha => cases hc.symm.trans (target?_eq_some_iff.1 ha)
    simp only [hshows]
    cases fields with
    | nil => exact iff_of_true (by simp [textTo, hc]) nofun
    | cons v vs =>
      simp only [textTo, hc, Option.bind_eq_bind, Option.isSome_bind, Option.pure_def,
        Option.isSome_some, Option.any_true, isSome_textList]
      refine ⟨fun hall b hb => hall _ hb, fun hall w hw => ?_⟩
      cases w with
      | boxed b => exact hall b hw
      | _ => rfl

theorem grounded_of_isSome {n : Nat} (hn : (h.textTo n a).isSome) : h.Grounded a := by
  induction n generalizing a with
  | zero => cases hn
  | succ n ih =>
    have hall := (isSome_textTo_succ n a).1 hn
    intro b hab hbb
    rcases hab.cases_head with rfl | ⟨c, hac, hcb⟩
    · obtain ⟨c, hac, hca⟩ := TransGen.head'_iff.1 hbb
      exact ih (hall c hac) a hca hbb
    · exact ih (hall c hac) b hcb hbb

inductive Descends (h : Heap κ) : Address → List Address → Prop where
  | nil (a : Address) : Descends h a []
  | cons {a b : Address} {as : List Address} :
      h.Shows a b → Descends h b as → Descends h a (a :: as)

theorem exists_descends {n : Nat} (hn : ¬ (h.textTo n a).isSome) :
    ∃ as, h.Descends a as ∧ as.length = n := by
  induction n generalizing a with
  | zero => exact ⟨[], .nil a, rfl⟩
  | succ n ih =>
    rw [isSome_textTo_succ] at hn
    push Not at hn
    obtain ⟨b, hab, hb⟩ := hn
    obtain ⟨as, has, rfl⟩ := ih (by simpa using hb)
    exact ⟨a :: as, .cons hab has, rfl⟩

theorem Shows.lt_size (hab : h.Shows a b) : a.index < h.size := by
  cases hab with
  | field hc hb =>
    refine lt_size_of_cell_ne_default fun hd => ?_
    cases hc.symm.trans hd
    cases hb
  | target hv => exact lt_size_of_target? hv

theorem Descends.spec (hd : h.Descends a as) :
    ∀ b ∈ as, b.index < h.size ∧ ReflTransGen h.Shows a b := by
  induction hd with
  | nil => exact nofun
  | @cons a b as hab _ ih =>
    refine List.forall_mem_cons.2 ⟨⟨hab.lt_size, .refl⟩, fun c hc => ?_⟩
    exact ⟨(ih c hc).1, .head hab (ih c hc).2⟩

theorem Descends.nodup (hd : h.Descends a as) (hg : h.Grounded a) : as.Nodup := by
  induction hd with
  | nil => exact List.nodup_nil
  | @cons a b as hab hd ih =>
    refine List.nodup_cons.2 ⟨fun ha => ?_, ih fun c hc => hg c (.head hab hc)⟩
    exact hg a .refl (.head' hab (hd.spec a ha).2)

theorem isSome_text?_iff : (h.text? a).isSome ↔ h.Grounded a := by
  refine ⟨grounded_of_isSome, fun hg => ?_⟩
  by_contra hn
  obtain ⟨as, has, hl⟩ := exists_descends hn
  have hle := length_le_size (has.nodup hg) fun b hb => (has.spec b hb).1
  omega

end Descending

section Ranking

def Ranked (h : Heap κ) : Prop :=
  ∀ a c fields, h.cell a = .data c fields → ∀ b, .boxed b ∈ fields → b.index < a.index

/-- On the way down there is a thunk whose value leads back to it. -/
def Tied (h : Heap κ) (a : Address) : Prop :=
  ∃ x v, ReflTransGen h.Shows a x ∧ h.target? x = some v ∧ ReflTransGen h.Shows v x

theorem Ranked.lt_or_target (hr : h.Ranked) (hab : TransGen h.Shows a b) :
    b.index < a.index ∨
      ∃ x v, ReflTransGen h.Shows a x ∧ h.target? x = some v ∧ ReflTransGen h.Shows v b := by
  induction hab with
  | single hab =>
    cases hab with
    | field hc hb => exact .inl (hr a _ _ hc _ hb)
    | target hv => exact .inr ⟨a, _, .refl, hv, .refl⟩
  | @tail b c hab hbc ih =>
    rcases ih with hlt | ⟨x, v, hax, hv, hvb⟩
    · cases hbc with
      | field hc hb => exact .inl (Nat.lt_trans (hr b _ _ hc _ hb) hlt)
      | target hv => exact .inr ⟨b, _, hab.to_reflTransGen, hv, .refl⟩
    · exact .inr ⟨x, v, hax, hv, hvb.tail hbc⟩

theorem Ranked.grounded_iff (hr : h.Ranked) : h.Grounded a ↔ ¬ h.Tied a := by
  constructor
  · rintro hg ⟨x, v, hax, hv, hvx⟩
    exact hg x hax (.head' (.target hv) hvx)
  · intro ht b hab hbb
    rcases hr.lt_or_target hbb with hlt | ⟨x, v, hbx, hv, hvb⟩
    · exact absurd hlt (Nat.lt_irrefl _)
    · exact ht ⟨x, v, hab.trans hbx, hv, hvb.trans hbx⟩

theorem Ranked.barren (hr : h.Ranked) (hb : h.Barren h') : h'.Ranked := by
  intro a c fields hc b hm
  rcases hb a c fields hc with rfl | hc
  · cases hm
  · exact hr a c fields hc b hm

theorem barren_write (h : Heap κ) (a : Address) (s : ThunkState κ) :
    h.Barren (h.write a (.thunk s)) := by
  intro b c fields hc
  rw [cell_write] at hc
  split at hc
  · cases hc
  · exact .inr hc

theorem barren_reset (h : Heap κ) (a : Address) : h.Barren (h.reset a).2 := by
  unfold reset
  split
  · exact barren_write h a _
  · exact .refl h

theorem barren_settle (h : Heap κ) (a v : Address) : h.Barren (h.settle a v).2 := by
  unfold settle
  split
  · exact barren_write h a _
  · exact barren_write h a _
  · exact .refl h

end Ranking

end Heap

section Building

variable {m m' m₁ : Machine κ} {n : Nat} {c : Control} {turn : Turn κ}

theorem serves_barren : Machine.Serves (κ := κ) fun m m' => m.heap.Barren m'.heap where
  trans := .trans
  plain _ hb _ := hb
  enter _ := Heap.barren_write _ _ _
  reset m a remark := by
    rw [show (m.resetThunk a remark).heap = (m.heap.reset a).2 from
      congrArg Core.heap (m.core_resetThunk a remark)]
    exact m.heap.barren_reset a

theorem barren_iterate_blank (n : Nat) (c : Control) (m : Machine κ) :
    m.heap.Barren (iterate blank n c m).2.heap := by
  have hrun : ∀ code captured, (run (blank : Program κ) code captured).Respects
      fun m m' => m.heap.Barren m'.heap := fun _ _ m => .refl m.heap
  refine serves_barren.iterate hrun (fun m₁ _ _ a => ?_) n c
  rcases heap_updateThunk a m₁ with hh | ⟨p, -, -, -, -, hh⟩
  · rw [hh]
    exact .refl _
  · rw [hh]
    exact m₁.heap.barren_settle a _

def BuildsRanked (program : Program κ) (n : Nat) (c : Control) (m : Machine κ) : Prop :=
  ∀ code captured m₁, Runs n c m code captured m₁ → m₁.heap.Ranked →
    ((run program code captured).outcome m₁).2.heap.Ranked

theorem ranked_iterate (hb : BuildsRanked program n c m) (hm : m.heap.Ranked) :
    (iterate program n c m).2.heap.Ranked := by
  have hbarren := hm.barren (barren_iterate_blank n c m)
  rcases runs_or_eq n c m with ⟨code, captured, m₁, hr⟩ | hsame
  · rw [hr.iterate_blank] at hbarren
    rw [hr program]
    exact (hb code captured m₁ hr hbarren).barren
      (serves_barren.discards.settle _ ((run program code captured).outcome m₁).2)
  · rwa [hsame program]

end Building

namespace System

variable {s s' s₀ : System κ}

/-- In no state that the system gets to does a body build data of closures still to come. -/
def BuildsOnOlder (program : Program κ) (s₀ : System κ) : Prop :=
  ∀ s n c m, Reaches program s₀ s → s.Working c m → BuildsRanked program n c m

theorem barren_resetFrames (frames : List (Frame κ)) (sh : Shared κ) :
    sh.heap.Barren (sh.resetFrames frames).2.heap := by
  induction frames generalizing sh with
  | nil => exact .refl _
  | cons frame rest ih =>
    cases frame with
    | update a =>
      exact (sh.heap.barren_reset a).trans (ih { sh with heap := (sh.heap.reset a).2 })
    | _ => exact ih sh

theorem ranked_of_reaches (hb : BuildsOnOlder program s₀) (h₀ : s₀.shared.heap.Ranked)
    (h : Reaches program s₀ s) : s.shared.heap.Ranked := by
  induction h with
  | refl => exact h₀
  | @tail s s' hrun hstep ih =>
    obtain ⟨deed, hstep⟩ := hstep
    cases hstep with
    | @attach i context u rest q hi hready =>
      rw [show (begin u ⟨s.shared, q, context⟩).2.shared.heap = s.shared.heap from
        (begin_spec u ⟨s.shared, q, context⟩).1]
      exact ih
    | @iterate i context c q rest turn m n released hi hready ht hparked =>
      have hw : s.Working c ⟨s.shared, q, context⟩ :=
        ⟨rfl, List.mem_of_getElem? hi, rest, hready⟩
      have hranked := ranked_iterate (hb s n c _ hrun hw) ih
      rwa [ht] at hranked
    | park hblocked hpark =>
      obtain ⟨_, _, _, -, rfl⟩ := Heap.park?_eq_some hpark
      exact ih.barren (Heap.barren_write _ _ _)
    | @abandon u rest hready =>
      exact ih.barren (barren_resetFrames u.stack.frames
        { s.shared with waiting := s.shared.waiting.erase u.id })
    | report target remark =>
      rw [show (s.shared.report target remark).heap = s.shared.heap from
        (report_spec s.shared target remark).1]
      exact ih
    | _ => exact ih

structure Renders (program : Program κ) (s : System κ) : Prop where
  text : ∀ a, (s.shared.heap.text? a).isSome ↔ ¬ s.shared.heap.Tied a
  uncaught : ∀ n c m code captured m₁ a m₂, s.Working c m → Runs n c m code captured m₁ →
    run program code captured m₁ = .ok (.throw a) m₂ →
    (∀ f, .handler f ∉ m₂.context.stack.frames) →
      (∃ text, m₂.heap.text? a = some text ∧ ¬ m₂.heap.Tied a ∧
        (iterate program n c m).1 = .next (.halted (.uncaught text))) ∨
      m₂.heap.Tied a ∧ (iterate program n c m).1 = .next .endless

theorem renders_of_reaches (hb : BuildsOnOlder program s₀) (h₀ : s₀.shared.heap.Ranked)
    (h : Reaches program s₀ s) : Renders program s := by
  have hranked := ranked_of_reaches hb h₀ h
  constructor
  case text => exact fun a => Heap.isSome_text?_iff.trans hranked.grounded_iff
  case uncaught =>
    intro n c m code captured m₁ a m₂ hw hr hx hn
    have hm : m.heap.Ranked := by
      rwa [show m.heap = s.shared.heap from congrArg Shared.heap hw.shared]
    have hm₁ : m₁.heap.Ranked := by
      have hbarren := hm.barren (barren_iterate_blank n c m)
      rwa [hr.iterate_blank] at hbarren
    have hm₂ : m₂.heap.Ranked := by
      have hout := hb s n c m h hw code captured m₁ hr hm₁
      rwa [Exec.outcome_of_ok hx] at hout
    have hiff := (Heap.isSome_text?_iff (a := a)).trans hm₂.grounded_iff
    have hturn := (Raising.uncaught_of_raises (.thrown hx) hn).turn
    rw [← hr program] at hturn
    cases ht : m₂.heap.text? a with
    | some text =>
      rw [ht] at hiff
      refine .inl ⟨text, rfl, hiff.1 rfl, ?_⟩
      rw [hturn, Raising.unhandled, ht]
    | none =>
      rw [ht] at hiff
      refine .inr ⟨by_contra fun htied => absurd (hiff.2 htied) nofun, ?_⟩
      rw [hturn, Raising.unhandled, ht]

section Knot

def tying : Program Bool := ⟨fun code _ => match code with
  | false => .allocate (.data ⟨"Cons", 0⟩ [.boxed ⟨0⟩]) fun a => .setResult a (.done .resume)
  | true => .done (.throw ⟨0⟩)⟩

def loom : System Bool where
  shared := { (Shared.empty default : Shared Bool) with
    heap := ⟨#[.thunk (.unevaluated ⟨false, []⟩), .thunk (.unevaluated ⟨true, []⟩)]⟩ }
  stations := [⟨.new 0 4, none⟩]
  ready := []
  blocked := []
  dropped := []

/-- Once the list is there its text does not end, and the thread that throws it never halts. -/
theorem endless_loom : ∃ s, Reaches tying loom s ∧ s.shared.heap.text? ⟨0⟩ = none ∧
    s.stations.map Station.control = [some .endless] := by
  have h₀ : Reaches tying loom loom := .refl
  have h₁ := h₀.tail ⟨_, .spawn _ ⟨0⟩ 4⟩
  have h₂ := h₁.tail ⟨_, .attach (i := 0) .standalone rfl (.refl _)⟩
  have h₃ := h₂.tail (.requeue (i := 0) (n := 0) (q := patient) rfl (.refl _) nofun rfl)
  have h₄ := h₃.tail (.requeue (i := 0) (n := 0) (q := patient) rfl (.refl _) nofun rfl)
  have h₅ := h₄.tail (.requeue (i := 0) (n := 0) (q := patient) rfl (.refl _) nofun rfl)
  have h₆ := h₅.tail ⟨_, .spawn _ ⟨1⟩ 4⟩
  have h₇ := h₆.tail ⟨_, .attach (i := 0) .standalone rfl (.refl _)⟩
  have h₈ := h₇.tail (.requeue (i := 0) (n := 0) (q := patient) rfl (.refl _) nofun rfl)
  exact ⟨_, h₈, by decide +kernel, by decide +kernel⟩

theorem ranked_loom : loom.shared.heap.Ranked := by
  rintro ⟨i⟩ c fields hc b hb
  have hi : i < loom.shared.heap.size := Heap.lt_size_of_cell_ne_default fun hd => by
    cases hd.symm.trans hc
    cases hb
  match i, hi with
  | 0, _ => cases hc
  | 1, _ => cases hc

theorem buildsOnOlder_tying : BuildsOnOlder tying loom := by
  intro s n c m hr hw code captured m₁ hrun hm₁
  cases code with
  | true => exact hm₁
  | false =>
    have hsize : 0 < m₁.heap.size := by
      have h₁ := (Reaches.matures hr).later.size_le
      have h₂ := hrun.matures.later.size_le
      rw [show m.heap = s.shared.heap from congrArg Shared.heap hw.shared] at h₂
      have h₀ : 0 < loom.shared.heap.size := by decide
      omega
    intro a c fields hc b hb
    have hc' : (m₁.heap.allocate (.data ⟨"Cons", 0⟩ [.boxed ⟨0⟩])).2.cell a = .data c fields := hc
    rw [Heap.cell_allocate] at hc'
    split at hc'
    · next ha =>
      cases hc'
      cases hb with
      | head => exact ha ▸ hsize
      | tail _ hb => cases hb
    · exact hm₁ a c fields hc' b hb

theorem renders_loom : BuildsOnOlder tying loom ∧ loom.shared.heap.Ranked ∧
    ∃ s, Reaches tying loom s ∧ s.stations.map Station.control = [some .resuming] ∧
      Renders tying s := by
  have h₀ : Reaches tying loom loom := .refl
  have h₁ := h₀.tail ⟨_, .spawn _ ⟨0⟩ 4⟩
  have h₂ := h₁.tail ⟨_, .attach (i := 0) .standalone rfl (.refl _)⟩
  have h₃ := h₂.tail (.requeue (i := 0) (n := 0) (q := patient) rfl (.refl _) nofun rfl)
  exact ⟨buildsOnOlder_tying, ranked_loom, _, h₃, by decide +kernel,
    renders_of_reaches buildsOnOlder_tying ranked_loom h₃⟩

end Knot

end System

end GraphReduction
