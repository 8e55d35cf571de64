import GraphReduction.Proofs.Application
import GraphReduction.Proofs.Lasting

namespace GraphReduction

open Evaluation GraphReduction.Frame

variable {κ : Type}

namespace Heap

variable {h h' : Heap κ} {c f p : Address} {info : FunctionInfo κ} {captured bound : List Value}

/-- Heaps that come about: closures are built, thunks change their state, and systems run programs
of any kind. -/
inductive Arises : Heap κ → Prop where
  | empty : Arises .empty
  | allocate {h : Heap κ} (c : Allocation κ) : Arises h → Arises (h.allocate c.cell).2
  | bind {h : Heap κ} {f : Address} {args : List Value} {c : Cell κ} :
      Arises h → h.bind f args = .ok c → Arises (h.allocate c).2
  | change {h : Heap κ} {a : Address} {s : ThunkState κ} (s' : ThunkState κ) :
      Arises h → h.cell a = .thunk s → Arises (h.write a (.thunk s'))
  | run {program : Program κ} {s s' : System κ} :
      Arises s.shared.heap → System.Reaches program s s' → Arises s'.shared.heap

theorem flat_empty : (empty : Heap κ).Flat := by
  intro a f args ha
  have hlt : a.index < (empty : Heap κ).size := by
    refine lt_size_of_cell_ne_default fun hd => ?_
    rw [hd] at ha
    cases ha
  exact absurd hlt (Nat.not_lt_zero _)

theorem Arises.flat (hh : Arises h) : h.Flat := by
  induction hh with
  | empty => exact flat_empty
  | allocate c _ ih => exact (grown_allocation _ c).flat ih
  | bind _ hb ih => exact (grown_bind hb).flat ih
  | change _ _ ha ih => exact flat_write ih ha
  | run _ hrun ih => exact hrun.matures.flat ih

theorem Later.callee? (hl : h.Later h') (hc : h.callee? c = some (f, bound)) :
    h'.callee? c = some (f, bound) := by
  have hn : h.isThunk c = false := by
    rcases callee?_eq_some_iff.1 hc with ⟨_, _, hcell, -⟩ | hcell <;>
      rw [isThunk, thunk?, hcell] <;> rfl
  rw [Heap.callee?, hl.fixed c (lt_size_of_callee? hc) hn]
  exact hc

theorem Later.function? (hl : h.Later h') (hf : h.function? f = some (info, captured)) :
    h'.function? f = some (info, captured) := by
  have hcell := function?_eq_some_iff.1 hf
  have hn : h.isThunk f = false := by
    rw [isThunk, thunk?, hcell]
    rfl
  rw [function?_eq_some_iff, hl.fixed f (lt_size_of_callee? (callee?_of_function? hf)) hn, hcell]

theorem leads_follow (h : Heap κ) (n : Nat) (a : Address) : h.Leads a (h.follow n a) := by
  induction n generalizing a with
  | zero => exact .refl
  | succ n ih =>
    rw [follow]
    split
    · next b hb => exact .head hb (ih b)
    · exact .refl

theorem Later.callee?_resolve (hl : h.Later h')
    (hc : h.callee? (h.resolve c) = some (f, bound)) :
    h'.callee? (h'.resolve c) = some (f, bound) := by
  have hc' := hl.callee? hc
  rwa [((h.leads_follow h.size c).later hl).resolve_eq (target?_of_callee? hc')]

end Heap

namespace Application

inductive Part where
  | called (args : List Value)
  | waiting (arg : Value) (args : List Value)

namespace Part

def args : Part → List Value
  | called args => args
  | waiting v vs => v :: vs

def Due (c : Address) (control : Control) (m : Machine κ) : Part → Prop
  | called args => control = .applying c args
  | waiting v vs => control = .resuming ∧ m.context.registers.result? = some c ∧
      arguments m.context.stack.frames = v :: vs

def left : Part → List (Frame κ) → List (Frame κ)
  | called _ => id
  | waiting _ _ => underArguments

end Part

/-- Given to a closure one after the other, each to what the one before has come to, the parts come
to a closure with a property. What happens before each of them is anything that lets closures
last. -/
def Comes (program : Program κ) (P : Heap κ → Address → Prop) :
    List Part → Heap κ → Address → Prop
  | [], h, c => P h c
  | part :: parts, h, c => ∀ (control : Control) (m : Machine κ), h.Later m.heap →
      part.Due c control m →
      ∃ p m', advance program control m = (.next .resuming, m') ∧
        m'.context.registers.result? = some p ∧
        m'.context.stack.frames = part.left m.context.stack.frames ∧
        Comes program P parts m'.heap p

section Giving

variable (program : Program κ) {m : Machine κ} {c f : Address} {info : FunctionInfo κ}
  {captured bound : List Value} {control : Control} {part : Part}

theorem advance_called {args : List Value}
    (hc : m.heap.callee? (m.heap.resolve c) = some (f, bound))
    (hf : m.heap.function? f = some (info, captured))
    (hl : (bound ++ args).length < info.arity) :
    ∃ p m', advance program (.applying c args) m = (.next .resuming, m') ∧
      m'.context.registers.result? = some p ∧ m'.context.stack = m.context.stack ∧
      m.heap.Later m'.heap ∧ m'.heap.callee? p = some (f, bound ++ args) := by
  let m₁ := reportControl (.applying c args) m
  have hc₁ : m₁.core = m.core := Machine.core_reportControl _ _
  have hh₁ : m₁.heap = m.heap := congrArg Core.heap hc₁
  have hs₁ : m₁.context.stack = m.context.stack := congrArg Core.stack hc₁
  rw [← hh₁] at hc hf ⊢
  by_cases hne : args = []
  · subst hne
    refine ⟨_, m₁.setResult (m₁.heap.resolve c), ?_, Registers.result?_setResult _ _, hs₁, .refl _, ?_⟩
    · rw [advance_applying]
      exact follow_of_resume (apply_nil hc)
    · rwa [List.append_nil]
  · obtain ⟨m₂, happly, hc₂⟩ :=
      applyFunction_of_lt hf (List.append_ne_nil_of_right_ne_nil bound hne) hl
    obtain ⟨hk, hs₂, hr, hcell⟩ := built_of_core hc₂
    refine ⟨_, m₂, ?_, hr, hs₂.trans hs₁, .of_old hk.size_le hk.old,
      Heap.callee?_eq_some_iff.2 (.inr hcell)⟩
    rw [advance_applying]
    exact follow_of_resume ((apply_of_callee? hne hc).trans (happly program))

theorem advance_waiting {v : Value} {vs : List Value}
    (hr : m.context.registers.result? = some c)
    (hs : arguments m.context.stack.frames = v :: vs)
    (hc : m.heap.callee? (m.heap.resolve c) = some (f, bound))
    (hf : m.heap.function? f = some (info, captured))
    (hl : (bound ++ v :: vs).length < info.arity) :
    ∃ p m', advance program .resuming m = (.next .resuming, m') ∧
      m'.context.registers.result? = some p ∧
      m'.context.stack.frames = underArguments m.context.stack.frames ∧
      m.heap.Later m'.heap ∧ m'.heap.callee? p = some (f, bound ++ v :: vs) := by
  obtain ⟨rest, hframes, hvs, hunder⟩ := eq_cons_of_arguments hs
  obtain ⟨m₁, s₁, hc₁, hs₁, -, hadv⟩ := advance_resuming hframes
  have hh₁ : m₁.heap = m.heap := congrArg Core.heap hc₁
  have hst₁ : m₁.context.stack.frames = rest :=
    (congrArg (·.stack.frames) hc₁).trans hs₁
  have hr₁ : m₁.context.registers.result? = some c :=
    (congrArg (·.registers.result?) hc₁).trans hr
  rw [← hh₁] at hc hf ⊢
  obtain ⟨m₂, s₂, happly, hc₂, hs₂, -⟩ := applyFrame_of_lt hr₁ hc hf (v := v) (by rwa [hst₁, hvs])
  rw [hst₁] at hc₂ hs₂
  rw [hvs] at hc₂
  let m₃ := m₁.setStack s₂
  have hc₃ : m₂.core = { m₃.core with
      heap := (m₃.heap.allocate (.unsaturated f (bound ++ v :: vs))).2
      registers := m₃.context.registers.setResult ⟨m₃.heap.size⟩ } := hc₂
  obtain ⟨hk, hs₃, hr₂, hcell⟩ := built_of_core hc₃
  refine ⟨_, m₂, ?_, hr₂, ?_, .of_old hk.size_le hk.old,
    Heap.callee?_eq_some_iff.2 (.inr hcell)⟩
  · rw [hadv]
    exact follow_of_resume (happly program)
  · rw [hs₃, hunder]
    exact hs₂

theorem Part.Due.advance (hd : part.Due c control m)
    (hc : m.heap.callee? (m.heap.resolve c) = some (f, bound))
    (hf : m.heap.function? f = some (info, captured))
    (hl : (bound ++ part.args).length < info.arity) :
    ∃ p m', Evaluation.advance program control m = (.next .resuming, m') ∧
      m'.context.registers.result? = some p ∧
      m'.context.stack.frames = part.left m.context.stack.frames ∧
      m.heap.Later m'.heap ∧ m'.heap.callee? p = some (f, bound ++ part.args) := by
  cases part with
  | called args =>
    obtain rfl := hd
    obtain ⟨p, m', hx, hr, hs, hrest⟩ := advance_called program hc hf hl
    exact ⟨p, m', hx, hr, congrArg _ hs, hrest⟩
  | waiting v vs =>
    obtain ⟨rfl, hr, hs⟩ := hd
    exact advance_waiting program hr hs hc hf hl

theorem Comes.mono {program : Program κ} {P Q : Heap κ → Address → Prop} {parts : List Part}
    {h : Heap κ} (hc : Comes program P parts h c) (hpq : ∀ h p, P h p → Q h p) :
    Comes program Q parts h c := by
  induction parts generalizing h c with
  | nil => exact hpq h c hc
  | cons part parts ih =>
    intro control m hm hd
    obtain ⟨p, m', hx, hr, hs, hrest⟩ := hc control m hm hd
    exact ⟨p, m', hx, hr, hs, ih hrest⟩

theorem comes_of_callee? {h : Heap κ} (parts : List Part)
    (hc : h.callee? (h.resolve c) = some (f, bound))
    (hf : h.function? f = some (info, captured))
    (hl : (bound ++ parts.flatMap Part.args).length < info.arity) :
    Comes program (fun h' p => h'.callee? (h'.resolve p) =
      some (f, bound ++ parts.flatMap Part.args)) parts h c := by
  induction parts generalizing h c bound with
  | nil => simpa [Comes] using hc
  | cons part parts ih =>
    rw [List.flatMap_cons, ← List.append_assoc] at hl ⊢
    intro control m hm hd
    have hshort : (bound ++ part.args).length < info.arity := by
      rw [List.length_append] at hl
      omega
    obtain ⟨p, m', hx, hr, hs, hm', hp⟩ :=
      hd.advance program (hm.callee?_resolve hc) (hm.function? hf) hshort
    refine ⟨p, m', hx, hr, hs, ih ?_ ((hm.trans hm').function? hf) hl⟩
    rwa [Heap.resolve_of_callee? hp]

end Giving

end Application

namespace Heap

section Flattening

variable {h : Heap κ} {c f : Address} {info : FunctionInfo κ} {captured xs : List Value}

open Application

structure Flattens (h : Heap κ) : Prop where
  wellFormed : ∀ p f args, h.cell p = .unsaturated f args →
    ∃ info captured, h.cell f = .function info captured ∧ h.arity f = info.arity ∧
      0 < args.length ∧ args.length < info.arity ∧
      (h.arity f - args.length) + args.length = info.arity ∧ h.arity f - args.length ≠ 0
  binds : ∀ c f info captured, h.resolve c = f → h.cell f = .function info captured →
    ∀ xs, h.bind c xs = binding info f xs
  again : ∀ c f info captured xs d, h.resolve c = f → h.cell f = .function info captured →
    h.bind c xs = .ok d → ∀ h₁, (h.allocate d).2.Later h₁ → ∀ p ys,
      h₁.resolve p = (h.allocate d).1 →
        h₁.bind p ys = binding info f (xs ++ ys) ∧ h₁.bind c (xs ++ ys) = binding info f (xs ++ ys) ∧
        h₁.cell (h.allocate d).1 = d ∧
        ∀ d₁, h₁.bind p ys = .ok d₁ → (h₁.allocate d₁).2.cell (h.allocate d).1 = d
  gathers : ∀ (program : Program κ) c f info captured parts, h.resolve c = f →
    h.cell f = .function info captured → parts.flatMap Part.args ≠ [] →
      (parts.flatMap Part.args).length < info.arity →
        Comes program (fun h' p => h'.cell (h'.resolve p) =
          .unsaturated f (parts.flatMap Part.args)) parts h c

theorem Flat.remaining {p : Address} {args : List Value} (hh : h.Flat)
    (hp : h.cell p = .unsaturated f args) :
    ∃ info captured, h.cell f = .function info captured ∧ h.arity f = info.arity ∧
      0 < args.length ∧ args.length < info.arity ∧
      (h.arity f - args.length) + args.length = info.arity ∧ h.arity f - args.length ≠ 0 := by
  obtain ⟨info, captured, hf, hne, hl⟩ := hh p f args hp
  have ha : h.arity f = info.arity := by
    rw [arity, hf]
    rfl
  refine ⟨info, captured, function?_eq_some_iff.1 hf, ha, List.length_pos_iff.2 hne, hl, ?_, ?_⟩
  · rw [ha]
    omega
  · omega

theorem bind_again {d : Cell κ} {h₁ : Heap κ} {p : Address}
    (hc : h.callee? (h.resolve c) = some (f, [])) (hf : h.function? f = some (info, captured))
    (hb : h.bind c xs = .ok d) (hl : (h.allocate d).2.Later h₁)
    (hp : h₁.resolve p = (h.allocate d).1) (ys : List Value) :
    h₁.bind p ys = binding info f (xs ++ ys) ∧ h₁.bind c (xs ++ ys) = binding info f (xs ++ ys) ∧
      h₁.cell (h.allocate d).1 = d ∧
      ∀ d₁, h₁.bind p ys = .ok d₁ → (h₁.allocate d₁).2.cell (h.allocate d).1 = d := by
  have hlater : h.Later h₁ := (grown_bind hb).matures.later.trans hl
  have hnew : (h.allocate d).2.cell (h.allocate d).1 = d :=
    (cell_allocate h d _).trans (if_pos rfl)
  obtain ⟨hne, rfl⟩ : xs ≠ [] ∧ .unsaturated f xs = d := by
    rw [bind_of_callee? hc hf, List.nil_append, binding] at hb
    split at hb
    · next hs => exact ⟨List.length_pos_iff.1 hs.1, Except.ok.inj hb⟩
    · cases hb
  have hq : h₁.callee? (h.allocate (.unsaturated f xs)).1 = some (f, xs) :=
    hl.callee? (callee?_eq_some_iff.2 (.inr hnew))
  have hcell : h₁.cell (h.allocate (.unsaturated f xs)).1 = .unsaturated f xs := by
    rcases callee?_eq_some_iff.1 hq with ⟨_, _, -, -, hx⟩ | hx
    · exact absurd hx hne
    · exact hx
  refine ⟨bind_of_callee? (by rwa [hp]) (hlater.function? hf) ys,
    bind_of_callee? (hlater.callee?_resolve hc) (hlater.function? hf) (xs ++ ys), hcell,
    fun d₁ _ => ?_⟩
  rw [cell_allocate_of_lt (lt_size_of_callee? hq), hcell]

/-- In every heap that arises, unsaturated applications are well formed and flattened. -/
theorem flattens_of_arises (hh : Arises h) : h.Flattens := by
  have hcallee : ∀ {c f info captured}, h.resolve c = f → h.cell f = .function info captured →
      h.callee? (h.resolve c) = some (f, []) ∧ h.function? f = some (info, captured) := by
    rintro c f info captured rfl hf
    have hf := function?_eq_some_iff.2 hf
    exact ⟨callee?_of_function? hf, hf⟩
  constructor
  case wellFormed => exact fun p f args hp => hh.flat.remaining hp
  case binds =>
    intro c f info captured hc hf
    obtain ⟨hc, hf⟩ := hcallee hc hf
    exact bind_of_callee? hc hf
  case again =>
    intro c f info captured xs d hc hf hb h₁ hl p ys hp
    obtain ⟨hc, hf⟩ := hcallee hc hf
    exact bind_again hc hf hb hl hp ys
  case gathers =>
    intro program c f info captured parts hc hf hne hl
    obtain ⟨hc, hf⟩ := hcallee hc hf
    refine (comes_of_callee? program parts hc hf hl).mono fun h' p hp => ?_
    rcases callee?_eq_some_iff.1 hp with ⟨_, _, -, -, hnil⟩ | hp
    · exact absurd hnil hne
    · exact hp

def redirected : Heap Unit :=
  ⟨#[.function ⟨"triple", 3, ()⟩ [], .thunk (.evaluated ⟨0⟩)]⟩

theorem arises_redirected : redirected.Arises := by
  have hfunction := Arises.empty.allocate (.function ⟨"triple", 3, ()⟩ [])
  have hthunk := hfunction.allocate (.thunk ⟨(), []⟩)
  exact hthunk.change (a := ⟨1⟩) (.evaluated ⟨0⟩) rfl

theorem flattens_redirected :
    redirected.Arises ∧ redirected.resolve ⟨1⟩ = ⟨0⟩ ∧
      redirected.bind ⟨1⟩ [.int 1] = .ok (.unsaturated ⟨0⟩ [.int 1]) ∧
      (let h₁ := (redirected.allocate (.unsaturated ⟨0⟩ [.int 1])).2
      h₁.arity ⟨0⟩ - [Value.int 1].length ≠ 0 ∧
        h₁.bind ⟨2⟩ [.char 'a'] = .ok (.unsaturated ⟨0⟩ [.int 1, .char 'a']) ∧
        h₁.bind ⟨2⟩ [.char 'a', .bool true] = .error (.malformedPartial "triple" 3 3) ∧
        h₁.bind ⟨1⟩ [.int 1, .char 'a', .bool true] = .error (.malformedPartial "triple" 3 3)) ∧
      Comes ⟨fun _ _ => .diverge⟩ (fun h p => h.cell (h.resolve p) =
        .unsaturated ⟨0⟩ [.int 1, .char 'a']) [.called [], .waiting (.int 1) [], .called [.char 'a']]
        redirected ⟨1⟩ := by
  have hf := flattens_of_arises arises_redirected
  have hbind := hf.binds ⟨1⟩ ⟨0⟩ _ _ rfl rfl [.int 1]
  have hagain (ys : List Value) :=
    hf.again ⟨1⟩ ⟨0⟩ _ _ [.int 1] _ rfl rfl hbind _ (.refl _) ⟨2⟩ ys rfl
  obtain ⟨_, _, -, -, -, -, -, hrest⟩ :=
    (flattens_of_arises (arises_redirected.bind hbind)).wellFormed ⟨2⟩ ⟨0⟩ [.int 1] rfl
  exact ⟨arises_redirected, rfl, hbind, ⟨hrest, (hagain _).1, (hagain _).1, (hagain _).2.1⟩,
    hf.gathers _ ⟨1⟩ ⟨0⟩ _ _ [.called [], .waiting (.int 1) [], .called [.char 'a']] rfl rfl
      (by decide) (by decide)⟩

end Flattening

end Heap

end GraphReduction
