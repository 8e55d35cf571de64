import GraphReduction.Proofs.Closed
import Mathlib.Logic.Relator
import Mathlib.Order.Defs.PartialOrder

namespace GraphReduction

variable {κ : Type}

structure Renaming where
  rel : Address → Address → Prop
  biUnique : Relator.BiUnique rel

namespace Renaming

instance : Preorder Renaming where
  le ρ σ := ∀ a a', ρ.rel a a' → σ.rel a a'
  le_refl _ _ _ := id
  le_trans _ _ _ h₁ h₂ a a' h := h₂ a a' (h₁ a a' h)

def identity (n : Nat) : Renaming where
  rel a a' := a.index < n ∧ a' = a
  biUnique := ⟨fun _ _ _ h h' => h.2.symm.trans h'.2, fun _ _ _ h h' => h.2.trans h'.2.symm⟩

def extend (ρ : Renaming) (a a' : Address) (ha : ∀ b, ¬ ρ.rel a b) (ha' : ∀ b, ¬ ρ.rel b a') :
    Renaming where
  rel b b' := ρ.rel b b' ∨ b = a ∧ b' = a'
  biUnique := by
    constructor
    · rintro b c d (hb | ⟨rfl, rfl⟩) (hc | ⟨rfl, hd⟩)
      · exact ρ.biUnique.1 hb hc
      · exact absurd (hd ▸ hb) (ha' b)
      · exact absurd hc (ha' c)
      · rfl
    · rintro b c d (hc | ⟨rfl, rfl⟩) (hd | ⟨hb, rfl⟩)
      · exact ρ.biUnique.2 hc hd
      · exact absurd (hb ▸ hc) (ha c)
      · exact absurd hd (ha d)
      · rfl

theorem le_extend {ρ : Renaming} {a a' : Address} (ha : ∀ b, ¬ ρ.rel a b)
    (ha' : ∀ b, ¬ ρ.rel b a') : ρ ≤ ρ.extend a a' ha ha' :=
  fun _ _ => .inl

end Renaming

section Correspondence

variable {ρ σ : Renaming}

inductive Value.Twin (ρ : Renaming) : Value → Value → Prop where
  | boxed {a a' : Address} : ρ.rel a a' → Twin ρ (.boxed a) (.boxed a')
  | primitive {v : Value} : v.kind ≠ .boxed → Twin ρ v v

abbrev AllTwin (ρ : Renaming) : List Value → List Value → Prop := List.Forall₂ (Value.Twin ρ)

inductive Frame.Twin (ρ : Renaming) : Frame κ → Frame κ → Prop where
  | apply {v v' : Value} : v.Twin ρ v' → Twin ρ (.apply v) (.apply v')
  | update {a a' : Address} : ρ.rel a a' → Twin ρ (.update a) (.update a')
  | case (code : κ) {vs vs' : List Value} : AllTwin ρ vs vs' → Twin ρ (.case code vs) (.case code vs')
  | handler {f f' : Address} : ρ.rel f f' → Twin ρ (.handler f) (.handler f')

/-- Who evaluates a thunk, and who waits for it, may differ. -/
inductive Cell.Twin (ρ : Renaming) : Cell κ → Cell κ → Prop where
  | function (info : FunctionInfo κ) {vs vs' : List Value} : AllTwin ρ vs vs' →
      Twin ρ (.function info vs) (.function info vs')
  | unevaluated (code : κ) {vs vs' : List Value} : AllTwin ρ vs vs' →
      Twin ρ (.thunk (.unevaluated ⟨code, vs⟩)) (.thunk (.unevaluated ⟨code, vs'⟩))
  | underEvaluation (t t' : ThreadId) (blocked blocked' : List (Thread κ)) (code : κ)
      {vs vs' : List Value} : AllTwin ρ vs vs' →
      Twin ρ (.thunk (.underEvaluation t ⟨code, vs⟩ blocked))
        (.thunk (.underEvaluation t' ⟨code, vs'⟩ blocked'))
  | evaluated {a a' : Address} : ρ.rel a a' →
      Twin ρ (.thunk (.evaluated a)) (.thunk (.evaluated a'))
  | data (c : Constructor) {vs vs' : List Value} : AllTwin ρ vs vs' →
      Twin ρ (.data c vs) (.data c vs')
  | unsaturated {f f' : Address} {vs vs' : List Value} : ρ.rel f f' → AllTwin ρ vs vs' →
      Twin ρ (.unsaturated f vs) (.unsaturated f' vs')

inductive Step.Twin (ρ : Renaming) : Step → Step → Prop where
  | resume : Twin ρ .resume .resume
  | enter {a a' : Address} : ρ.rel a a' → Twin ρ (.enter a) (.enter a')
  | apply {f f' : Address} {vs vs' : List Value} : ρ.rel f f' → AllTwin ρ vs vs' →
      Twin ρ (.apply f vs) (.apply f' vs')
  | throw {a a' : Address} : ρ.rel a a' → Twin ρ (.throw a) (.throw a')

theorem Value.Twin.mono (h : ρ ≤ σ) {v v' : Value} (hv : v.Twin ρ v') : v.Twin σ v' := by
  cases hv with
  | boxed ha => exact .boxed (h _ _ ha)
  | primitive hk => exact .primitive hk

theorem AllTwin.mono (h : ρ ≤ σ) {vs vs' : List Value} (hv : AllTwin ρ vs vs') : AllTwin σ vs vs' :=
  List.Forall₂.imp (fun _ _ hv => hv.mono h) hv

theorem Frame.Twin.mono (h : ρ ≤ σ) {frame frame' : Frame κ} (hf : frame.Twin ρ frame') :
    frame.Twin σ frame' := by
  cases hf with
  | apply hv => exact .apply (hv.mono h)
  | update ha => exact .update (h _ _ ha)
  | case code hv => exact .case code (AllTwin.mono h hv)
  | handler hf => exact .handler (h _ _ hf)

theorem Cell.Twin.mono (h : ρ ≤ σ) {c c' : Cell κ} (hc : c.Twin ρ c') : c.Twin σ c' := by
  cases hc with
  | function info hv => exact .function info (AllTwin.mono h hv)
  | unevaluated code hv => exact .unevaluated code (AllTwin.mono h hv)
  | underEvaluation t t' blocked blocked' code hv =>
    exact .underEvaluation t t' blocked blocked' code (AllTwin.mono h hv)
  | evaluated ha => exact .evaluated (h _ _ ha)
  | data c hv => exact .data c (AllTwin.mono h hv)
  | unsaturated hf hv => exact .unsaturated (h _ _ hf) (AllTwin.mono h hv)

theorem Value.Twin.kind_eq {v v' : Value} (hv : v.Twin ρ v') : v'.kind = v.kind := by
  cases hv <;> rfl

theorem AllTwin.kinds_eq {vs vs' : List Value} (hv : AllTwin ρ vs vs') :
    vs'.map Value.kind = vs.map Value.kind := by
  induction hv with
  | nil => rfl
  | cons hv _ ih => rw [List.map_cons, List.map_cons, hv.kind_eq, ih]

theorem AllTwin.isEmpty_eq {vs vs' : List Value} (hv : AllTwin ρ vs vs') :
    vs'.isEmpty = vs.isEmpty := by
  cases hv <;> rfl

theorem Value.twin_self {n : Nat} (hρ : ∀ a, a.index < n → ρ.rel a a) {v : Value}
    (hv : v.Within n) : v.Twin ρ v := by
  cases v with
  | boxed a => exact .boxed (hρ a hv)
  | _ => exact .primitive nofun

theorem AllTwin.self {n : Nat} (hρ : ∀ a, a.index < n → ρ.rel a a) {vs : List Value}
    (hv : AllWithin n vs) : AllTwin ρ vs vs := by
  induction vs with
  | nil => exact .nil
  | cons v vs ih =>
    exact .cons (Value.twin_self hρ (hv v List.mem_cons_self))
      (ih fun w hw => hv w (List.mem_cons_of_mem v hw))

theorem Cell.twin_self {n : Nat} (hρ : ∀ a, a.index < n → ρ.rel a a) {c : Cell κ}
    (hc : c.Within n) : c.Twin ρ c := by
  cases c with
  | function info captured => exact .function info (AllTwin.self hρ hc)
  | data c fields => exact .data c (AllTwin.self hρ hc)
  | unsaturated f args => exact .unsaturated (hρ f hc.1) (AllTwin.self hρ hc.2)
  | thunk state =>
    cases state with
    | unevaluated body => exact .unevaluated body.code (AllTwin.self hρ hc)
    | underEvaluation t body blocked =>
      exact .underEvaluation t t blocked blocked body.code (AllTwin.self hρ hc)
    | evaluated a => exact .evaluated (hρ a hc)

theorem AllTwin.exists_apply {vs : List Value} {fs : List (Frame κ)}
    (h : List.Forall₂ (Frame.Twin ρ) (vs.map .apply) fs) :
    ∃ vs', fs = vs'.map .apply ∧ AllTwin ρ vs vs' := by
  induction vs generalizing fs with
  | nil =>
    cases h
    exact ⟨[], rfl, .nil⟩
  | cons v vs ih =>
    obtain ⟨frame, rest, hf, hrest, rfl⟩ := List.forall₂_cons_left_iff.1 h
    obtain ⟨vs', rfl, hvs⟩ := ih hrest
    cases hf with
    | apply hv => exact ⟨_ :: vs', rfl, .cons hv hvs⟩

end Correspondence

structure Heap.Twin (ρ : Renaming) (h h' : Heap κ) : Prop where
  cells : ∀ a a', ρ.rel a a' → (h.cell a).Twin ρ (h'.cell a')
  lt_size : ∀ a a', ρ.rel a a' → a.index < h.size ∧ a'.index < h'.size
  flat : h.Flat
  directed : h.Directed

namespace Heap.Twin

variable {ρ : Renaming} {h h' : Heap κ} {a a' : Address}

section Reading

variable (ht : h.Twin ρ h') (ha : ρ.rel a a')
include ht ha

theorem exists_cells : ∃ c c', h.cell a = c ∧ h'.cell a' = c' ∧ c.Twin ρ c' :=
  ⟨_, _, rfl, rfl, ht.cells a a' ha⟩

theorem target? : (h.target? a = none ∧ h'.target? a' = none) ∨
    ∃ b b', h.target? a = some b ∧ h'.target? a' = some b' ∧ ρ.rel b b' := by
  obtain ⟨c, c', hc, hc', hcells⟩ := ht.exists_cells ha
  rw [Heap.target?, Heap.target?, hc, hc']
  cases hcells with
  | evaluated hv => exact .inr ⟨_, _, rfl, rfl, hv⟩
  | _ => exact .inl ⟨rfl, rfl⟩

theorem exists_leads {b : Address} (hl : h.Leads a b) : ∃ b', ρ.rel b b' ∧ h'.Leads a' b' := by
  induction hl with
  | refl => exact ⟨a', ha, .refl⟩
  | tail _ hs ih =>
    obtain ⟨b', hb, hl'⟩ := ih
    rcases ht.target? hb with ⟨hn, -⟩ | ⟨c, c', hc, hc', hrel⟩
    · rw [hn] at hs
      cases hs
    · obtain rfl := Option.some.inj (hc.symm.trans hs)
      exact ⟨c', hrel, hl'.tail hc'⟩

theorem resolve : ρ.rel (h.resolve a) (h'.resolve a') := by
  obtain ⟨hn, hl⟩ := ht.directed.resolve_spec a
  obtain ⟨b', hb, hl'⟩ := ht.exists_leads ha hl
  rcases ht.target? hb with ⟨-, hn'⟩ | ⟨c, c', hc, -⟩
  · rwa [hl'.resolve_eq hn']
  · rw [hn] at hc
    cases hc

theorem variant_eq : h'.variant a' = h.variant a := by
  obtain ⟨c, c', hc, hc', hcells⟩ := ht.exists_cells ha
  rw [Heap.variant, Heap.variant, hc, hc']
  cases hcells <;> rfl

theorem isThunk_eq : h'.isThunk a' = h.isThunk a := by
  obtain ⟨c, c', hc, hc', hcells⟩ := ht.exists_cells ha
  rw [Heap.isThunk, Heap.isThunk, Heap.thunk?, Heap.thunk?, hc, hc']
  cases hcells <;> rfl

theorem isValue_eq : h'.isValue a' = h.isValue a := by
  rw [Heap.isValue, Heap.isValue, ht.variant_eq (ht.resolve ha)]

theorem callee? : (h.callee? a = none ∧ h'.callee? a' = none) ∨
    ∃ f f' bound bound', h.callee? a = some (f, bound) ∧ h'.callee? a' = some (f', bound') ∧
      ρ.rel f f' ∧ AllTwin ρ bound bound' := by
  obtain ⟨c, c', hc, hc', hcells⟩ := ht.exists_cells ha
  rw [Heap.callee?, Heap.callee?, hc, hc']
  cases hcells with
  | function info hv => exact .inr ⟨_, _, _, _, rfl, rfl, ha, .nil⟩
  | unsaturated hf hv => exact .inr ⟨_, _, _, _, rfl, rfl, hf, hv⟩
  | _ => exact .inl ⟨rfl, rfl⟩

theorem function? : (h.function? a = none ∧ h'.function? a' = none) ∨
    ∃ info captured captured', h.function? a = some (info, captured) ∧
      h'.function? a' = some (info, captured') ∧ AllTwin ρ captured captured' := by
  obtain ⟨c, c', hc, hc', hcells⟩ := ht.exists_cells ha
  rw [Heap.function?, Heap.function?, hc, hc']
  cases hcells with
  | function info hv => exact .inr ⟨_, _, _, rfl, rfl, hv⟩
  | _ => exact .inl ⟨rfl, rfl⟩

theorem exists_callee {f : Address} {bound : List Value} (hc : h.callee? a = some (f, bound)) :
    ∃ f' bound', h'.callee? a' = some (f', bound') ∧ ρ.rel f f' ∧ AllTwin ρ bound bound' := by
  obtain ⟨hn, -⟩ | ⟨f₁, f', bound₁, bound', hc₁, hc', hf, hbound⟩ := ht.callee? ha
  · rw [hn] at hc
    cases hc
  obtain ⟨rfl, rfl⟩ := Prod.mk.inj (Option.some.inj (hc₁.symm.trans hc))
  exact ⟨f', bound', hc', hf, hbound⟩

theorem exists_function {info : FunctionInfo κ} {captured : List Value}
    (hf : h.function? a = some (info, captured)) :
    ∃ captured', h'.function? a' = some (info, captured') ∧ AllTwin ρ captured captured' := by
  obtain ⟨hn, -⟩ | ⟨info₁, captured₁, captured', hf₁, hf', hcaptured⟩ := ht.function? ha
  · rw [hn] at hf
    cases hf
  obtain ⟨rfl, rfl⟩ := Prod.mk.inj (Option.some.inj (hf₁.symm.trans hf))
  exact ⟨captured', hf', hcaptured⟩

theorem bind {args args' : List Value} (hargs : AllTwin ρ args args') :
    (∃ e, h.bind a args = .error e ∧ h'.bind a' args' = .error e) ∨
      ∃ c c', h.bind a args = .ok c ∧ h'.bind a' args' = .ok c' ∧ c.Twin ρ c' := by
  have hr := ht.resolve ha
  simp only [Heap.bind]
  rcases ht.callee? hr with ⟨hc, hc'⟩ | ⟨g, g', bound, bound', hc, hc', hg, hbound⟩
  · simp only [hc, hc', ht.variant_eq hr, hargs.length_eq]
    exact .inl ⟨_, rfl, rfl⟩
  have hall : AllTwin ρ (bound ++ args) (bound' ++ args') := List.rel_append hbound hargs
  rcases ht.function? hg with ⟨hf, hf'⟩ | ⟨info, captured, captured', hf, hf', -⟩
  · simp only [hc, hc', hf, hf', ht.variant_eq hg, ← hall.length_eq]
    exact .inl ⟨_, rfl, rfl⟩
  · simp only [hc, hc', hf, hf', hall.isEmpty_eq, ← hall.length_eq]
    split
    · exact .inl ⟨_, rfl, rfl⟩
    · exact .inr ⟨_, _, rfl, rfl, .unsaturated hg hall⟩

end Reading

section Changing

variable (ht : h.Twin ρ h')
include ht

theorem fresh (b : Address) : ¬ ρ.rel ⟨h.size⟩ b :=
  fun hb => Nat.lt_irrefl _ (ht.lt_size _ _ hb).1

theorem fresh' (b : Address) : ¬ ρ.rel b ⟨h'.size⟩ :=
  fun hb => Nat.lt_irrefl _ (ht.lt_size _ _ hb).2

def next : Renaming := ρ.extend ⟨h.size⟩ ⟨h'.size⟩ ht.fresh ht.fresh'

theorem le_next : ρ ≤ ht.next := Renaming.le_extend _ _

theorem allocate {c c' : Cell κ} (hc : c.Twin ρ c') (hg : h.Grown (h.allocate c).2) :
    (h.allocate c).2.Twin ht.next (h'.allocate c').2 where
  cells b b' hb := by
    rcases hb with hb | ⟨rfl, rfl⟩
    · obtain ⟨hlt, hlt'⟩ := ht.lt_size b b' hb
      rw [Heap.cell_allocate_of_lt hlt, Heap.cell_allocate_of_lt hlt']
      exact (ht.cells b b' hb).mono ht.le_next
    · rw [Heap.cell_allocate, if_pos rfl, Heap.cell_allocate, if_pos rfl]
      exact hc.mono ht.le_next
  lt_size b b' hb := by
    rw [Heap.size_allocate, Heap.size_allocate]
    rcases hb with hb | ⟨rfl, rfl⟩
    · exact (ht.lt_size b b' hb).imp Nat.lt_succ_of_lt Nat.lt_succ_of_lt
    · exact ⟨Nat.lt_succ_self _, Nat.lt_succ_self _⟩
  flat := hg.flat ht.flat
  directed := by
    refine (CellOperations.keeps_allocate fun state hs => ?_).directed ht.directed
    exact hg.new ⟨h.size⟩ state (Nat.le_refl _) (by rw [Heap.cell_allocate, if_pos rfl, hs])

theorem write {s s' t t' : ThunkState κ} (ha : ρ.rel a a') (hs : h.cell a = .thunk s)
    (hs' : h'.cell a' = .thunk s') (hstate : (Cell.thunk t).Twin ρ (.thunk t'))
    (hk : CellOperations.Keeps h (h.write a (.thunk t))) :
    (h.write a (.thunk t)).Twin ρ (h'.write a' (.thunk t')) where
  cells b b' hb := by
    by_cases hab : a = b
    · subst hab
      obtain rfl := ρ.biUnique.2 ha hb
      rw [Heap.cell_write_thunk hs, Heap.cell_write_thunk hs']
      exact hstate
    · have hab' : a' ≠ b' := fun he => hab (ρ.biUnique.1 ha (he ▸ hb))
      rw [Heap.cell_write_of_ne hab, Heap.cell_write_of_ne hab']
      exact ht.cells b b' hb
  lt_size b b' hb := by
    rw [Heap.size_write, Heap.size_write]
    exact ht.lt_size b b' hb
  flat := Heap.flat_write ht.flat hs
  directed := hk.directed ht.directed

theorem allocate_left {c : Cell κ} (hg : h.Grown (h.allocate c).2) :
    (h.allocate c).2.Twin ρ h' where
  cells b b' hb := by
    rw [Heap.cell_allocate_of_lt (ht.lt_size b b' hb).1]
    exact ht.cells b b' hb
  lt_size b b' hb := by
    rw [Heap.size_allocate]
    exact (ht.lt_size b b' hb).imp_left Nat.lt_succ_of_lt
  flat := hg.flat ht.flat
  directed := by
    refine (CellOperations.keeps_allocate fun state hs => ?_).directed ht.directed
    exact hg.new ⟨h.size⟩ state (Nat.le_refl _) (by rw [Heap.cell_allocate, if_pos rfl, hs])

theorem write_left {s t : ThunkState κ} (ha : ∀ b, ¬ ρ.rel a b) (hs : h.cell a = .thunk s)
    (hk : CellOperations.Keeps h (h.write a (.thunk t))) : (h.write a (.thunk t)).Twin ρ h' where
  cells b b' hb := by
    have hab : a ≠ b := fun he => ha b' (he ▸ hb)
    rw [Heap.cell_write_of_ne hab]
    exact ht.cells b b' hb
  lt_size b b' hb := by
    rw [Heap.size_write]
    exact ht.lt_size b b' hb
  flat := Heap.flat_write ht.flat hs
  directed := hk.directed ht.directed

theorem settle_left {v : Address} (ha : ∀ b, ¬ ρ.rel a b) (hown : (h.owner? a).isSome)
    (hv : h.Valued v) : (h.settle a v).2.Twin ρ h' := by
  obtain ⟨t, hown⟩ := Option.isSome_iff_exists.1 hown
  obtain ⟨body, blocked, hc⟩ := Heap.owner?_eq_some_iff.1 hown
  have hn : h.target? a = none := by rw [Heap.target?, hc]
  have hupdate : h.update a v = .ok (h.settle a v) := by rw [Heap.update, hn]
  have hk := CellOperations.keeps_update hupdate hv
  simp only [Heap.settle, hc] at hk ⊢
  exact ht.write_left ha hc hk

end Changing

end Heap.Twin

namespace Heap

variable {h h' : Heap κ} {a a' b : Address}

theorem cell_settle_of_ne (hab : a ≠ b) (v : Address) : (h.settle a v).2.cell b = h.cell b := by
  unfold settle
  split
  · exact cell_write_of_ne hab
  · exact cell_write_of_ne hab
  · rfl

/-- The graphs of two closures, each in its heap, have the same shape. -/
def SameGraph (h h' : Heap κ) (a a' : Address) : Prop :=
  ∃ ρ : Renaming, ρ.rel a a' ∧ ∀ b b', ρ.rel b b' → (h.cell b).Twin ρ (h'.cell b')

theorem Twin.sameGraph_settle {ρ : Renaming} (ht : h.Twin ρ h') (ha : ρ.rel a a') {u u' : Address}
    (hu : ∀ b, ¬ ρ.rel u b) (hu' : ∀ b, ¬ ρ.rel b u') (v v' : Address) :
    SameGraph (h.settle u v).2 (h'.settle u' v').2 a a' := by
  refine ⟨ρ, ha, fun b b' hb => ?_⟩
  have hne : u ≠ b := fun he => hu b' (he ▸ hb)
  have hne' : u' ≠ b' := fun he => hu' b (he ▸ hb)
  rw [cell_settle_of_ne hne, cell_settle_of_ne hne']
  exact ht.cells b b' hb

end Heap

end GraphReduction
