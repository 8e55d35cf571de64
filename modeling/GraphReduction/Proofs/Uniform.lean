import GraphReduction.Proofs.Agreement
import GraphReduction.Proofs.Twins

namespace GraphReduction

variable {κ α β : Type}

structure RuntimeError.Akin (e e' : RuntimeError) : Prop where
  catchable : e'.isCatchable = e.isCatchable
  name : e'.exceptionName = e.exceptionName

theorem RuntimeError.Akin.refl (e : RuntimeError) : e.Akin e := ⟨rfl, rfl⟩

theorem RuntimeError.Akin.overflow (l l' : Nat) : (stackOverflow l).Akin (stackOverflow l') :=
  ⟨rfl, rfl⟩

inductive Fault.Akin : Fault → Fault → Prop where
  | error {e e' : RuntimeError} : e.Akin e' → Akin (.error e) (.error e')
  | endless : Akin .endless .endless

theorem Fault.Akin.refl (e : Fault) : e.Akin e := by
  cases e with
  | error e => exact .error (.refl e)
  | endless => exact .endless

inductive Matched (P : Footing) (ρ : Renaming) (R : Renaming → α → α → Prop) (post : α → Need) :
    EStateM.Result Fault (Machine κ) α → EStateM.Result Fault (Machine κ) α → Prop where
  | ok {σ : Renaming} {a a' : α} {m m' : Machine κ} : ρ ≤ σ → R σ a a' → m.Twin P σ (post a) m' →
      Matched P ρ R post (.ok a m) (.ok a' m')
  | error {σ : Renaming} {e e' : Fault} {m m' : Machine κ} : ρ ≤ σ → e.Akin e' →
      m.Twin P σ (some []) m' → Matched P ρ R post (.error e m) (.error e' m')

section Matching

variable {P : Footing} {ρ σ : Renaming} {R : Renaming → α → α → Prop} {R' : Renaming → β → β → Prop}
  {post : α → Need} {post' : β → Need} {need : Need} {known : List Slot}

theorem Matched.of_le {r r' : EStateM.Result Fault (Machine κ) α} (hle : ρ ≤ σ)
    (h : Matched P σ R post r r') : Matched P ρ R post r r' := by
  cases h with
  | ok hσ hr ht => exact .ok (le_trans hle hσ) hr ht
  | error hσ he ht => exact .error (le_trans hle hσ) he ht

namespace Exec

def Matches (P : Footing) (ρ : Renaming) (need : Need) (R : Renaming → α → α → Prop)
    (post : α → Need) (x x' : Exec κ α) : Prop :=
  ∀ m m', m.Twin P ρ need m' → Matched P ρ R post (x m) (x' m')

variable {x x' : Exec κ α} {f f' : α → Exec κ β}

theorem matched_bind {m m' : Machine κ} (hx : Matched P ρ R post (x m) (x' m'))
    (hf : ∀ σ a a', ρ ≤ σ → R σ a a' → Matches P σ (post a) R' post' (f a) (f' a')) :
    Matched P ρ R' post' ((x >>= f) m) ((x' >>= f') m') := by
  generalize hr : x m = r at hx
  generalize hr' : x' m' = r' at hx
  cases hx with
  | ok hle hrel ht =>
    rw [bind_of_ok hr, bind_of_ok hr']
    exact (hf _ _ _ hle hrel _ _ ht).of_le hle
  | error hle he ht =>
    rw [bind_of_error hr, bind_of_error hr']
    exact .error hle he ht

theorem Matches.bind (hx : Matches P ρ need R post x x')
    (hf : ∀ σ a a', ρ ≤ σ → R σ a a' → Matches P σ (post a) R' post' (f a) (f' a')) :
    Matches P ρ need R' post' (x >>= f) (x' >>= f') :=
  fun m m' h => matched_bind (hx m m' h) hf

theorem matches_pure {a a' : α} (hr : R ρ a a') (hp : post a = need) :
    Matches P ρ need R post (pure a : Exec κ α) (pure a') :=
  fun _ _ h => .ok le_rfl hr (hp ▸ h)

theorem matches_throw {e e' : Fault} (he : e.Akin e') :
    Matches P ρ need R post (throw e : Exec κ α) (throw e') :=
  fun _ _ h => .error le_rfl he h.nothing

theorem matches_raise {e e' : RuntimeError} (he : e.Akin e') :
    Matches P ρ need R post (raise e : Exec κ α) (raise e') :=
  matches_throw (.error he)

theorem matches_report (target : Target) (remark remark' : Machine κ → Remark) :
    Matches P ρ need (fun _ _ _ => True) (fun _ => need) (report target remark)
      (report target remark') :=
  fun _ _ h => .ok le_rfl trivial (h.report target remark remark')

theorem matches_count (f : Counters → Counters) :
    Matches P ρ need (fun _ _ _ => True) (fun _ => need) (count f : Exec κ Unit) (count f) :=
  fun _ _ h => .ok le_rfl trivial (h.count f)

theorem matches_push {frame frame' : Frame κ} (hf : frame.Twin ρ frame') :
    Matches P ρ need (fun _ _ _ => True) (fun _ => need) (push frame) (push frame') := by
  intro m m' h
  rcases h.push hf with ⟨m₁, m₁', hm, hm', h₁⟩ | ⟨l, l', hm, hm'⟩
  · rw [push_of_ok hm, push_of_ok hm']
    exact .ok le_rfl trivial h₁
  · rw [push_of_error hm, push_of_error hm']
    exact .error le_rfl (.error (.overflow l l')) h.nothing

theorem matches_pushArguments {vs vs' : List Value} (hvs : AllTwin ρ vs vs') :
    Matches P ρ need (fun _ _ _ => True) (fun _ => need) (pushArguments vs : Exec κ Unit)
      (pushArguments vs') := by
  induction hvs with
  | nil => exact matches_pure trivial rfl
  | cons hv _ ih => exact ih.bind fun σ _ _ hle _ => matches_push (.apply (hv.mono hle))

theorem matches_giveBack {a a' : Address} (ha : ρ.rel a a') :
    Matches P ρ (some known) Step.Twin Step.need (giveBack a : Exec κ Step) (giveBack a') :=
  fun _ _ h => .ok le_rfl .resume
    ((h.setResult ha).of_subset (List.cons_subset_cons _ (List.nil_subset _)))

end Exec

end Matching

namespace Action

/-- The two do the same with closures that correspond. They look at nothing but the heap and
registers, leave to the frames below what is theirs, and do not look at what becomes of a spark. -/
inductive Twin : Renaming → Action κ Step → Action κ Step → Prop where
  | done {ρ : Renaming} {s s' : Step} : s.Twin ρ s' → Twin ρ (.done s) (.done s')
  | fail {ρ : Renaming} {e e' : RuntimeError} : e.Akin e' → Twin ρ (.fail e) (.fail e')
  | diverge {ρ : Renaming} : Twin ρ .diverge .diverge
  | readRegister {ρ : Renaming} (k : Kind) (i : Nat)
      {next next' : Except RuntimeError Value → Action κ Step} :
      (∀ v v', v.Twin ρ v' → Twin ρ (next (.ok v)) (next' (.ok v'))) →
      (∀ e, Twin ρ (next (.error e)) (next' (.error e))) →
      Twin ρ (.readRegister k i next) (.readRegister k i next')
  | writeRegister {ρ : Renaming} (i : Nat) {v v' : Value}
      {next next' : Except RuntimeError Unit → Action κ Step} : v.Twin ρ v' →
      (∀ r, Twin ρ (next r) (next' r)) → Twin ρ (.writeRegister i v next) (.writeRegister i v' next')
  | setResult {ρ : Renaming} {a a' : Address} {next next' : Action κ Step} : ρ.rel a a' →
      Twin ρ next next' → Twin ρ (.setResult a next) (.setResult a' next')
  | push {ρ : Renaming} {frame frame' : Frame κ}
      {next next' : Except RuntimeError Unit → Action κ Step} : frame.Twin ρ frame' →
      Twin ρ (next (.ok ())) (next' (.ok ())) →
      (∀ l l', Twin ρ (next (.error (.stackOverflow l))) (next' (.error (.stackOverflow l')))) →
      Twin ρ (.push frame next) (.push frame' next')
  | allocate {ρ : Renaming} {c c' : Allocation κ} {next next' : Address → Action κ Step} :
      c.cell.Twin ρ c'.cell →
      (∀ σ a a', ρ ≤ σ → σ.rel a a' → Twin σ (next a) (next' a')) →
      Twin ρ (.allocate c next) (.allocate c' next')
  | bindArgs {ρ : Renaming} {f f' : Address} {args args' : List Value}
      {next next' : Except RuntimeError Address → Action κ Step} : ρ.rel f f' →
      AllTwin ρ args args' →
      (∀ σ a a', ρ ≤ σ → σ.rel a a' → Twin σ (next (.ok a)) (next' (.ok a'))) →
      (∀ e, Twin ρ (next (.error e)) (next' (.error e))) →
      Twin ρ (.bindArgs f args next) (.bindArgs f' args' next')
  | observe {ρ : Renaming} {next next' : Heap κ → Action κ Step} :
      (∀ h h', h.Twin ρ h' → Twin ρ (next h) (next' h')) →
      Twin ρ (.observe next) (.observe next')
  | spark {ρ : Renaming} {a a' : Address} {next next' : Bool → Action κ Step} : ρ.rel a a' →
      (∀ b b', Twin ρ (next b) (next' b')) → Twin ρ (.spark a next) (.spark a' next')
  | log {ρ : Renaming} (s : String) {next next' : Action κ Step} : Twin ρ next next' →
      Twin ρ (.log s next) (.log s next')

variable {P : Footing} {ρ : Renaming} {known : List Slot} {x x' : Action κ Step}

theorem Twin.matches (hx : x.Twin ρ x') (ho : x.Obeys known) :
    Exec.Matches P ρ (some known) Step.Twin Step.need x.perform x'.perform := by
  induction hx generalizing known with
  | @done ρ s s' hs =>
    intro m m' h
    refine .ok le_rfl hs ?_
    cases s with
    | resume => exact h.of_subset (List.cons_subset.2 ⟨ho rfl, List.nil_subset _⟩)
    | block a => cases hs
    | _ => exact h.nothing
  | fail he => exact Exec.matches_raise he
  | diverge => exact Exec.matches_throw .endless
  | readRegister k i _ _ ih ihe =>
    intro m m' h
    unfold perform
    rcases h.read ho.1 with ⟨e, hr, hr'⟩ | ⟨v, v', hr, hr', hv⟩
    · rw [hr, hr']
      exact ihe e (ho.2 _) m m' h
    · rw [hr, hr']
      exact ih v v' hv (ho.2 _) m m' h
  | @writeRegister ρ i v v' next next' hv _ ih =>
    intro m m' h
    unfold perform
    rw [hv.kind_eq]
    cases hs : Slot.ofIndex v.kind i with
    | ok s =>
      have hput := h.put s.offset hv
      rw [← (Slot.index_of_ofIndex hs).1] at hput
      exact ih _ (ho.1 s hs) _ _ hput
    | error e => exact ih _ (ho.2 e) m m' h
  | setResult ha _ ih => exact fun m m' h => ih ho _ _ (h.setResult ha)
  | push hf _ _ ih ihe =>
    intro m m' h
    rcases h.push hf with ⟨m₁, m₁', hm, hm', h₁⟩ | ⟨l, l', hm, hm'⟩
    · simp only [perform, hm, hm']
      exact ih (ho _) _ _ h₁
    · simp only [perform, hm, hm']
      exact ihe l l' (ho _) _ _ h
  | allocate hc _ ih =>
    intro m m' h
    obtain ⟨σ, hle, hrel, h₁⟩ := h.allocate hc (m.heap.grown_allocation _)
    exact (ih σ _ _ hle hrel (ho _) _ _ h₁).of_le hle
  | bindArgs hf hargs _ _ ih ihe =>
    intro m m' h
    unfold perform
    rcases h.heap.bind hf hargs with ⟨e, hb, hb'⟩ | ⟨c, c', hb, hb', hc⟩
    · rw [hb, hb']
      exact ihe e (ho _) m m' h
    · rw [hb, hb']
      obtain ⟨σ, hle, hrel, h₁⟩ := h.allocate hc (Heap.grown_bind hb)
      exact (ih σ _ _ hle hrel (ho _) _ _ h₁).of_le hle
  | observe _ ih => exact fun m m' h => ih _ _ h.heap (ho _) m m' h
  | @spark ρ a a' next next' ha _ ih =>
    intro m m' h
    unfold perform
    refine ih _ _ ?_ _ _ h.spark
    rw [ho.1]
    exact ho.2
  | log s _ ih =>
    intro m m' h
    exact ih ho _ _ { h with calm := ⟨h.calm.1, h.calm.2⟩, calm' := ⟨h.calm'.1, h.calm'.2⟩ }

end Action

/-- Bodies treat what they capture alike, and the closures up to a size are the same. -/
def Program.Uniform (program : Program κ) (n : Nat) (cs : List (Call κ)) : Prop :=
  ∀ c ∈ cs, ∀ (ρ : Renaming) (captured : List Value), (∀ a, a.index < n → ρ.rel a a) →
    AllTwin ρ c.captured captured →
      (program.body c.code c.captured).Twin ρ (program.body c.code captured)

end GraphReduction
