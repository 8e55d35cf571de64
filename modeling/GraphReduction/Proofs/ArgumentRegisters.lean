import GraphReduction.Proofs.Calling
import Mathlib.Data.List.Count

namespace GraphReduction

open Evaluation

variable {κ : Type} {before kinds : List Kind} {slots : List Slot} {e : RuntimeError}

def Exceeds (kinds : List Kind) (i : Nat) (k : Kind) : Prop :=
  kinds[i]? = some k ∧ (kinds.take i).count k = registersPerKind

section Slots

theorem ofIndex_cases (k : Kind) (n : Nat) :
    (n < registersPerKind ∧ ∃ s, Slot.ofIndex k (n + 1) = .ok s) ∨
      (registersPerKind ≤ n ∧
        Slot.ofIndex k (n + 1) = .error (.registerExhausted k (n + 1) registersPerKind)) := by
  by_cases hn : n < registersPerKind
  · exact .inl ⟨hn, exists_ofIndex k (Nat.succ_pos n) hn⟩
  · right
    refine ⟨Nat.le_of_not_lt hn, ?_⟩
    rw [Slot.ofIndex, dif_neg fun h => hn h.2]

theorem count_append_le {k : Kind} (hb : ∀ j, before.count j ≤ registersPerKind)
    (hk : before.count k < registersPerKind) (j : Kind) :
    (before ++ [k]).count j ≤ registersPerKind := by
  have hj := hb j
  rw [List.count_append, List.count_singleton]
  by_cases he : k = j
  · subst he
    simp
    omega
  · simpa [he] using hj

theorem getElem?_layoutAfter (h : layoutAfter before kinds = .ok slots) {i : Nat} {s : Slot}
    (hs : slots[i]? = some s) :
    kinds[i]? = some s.kind ∧ s.index = (before ++ kinds.take i).count s.kind + 1 := by
  induction kinds generalizing before slots i with
  | nil =>
    cases h
    simp at hs
  | cons k ks ih =>
    obtain ⟨t, rest, ht, hr, rfl⟩ := layoutAfter_cons h
    cases i with
    | zero =>
      obtain rfl : t = s := by simpa using hs
      obtain ⟨rfl, hi⟩ := Slot.index_of_ofIndex ht
      simpa using hi
    | succ i =>
      obtain ⟨hk, hi⟩ := ih hr (by simpa using hs)
      refine ⟨by simpa using hk, ?_⟩
      rw [List.take_succ_cons, List.append_cons]
      exact hi

theorem count_le_of_layoutAfter (h : layoutAfter before kinds = .ok slots)
    (hb : ∀ k, before.count k ≤ registersPerKind) (k : Kind) :
    (before ++ kinds).count k ≤ registersPerKind := by
  induction kinds generalizing before slots with
  | nil => simpa using hb k
  | cons j ks ih =>
    obtain ⟨s, rest, hs, hr, rfl⟩ := layoutAfter_cons h
    obtain ⟨rfl, hi⟩ := Slot.index_of_ofIndex hs
    have hs : s.index ≤ registersPerKind := s.offset.isLt
    rw [List.append_cons]
    exact ih hr (count_append_le hb (by omega))

theorem layoutAfter_eq_error (h : layoutAfter before kinds = .error e)
    (hb : ∀ k, before.count k ≤ registersPerKind) :
    ∃ i k, kinds[i]? = some k ∧ (before ++ kinds.take i).count k = registersPerKind ∧
      (∀ j < i, ∀ k', kinds[j]? = some k' →
        (before ++ kinds.take j).count k' < registersPerKind) ∧
      e = .registerExhausted k (registersPerKind + 1) registersPerKind := by
  induction kinds generalizing before with
  | nil => cases h
  | cons k ks ih =>
    rcases ofIndex_cases k (before.count k) with ⟨hn, s, hs⟩ | ⟨hn, hs⟩
    · have hrest : layoutAfter (before ++ [k]) ks = .error e := by
        cases hr : layoutAfter (before ++ [k]) ks with
        | ok rest => simp [layoutAfter, hs, hr, bind, Except.bind, pure, Except.pure] at h
        | error e' => simpa [layoutAfter, hs, hr, bind, Except.bind] using h
      obtain ⟨i, k', hi, hc, hfirst, he⟩ := ih hrest (count_append_le hb hn)
      refine ⟨i + 1, k', by simpa using hi, ?_, ?_, he⟩
      · rwa [List.take_succ_cons, List.append_cons]
      · intro j hj l hl
        cases j with
        | zero =>
          obtain rfl : k = l := by simpa using hl
          simpa using hn
        | succ j =>
          rw [List.take_succ_cons, List.append_cons]
          exact hfirst j (by omega) l (by simpa using hl)
    · have hc : before.count k = registersPerKind := by
        have hk := hb k
        omega
      refine ⟨0, k, rfl, by simpa using hc, by simp, ?_⟩
      rw [layoutAfter, hs] at h
      cases h
      rw [hc]

theorem layoutFor_eq_error (h : layoutFor kinds = .error e) :
    ∃ i k, Exceeds kinds i k ∧ (∀ j l, Exceeds kinds j l → i ≤ j) ∧
      e = .registerExhausted k (registersPerKind + 1) registersPerKind := by
  rw [layoutFor_eq] at h
  obtain ⟨i, k, hi, hc, hfirst, he⟩ := layoutAfter_eq_error h (by simp)
  refine ⟨i, k, ⟨hi, by simpa using hc⟩, ?_, he⟩
  rintro j l ⟨hj, hcount⟩
  by_contra hlt
  have hless := hfirst j (Nat.lt_of_not_le hlt) l hj
  rw [List.nil_append] at hless
  omega

theorem Exceeds.lt_count {i : Nat} {k : Kind} (h : Exceeds kinds i k) :
    registersPerKind < kinds.count k := by
  obtain ⟨hi, hc⟩ := h
  obtain ⟨hlt, hk⟩ := List.getElem?_eq_some_iff.1 hi
  have hsplit : kinds.take i ++ k :: kinds.drop (i + 1) = kinds := by
    rw [← hk, ← List.drop_eq_getElem_cons hlt, List.take_append_drop]
  rw [← hsplit, List.count_append, List.count_cons_self, hc]
  omega

theorem exists_layoutFor_iff :
    (∃ slots, layoutFor kinds = .ok slots) ↔ ∀ k, kinds.count k ≤ registersPerKind := by
  constructor
  · rintro ⟨slots, h⟩ k
    rw [layoutFor_eq] at h
    exact count_le_of_layoutAfter h (by simp) k
  · intro hc
    cases h : layoutFor kinds with
    | ok slots => exact ⟨slots, rfl⟩
    | error e =>
      obtain ⟨i, k, hex, -⟩ := layoutFor_eq_error h
      exact absurd (hc k) (Nat.not_le_of_lt hex.lt_count)

end Slots

/-- Any mixture of arguments arrives in order, kind by kind, or is refused before the first of them is
loaded. -/
theorem calling_convention (args : List Value) :
    ((∃ slots, layoutFor (args.map Value.kind) = .ok slots) ↔
      ∀ k, (args.map Value.kind).count k ≤ registersPerKind) ∧
    (∀ slots, layoutFor (args.map Value.kind) = .ok slots →
      slots.length = args.length ∧ slots.Nodup ∧
      (∀ i s, slots[i]? = some s → (args.map Value.kind)[i]? = some s.kind ∧
        s.index = ((args.map Value.kind).take i).count s.kind + 1 ∧
        s.index ≤ registersPerKind) ∧
      ∀ (program : Program κ) (f : Address) (info : FunctionInfo κ) (captured : List Value)
        (m : Machine κ), m.heap.function? f = some (info, captured) →
        ∃ r, m.context.registers.Receives args r ∧
          load args slots m = .ok () (m.setRegisters r) ∧
          invokeAt program f args slots m = run program info.code captured (m.setRegisters r) ∧
          invoke program f args m = invokeAt program f args slots m) ∧
    ∀ e, layoutFor (args.map Value.kind) = .error e →
      ∃ i k, Exceeds (args.map Value.kind) i k ∧
        (∀ j l, Exceeds (args.map Value.kind) j l → i ≤ j) ∧
        e = .registerExhausted k (registersPerKind + 1) registersPerKind ∧
        ∀ (program : Program κ) (f : Address) (m : Machine κ),
          invoke program f args m = .error (.error e) m := by
  refine ⟨exists_layoutFor_iff, fun slots h => ?_, fun e h => ?_⟩
  · have hkinds := kinds_of_layoutFor h
    have hafter : layoutAfter [] (args.map Value.kind) = .ok slots := layoutFor_eq _ ▸ h
    refine ⟨by simpa using congrArg List.length hkinds, nodup_of_layoutAfter hafter,
      fun i s hs => ?_, fun program f info captured m hf => ?_⟩
    · obtain ⟨hk, hi⟩ := getElem?_layoutAfter hafter hs
      exact ⟨hk, hi, s.offset.isLt⟩
    · exact ⟨_, receives_loaded _ h, load_eq hkinds, invokeAt_eq_run hf hkinds, invoke_of_layout h⟩
  · obtain ⟨i, k, hex, hfirst, he⟩ := layoutFor_eq_error h
    exact ⟨i, k, hex, hfirst, he, fun program f m => invoke_of_error h⟩

section Mixtures

def mixture : List Value := [.int 4, .boxed ⟨2⟩, .int 5]

def crowd : List Value := .bool true :: List.replicate 17 (.char 'a') ++ List.replicate 17 (.int 0)

def threefold : Machine Unit := (default : Machine Unit).setHeap ⟨#[.function ⟨"f", 3, ()⟩ []]⟩

theorem calling_convention_mixture :
    (∃ r, invoke (κ := Unit) ⟨fun _ _ => .fail .interrupted⟩ ⟨0⟩ mixture threefold =
        .error (.error .interrupted) (threefold.setRegisters r) ∧
      r.read .int 2 = .ok (.int 5) ∧ r.read .int 3 = .ok (.int 0) ∧
      r.read .boxed 1 = .ok (.boxed ⟨2⟩)) ∧
    ∀ m : Machine Unit, invoke ⟨fun _ _ => .fail .interrupted⟩ ⟨0⟩ crowd m =
      .error (.error (.registerExhausted .char 17 16)) m := by
  have hmixture : layoutFor (mixture.map Value.kind) =
      .ok [⟨.int, 0⟩, ⟨.boxed, 0⟩, ⟨.int, 1⟩] := rfl
  have hcrowd : layoutFor (crowd.map Value.kind) = .error (.registerExhausted .char 17 16) := by
    decide
  obtain ⟨-, hfits, -⟩ := calling_convention (κ := Unit) mixture
  obtain ⟨-, -, -, hcall⟩ := hfits _ hmixture
  obtain ⟨r, hr, -, hrun, hinvoke⟩ :=
    hcall ⟨fun _ _ => .fail .interrupted⟩ ⟨0⟩ ⟨"f", 3, ()⟩ [] threefold rfl
  obtain ⟨-, -, hexceeds⟩ := calling_convention (κ := Unit) crowd
  obtain ⟨i, k, -, -, -, hfail⟩ := hexceeds _ hcrowd
  exact ⟨⟨r, hinvoke.trans hrun, hr .int 2, hr .int 3, hr .boxed 1⟩,
    fun m => hfail _ ⟨0⟩ m⟩

end Mixtures

end GraphReduction
