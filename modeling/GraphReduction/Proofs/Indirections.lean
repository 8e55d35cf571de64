import GraphReduction.Proofs.Ownership
import Mathlib.Data.List.Nodup
import Mathlib.Data.List.Perm.Subperm
import Mathlib.Logic.Relation

namespace GraphReduction.Heap

variable {κ : Type} {h h' h'' : Heap κ} {a b : Address} {as bs : List Address}

section Chains

inductive Chain (h : Heap κ) : Address → List Address → Prop where
  | last {a : Address} : h.target? a = none → Chain h a [a]
  | cons {a b : Address} {as : List Address} :
      h.target? a = some b → Chain h b as → Chain h a (a :: as)

def Leads (h : Heap κ) : Address → Address → Prop :=
  Relation.ReflTransGen fun a b => h.target? a = some b

theorem Chain.unique (ha : h.Chain a as) (hb : h.Chain a bs) : as = bs := by
  induction ha generalizing bs with
  | last hn =>
    cases hb with
    | last => rfl
    | cons hs _ =>
      rw [hn] at hs
      cases hs
  | cons hs _ ih =>
    cases hb with
    | last hn =>
      rw [hs] at hn
      cases hn
    | cons hs' hb =>
      obtain rfl := Option.some.inj (hs.symm.trans hs')
      rw [ih hb]

theorem Chain.of_mem (ha : h.Chain a as) (hb : b ∈ as) :
    ∃ bs, h.Chain b bs ∧ bs.length ≤ as.length := by
  induction ha with
  | @last a hn =>
    obtain rfl := List.mem_singleton.1 hb
    exact ⟨[b], .last hn, Nat.le_refl _⟩
  | @cons a c as hs hc ih =>
    rcases List.mem_cons.1 hb with rfl | hb
    · exact ⟨_, .cons hs hc, Nat.le_refl _⟩
    · obtain ⟨bs, hbs, hl⟩ := ih hb
      exact ⟨bs, hbs, Nat.le_succ_of_le hl⟩

theorem Chain.nodup (ha : h.Chain a as) : as.Nodup := by
  -- Coming back to a closure, a chain would have no end.
  induction ha with
  | last => simp
  | @cons a b as hs hb ih =>
    refine List.nodup_cons.2 ⟨fun hm => ?_, ih⟩
    obtain ⟨bs, hbs, hl⟩ := hb.of_mem hm
    obtain rfl := hbs.unique (.cons hs hb)
    exact absurd hl (Nat.not_succ_le_self _)

theorem lt_size_of_target? (ha : h.target? a = some b) : a.index < h.size :=
  lt_size_of_cell_eq_thunk (target?_eq_some_iff.1 ha)

theorem length_le_size (hn : as.Nodup) (hlt : ∀ b ∈ as, b.index < h.size) :
    as.length ≤ h.size := by
  have hnodup : (as.map Address.index).Nodup :=
    List.Nodup.map_on (fun x _ y _ hxy => (Address.eq_iff x y).2 hxy) hn
  have hsub : as.map Address.index ⊆ List.range h.size := by
    intro n hn
    obtain ⟨b, hb, rfl⟩ := List.mem_map.1 hn
    exact List.mem_range.2 (hlt b hb)
  have hl := (List.subperm_of_subset hnodup hsub).length_le
  rwa [List.length_map, List.length_range] at hl

theorem Chain.length_le (ha : h.Chain a as) : as.length ≤ h.size + 1 := by
  -- Only the last closure of a chain can be outside the heap.
  have hsplit : ∃ init e, as = init ++ [e] ∧ ∀ b ∈ init, b.index < h.size := by
    induction ha with
    | last => exact ⟨[], _, rfl, by simp⟩
    | @cons a b as hs _ ih =>
      obtain ⟨init, e, rfl, hinit⟩ := ih
      refine ⟨a :: init, e, rfl, fun c hc => ?_⟩
      rcases List.mem_cons.1 hc with rfl | hc
      · exact lt_size_of_target? hs
      · exact hinit c hc
  obtain ⟨init, e, rfl, hinit⟩ := hsplit
  rw [List.length_append, List.length_singleton]
  exact Nat.succ_le_succ (length_le_size (List.nodup_append.1 ha.nodup).1 hinit)

theorem Chain.follow {n : Nat} (ha : h.Chain a as) (hn : as.length ≤ n + 1) :
    h.target? (h.follow n a) = none ∧ h.Leads a (h.follow n a) := by
  induction ha generalizing n with
  | @last a ht =>
    rw [follow_of_target?_eq_none n ht]
    exact ⟨ht, .refl⟩
  | @cons a b as hs hb ih =>
    cases n with
    | zero => cases hb <;> simp at hn
    | succ n =>
      obtain ⟨ht, hl⟩ := ih (Nat.le_of_succ_le_succ hn)
      rw [Heap.follow, hs]
      exact ⟨ht, .head hs hl⟩

theorem Chain.resolve (ha : h.Chain a as) :
    h.target? (h.resolve a) = none ∧ h.Leads a (h.resolve a) :=
  ha.follow ha.length_le

theorem Chain.exists_getLast? (ha : h.Chain a as) :
    ∃ e, as.getLast? = some e ∧ h.Leads a e ∧ h.target? e = none := by
  induction ha with
  | @last a ht => exact ⟨a, rfl, .refl, ht⟩
  | @cons a b as hs hb ih =>
    obtain ⟨e, he, hl, ht⟩ := ih
    refine ⟨e, ?_, .head hs hl, ht⟩
    cases hb <;> exact he

theorem Leads.eq_of_none (hab : h.Leads a b) (ha : h.target? a = none) : a = b := by
  cases hab.cases_head with
  | inl he => exact he
  | inr hs =>
    obtain ⟨c, hc, -⟩ := hs
    rw [ha] at hc
    cases hc

theorem Leads.end_unique {e : Address} (hab : h.Leads a b) (hb : h.target? b = none)
    (hae : h.Leads a e) (he : h.target? e = none) : b = e := by
  induction hab using Relation.ReflTransGen.head_induction_on with
  | refl => exact hae.eq_of_none hb
  | @head a c hs _ ih =>
    rcases hae.cases_head with rfl | ⟨d, hd, hde⟩
    · rw [he] at hs
      cases hs
    · obtain rfl := Option.some.inj (hs.symm.trans hd)
      exact ih hde

theorem Leads.exists_chain (hab : h.Leads a b) (hb : h.target? b = none) : ∃ as, h.Chain a as := by
  induction hab using Relation.ReflTransGen.head_induction_on with
  | refl => exact ⟨_, .last hb⟩
  | head hs _ ih =>
    obtain ⟨as, has⟩ := ih
    exact ⟨_, .cons hs has⟩

theorem Leads.resolve_eq (hab : h.Leads a b) (hb : h.target? b = none) : h.resolve a = b := by
  obtain ⟨as, has⟩ := hab.exists_chain hb
  obtain ⟨ht, hl⟩ := has.resolve
  exact hl.end_unique ht hab hb

theorem Chain.getLast? (ha : h.Chain a as) : as.getLast? = some (h.resolve a) := by
  obtain ⟨e, he, hl, ht⟩ := ha.exists_getLast?
  rw [he, hl.resolve_eq ht]

end Chains

section Values

inductive Valued (h : Heap κ) : Address → Prop where
  | value {a : Address} : a.index < h.size → h.isThunk a = false → Valued h a
  | indirection {a b : Address} : h.target? a = some b → Valued h b → Valued h a

def Directed (h : Heap κ) : Prop := ∀ a b, h.target? a = some b → h.Valued b

theorem isThunk_of_target? (ha : h.target? a = some b) : h.isThunk a = true := by
  rw [isThunk, thunk?_eq_some_iff.2 (target?_eq_some_iff.1 ha)]
  rfl

theorem target?_eq_none_of_isThunk (ha : h.isThunk a = false) : h.target? a = none := by
  cases ht : h.target? a with
  | none => rfl
  | some b =>
    rw [isThunk_of_target? ht] at ha
    cases ha

theorem variant_eq_thunk_iff : h.variant a = .thunk ↔ h.isThunk a = true ∧ h.target? a = none := by
  unfold variant isThunk thunk? target?
  split <;> simp_all

theorem variant_eq_indirection_iff :
    h.variant a = .indirection ↔ ∃ b, h.target? a = some b := by
  unfold variant target?
  split <;> simp_all

theorem Valued.lt_size (ha : h.Valued a) : a.index < h.size := by
  cases ha with
  | value hlt => exact hlt
  | indirection hs => exact lt_size_of_target? hs

theorem Valued.exists_end (ha : h.Valued a) :
    ∃ e, h.Leads a e ∧ h.isThunk e = false ∧ h.target? e = none := by
  induction ha with
  | @value a _ hn => exact ⟨a, .refl, hn, target?_eq_none_of_isThunk hn⟩
  | indirection hs _ ih =>
    obtain ⟨e, hl, he⟩ := ih
    exact ⟨e, .head hs hl, he⟩

theorem Valued.isThunk_resolve (ha : h.Valued a) : h.isThunk (h.resolve a) = false := by
  obtain ⟨e, hl, hn, ht⟩ := ha.exists_end
  rwa [hl.resolve_eq ht]

theorem Valued.isValue (ha : h.Valued a) : h.isValue a = true := by
  have hn : ¬ h.variant (h.resolve a) = .thunk := fun hv => by
    have hv := (variant_eq_thunk_iff.1 hv).1
    rw [ha.isThunk_resolve] at hv
    cases hv
  simpa [Heap.isValue] using hn

theorem Valued.of_leads (hab : h.Leads a b) (hb : h.Valued b) : h.Valued a := by
  induction hab using Relation.ReflTransGen.head_induction_on with
  | refl => exact hb
  | head hs _ ih => exact .indirection hs ih

theorem Valued.leads (ha : h.Valued a) (hab : h.Leads a b) : h.Valued b := by
  induction hab using Relation.ReflTransGen.head_induction_on with
  | refl => exact ha
  | head hs _ ih =>
    refine ih ?_
    cases ha with
    | value _ hn =>
      rw [target?_eq_none_of_isThunk hn] at hs
      cases hs
    | indirection hs' hb =>
      obtain rfl := Option.some.inj (hs.symm.trans hs')
      exact hb

namespace Directed

variable (hd : h.Directed)
include hd

theorem exists_chain (a : Address) : ∃ as, h.Chain a as := by
  cases ht : h.target? a with
  | none => exact ⟨_, .last ht⟩
  | some b =>
    obtain ⟨e, hl, -, hn⟩ := (hd a b ht).exists_end
    exact Leads.exists_chain (.head ht hl) hn

theorem resolve_spec (a : Address) : h.target? (h.resolve a) = none ∧ h.Leads a (h.resolve a) :=
  (hd.exists_chain a).elim fun _ ha => ha.resolve

theorem resolve_of_target? (ha : h.target? a = some b) : h.resolve a = h.resolve b := by
  obtain ⟨hn, hl⟩ := hd.resolve_spec b
  exact Leads.resolve_eq (.head ha hl) hn

theorem lt_size_of_leads (hab : h.Leads a b) (ha : a.index < h.size) : b.index < h.size := by
  induction hab using Relation.ReflTransGen.head_induction_on with
  | refl => exact ha
  | head hs _ ih => exact ih (hd _ _ hs).lt_size

theorem valued_of_isValue (ha : a.index < h.size) (hv : h.isValue a = true) : h.Valued a := by
  obtain ⟨ht, hl⟩ := hd.resolve_spec a
  refine .of_leads hl (.value (hd.lt_size_of_leads hl ha) ?_)
  cases hn : h.isThunk (h.resolve a) with
  | false => rfl
  | true => simp [Heap.isValue, variant_eq_thunk_iff.2 ⟨hn, ht⟩] at hv

end Directed

end Values

section Lasting

structure Later (h h' : Heap κ) : Prop where
  size_le : h.size ≤ h'.size
  targets : ∀ a b, h.target? a = some b → h'.target? a = some b
  fixed : ∀ a, a.index < h.size → h.isThunk a = false → h'.cell a = h.cell a
  thunks : ∀ a, h.isThunk a = true → h'.isThunk a = true

theorem Later.refl (h : Heap κ) : h.Later h :=
  ⟨Nat.le_refl _, fun _ _ => id, fun _ _ _ => rfl, fun _ => id⟩

theorem Later.of_eq (hh : h' = h) : h.Later h' := hh ▸ .refl h

theorem isThunk_congr (hc : h'.cell a = h.cell a) : h'.isThunk a = h.isThunk a := by
  rw [isThunk, isThunk, thunk?, thunk?, hc]

theorem Later.isThunk_eq (hl : h.Later h') (ha : a.index < h.size) :
    h'.isThunk a = h.isThunk a := by
  cases hn : h.isThunk a with
  | true => exact hl.thunks a hn
  | false => rw [isThunk_congr (hl.fixed a ha hn), hn]

theorem Later.trans (h₁ : h.Later h') (h₂ : h'.Later h'') : h.Later h'' where
  size_le := Nat.le_trans h₁.size_le h₂.size_le
  targets a b hab := h₂.targets a b (h₁.targets a b hab)
  fixed a ha hn := by
    rw [h₂.fixed a (Nat.lt_of_lt_of_le ha h₁.size_le) (by rw [h₁.isThunk_eq ha, hn]),
      h₁.fixed a ha hn]
  thunks a ha := h₂.thunks a (h₁.thunks a ha)

theorem Leads.later (hab : h.Leads a b) (hl : h.Later h') : h'.Leads a b :=
  Relation.ReflTransGen.mono (fun a b => hl.targets a b) a b hab

theorem Valued.later (ha : h.Valued a) (hl : h.Later h') : h'.Valued a := by
  induction ha with
  | value hlt hn => exact .value (Nat.lt_of_lt_of_le hlt hl.size_le) (by rw [hl.isThunk_eq hlt, hn])
  | indirection hs _ ih => exact .indirection (hl.targets _ _ hs) ih

theorem Valued.chain_later (ha : h.Valued a) (hl : h.Later h') (hc : h.Chain a as) :
    h'.Chain a as := by
  induction hc with
  | last ht =>
    cases ha with
    | value hlt hn => exact .last (target?_eq_none_of_isThunk (by rw [hl.isThunk_eq hlt, hn]))
    | indirection hs _ =>
      rw [ht] at hs
      cases hs
  | cons hs _ ih =>
    exact .cons (hl.targets _ _ hs) (ih (ha.leads (.single hs)))

theorem Valued.resolve_later (ha : h.Valued a) (hl : h.Later h') :
    h'.resolve a = h.resolve a := by
  obtain ⟨e, hlead, hn, ht⟩ := ha.exists_end
  have he : h'.target? e = none := by
    refine target?_eq_none_of_isThunk ?_
    rw [hl.isThunk_eq (ha.leads hlead).lt_size, hn]
  rw [hlead.resolve_eq ht, (hlead.later hl).resolve_eq he]

theorem Later.of_old (hsize : h.size ≤ h'.size)
    (hold : ∀ b, b.index < h.size → h'.cell b = h.cell b) : h.Later h' where
  size_le := hsize
  targets a b ha := by
    rw [target?, hold a (lt_size_of_target? ha)]
    exact ha
  fixed a ha _ := hold a ha
  thunks a ha := by
    have hlt : a.index < h.size := by
      obtain ⟨s, hs⟩ := Option.isSome_iff_exists.1 ha
      exact lt_size_of_cell_eq_thunk (thunk?_eq_some_iff.1 hs)
    rw [isThunk_congr (hold a hlt), ha]

theorem Later.directed (hl : h.Later h') (hd : h.Directed)
    (hnew : ∀ a b, h'.target? a = some b → h.target? a = some b ∨ h.Valued b) : h'.Directed :=
  fun a b hb => ((hnew a b hb).elim (hd a b) id).later hl

end Lasting

section Writing

variable {s s' : ThunkState κ}

theorem later_write (ha : h.cell a = .thunk s) (hs : ∀ v, s ≠ .evaluated v) :
    h.Later (h.write a (.thunk s')) where
  size_le := by simp [size, write]
  targets b c hb := by
    rw [target?_eq_some_iff] at hb ⊢
    rw [cell_write_of_ne, hb]
    rintro rfl
    rw [ha] at hb
    exact hs c (Cell.thunk.inj hb)
  fixed b _ hn := by
    refine cell_write_of_ne ?_
    rintro rfl
    rw [isThunk, thunk?_eq_some_iff.2 ha] at hn
    cases hn
  thunks b hb := by
    by_cases hab : a = b
    · subst hab
      rw [isThunk, thunk?_eq_some_iff.2 (cell_write_thunk ha)]
      rfl
    · rwa [isThunk_congr (cell_write_of_ne hab)]

theorem target?_write (ha : h.cell a = .thunk s) {b c : Address}
    (hb : (h.write a (.thunk s')).target? b = some c) :
    h.target? b = some c ∨ s' = .evaluated c := by
  rw [target?_eq_some_iff] at hb
  by_cases hab : a = b
  · subst hab
    rw [cell_write_thunk ha] at hb
    exact .inr (Cell.thunk.inj hb)
  · rw [cell_write_of_ne hab] at hb
    exact .inl (target?_eq_some_iff.2 hb)

end Writing

end GraphReduction.Heap
