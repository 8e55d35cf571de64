import GraphReduction.Evaluation.Apply

namespace GraphReduction

def argument? (args : List Value) (kind : Kind) : Nat → Option Value
  | 0 => none
  | n + 1 => (args.filter fun v => v.kind = kind)[n]?

namespace Registers

def Holds (r : Registers) (args : List Value) : Prop :=
  ∀ i v, args[i]? = some v →
    r.read v.kind (((args.take i).map Value.kind).count v.kind + 1) = .ok v

/-- All registers with an argument to hold have it, and the others are as before. -/
def Receives (r : Registers) (args : List Value) (r' : Registers) : Prop :=
  ∀ kind n, r'.read kind n = match argument? args kind n with
    | some v => .ok v
    | none => r.read kind n

def loaded (r : Registers) : List Value → List Slot → Registers
  | v :: vs, s :: ss => loaded (r.put s.offset v) vs ss
  | _, _ => r

theorem read_of_get? {r : Registers} {s : Slot} {v : Value} {index : Nat}
    (hs : Slot.ofIndex v.kind index = .ok s) (hv : r.get? s = some v) :
    r.read v.kind index = .ok v := by
  simp only [read, hs, bind, Except.bind, hv]

end Registers

section Layout

variable {before kinds : List Kind} {slots : List Slot} {r : Registers} {args : List Value}

theorem layoutAfter_cons {k : Kind} (h : layoutAfter before (k :: kinds) = .ok slots) :
    ∃ s rest, Slot.ofIndex k (before.count k + 1) = .ok s ∧
      layoutAfter (before ++ [k]) kinds = .ok rest ∧ slots = s :: rest := by
  simp only [layoutAfter, bind, Except.bind] at h
  split at h
  · cases h
  · next s hs =>
    split at h
    · cases h
    · next rest hr =>
      cases h
      exact ⟨s, rest, hs, hr, rfl⟩

theorem count_lt_index_of_mem {s : Slot} (h : layoutAfter before kinds = .ok slots)
    (hs : s ∈ slots) : before.count s.kind < s.index := by
  induction kinds generalizing before slots with
  | nil =>
    cases h
    cases hs
  | cons k ks ih =>
    obtain ⟨t, rest, ht, hr, rfl⟩ := layoutAfter_cons h
    obtain ⟨hk, hi⟩ := Slot.index_of_ofIndex ht
    rcases List.mem_cons.1 hs with rfl | hs
    · rw [hk, hi]
      exact Nat.lt_succ_self _
    · have hc := ih hr hs
      rw [List.count_append] at hc
      omega

theorem head_not_mem_tail {k : Kind} {s : Slot} {rest : List Slot}
    (hs : Slot.ofIndex k (before.count k + 1) = .ok s)
    (hr : layoutAfter (before ++ [k]) kinds = .ok rest) : s ∉ rest := by
  intro hm
  obtain ⟨hk, hi⟩ := Slot.index_of_ofIndex hs
  have hc := count_lt_index_of_mem hr hm
  rw [List.count_append, hk, hi, List.count_singleton_self] at hc
  omega

theorem nodup_of_layoutAfter (h : layoutAfter before kinds = .ok slots) : slots.Nodup := by
  induction kinds generalizing before slots with
  | nil =>
    cases h
    exact List.nodup_nil
  | cons k ks ih =>
    obtain ⟨s, rest, hs, hr, rfl⟩ := layoutAfter_cons h
    exact List.nodup_cons.2 ⟨head_not_mem_tail hs hr, ih hr⟩

theorem argument?_cons_self (v : Value) (vs : List Value) (n : Nat) :
    argument? (v :: vs) v.kind (n + 1) = if n = 0 then some v else argument? vs v.kind n := by
  cases n <;> simp [argument?]

theorem argument?_cons_of_ne {kind : Kind} {v : Value} (h : kind ≠ v.kind) (vs : List Value)
    (n : Nat) : argument? (v :: vs) kind n = argument? vs kind n := by
  cases n <;> simp [argument?, Ne.symm h]

theorem slot_eq_iff {s t : Slot} : s = t ↔ s.kind = t.kind ∧ s.index = t.index := by
  constructor
  · rintro rfl
    exact ⟨rfl, rfl⟩
  · rintro ⟨hk, hi⟩
    have hs := s.ofIndex_index
    rw [hk, hi, t.ofIndex_index] at hs
    exact (Except.ok.inj hs).symm

theorem read_put {s : Slot} {v : Value} (hk : s.kind = v.kind) (kind : Kind) (n : Nat) :
    (r.put s.offset v).read kind n =
      if kind = s.kind ∧ n = s.index then .ok v else r.read kind n := by
  cases ht : Slot.ofIndex kind n with
  | error e =>
    have hne : ¬ (kind = s.kind ∧ n = s.index) := by
      rintro ⟨rfl, rfl⟩
      rw [Slot.ofIndex_index] at ht
      cases ht
    rw [if_neg hne, Registers.read, Registers.read, ht]
    rfl
  | ok t =>
    have hs : (⟨v.kind, s.offset⟩ : Slot) = s := by rw [← hk]
    obtain ⟨rfl, rfl⟩ := Slot.index_of_ofIndex ht
    simp only [Registers.read, ht, bind, Except.bind, Registers.get?_put, hs, ← slot_eq_iff]
    by_cases he : t = s <;> simp [he]

theorem read_loaded_eq (h : layoutAfter before (args.map Value.kind) = .ok slots) (kind : Kind)
    (n : Nat) :
    (r.loaded args slots).read kind n =
      match argument? args kind (n - before.count kind) with
        | some v => .ok v
        | none => r.read kind n := by
  induction args generalizing before slots r with
  | nil =>
    cases h
    cases n - before.count kind <;> rfl
  | cons v vs ih =>
    obtain ⟨s, rest, hs, hr, rfl⟩ := layoutAfter_cons h
    obtain ⟨hk, hi⟩ := Slot.index_of_ofIndex hs
    rw [Registers.loaded, ih hr, read_put hk, hk, hi, List.count_append, List.count_singleton]
    by_cases hkind : kind = v.kind
    · subst hkind
      rcases Nat.lt_trichotomy n (before.count v.kind + 1) with hn | rfl | hn
      · have hlate : n - (before.count v.kind + 1) = 0 := by omega
        have hold : n - before.count v.kind = 0 := by omega
        simp [hlate, hold, argument?, Nat.ne_of_lt hn]
      · simp [argument?]
      · obtain ⟨d, hd⟩ := Nat.exists_eq_add_of_lt hn
        have hlate : n - (before.count v.kind + 1) = d + 1 := by omega
        have hold : n - before.count v.kind = d + 1 + 1 := by omega
        simp [hlate, hold, argument?_cons_self, Nat.ne_of_gt hn]
    · simp [hkind, Ne.symm hkind, argument?_cons_of_ne]

theorem receives_loaded (r : Registers) (h : layoutFor (args.map Value.kind) = .ok slots) :
    r.Receives args (r.loaded args slots) := by
  intro kind n
  rw [layoutFor_eq] at h
  exact read_loaded_eq h kind n

theorem argument?_of_getElem? {i : Nat} {v : Value} (hv : args[i]? = some v) :
    argument? args v.kind (((args.take i).map Value.kind).count v.kind + 1) = some v := by
  induction args generalizing i with
  | nil => simp at hv
  | cons w ws ih =>
    cases i with
    | zero =>
      obtain rfl : w = v := by simpa using hv
      exact argument?_cons_self w ws 0
    | succ i =>
      have hi := ih (i := i) (by simpa using hv)
      rw [List.take_succ_cons, List.map_cons]
      by_cases hw : w.kind = v.kind
      · rw [← hw, List.count_cons_self, argument?_cons_self, if_neg (Nat.succ_ne_zero _), hw]
        exact hi
      · rw [List.count_cons_of_ne hw, argument?_cons_of_ne (Ne.symm hw)]
        exact hi

theorem holds_loaded (r : Registers) (h : layoutFor (args.map Value.kind) = .ok slots) :
    (r.loaded args slots).Holds args := by
  intro i v hv
  rw [receives_loaded r h, argument?_of_getElem? hv]

end Layout

section Bounds

variable {before kinds : List Kind}

theorem exists_ofIndex (kind : Kind) {index : Nat} (hp : 0 < index) (hl : index ≤ registersPerKind) :
    ∃ s, Slot.ofIndex kind index = .ok s := by
  rw [Slot.ofIndex, dif_pos ⟨hp, hl⟩]
  exact ⟨_, rfl⟩

theorem exists_layoutAfter (h : before.length + kinds.length ≤ registersPerKind) :
    ∃ slots, layoutAfter before kinds = .ok slots := by
  induction kinds generalizing before with
  | nil => exact ⟨[], rfl⟩
  | cons k ks ih =>
    rw [List.length_cons] at h
    have hc : before.count k ≤ before.length := List.count_le_length
    obtain ⟨s, hs⟩ := exists_ofIndex k (Nat.succ_pos (before.count k)) (by omega)
    have hn : (before ++ [k]).length + ks.length ≤ registersPerKind := by
      rw [List.length_append, List.length_singleton]
      omega
    obtain ⟨rest, hr⟩ := ih hn
    refine ⟨s :: rest, ?_⟩
    rw [layoutAfter, hs, hr]
    rfl

theorem exists_layoutFor (h : kinds.length ≤ registersPerKind) :
    ∃ slots, layoutFor kinds = .ok slots := by
  rw [layoutFor_eq]
  exact exists_layoutAfter (by rwa [List.length_nil, Nat.zero_add])

end Bounds

theorem Schema.ofKinds?_eq_some_iff {kinds : List Kind} {s : Schema} :
    ofKinds? kinds = some s ↔ (0 < kinds.length ∧ kinds.length ≤ maxSchemaLength) ∧
      s.kinds = kinds ∧ layoutFor kinds = .ok s.slots := by
  constructor
  · intro h
    refine ⟨?_, layoutFor_of_ofKinds? h⟩
    unfold ofKinds? at h
    split at h
    · cases h
    · next hn =>
      rw [not_or, Nat.not_lt] at hn
      exact ⟨List.length_pos_iff.2 hn.1, hn.2⟩
  · rintro ⟨⟨hp, hl⟩, rfl, hs⟩
    have hn : ¬ (s.kinds = [] ∨ maxSchemaLength < s.kinds.length) := by
      rw [not_or, Nat.not_lt]
      exact ⟨List.length_pos_iff.1 hp, hl⟩
    rw [ofKinds?, if_neg hn, hs]

namespace SchemaTable

variable {kinds : List Kind} {s : Schema}

theorem find?_insert (t : SchemaTable) :
    (t.insert s).find? kinds =
      (t.find? kinds).or (if s.kinds = kinds then some s else none) := by
  unfold insert contains
  split
  · next h =>
    by_cases hk : s.kinds = kinds
    · obtain ⟨u, hu⟩ := Option.isSome_iff_exists.1 h
      rw [hk] at hu
      rw [hu, Option.some_or]
    · rw [if_neg hk, Option.or_none]
  · by_cases hk : s.kinds = kinds <;> simp [find?, hk]

theorem find?_foldl_insert {schema? : List Kind → Option Schema}
    (hs : ∀ kinds s, schema? kinds = some s → s.kinds = kinds) (lists : List (List Kind))
    (t : SchemaTable) :
    ((lists.filterMap schema?).foldl insert t).find? kinds =
      (t.find? kinds).or (if kinds ∈ lists then schema? kinds else none) := by
  induction lists generalizing t with
  | nil => simp
  | cons l lists ih =>
    cases hl : schema? l with
    | none =>
      rw [List.filterMap_cons_none hl, ih]
      by_cases hk : kinds = l
      · subst hk
        simp [hl]
      · simp [hk]
    | some s =>
      rw [List.filterMap_cons_some hl, List.foldl_cons, ih, find?_insert, hs l s hl,
        Option.or_assoc]
      by_cases hk : kinds = l
      · subst hk
        simp [hl]
      · simp [hk, Ne.symm hk]

theorem find?_ofKinds (lists : List (List Kind)) (kinds : List Kind) :
    (ofKinds lists).find? kinds = if kinds ∈ lists then Schema.ofKinds? kinds else none := by
  rw [ofKinds, find?_foldl_insert (fun _ _ h => (Schema.layoutFor_of_ofKinds? h).1)]
  rfl

theorem lookup_eq_some_iff {lists : List (List Kind)} {args : List Value} :
    (ofKinds lists).lookup args = some s ↔
      args.map Value.kind ∈ lists ∧ (0 < args.length ∧ args.length ≤ maxSchemaLength) ∧
        s.kinds = args.map Value.kind ∧ layoutFor (args.map Value.kind) = .ok s.slots := by
  rw [lookup_eq_find?, find?_ofKinds]
  have hof : Schema.ofKinds? (args.map Value.kind) = some s ↔ _ := Schema.ofKinds?_eq_some_iff
  rw [List.length_map] at hof
  by_cases hb : 0 < args.length ∧ args.length ≤ maxSchemaLength <;>
    by_cases hm : args.map Value.kind ∈ lists <;> simp [hb, hm, hof]

theorem layoutFor_of_lookup {args : List Value} {s : Schema}
    (h : standard.lookup args = some s) : layoutFor (args.map Value.kind) = .ok s.slots :=
  (lookup_eq_some_iff.1 h).2.2.2

end SchemaTable

end GraphReduction
