import GraphReduction.Proofs.Cells
import Mathlib.Data.List.Nodup
import Mathlib.Data.List.Perm.Subperm
import Mathlib.Tactic.ByContra

namespace GraphReduction.WaitingMap

variable {κ : Type} {w w' : WaitingMap} {h h' : Heap κ} {me t u v : ThreadId} {a : Address}

section Entries

theorem find?_erase (w : WaitingMap) (t u : ThreadId) :
    (w.erase t).find? u = if u = t then none else w.find? u := by
  rw [find?, find?, entries_erase]
  induction w.entries with
  | nil => simp
  | cons e rest ih =>
    by_cases he : e.1 = t
    · rw [List.filter_cons_of_neg (by simpa using he), ih]
      split
      · rfl
      · next hu =>
        have hne : (u == e.1) = false := beq_eq_false_iff_ne.2 fun h => hu (h.trans he)
        rw [List.lookup_cons, hne]
    · rw [List.filter_cons_of_pos (by simpa using he), List.lookup_cons, ih, List.lookup_cons]
      by_cases hu : u = e.1
      · rw [if_neg fun h => he (hu.symm.trans h)]
        simp [hu, he]
      · simp [beq_eq_false_iff_ne.2 hu]

theorem find?_insert (w : WaitingMap) (t u : ThreadId) (a : Address) :
    (w.insert t a).find? u = if u = t then some a else w.find? u := by
  have he := find?_erase w t u
  rw [find?, insert, List.lookup_cons]
  by_cases hu : u = t
  · simp [hu]
  · rw [find?, if_neg hu] at he
    simp [beq_eq_false_iff_ne.2 hu, hu, he]

theorem mem_keys_of_find? (hf : w.find? t = some a) : t ∈ w.entries.map Prod.fst := by
  unfold find? at hf
  generalize w.entries = entries at hf ⊢
  induction entries with
  | nil => cases hf
  | cons e rest ih =>
    rw [List.lookup_cons] at hf
    rw [List.map_cons, List.mem_cons]
    split at hf
    · next he => exact .inl (beq_iff_eq.1 he)
    · exact .inr (ih hf)

theorem next?_eq_some_iff :
    w.next? h t = some u ↔ ∃ a, w.find? t = some a ∧ h.owner? a = some u :=
  Option.bind_eq_some_iff

end Entries

section Walks

def walk (w : WaitingMap) (h : Heap κ) : Nat → Option ThreadId → Option ThreadId
  | 0, o => o
  | n + 1, o => walk w h n (o.bind (w.next? h))

theorem walk_none (n : Nat) : w.walk h n none = none := by
  induction n with
  | zero => rfl
  | succ n ih => exact ih

theorem walk_add (m n : Nat) (o : Option ThreadId) :
    w.walk h (m + n) o = w.walk h n (w.walk h m o) := by
  induction m generalizing o with
  | zero => rw [Nat.zero_add]; rfl
  | succ m ih =>
    rw [Nat.add_right_comm]
    exact ih _

theorem walk_succ (n : Nat) (o : Option ThreadId) :
    w.walk h (n + 1) o = (w.walk h n o).bind (w.next? h) :=
  walk_add n 1 o

theorem reaches_iff_walk : w.Reaches h me t ↔ ∃ n, w.walk h n (some t) = some me := by
  constructor
  · intro hr
    induction hr with
    | here => exact ⟨0, rfl⟩
    | hop he _ ih =>
      obtain ⟨n, hn⟩ := ih
      refine ⟨n + 1, ?_⟩
      rw [walk, Option.bind_some, he, hn]
  · rintro ⟨n, hn⟩
    induction n generalizing t with
    | zero =>
      cases hn
      exact .here
    | succ n ih =>
      rw [walk, Option.bind_some] at hn
      cases he : w.next? h t with
      | none =>
        rw [he, walk_none] at hn
        cases hn
      | some u =>
        rw [he] at hn
        exact .hop he (ih hn)

theorem meets_iff_walk (n : Nat) (o : Option ThreadId) :
    w.meets h me n o = true ↔ ∃ k < n, w.walk h k o = some me := by
  induction n generalizing o with
  | zero => simp [meets]
  | succ n ih =>
    cases o with
    | none => simp [meets, walk_none]
    | some t =>
      rw [meets]
      split
      · next ht =>
        simp only [true_iff]
        exact ⟨0, Nat.succ_pos n, congrArg some ht⟩
      · next ht =>
        rw [ih]
        constructor
        · rintro ⟨k, hk, he⟩
          exact ⟨k + 1, Nat.succ_lt_succ hk, he⟩
        · rintro ⟨k, hk, he⟩
          cases k with
          | zero => exact absurd (Option.some.inj he) ht
          | succ k => exact ⟨k, Nat.lt_of_succ_lt_succ hk, he⟩

theorem walk_repeats {o : Option ThreadId} {keys : List ThreadId} {n : Nat}
    (hkeys : ∀ i < n, ∃ u ∈ keys, w.walk h i o = some u) (hn : keys.length < n) :
    ∃ i j, i < j ∧ j < n ∧ w.walk h i o = w.walk h j o := by
  by_contra hnot
  have hne : ∀ i j, i < j → j < n → w.walk h i o ≠ w.walk h j o := fun i j hij hj he =>
    hnot ⟨i, j, hij, hj, he⟩
  have hnodup : ((List.range n).map fun i => w.walk h i o).Nodup := by
    refine List.Nodup.map_on (fun i hi j hj he => ?_) List.nodup_range
    rw [List.mem_range] at hi hj
    rcases Nat.lt_trichotomy i j with hij | hij | hij
    · exact absurd he (hne i j hij hj)
    · exact hij
    · exact absurd he.symm (hne j i hij hi)
  have hsub : ((List.range n).map fun i => w.walk h i o) ⊆ keys.map some := by
    intro x hx
    obtain ⟨i, hi, rfl⟩ := List.mem_map.1 hx
    obtain ⟨u, hu, he⟩ := hkeys i (List.mem_range.1 hi)
    exact List.mem_map.2 ⟨u, hu, he.symm⟩
  have hlen := (List.subperm_of_subset hnodup hsub).length_le
  rw [List.length_map, List.length_map, List.length_range] at hlen
  exact absurd hlen (Nat.not_le.2 hn)

theorem find?_of_walk {k i : Nat} (hk : w.walk h k (some t) = some u) (hi : i < k) :
    ∃ v a, w.find? v = some a ∧ w.walk h i (some t) = some v := by
  obtain ⟨d, rfl⟩ := Nat.exists_eq_add_of_lt hi
  rw [Nat.add_assoc, walk_add, Nat.add_comm d, walk_add] at hk
  cases hw : w.walk h i (some t) with
  | none =>
    rw [hw, walk_none, walk_none] at hk
    cases hk
  | some v =>
    rw [hw] at hk
    cases hv : w.find? v with
    | none =>
      have hnext : w.walk h 1 (some v) = none := by
        change w.next? h v = none
        rw [next?, hv]
        rfl
      rw [hnext, walk_none] at hk
      cases hk
    | some a => exact ⟨v, a, hv, rfl⟩

variable {keys : List ThreadId}

theorem walk_le_of_walk (hkeys : ∀ v a, w.find? v = some a → v ∈ keys) (k : Nat)
    (hk : w.walk h k (some t) = some u) :
    ∃ n ≤ keys.length, w.walk h n (some t) = some u := by
  induction k using Nat.strongRecOn with
  | ind k ih =>
    by_cases hle : k ≤ keys.length
    · exact ⟨k, hle, hk⟩
    · have hvisited : ∀ i < k, ∃ v ∈ keys, w.walk h i (some t) = some v := by
        intro i hi
        obtain ⟨v, a, hv, he⟩ := find?_of_walk hk hi
        exact ⟨v, hkeys v a hv, he⟩
      obtain ⟨i, j, hij, hj, he⟩ := walk_repeats hvisited (Nat.lt_of_not_le hle)
      -- What lies between the two visits is left out.
      refine ih (i + (k - j)) (by omega) ?_
      have hsplit : k = j + (k - j) := by omega
      rw [hsplit, walk_add, ← he, ← walk_add] at hk
      exact hk

theorem meets_iff_reaches (hkeys : ∀ v a, w.find? v = some a → v ∈ keys) {n : Nat}
    (hn : keys.length < n) : w.meets h me n (some t) = true ↔ w.Reaches h me t := by
  rw [meets_iff_walk, reaches_iff_walk]
  constructor
  · rintro ⟨k, -, hk⟩
    exact ⟨k, hk⟩
  · rintro ⟨k, hk⟩
    obtain ⟨i, hi, he⟩ := walk_le_of_walk hkeys k hk
    exact ⟨i, Nat.lt_of_le_of_lt hi hn, he⟩

end Walks

section Cycles

/-- No thread waits for itself, be it through others. -/
def Acyclic (w : WaitingMap) (h : Heap κ) : Prop :=
  ∀ t u, w.next? h t = some u → ¬ w.Reaches h t u

theorem acyclic_empty (h : Heap κ) : empty.Acyclic h := nofun

theorem Reaches.trans (htu : w.Reaches h u t) (huv : w.Reaches h v u) : w.Reaches h v t := by
  induction htu with
  | here => exact huv
  | hop he _ ih => exact .hop he ih

theorem Acyclic.mono (ha : w.Acyclic h)
    (he : ∀ t u, w'.next? h' t = some u → w.next? h t = some u) : w'.Acyclic h' := by
  intro t u htu hr
  refine ha t u (he t u htu) ?_
  clear htu
  induction hr with
  | here => exact .here
  | hop hv _ ih => exact .hop (he _ _ hv) ih

theorem Acyclic.of_sink (ha : w.Acyclic h)
    (he : ∀ t u, w'.next? h' t = some u → w.next? h t = some u ∨ u = v)
    (hv : w'.next? h' v = none) : w'.Acyclic h' := by
  intro t u htu hr
  have hedge : ∀ x y, w'.next? h' x = some y → w'.Reaches h' t y → w.next? h x = some y := by
    intro x y hxy hy
    rcases he x y hxy with hold | rfl
    · exact hold
    · cases hy with
      | here =>
        rw [hv] at htu
        cases htu
      | hop hnext =>
        rw [hv] at hnext
        cases hnext
  refine ha t u (hedge t u htu hr) ?_
  clear htu
  induction hr with
  | here => exact .here
  | hop hx hy ih => exact .hop (hedge _ _ hx hy) ih

theorem Acyclic.insert (ha : w.Acyclic h) (hnone : w.find? me = none)
    (hn : ∀ u, h.owner? a = some u → ¬ w.Reaches h me u) : (w.insert me a).Acyclic h := by
  have hnext : ∀ x, (w.insert me a).next? h x =
      if x = me then h.owner? a else w.next? h x := by
    intro x
    rw [next?, find?_insert]
    split <;> rfl
  -- A walk to `me` takes the new edge only after it has arrived.
  have hto : ∀ x, (w.insert me a).Reaches h me x → w.Reaches h me x := by
    intro x hr
    induction hr with
    | here => exact .here
    | @hop x y hxy _ ih =>
      by_cases hx : x = me
      · exact hx ▸ .here
      · rw [hnext, if_neg hx] at hxy
        exact .hop hxy ih
  have hpath : ∀ x y, (w.insert me a).Reaches h y x → w.Reaches h y x ∨
      (w.insert me a).Reaches h me x ∧ ∃ o, h.owner? a = some o ∧
        (w.insert me a).Reaches h y o := by
    intro x y hr
    induction hr with
    | here => exact .inl .here
    | @hop x z hxz hz ih =>
      by_cases hx : x = me
      · subst hx
        rw [hnext, if_pos rfl] at hxz
        exact .inr ⟨.here, z, hxz, hz⟩
      · rcases ih with hold | ⟨hme, o, ho, hy⟩
        · rw [hnext, if_neg hx] at hxz
          exact .inl (.hop hxz hold)
        · exact .inr ⟨.hop hxz hme, o, ho, hy⟩
  intro t u htu hr
  by_cases ht : t = me
  · subst ht
    rw [hnext, if_pos rfl] at htu
    exact hn u htu (hto u hr)
  · rcases hpath u t hr with hold | ⟨hme, o, ho, hback⟩
    · rw [hnext, if_neg ht] at htu
      exact ha t u htu hold
    · exact hn o ho (hto o (hback.trans (.hop htu hme)))

theorem Acyclic.register (ha : w.Acyclic h) (hme : me ≠ .nobody) (hnone : w.find? me = none)
    (hr : w.register? h me a = some w') : w' = w.insert me a ∧ w'.Acyclic h := by
  unfold register? at hr
  rw [if_neg hme] at hr
  split at hr
  · cases hr
  · next hmeets =>
    cases hr
    refine ⟨rfl, ha.insert hnone fun u hu hreach => hmeets ?_⟩
    rw [hu]
    refine (meets_iff_reaches (fun _ _ => mem_keys_of_find?) ?_).2 hreach
    rw [List.length_map]
    exact Nat.lt_succ_self _

theorem Acyclic.exists_end {threads : List ThreadId} (ha : w.Acyclic h) (ht : t ∈ threads) :
    ∃ u ∈ threads, ∀ v, w.next? h u = some v → v ∉ threads := by
  by_contra hnot
  have hnext : ∀ u ∈ threads, ∃ v ∈ threads, w.next? h u = some v := by
    intro u hu
    by_contra hno
    exact hnot ⟨u, hu, fun v hv hm => hno ⟨v, hm, hv⟩⟩
  have hall : ∀ i, ∃ u ∈ threads, w.walk h i (some t) = some u := by
    intro i
    induction i with
    | zero => exact ⟨t, ht, rfl⟩
    | succ i ih =>
      obtain ⟨u, hu, he⟩ := ih
      obtain ⟨v, hv, huv⟩ := hnext u hu
      refine ⟨v, hv, ?_⟩
      rw [walk_succ, he, Option.bind_some, huv]
  obtain ⟨i, j, hij, -, he⟩ := walk_repeats (fun i _ => hall i) (Nat.lt_succ_self threads.length)
  obtain ⟨u, hu, hi⟩ := hall i
  obtain ⟨v, -, huv⟩ := hnext u hu
  refine ha u v huv (reaches_iff_walk.2 ⟨j - i - 1, ?_⟩)
  have hj : j = i + (1 + (j - i - 1)) := by omega
  rw [hj, walk_add, hi, walk_add] at he
  rw [← huv]
  exact he.symm

end Cycles

end GraphReduction.WaitingMap
