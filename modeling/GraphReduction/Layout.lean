import GraphReduction.Registers

namespace GraphReduction

structure Banks where
  taken : Vector Nat Kind.all.length

namespace Banks

def empty : Banks := ⟨.replicate _ 0⟩

def count (b : Banks) (k : Kind) : Nat := b.taken.get ⟨k.bank, k.bank_lt⟩

def take (b : Banks) (k : Kind) : Banks := ⟨b.taken.set k.bank (b.count k + 1) k.bank_lt⟩

theorem count_empty (k : Kind) : empty.count k = 0 := by
  cases k <;> rfl

theorem count_take (b : Banks) (j k : Kind) : (b.take k).count j = b.count j + [k].count j := by
  have h : (b.take k).count j = if (⟨k.bank, k.bank_lt⟩ : Fin Kind.all.length) = ⟨j.bank, j.bank_lt⟩
      then b.count k + 1 else b.count j :=
    Registers.get_set b.taken ⟨k.bank, k.bank_lt⟩ ⟨j.bank, j.bank_lt⟩ (b.count k + 1)
  simp only [Fin.mk.injEq, Kind.bank_inj] at h
  rw [h, List.count_singleton]
  by_cases hk : k = j
  · subst hk
    simp
  · simp [hk]

end Banks

def layoutFrom (b : Banks) : List Kind → Except RuntimeError (List Slot)
  | [] => .ok []
  | k :: ks => do
    let b := b.take k
    let s ← Slot.ofIndex k (b.count k)
    let rest ← layoutFrom b ks
    return s :: rest

/-- The calling convention: the n-th argument of a kind travels in register n of its bank. -/
def layoutFor (kinds : List Kind) : Except RuntimeError (List Slot) := layoutFrom .empty kinds

def layoutAfter (before : List Kind) : List Kind → Except RuntimeError (List Slot)
  | [] => .ok []
  | k :: ks => do
    let s ← Slot.ofIndex k (before.count k + 1)
    let rest ← layoutAfter (before ++ [k]) ks
    return s :: rest

theorem layoutFrom_eq {b : Banks} {before : List Kind} (kinds : List Kind)
    (h : ∀ k, b.count k = before.count k) : layoutFrom b kinds = layoutAfter before kinds := by
  induction kinds generalizing b before with
  | nil => rfl
  | cons k ks ih =>
    have hnext : ∀ j, (b.take k).count j = (before ++ [k]).count j := by
      intro j
      rw [Banks.count_take, h, List.count_append]
    have hk : (b.take k).count k = before.count k + 1 := by
      rw [Banks.count_take, h, List.count_singleton_self]
    simp only [layoutFrom, layoutAfter, hk, ih hnext]

theorem layoutFor_eq (kinds : List Kind) : layoutFor kinds = layoutAfter [] kinds :=
  layoutFrom_eq kinds Banks.count_empty

theorem kinds_of_layoutAfter {before kinds : List Kind} {slots : List Slot}
    (h : layoutAfter before kinds = .ok slots) : slots.map Slot.kind = kinds := by
  induction kinds generalizing before slots with
  | nil => cases h; rfl
  | cons k ks ih =>
    simp only [layoutAfter, bind, Except.bind] at h
    split at h
    · cases h
    · next s hs =>
      split at h
      · cases h
      · next rest hr =>
        cases h
        simp [ih hr, (Slot.index_of_ofIndex hs).1]

theorem kinds_of_layoutFor {kinds : List Kind} {slots : List Slot}
    (h : layoutFor kinds = .ok slots) : slots.map Slot.kind = kinds :=
  kinds_of_layoutAfter (layoutFor_eq kinds ▸ h)

end GraphReduction
