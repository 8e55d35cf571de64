import GraphReduction.Heap

namespace GraphReduction

structure WaitingMap where
  entries : List (ThreadId × Address)

namespace WaitingMap

variable {κ : Type}

def empty : WaitingMap := ⟨[]⟩

instance : Inhabited WaitingMap := ⟨empty⟩

def find? (w : WaitingMap) (t : ThreadId) : Option Address := w.entries.lookup t

def erase (w : WaitingMap) (t : ThreadId) : WaitingMap :=
  if (w.find? t).isSome then ⟨w.entries.filter fun e => e.1 ≠ t⟩ else w

theorem entries_erase (w : WaitingMap) (t : ThreadId) :
    (w.erase t).entries = w.entries.filter fun e => e.1 ≠ t := by
  unfold erase find?
  split
  · rfl
  · rename_i h
    symm
    rw [List.filter_eq_self]
    intro e he
    have h := List.lookup_eq_none_iff.1 (Option.not_isSome_iff_eq_none.1 h) e he
    exact decide_eq_true fun h' => by simp [h'] at h

def insert (w : WaitingMap) (t : ThreadId) (a : Address) : WaitingMap :=
  ⟨(t, a) :: (w.erase t).entries⟩

def next? (w : WaitingMap) (h : Heap κ) (t : ThreadId) : Option ThreadId :=
  (w.find? t).bind h.owner?

def meets (w : WaitingMap) (h : Heap κ) (me : ThreadId) : Nat → Option ThreadId → Bool
  | 0, _ => false
  | _ + 1, none => false
  | n + 1, some t => if t = me then true else w.meets h me n (w.next? h t)

inductive Reaches (w : WaitingMap) (h : Heap κ) (me : ThreadId) : ThreadId → Prop where
  | here : Reaches w h me me
  | hop {t u : ThreadId} : w.next? h t = some u → Reaches w h me u → Reaches w h me t

/-- Records that `me` waits for a thunk; `none` if that would close a cycle of waiting threads.
Every hop visits another waiting thread, so their number bounds the search. The placeholder never
waits. -/
def register? (w : WaitingMap) (h : Heap κ) (me : ThreadId) (thunk : Address) : Option WaitingMap :=
  if me = .nobody then some w
  else if w.meets h me (w.entries.length + 1) (h.owner? thunk) then none
  else some (w.insert me thunk)

end WaitingMap

end GraphReduction
