import GraphReduction.Proofs.Effects
import GraphReduction.Proofs.Indirections
import GraphReduction.Proofs.System

namespace GraphReduction

open Evaluation

variable {κ : Type} {program : Program κ}

namespace Heap

variable {h h' h'' : Heap κ} {a : Address}

structure Matures (h h' : Heap κ) : Prop where
  later : h.Later h'
  flat : h.Flat → h'.Flat

theorem Matures.refl (h : Heap κ) : h.Matures h := ⟨.refl h, id⟩

theorem Matures.of_eq (hh : h' = h) : h.Matures h' := hh ▸ .refl h

theorem Matures.trans (h₁ : h.Matures h') (h₂ : h'.Matures h'') : h.Matures h'' :=
  ⟨h₁.later.trans h₂.later, h₂.flat ∘ h₁.flat⟩

theorem Grown.matures (g : h.Grown h') : h.Matures h' := ⟨.of_old g.size_le g.old, g.flat⟩

theorem matures_write {s s' : ThunkState κ} (ha : h.cell a = .thunk s)
    (hs : ∀ v, s ≠ .evaluated v) : h.Matures (h.write a (.thunk s')) :=
  ⟨later_write ha hs, fun hf => flat_write hf ha⟩

theorem matures_reset (h : Heap κ) (a : Address) : h.Matures (h.reset a).2 := by
  unfold reset
  split
  · next hc => exact matures_write hc nofun
  · exact .refl h

theorem matures_settle (h : Heap κ) (a v : Address) : h.Matures (h.settle a v).2 := by
  unfold settle
  split
  · next hc => exact matures_write hc nofun
  · next hc => exact matures_write hc nofun
  · exact .refl h

theorem matures_park {t : Thread κ} (hp : h.park? a t = some h') : h.Matures h' := by
  obtain ⟨_, _, _, hc, rfl⟩ := park?_eq_some hp
  exact matures_write hc nofun

end Heap

theorem Shared.matures_resetFrames (frames : List (Frame κ)) (s : Shared κ) :
    s.heap.Matures (s.resetFrames frames).2.heap := by
  induction frames generalizing s with
  | nil => exact .refl _
  | cons frame rest ih =>
    cases frame with
    | update a => exact (s.heap.matures_reset a).trans (ih { s with heap := (s.heap.reset a).2 })
    | _ => exact ih s

theorem Shared.matures_abandon (t : Thread κ) (s : Shared κ) :
    s.heap.Matures (s.abandon t).2.heap :=
  matures_resetFrames t.stack.frames { s with waiting := s.waiting.erase t.id }

theorem Shared.matures_abandonAll (n : Nat) (threads : List (Thread κ)) (s : Shared κ) :
    s.heap.Matures (s.abandonAll n threads).heap := by
  induction n generalizing threads s with
  | zero => exact .refl _
  | succ n ih =>
    unfold abandonAll
    split
    · exact .refl _
    · exact (matures_abandon _ s).trans (ih _ _)

theorem permits_matures : Machine.Permits (κ := κ) fun m m' => m.heap.Matures m'.heap where
  trans := .trans
  grown hg _ := hg.matures
  enter hc := Heap.matures_write hc nofun
  reset m a remark := by
    rw [show (m.resetThunk a remark).heap = (m.heap.reset a).2 from
      congrArg Core.heap (m.core_resetThunk a remark)]
    exact m.heap.matures_reset a

theorem matures_updateThunk (a : Address) :
    (updateThunk a).Respects fun m m' : Machine κ => m.heap.Matures m'.heap := by
  intro m
  rcases heap_updateThunk a m with hh | ⟨p, -, -, -, -, hh⟩
  · exact .of_eq hh
  · rw [hh]
    exact m.heap.matures_settle a _

theorem matures_iterate (program : Program κ) (n : Nat) (c : Control) (m : Machine κ) :
    m.heap.Matures (iterate program n c m).2.heap :=
  permits_matures.iterate (fun m₁ _ _ a => matures_updateThunk a m₁) n c

namespace System

variable {s s' : System κ}

theorem Step.matures (h : Step program s s') : s.shared.heap.Matures s'.shared.heap := by
  obtain ⟨deed, h⟩ := h
  cases h with
  | attach q hi hready => exact .of_eq (begin_spec _ ⟨_, q, _⟩).1
  | @iterate i context c q rest turn m n released hi hready ht hparked =>
    have hm := matures_iterate program n c ⟨s.shared, q, context⟩
    rwa [ht] at hm
  | park hb hpark => exact Heap.matures_park hpark
  | abandon hready => exact Shared.matures_abandon _ _
  | report target remark => exact .of_eq (report_spec s.shared target remark).1
  | _ => exact .refl _

theorem Reaches.matures (h : Reaches program s s') : s.shared.heap.Matures s'.shared.heap := by
  induction h with
  | refl => exact .refl _
  | tail _ hstep ih => exact ih.trans hstep.matures

end System

end GraphReduction
