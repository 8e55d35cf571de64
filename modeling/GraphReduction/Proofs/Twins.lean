import GraphReduction.Proofs.Alike
import GraphReduction.Proofs.Renaming

namespace GraphReduction

variable {κ : Type}

/-- What lies under the work of two runs: the thunk that each is to update, and arguments that wait
above it in the second, whose stack has room for them beside the room that the first has. The
closures up to a size are the same in both. -/
structure Footing where
  size : Nat
  limit : Nat
  own : Address
  own' : Address
  waiting : List Value

namespace Footing

def base (P : Footing) : List (Frame κ) := [.update P.own]

def base' (P : Footing) : List (Frame κ) := P.waiting.map .apply ++ [.update P.own']

end Footing

namespace Heap

variable {h : Heap κ} {a b : Address} {c : Cell κ}

theorem owner?_congr {h' : Heap κ} (hc : h'.cell a = h.cell a) : h'.owner? a = h.owner? a := by
  rw [owner?, owner?, hc]

theorem lt_size_of_owner? (ha : (h.owner? a).isSome) : a.index < h.size := by
  obtain ⟨t, ht⟩ := Option.isSome_iff_exists.1 ha
  obtain ⟨body, blocked, hc⟩ := owner?_eq_some_iff.1 ht
  exact lt_size_of_cell_eq_thunk hc

theorem owner?_allocate_of_idle (hc : Idle c) (b : Address) :
    (h.allocate c).2.owner? b = h.owner? b := by
  by_cases hb : b.index < h.size
  · exact owner?_congr (cell_allocate_of_lt hb)
  · refine Option.ext fun t => ?_
    constructor
    · intro ht
      obtain ⟨body, blocked, hcell⟩ := owner?_eq_some_iff.1 ht
      rw [cell_allocate] at hcell
      split at hcell
      · exact absurd hcell (hc t body blocked)
      · exact absurd (lt_size_of_cell_eq_thunk hcell) hb
    · intro ht
      exact absurd (lt_size_of_owner? (Option.isSome_of_mem ht)) hb

end Heap

namespace Machine

structure Calm (m : Machine κ) : Prop where
  interrupted : m.context.interrupted = false
  patient : m.scheduler.Patient

structure Twin (P : Footing) (ρ : Renaming) (need : Need) (m m' : Machine κ) : Prop where
  heap : m.heap.Twin ρ m'.heap
  owners : ∀ a a' t, ρ.rel a a' → m'.heap.owner? a' = some t → t = m'.context.thread
  frames : ∃ fs fs', m.context.stack.frames = fs ++ P.base ∧
    m'.context.stack.frames = fs' ++ P.base' ∧ List.Forall₂ (Frame.Twin ρ) fs fs'
  room : m.context.stack.limit = P.limit ∧
    m'.context.stack.limit = P.limit + P.waiting.length
  registers : ∀ s ∈ need.getD [], ∃ v v', m.context.registers.get? s = some v ∧
    m'.context.registers.get? s = some v' ∧ v.Twin ρ v'
  old : ∀ a, a.index < P.size → ρ.rel a a
  own : (m.heap.owner? P.own).isSome
  own' : (m'.heap.owner? P.own').isSome
  apart : ∀ b, ¬ ρ.rel P.own b
  apart' : ∀ b, ¬ ρ.rel b P.own'
  calm : m.Calm
  calm' : m'.Calm

theorem push_of_full {m : Machine κ} (frame : Frame κ)
    (h : m.context.stack.limit ≤ m.context.stack.frames.length) :
    m.push frame = .error (.stackOverflow m.context.stack.limit) := by
  rw [push, FrameStack.push_eq_overflow frame (by rwa [m.context.stack.depth_eq])]

namespace Twin

variable {P : Footing} {ρ : Renaming} {need need' : Need} {known : List Slot}
  {m m' m₁ m₁' : Machine κ} {a a' : Address}

theorem of_core {q q' : Scheduler κ} (h : Twin P ρ need m m')
    (hm : m₁.core = { m.core with scheduler := q })
    (hm' : m₁'.core = { m'.core with scheduler := q' }) (hq : q.Patient) (hq' : q'.Patient) :
    Twin P ρ need m₁ m₁' := by
  have hheap : m₁.heap = m.heap := congrArg Core.heap hm
  have hheap' : m₁'.heap = m'.heap := congrArg Core.heap hm'
  have hstack : m₁.context.stack = m.context.stack := congrArg Core.stack hm
  have hstack' : m₁'.context.stack = m'.context.stack := congrArg Core.stack hm'
  have hregs : m₁.context.registers = m.context.registers := congrArg Core.registers hm
  have hregs' : m₁'.context.registers = m'.context.registers := congrArg Core.registers hm'
  have hthread' : m₁'.context.thread = m'.context.thread := congrArg Core.thread hm'
  have hq₁ : m₁.scheduler = q := congrArg Core.scheduler hm
  have hq₁' : m₁'.scheduler = q' := congrArg Core.scheduler hm'
  have hcalm : m₁.Calm := ⟨(congrArg Core.interrupted hm).trans h.calm.interrupted, hq₁ ▸ hq⟩
  have hcalm' : m₁'.Calm :=
    ⟨(congrArg Core.interrupted hm').trans h.calm'.interrupted, hq₁' ▸ hq'⟩
  refine ⟨?_, ?_, ?_, ?_, ?_, h.old, ?_, ?_, h.apart, h.apart', hcalm, hcalm'⟩
  · rw [hheap, hheap']
    exact h.heap
  · rw [hheap', hthread']
    exact h.owners
  · rw [hstack, hstack']
    exact h.frames
  · rw [hstack, hstack']
    exact h.room
  · rw [hregs, hregs']
    exact h.registers
  · rw [hheap]
    exact h.own
  · rw [hheap']
    exact h.own'

theorem of_core_eq (h : Twin P ρ need m m') (hm : m₁.core = m.core) (hm' : m₁'.core = m'.core) :
    Twin P ρ need m₁ m₁' :=
  h.of_core (hm.trans rfl) (hm'.trans rfl) h.calm.patient h.calm'.patient

theorem count (h : Twin P ρ need m m') (f : Counters → Counters) :
    Twin P ρ need (m.count f) (m'.count f) :=
  h.of_core_eq rfl rfl

theorem report (h : Twin P ρ need m m') (target : Target) (remark remark' : Machine κ → Remark) :
    Twin P ρ need (m.report target remark) (m'.report target remark') :=
  h.of_core_eq (m.core_report _ _) (m'.core_report _ _)

theorem wake (h : Twin P ρ need m m') (released released' : List (Thread κ)) :
    Twin P ρ need (m.wake a released) (m'.wake a' released') :=
  h.of_core (m.core_wake _ _) (m'.core_wake _ _) (h.calm.patient.wake _ _)
    (h.calm'.patient.wake _ _)

theorem spark (h : Twin P ρ need m m') :
    Twin P ρ need (m.spark a).2 (m'.spark a').2 :=
  h.of_core rfl rfl (h.calm.patient.spark _ _) (h.calm'.patient.spark _ _)

theorem setException (h : Twin P ρ need m m') (e e' : Option Address) :
    Twin P ρ need (m.setException e) (m'.setException e') :=
  { h with calm := ⟨h.calm.1, h.calm.2⟩, calm' := ⟨h.calm'.1, h.calm'.2⟩ }

theorem of_subset {known' : List Slot} (h : Twin P ρ (some known) m m') (hs : known' ⊆ known) :
    Twin P ρ (some known') m m' :=
  { h with registers := fun s hm => h.registers s (hs hm) }

theorem nothing (h : Twin P ρ need m m') : Twin P ρ (some []) m m' :=
  { h with registers := fun _ hm => (List.not_mem_nil hm).elim }

section Registers

theorem put (h : Twin P ρ (some known) m m') (i : Fin registersPerKind) {v v' : Value}
    (hv : v.Twin ρ v') :
    Twin P ρ (some (⟨v.kind, i⟩ :: known)) (m.setRegisters (m.context.registers.put i v))
      (m'.setRegisters (m'.context.registers.put i v')) where
  registers s hs := by
    change ∃ w w', (m.context.registers.put i v).get? s = some w ∧
      (m'.context.registers.put i v').get? s = some w' ∧ w.Twin ρ w'
    rw [Registers.get?_put, Registers.get?_put, hv.kind_eq]
    by_cases he : s = ⟨v.kind, i⟩
    · exact ⟨v, v', by rw [if_pos he], by rw [if_pos he], hv⟩
    · rw [if_neg he, if_neg he]
      exact h.registers s ((List.mem_cons.1 hs).resolve_left he)
  heap := h.heap
  owners := h.owners
  frames := h.frames
  room := h.room
  old := h.old
  own := h.own
  own' := h.own'
  apart := h.apart
  apart' := h.apart'
  calm := ⟨h.calm.1, h.calm.2⟩
  calm' := ⟨h.calm'.1, h.calm'.2⟩

theorem setResult (h : Twin P ρ (some known) m m') (ha : ρ.rel a a') :
    Twin P ρ (some (Slot.result :: known)) (m.setResult a) (m'.setResult a') :=
  h.put 0 (.boxed ha)

theorem result (h : Twin P ρ need m m') (hs : Slot.result ∈ need.getD []) :
    ∃ p p', m.context.registers.result? = some p ∧ m'.context.registers.result? = some p' ∧
      ρ.rel p p' := by
  obtain ⟨v, v', hv, hv', hrel⟩ := h.registers _ hs
  obtain ⟨p, hp, rfl⟩ := Option.map_eq_some_iff.1 hv
  obtain ⟨p', hp', rfl⟩ := Option.map_eq_some_iff.1 hv'
  cases hrel with
  | boxed ha => exact ⟨p, p', hp, hp', ha⟩
  | primitive hk => exact absurd rfl hk

theorem read (h : Twin P ρ (some known) m m') {k : Kind} {i : Nat}
    (hs : ∀ s, Slot.ofIndex k i = .ok s → s ∈ known) :
    (∃ e, m.context.registers.read k i = .error e ∧ m'.context.registers.read k i = .error e) ∨
      ∃ v v', m.context.registers.read k i = .ok v ∧ m'.context.registers.read k i = .ok v' ∧
        v.Twin ρ v' := by
  simp only [Registers.read]
  cases hi : Slot.ofIndex k i with
  | error e => exact .inl ⟨e, rfl, rfl⟩
  | ok s =>
    obtain ⟨v, v', hv, hv', hrel⟩ := h.registers s (hs s hi)
    simp only [bind, Except.bind, hv, hv']
    exact .inr ⟨v, v', rfl, rfl, hrel⟩

end Registers

section Frames

variable {fs fs' : List (Frame κ)} {frame frame' : Frame κ}

theorem setStack (h : Twin P ρ need m m') {s s' : FrameStack κ} (hs : s.frames = fs ++ P.base)
    (hs' : s'.frames = fs' ++ P.base') (hfs : List.Forall₂ (Frame.Twin ρ) fs fs')
    (hl : s.limit = m.context.stack.limit) (hl' : s'.limit = m'.context.stack.limit) :
    Twin P ρ need (m.setStack s) (m'.setStack s') :=
  { h with
    frames := ⟨fs, fs', hs, hs', hfs⟩
    room := ⟨hl.trans h.room.1, hl'.trans h.room.2⟩
    calm := ⟨h.calm.1, h.calm.2⟩
    calm' := ⟨h.calm'.1, h.calm'.2⟩ }

theorem push (h : Twin P ρ need m m') (hf : frame.Twin ρ frame') :
    (∃ m₁ m₁', m.push frame = .ok m₁ ∧ m'.push frame' = .ok m₁' ∧ Twin P ρ need m₁ m₁') ∨
      ∃ l l', m.push frame = .error (.stackOverflow l) ∧
        m'.push frame' = .error (.stackOverflow l') := by
  obtain ⟨fs, fs', hs, hs', hfs⟩ := h.frames
  have hroom : m.context.stack.frames.length < m.context.stack.limit ↔
      m'.context.stack.frames.length < m'.context.stack.limit := by
    rw [hs, hs', h.room.1, h.room.2]
    simp only [Footing.base, Footing.base', List.length_append, List.length_cons, List.length_nil,
      List.length_map, hfs.length_eq]
    omega
  by_cases hlt : m.context.stack.frames.length < m.context.stack.limit
  · obtain ⟨m₁, s, hp, hc, hf₁, hl⟩ := Machine.exists_push frame hlt
    obtain ⟨m₁', s', hp', hc', hf₁', hl'⟩ := Machine.exists_push frame' (hroom.1 hlt)
    have hs₁ : s.frames = (frame :: fs) ++ P.base := by rw [hf₁, hs]; rfl
    have hs₁' : s'.frames = (frame' :: fs') ++ P.base' := by rw [hf₁', hs']; rfl
    exact .inl ⟨m₁, m₁', hp, hp',
      (h.setStack hs₁ hs₁' (.cons hf hfs) hl hl').of_core_eq hc hc'⟩
  · exact .inr ⟨_, _, push_of_full frame (Nat.le_of_not_lt hlt),
      push_of_full frame' (Nat.le_of_not_lt fun hlt' => hlt (hroom.2 hlt'))⟩

theorem drop (h : Twin P ρ need m m') (hs : m.context.stack.frames = frame :: fs ++ P.base)
    (hs' : m'.context.stack.frames = frame' :: fs' ++ P.base')
    (hfs : List.Forall₂ (Frame.Twin ρ) fs fs') :
    Twin P ρ need m.drop m'.drop ∧ m.drop.context.stack.frames = fs ++ P.base ∧
      m'.drop.context.stack.frames = fs' ++ P.base' := by
  obtain ⟨m₁, s, hp, hc, hf, hl⟩ := Machine.exists_pop? hs
  obtain ⟨m₁', s', hp', hc', hf', hl'⟩ := Machine.exists_pop? hs'
  have hd : m.drop = m₁ := by rw [Machine.drop, hp]
  have hd' : m'.drop = m₁' := by rw [Machine.drop, hp']
  have hst : m₁.context.stack = s := congrArg Core.stack hc
  have hst' : m₁'.context.stack = s' := congrArg Core.stack hc'
  rw [hd, hd', hst, hst']
  exact ⟨(h.setStack hf hf' hfs hl hl').of_core_eq hc hc', hf, hf'⟩

end Frames

section Cells

theorem allocate (h : Twin P ρ need m m') {c c' : Cell κ} (hc : c.Twin ρ c')
    (hg : m.heap.Grown (m.heap.allocate c).2) :
    ∃ σ, ρ ≤ σ ∧ σ.rel (m.allocate c).1 (m'.allocate c').1 ∧
      Twin P σ need (m.allocate c).2 (m'.allocate c').2 := by
  have hle := h.heap.le_next
  have hidle : Heap.Idle c := by
    rintro t body blocked rfl
    obtain ⟨_, hn⟩ := hg.new ⟨m.heap.size⟩ _ (Nat.le_refl _)
      (by rw [Heap.cell_allocate, if_pos rfl])
    cases hn
  have hidle' : Heap.Idle c' := by
    rintro t body blocked rfl
    cases hc with
    | underEvaluation => exact hidle _ _ _ rfl
  have hnew : ∀ {h : Heap κ} {b : Address}, (h.owner? b).isSome → b ≠ ⟨h.size⟩ :=
    fun hb he => Nat.ne_of_lt (Heap.lt_size_of_owner? hb) (congrArg Address.index he)
  obtain ⟨fs, fs', hs, hs', hfs⟩ := h.frames
  refine ⟨h.heap.next, hle, .inr ⟨rfl, rfl⟩, h.heap.allocate hc hg, ?_, ?_, h.room, ?_, ?_, ?_, ?_, ?_,
    ?_, ⟨h.calm.1, h.calm.2⟩, ⟨h.calm'.1, h.calm'.2⟩⟩
  case refine_1 =>
    intro b b' t hb ht
    have ht : (m'.heap.allocate c').2.owner? b' = some t := ht
    rw [Heap.owner?_allocate_of_idle hidle'] at ht
    rcases hb with hb | ⟨-, rfl⟩
    · exact h.owners b b' t hb ht
    · exact absurd rfl (hnew (Option.isSome_of_mem ht))
  case refine_2 => exact ⟨fs, fs', hs, hs', hfs.imp fun _ _ hf => hf.mono hle⟩
  case refine_3 =>
    intro s hs
    obtain ⟨v, v', hv, hv', hrel⟩ := h.registers s hs
    exact ⟨v, v', hv, hv', hrel.mono hle⟩
  case refine_4 => exact fun b hb => hle _ _ (h.old b hb)
  case refine_5 =>
    change ((m.heap.allocate c).2.owner? _).isSome
    rw [Heap.owner?_allocate_of_idle hidle]
    exact h.own
  case refine_6 =>
    change ((m'.heap.allocate c').2.owner? _).isSome
    rw [Heap.owner?_allocate_of_idle hidle']
    exact h.own'
  case refine_7 =>
    rintro b (hb | ⟨hb, -⟩)
    · exact h.apart b hb
    · exact hnew h.own hb
  case refine_8 =>
    rintro b (hb | ⟨-, hb⟩)
    · exact h.apart' b hb
    · exact hnew h.own' hb

variable {s s' t t' : ThunkState κ}

theorem write (h : Twin P ρ need m m') (ha : ρ.rel a a') (hs : m.heap.cell a = .thunk s)
    (hs' : m'.heap.cell a' = .thunk s') (hstate : (Cell.thunk t).Twin ρ (.thunk t'))
    (hk : CellOperations.Keeps m.heap (m.heap.write a (.thunk t)))
    (ho : ∀ o body blocked, t' = .underEvaluation o body blocked → o = m'.context.thread) :
    Twin P ρ need (m.setHeap (m.heap.write a (.thunk t)))
      (m'.setHeap (m'.heap.write a' (.thunk t'))) where
  heap := h.heap.write ha hs hs' hstate hk
  owners b b' o hb hown := by
    by_cases hab : a' = b'
    · subst hab
      obtain ⟨body, blocked, hcell⟩ := Heap.owner?_eq_some_iff.1 hown
      have hcell : (m'.heap.write a' (.thunk t')).cell a' = _ := hcell
      rw [Heap.cell_write_thunk hs'] at hcell
      exact ho o body blocked (Cell.thunk.inj hcell)
    · have hown : (m'.heap.write a' (.thunk t')).owner? b' = some o := hown
      rw [Heap.owner?_congr (Heap.cell_write_of_ne hab)] at hown
      exact h.owners b b' o hb hown
  frames := h.frames
  room := h.room
  registers := h.registers
  old := h.old
  own := by
    have hne : a ≠ P.own := fun he => h.apart a' (he ▸ ha)
    change ((m.heap.write a (.thunk t)).owner? _).isSome
    rw [Heap.owner?_congr (Heap.cell_write_of_ne hne)]
    exact h.own
  own' := by
    have hne : a' ≠ P.own' := fun he => h.apart' a (he ▸ ha)
    change ((m'.heap.write a' (.thunk t')).owner? _).isSome
    rw [Heap.owner?_congr (Heap.cell_write_of_ne hne)]
    exact h.own'
  apart := h.apart
  apart' := h.apart'
  calm := ⟨h.calm.1, h.calm.2⟩
  calm' := ⟨h.calm'.1, h.calm'.2⟩

theorem reset (h : Twin P ρ need m m') (ha : ρ.rel a a') :
    Twin P ρ need (m.setHeap (m.heap.reset a).2) (m'.setHeap (m'.heap.reset a').2) := by
  obtain ⟨c, c', hc, hc', hcells⟩ := h.heap.exists_cells ha
  have hk := CellOperations.keeps_reset m.heap a
  simp only [Heap.reset, hc, hc'] at hk ⊢
  cases hcells with
  | underEvaluation t t' blocked blocked' code hv =>
    exact h.write ha hc hc' (.unevaluated code hv) hk fun _ _ _ ho => by cases ho
  | _ => exact h

theorem settle {v v' : Address} (h : Twin P ρ need m m') (ha : ρ.rel a a') (hv : ρ.rel v v')
    (hn : m.heap.target? a = none) (hvalued : m.heap.Valued v) :
    Twin P ρ need (m.setHeap (m.heap.settle a v).2) (m'.setHeap (m'.heap.settle a' v').2) := by
  have hupdate : m.heap.update a v = .ok (m.heap.settle a v) := by rw [Heap.update, hn]
  have hk := CellOperations.keeps_update hupdate hvalued
  obtain ⟨c, c', hc, hc', hcells⟩ := h.heap.exists_cells ha
  simp only [Heap.settle, hc, hc'] at hk ⊢
  cases hcells with
  | unevaluated code hvs =>
    exact h.write ha hc hc' (.evaluated hv) hk fun _ _ _ ho => by cases ho
  | underEvaluation t t' blocked blocked' code hvs =>
    exact h.write ha hc hc' (.evaluated hv) hk fun _ _ _ ho => by cases ho
  | _ => exact h

theorem resetThunk (h : Twin P ρ need m m') (ha : ρ.rel a a')
    (remark remark' : Nat → Option Remark) :
    Twin P ρ need (m.resetThunk a remark) (m'.resetThunk a' remark') :=
  (h.reset ha).of_core (m.core_resetThunk a remark) (m'.core_resetThunk a' remark')
    (h.calm.patient.wake _ _) (h.calm'.patient.wake _ _)

end Cells

end Twin

end Machine

end GraphReduction
