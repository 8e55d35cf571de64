import GraphReduction.Proofs.SumPool

namespace GraphReduction.SharedSum

open Evaluation Pool

section Code

variable {m m' : Machine Code} {s : Step}

theorem disciplined_readLong {index : Nat} {next : Int64 → Action Code Step}
    (hn : ∀ x, (next x).Disciplined) : (readLong index next).Disciplined := by
  intro r
  cases r with
  | ok v => exact hn _
  | error e => trivial

theorem disciplined_readClosure {next : Address → Action Code Step}
    (hn : ∀ a, (next a).Disciplined) : (readClosure next).Disciplined := by
  intro r
  cases r with
  | ok v => cases v <;> first | exact hn _ | trivial
  | error e => trivial

theorem disciplined_giveLong (x : Int64) : (giveLong x).Disciplined := fun _ => trivial

theorem disciplined_program : program.Disciplined := by
  intro code captured
  cases code with
  | sum =>
    refine disciplined_readClosure fun a => disciplined_readLong fun x =>
      disciplined_readLong fun y => ?_
    split
    · exact disciplined_giveLong x
    · trivial
  | total f n => trivial
  | root a =>
    refine fun _ => ⟨nofun, fun r => ?_⟩
    cases r <;> trivial
  | addOffset => exact disciplined_readClosure fun a => fun h => disciplined_giveLong _

theorem perform_readLong {index : Nat} {next : Int64 → Action Code Step}
    (h : (readLong index next).perform m = .ok s m') : ∃ x, (next x).perform m = .ok s m' := by
  unfold readLong Action.perform at h
  cases hr : m.context.registers.read .long index with
  | ok v =>
    rw [hr] at h
    exact ⟨_, h⟩
  | error e =>
    rw [hr] at h
    cases h

theorem perform_readClosure {next : Address → Action Code Step}
    (h : (readClosure next).perform m = .ok s m') : ∃ a, (next a).perform m = .ok s m' := by
  unfold readClosure Action.perform at h
  cases hr : m.context.registers.read .boxed 1 with
  | ok v =>
    rw [hr] at h
    cases v <;> first | exact ⟨_, h⟩ | cases h
  | error e =>
    rw [hr] at h
    cases h

theorem perform_body {code : Code} {captured : List Value}
    (h : (body code captured).perform m = .ok s m') :
    (s = .resume → m'.context.registers.result? ≠ none) ∧ ∀ a, s ≠ .block a := by
  have hgive : ∀ {x : Int64}, (giveLong x).perform m = .ok s m' →
      (s = .resume → m'.context.registers.result? ≠ none) ∧ ∀ a, s ≠ .block a := by
    intro x hx
    cases hx
    refine ⟨fun _ => ?_, fun _ h => by cases h⟩
    change (Registers.setResult _ _).result? ≠ none
    simp
  cases code with
  | sum =>
    obtain ⟨a, ha⟩ := perform_readClosure h
    obtain ⟨x, hx⟩ := perform_readLong ha
    obtain ⟨y, hy⟩ := perform_readLong hx
    split at hy
    · exact hgive hy
    · cases hy
      exact ⟨(fun h => by cases h), fun _ h => by cases h⟩
  | total f n =>
    cases h
    exact ⟨(fun h => by cases h), fun _ h => by cases h⟩
  | root a =>
    simp only [body, Action.perform] at h
    split at h <;> cases h
    exact ⟨(fun h => by cases h), fun _ h => by cases h⟩
  | addOffset =>
    obtain ⟨a, ha⟩ := perform_readClosure h
    exact hgive ha

theorem conventional_program : program.Conventional where
  disciplined := disciplined_program
  returns _ _ _ _ h := (perform_body h).1 rfl

theorem neverBlocks_program : program.NeverBlocks :=
  fun _ _ _ a _ h => (perform_body h).2 a rfl

end Code

section Heap

variable {n : Int64} {roots : Nat}

theorem cell_allocateRoots (a : Address) (count first : Nat) (h : Heap Code) (b : Address) :
    (allocateRoots a count first h).2.cell b =
      if h.size ≤ b.index ∧ b.index < h.size + count then
        .thunk (.unevaluated ⟨.root a, [.long (Int64.ofNat (first + (b.index - h.size)))]⟩)
      else h.cell b := by
  induction count generalizing first h with
  | zero => rw [if_neg (by omega)]; rfl
  | succ count ih =>
    have hsize : ∀ c : Cell Code, (h.allocate c).2.size = h.size + 1 := fun c => Array.size_push _
    rw [allocateRoots]
    dsimp only
    rw [ih, hsize, Heap.cell_allocate]
    by_cases hb : b.index = h.size
    · rw [if_neg (by omega), if_pos hb, if_pos (by omega), hb, Nat.sub_self, Nat.add_zero]
    · rw [if_neg hb]
      by_cases hin : h.size + 1 ≤ b.index ∧ b.index < h.size + 1 + count
      · rw [if_pos hin, if_pos (by omega), show first + 1 + (b.index - (h.size + 1)) =
          first + (b.index - h.size) by omega]
      · rw [if_neg hin, if_neg (by omega)]

theorem addresses_allocateRoots (a : Address) (count first : Nat) (h : Heap Code) :
    (allocateRoots a count first h).1 = (List.range' h.size count).map Address.mk := by
  induction count generalizing first h with
  | zero => rfl
  | succ count ih =>
    rw [allocateRoots, List.range'_succ, List.map_cons]
    dsimp only
    rw [ih]
    exact congrArg _ (congrArg (fun size => (List.range' size count).map Address.mk)
      (Array.size_push _))

def workload (n : Int64) (roots : Nat) (verbosity : Verbosity) : Shared Code :=
  { (Shared.empty verbosity : Shared Code) with heap := (build n roots .empty).2 }

def addresses (n : Int64) (roots : Nat) : List Address := (build n roots .empty).1

theorem addresses_eq (n : Int64) (roots : Nat) :
    addresses n roots = (List.range' 2 roots).map Address.mk :=
  addresses_allocateRoots shared roots 0 _

theorem run_eq (fuel : Nat) (o : RuntimeOptions) (n : Int64) (roots : Nat)
    (verbosity : Verbosity) : run fuel o n roots verbosity =
      Pool.run program quantum fuel o (addresses n roots) (workload n roots verbosity) := rfl

theorem cell_workload (n : Int64) (roots : Nat) (v : Verbosity) (a : Address) :
    (workload n roots v).heap.cell a =
      if a = function then .function ⟨"sum", 3, .sum⟩ []
      else if 1 ≤ a.index ∧ a.index ≤ roots + 1 then .thunk (.unevaluated (suspension n a))
      else default := by
  let h : Heap Code :=
    ((Heap.empty.allocate (.function ⟨"sum", 3, .sum⟩ [])).2.allocate
      (.thunk (.unevaluated (suspension n shared)))).2
  change (allocateRoots shared roots 0 h).2.cell a = _
  rw [cell_allocateRoots, show h.size = 2 from rfl]
  obtain ⟨i⟩ := a
  match i with
  | 0 => rfl
  | 1 =>
    rw [if_neg (by simp), if_neg (by simp [function]), if_pos (by simp)]
    rfl
  | i + 2 =>
    rw [if_neg (by simp [function] : (⟨i + 2⟩ : Address) ≠ function), suspension,
      if_neg (by simp [shared] : (⟨i + 2⟩ : Address) ≠ shared)]
    by_cases hi : i < roots
    · rw [if_pos (by simp; omega), if_pos (by simp; omega), Nat.zero_add]
    · rw [if_neg (by simp; omega), if_neg (by simp; omega)]
      rfl

variable {v : Verbosity} {a : Address}

theorem thunk_workload {state : ThunkState Code}
    (hc : (workload n roots v).heap.cell a = .thunk state) :
    (1 ≤ a.index ∧ a.index ≤ roots + 1) ∧ state = .unevaluated (suspension n a) := by
  rw [cell_workload] at hc
  split at hc
  · cases hc
  · split at hc
    · next ha => exact ⟨ha, (Cell.thunk.inj hc).symm⟩
    · cases hc

theorem isThunk_workload (n : Int64) (roots : Nat) (v : Verbosity) (a : Address) :
    (workload n roots v).heap.isThunk a = true ↔ 1 ≤ a.index ∧ a.index ≤ roots + 1 := by
  rw [Heap.isThunk, Option.isSome_iff_exists]
  constructor
  · rintro ⟨state, hs⟩
    exact (thunk_workload (Heap.thunk?_eq_some_iff.1 hs)).1
  · intro ha
    refine ⟨.unevaluated (suspension n a), Heap.thunk?_eq_some_iff.2 ?_⟩
    rw [cell_workload, if_neg, if_pos ha]
    rintro rfl
    exact absurd ha.1 (by simp [function])

theorem stored_workload (n : Int64) (roots : Nat) (v : Verbosity) :
    Stored n roots (workload n roots v).heap where
  function := by rw [cell_workload, if_pos rfl]
  isThunk := isThunk_workload n roots v
  kept a state hc := by
    obtain ⟨-, rfl⟩ := thunk_workload hc
    exact .unevaluated

theorem not_begun_workload (n : Int64) (roots : Nat) (v : Verbosity) (a : Address) :
    ¬ Begun (workload n roots v).heap a := by
  rintro ⟨state, hc, hne⟩
  exact hne _ (thunk_workload hc).2

theorem owner?_workload (n : Int64) (roots : Nat) (v : Verbosity) (a : Address) :
    (workload n roots v).heap.owner? a = none := by
  cases ho : (workload n roots v).heap.owner? a with
  | none => rfl
  | some t =>
    obtain ⟨body, blocked, hc⟩ := Heap.owner?_eq_some_iff.1 ho
    exact absurd ⟨_, hc, nofun⟩ (not_begun_workload n roots v a)

end Heap

section Start

variable {n : Int64} {roots : Nat} {o : RuntimeOptions} {v : Verbosity}

def opening (o : RuntimeOptions) (n : Int64) (roots : Nat) (v : Verbosity) : Pool Code :=
  Pool.start o (addresses n roots) (workload n roots v)

theorem opening_scene (o : RuntimeOptions) (n : Int64) (roots : Nat) (v : Verbosity) :
    (opening o n roots v).scene = {
      heap := (workload n roots v).heap
      waiting := .empty
      lastThread := roots
      threads := (addresses n roots).mapIdx fun i a =>
        ⟨rootThread (workload n roots v) i, .empty o.stackLimit.toNat, .enter a⟩
      sparks := []
      workers := (opening o n roots v).workers.toList
      gone := 0
      stackLimit := o.stackLimit.toNat } := by
  have hlength : (addresses n roots).length = roots := by simp [addresses_eq]
  simp only [opening, Pool.start, scene, spawnRoots_eq, hlength]
  congr 1
  exact Nat.zero_add roots

theorem orderly_opening (hl : 6 ≤ o.stackLimit.toNat) :
    Orderly n roots (opening o n roots v).scene := by
  rw [opening_scene]
  constructor
  case stackLimit => exact hl
  case lastThread => exact Nat.le_refl _
  case stored => exact stored_workload n roots v
  case waiting => exact nofun
  case threads =>
    intro t ht
    obtain ⟨i, hi, rfl⟩ := List.mem_mapIdx.1 ht
    have hlt : i < roots := by simpa [addresses_eq] using hi
    have hroot : IsRoot roots (rootThread (workload n roots v) i) := by
      change 1 ≤ 0 + 1 + i ∧ 0 + 1 + i ≤ roots
      omega
    have haddress : (addresses n roots)[i] = rootOf (rootThread (workload n roots v) i) := by
      simp only [addresses_eq, List.getElem_map, List.getElem_range']
      change (⟨2 + 1 * i⟩ : Address) = ⟨0 + 1 + i + 1⟩
      congr 1
      omega
    rw [haddress]
    exact ⟨.outset hroot, hl⟩
  case parked =>
    rw [Heap.parked_eq_nil (owner?_workload n roots v)]
    nofun
  case sparks => exact nofun
  case workers =>
    intro w hw
    have hw : w ∈ Array.ofFn (fun i : Fin (workerCount o) =>
        (⟨.new i o.stackLimit.toNat, .idle⟩ : PoolWorker Code)) := Array.mem_toList_iff.1 hw
    obtain ⟨i, rfl⟩ := Array.mem_ofFn.1 hw
    exact ⟨rfl, .idle⟩

theorem recorded_opening : Recorded n roots [] [] (opening o n roots v).scene := by
  rw [opening_scene]
  constructor
  case nodup => exact List.nodup_nil
  case begun => exact fun a => ⟨nofun, fun ha => absurd ha (not_begun_workload n roots v a)⟩
  case tally =>
    refine ⟨[], List.nodup_nil,
      fun a => ⟨nofun, fun ha => absurd ha.begun (not_begun_workload n roots v a)⟩, ?_⟩
    change 0 + _ = (0 : UInt64 × UInt64)
    rw [zero_add]
    refine List.sum_eq_zero fun x hx => ?_
    obtain ⟨w, hw, rfl⟩ := List.mem_map.1 hx
    have hw : w ∈ Array.ofFn (fun i : Fin (workerCount o) =>
        (⟨.new i o.stackLimit.toNat, .idle⟩ : PoolWorker Code)) := Array.mem_toList_iff.1 hw
    obtain ⟨i, rfl⟩ := Array.mem_ofFn.1 hw
    rfl
  case ended => exact nofun

theorem holds_of_chronicle (hn : 0 ≤ n) (hl : 6 ≤ o.stackLimit.toNat) {log : List Address}
    {ended : List Ending} {p : Pool Code}
    (h : Chronicle program (opening o n roots v) log ended p) :
    Orderly n roots p.scene ∧ Recorded n roots log ended p.scene := by
  have hsound : ∀ {log ended} {p : Pool Code},
      Chronicle program (opening o n roots v) log ended p →
        ∃ s : System Code, Mirrors p [] s ∧ s.Sound := by
    intro log ended p h
    have hidle := owner?_workload n roots v
    obtain ⟨s, hrun, hm, -⟩ := tracked_of_moves conventional_program hidle h.works.moves
    exact ⟨s, hm, System.sound_of_reaches conventional_program (initial_vacant o hidle) hrun⟩
  induction h with
  | start => exact ⟨orderly_opening hl, recorded_opening⟩
  | iterate h hw hjob hi hstarts ih =>
    obtain ⟨horderly, hrecorded⟩ := ih
    obtain ⟨s, hm, hs⟩ := hsound h
    obtain ⟨pending, entered, updated, hworking, hiteration⟩ :=
      exists_iteration conventional_program hn horderly hm hs hw hjob hi
    rw [starts_of_iteration hworking hiteration hi hstarts]
    exact ⟨horderly.iteration hworking hiteration, hrecorded.iteration hw hjob hiteration⟩
  | other h ha hd _ hrests ih =>
    obtain ⟨s, hm, hs⟩ := hsound h
    rcases hrests.shift ha hd hm hs conventional_program with he | hshift
    · rwa [he]
    · exact ⟨ih.1.shift hshift, ih.2.shift hshift⟩

end Start

end GraphReduction.SharedSum
