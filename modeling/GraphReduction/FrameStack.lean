import GraphReduction.Error
import GraphReduction.Frame

namespace GraphReduction

def defaultStackLimit : Nat := 1048576

def initialCapacity : Nat := 64

def leastGrowth : Nat := 256

structure FrameStack (κ : Type) where
  frames : List (Frame κ)
  depth : Nat
  limit : Nat
  capacity : Nat
  highWater : Nat
  depth_eq : depth = frames.length
  depth_le_limit : depth ≤ limit
  depth_le_highWater : depth ≤ highWater

namespace FrameStack

variable {κ : Type}

def empty (limit : Nat) : FrameStack κ where
  frames := []
  depth := 0
  limit
  capacity := min initialCapacity limit
  highWater := 0
  depth_eq := rfl
  depth_le_limit := Nat.zero_le _
  depth_le_highWater := Nat.zero_le _

instance : Inhabited (FrameStack κ) := ⟨empty defaultStackLimit⟩

/-- How much the storage grows when it is full: by half, but at least by a fixed chunk, and never
beyond the limit. -/
def growth (depth limit : Nat) : Nat := min (max (depth / 2) leastGrowth) (limit - depth)

theorem growth_pos {depth limit : Nat} (h : depth < limit) : 0 < growth depth limit := by
  unfold growth leastGrowth
  omega

theorem add_growth_le {depth limit : Nat} (h : depth ≤ limit) :
    depth + growth depth limit ≤ limit := by
  unfold growth
  omega

def place (s : FrameStack κ) (frame : Frame κ) (capacity : Nat) (h : s.depth < s.limit) :
    FrameStack κ where
  frames := frame :: s.frames
  depth := s.depth + 1
  limit := s.limit
  capacity
  highWater := max s.highWater (s.depth + 1)
  depth_eq := by rw [s.depth_eq, List.length_cons]
  depth_le_limit := h
  depth_le_highWater := Nat.le_max_right _ _

def pushGrowing (s : FrameStack κ) (frame : Frame κ) : Except RuntimeError (FrameStack κ) :=
  if h : s.limit ≤ s.depth then .error (.stackOverflow s.limit)
  else
    let capacity := max s.capacity (s.depth + growth s.depth s.limit)
    .ok (s.place frame capacity (Nat.lt_of_not_le h))

def push (s : FrameStack κ) (frame : Frame κ) : Except RuntimeError (FrameStack κ) :=
  if h : s.depth < s.capacity ∧ s.depth < s.limit then .ok (s.place frame s.capacity h.2)
  else s.pushGrowing frame

def pop? (s : FrameStack κ) : Option (Frame κ × FrameStack κ) :=
  match h : s.frames with
  | [] => none
  | frame :: rest =>
    some (frame, {
      frames := rest
      depth := s.depth - 1
      limit := s.limit
      capacity := s.capacity
      highWater := s.highWater
      depth_eq := by rw [s.depth_eq, h]; rfl
      depth_le_limit := Nat.le_trans (Nat.sub_le _ _) s.depth_le_limit
      depth_le_highWater := Nat.le_trans (Nat.sub_le _ _) s.depth_le_highWater })

def popArgument? (s : FrameStack κ) : Option (Value × FrameStack κ) :=
  match s.pop? with
  | some (.apply v, rest) => some (v, rest)
  | _ => none

def top? (s : FrameStack κ) : Option (Frame κ) := s.frames.head?

def isEmpty (s : FrameStack κ) : Bool := s.frames.isEmpty

def labels (s : FrameStack κ) : List String := s.frames.map Frame.label

theorem push_eq_place {s : FrameStack κ} (frame : Frame κ) (h : s.depth < s.limit) :
    s.push frame = .ok (s.place frame
      (if s.depth < s.capacity then s.capacity
        else max s.capacity (s.depth + growth s.depth s.limit)) h) := by
  unfold push
  by_cases hc : s.depth < s.capacity
  · rw [dif_pos ⟨hc, h⟩, if_pos hc]
  · rw [dif_neg fun hp => hc hp.1, pushGrowing, dif_neg (Nat.not_le_of_lt h), if_neg hc]

theorem push_eq_overflow {s : FrameStack κ} (frame : Frame κ) (h : s.limit ≤ s.depth) :
    s.push frame = .error (.stackOverflow s.limit) := by
  rw [push, dif_neg fun hp => Nat.not_le_of_lt hp.2 h, pushGrowing, dif_pos h]

theorem frames_of_push {s t : FrameStack κ} {frame : Frame κ} (h : s.push frame = .ok t) :
    t.frames = frame :: s.frames ∧ t.limit = s.limit := by
  by_cases hl : s.depth < s.limit
  · rw [push_eq_place frame hl] at h
    cases h
    exact ⟨rfl, rfl⟩
  · rw [push_eq_overflow frame (Nat.le_of_not_lt hl)] at h
    cases h

theorem push_eq_error_iff {s : FrameStack κ} {frame : Frame κ} {e : RuntimeError} :
    s.push frame = .error e ↔ s.frames.length = s.limit ∧ e = .stackOverflow s.limit := by
  have hd := s.depth_eq
  have hl := s.depth_le_limit
  by_cases h : s.depth < s.limit
  · rw [push_eq_place frame h]
    simp; omega
  · rw [push_eq_overflow frame (Nat.le_of_not_lt h), Except.error.injEq]
    constructor
    · rintro rfl
      exact ⟨by omega, rfl⟩
    · rintro ⟨-, rfl⟩
      rfl

theorem frames_of_pop? {s t : FrameStack κ} {frame : Frame κ} (h : s.pop? = some (frame, t)) :
    s.frames = frame :: t.frames ∧ t.limit = s.limit := by
  unfold pop? at h
  split at h
  · cases h
  · next hs =>
    cases h
    exact ⟨hs, rfl⟩

end FrameStack

end GraphReduction
