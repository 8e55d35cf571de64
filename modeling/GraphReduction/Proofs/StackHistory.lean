import GraphReduction.Proofs.StackLevel
import Mathlib.Data.List.Infix
import Mathlib.Order.Bounds.Basic

namespace GraphReduction.FrameStack

variable {κ : Type}

inductive Operation (κ : Type) where
  | push (frame : Frame κ)
  | pop
  | popArgument
  | allot (more : Nat)

inductive Reply (κ : Type) where
  | pushed (result : Except RuntimeError Unit)
  | popped (frame : Option (Frame κ))
  | argument (value : Option Value)
  | allotted

def Reply.Refuses : Reply κ → Prop
  | .pushed (.error _) | .popped none | .argument none => True
  | _ => False

def operate (s : FrameStack κ) : Operation κ → Reply κ × FrameStack κ
  | .push frame =>
    match s.push frame with
    | .ok t => (.pushed (.ok ()), t)
    | .error e => (.pushed (.error e), s)
  | .pop =>
    match s.pop? with
    | some (frame, t) => (.popped (some frame), t)
    | none => (.popped none, s)
  | .popArgument =>
    match s.popArgument? with
    | some (v, t) => (.argument (some v), t)
    | none => (.argument none, s)
  | .allot more => (.allotted, { s with capacity := s.capacity + more })

def Operation.onList (limit : Nat) (frames : List (Frame κ)) :
    Operation κ → Reply κ × List (Frame κ)
  | .push frame =>
    if frames.length < limit then (.pushed (.ok ()), frame :: frames)
    else (.pushed (.error (.stackOverflow limit)), frames)
  | .pop => (.popped frames.head?, frames.tail)
  | .popArgument =>
    match frames with
    | .apply v :: rest => (.argument (some v), rest)
    | _ => (.argument none, frames)
  | .allot _ => (.allotted, frames)

def after (s : FrameStack κ) (ops : List (Operation κ)) : FrameStack κ :=
  ops.foldl (fun s op => (s.operate op).2) s

def listAfter (limit : Nat) (ops : List (Operation κ)) : List (Frame κ) :=
  ops.foldl (fun frames op => (op.onList limit frames).2) []

def depths (s : FrameStack κ) (ops : List (Operation κ)) : Set Nat :=
  {d | ∃ past, past <+: ops ∧ (s.after past).depth = d}

theorem growth_eq {depth limit : Nat} (h : depth ≤ limit) :
    (growth depth limit : Int) =
      min (max ((depth / 2 : Nat) : Int) leastGrowth) (limit - depth) := by
  unfold growth
  omega

section Steps

variable {s t : FrameStack κ} {frame : Frame κ}

theorem exists_push_iff : (∃ t, s.push frame = .ok t) ↔ s.depth < s.limit := by
  constructor
  · rintro ⟨t, ht⟩
    by_contra hl
    rw [push_eq_overflow frame (Nat.le_of_not_lt hl)] at ht
    cases ht
  · intro hl
    exact ⟨_, push_eq_place frame hl⟩

structure Follows (s : FrameStack κ) (op : Operation κ) : Prop where
  reply : (s.operate op).1 = (op.onList s.limit s.frames).1
  frames : (s.operate op).2.frames = (op.onList s.limit s.frames).2
  limit : (s.operate op).2.limit = s.limit
  highWater : (s.operate op).2.highWater = max s.highWater (s.operate op).2.depth
  storage : s.depth ≤ s.capacity → (s.operate op).2.depth ≤ (s.operate op).2.capacity
  refusal : (s.operate op).1.Refuses → (s.operate op).2 = s

theorem Follows.of_unchanged {op : Operation κ} {r : Reply κ} (hx : s.operate op = (r, s))
    (hlist : op.onList s.limit s.frames = (r, s.frames)) : s.Follows op := by
  refine ⟨?_, ?_, ?_, ?_, ?_, ?_⟩
  all_goals rw [hx]
  · rw [hlist]
  · rw [hlist]
  · exact (Nat.max_eq_left s.depth_le_highWater).symm
  · exact id
  · exact fun _ => rfl

theorem capacity_of_pop? (h : s.pop? = some (frame, t)) : t.capacity = s.capacity := by
  unfold pop? at h
  split at h <;> cases h
  rfl

theorem Follows.of_pop? {op : Operation κ} {r : Reply κ} (hp : s.pop? = some (frame, t))
    (hx : s.operate op = (r, t)) (hlist : op.onList s.limit s.frames = (r, t.frames))
    (hr : ¬ r.Refuses) : s.Follows op := by
  have hd := t.depth_eq
  obtain ⟨hf, hl⟩ := frames_of_pop? hp
  refine ⟨?_, ?_, ?_, ?_, ?_, ?_⟩
  all_goals rw [hx]
  · rw [hlist]
  · rw [hlist]
  · exact hl
  · rw [highWater_of_pop? hp, ← highWater_of_pop? hp, Nat.max_eq_left t.depth_le_highWater]
  · intro hc
    rw [s.depth_eq, hf, List.length_cons, ← hd] at hc
    change t.depth ≤ t.capacity
    rw [capacity_of_pop? hp]
    omega
  · exact fun hno => absurd hno hr

theorem follows_push (s : FrameStack κ) (frame : Frame κ) : s.Follows (.push frame) := by
  have hd := s.depth_eq
  by_cases hl : s.depth < s.limit
  · have hx : s.operate (.push frame) = (.pushed (.ok ()), s.place frame
        (if s.depth < s.capacity then s.capacity
          else max s.capacity (s.depth + growth s.depth s.limit)) hl) := by
      rw [operate, push_eq_place frame hl]
    have hlist : (Operation.push frame).onList s.limit s.frames =
        (.pushed (.ok ()), frame :: s.frames) := if_pos (hd ▸ hl)
    refine ⟨?_, ?_, ?_, ?_, ?_, ?_⟩
    all_goals rw [hx]
    · rw [hlist]
    · rw [hlist]
      rfl
    · rfl
    · rfl
    · intro _
      -- the new frame is the first for which the storage has grown, or there was room for it
      have hg := growth_pos hl
      change s.depth + 1 ≤ if _ then _ else _
      split
      · assumption
      · exact Nat.le_trans (Nat.add_le_add_left hg _) (Nat.le_max_right _ _)
    · exact False.elim
  · have hx : s.operate (.push frame) = (.pushed (.error (.stackOverflow s.limit)), s) := by
      rw [operate, push_eq_overflow frame (Nat.le_of_not_lt hl)]
    exact .of_unchanged hx (if_neg (hd ▸ hl))

theorem follows_pop (s : FrameStack κ) : s.Follows .pop := by
  cases hf : s.frames with
  | nil =>
    refine .of_unchanged (r := .popped none) ?_ ?_
    · rw [operate, pop?_eq_none hf]
    · rw [Operation.onList, hf]
      rfl
  | cons frame rest =>
    obtain ⟨t, hp, ht, -⟩ := exists_pop? hf
    refine .of_pop? (r := .popped (some frame)) hp ?_ ?_ id
    · rw [operate, hp]
    · rw [Operation.onList, hf, ht]
      rfl

theorem follows_popArgument (s : FrameStack κ) : s.Follows .popArgument := by
  cases hf : s.frames with
  | nil =>
    refine .of_unchanged (r := .argument none) ?_ ?_
    · rw [operate, popArgument?_eq_none (by rw [hf]; rfl)]
    · rw [hf]
      rfl
  | cons frame rest =>
    obtain ⟨t, hp, ht, -⟩ := exists_pop? hf
    cases frame with
    | apply v =>
      refine .of_pop? (r := .argument (some v)) hp ?_ ?_ id
      · rw [operate, popArgument?, hp]
      · rw [hf, ht]
        rfl
    | _ =>
      refine .of_unchanged (r := .argument none) ?_ ?_
      · rw [operate, popArgument?_eq_none (by rw [hf]; rfl)]
      · rw [hf]
        rfl

theorem follows_allot (s : FrameStack κ) (more : Nat) : s.Follows (.allot more) where
  reply := rfl
  frames := rfl
  limit := rfl
  highWater := (Nat.max_eq_left s.depth_le_highWater).symm
  storage h := Nat.le_trans h (Nat.le_add_right _ _)
  refusal := False.elim

theorem follows (s : FrameStack κ) (op : Operation κ) : s.Follows op := by
  cases op with
  | push frame => exact follows_push s frame
  | pop => exact follows_pop s
  | popArgument => exact follows_popArgument s
  | allot more => exact follows_allot s more

end Steps

section Histories

theorem after_concat (s : FrameStack κ) (ops : List (Operation κ)) (op : Operation κ) :
    s.after (ops ++ [op]) = ((s.after ops).operate op).2 := by
  rw [after, List.foldl_concat]
  rfl

theorem listAfter_concat (limit : Nat) (ops : List (Operation κ)) (op : Operation κ) :
    listAfter limit (ops ++ [op]) = (op.onList limit (listAfter limit ops)).2 := by
  rw [listAfter, List.foldl_concat]
  rfl

theorem depths_concat (s : FrameStack κ) (ops : List (Operation κ)) (op : Operation κ) :
    s.depths (ops ++ [op]) = insert (s.after (ops ++ [op])).depth (s.depths ops) := by
  ext d
  simp only [depths, List.prefix_concat_iff, Set.mem_insert_iff, Set.mem_ofPred_eq]
  constructor
  · rintro ⟨past, rfl | hp, rfl⟩
    · exact .inl rfl
    · exact .inr ⟨past, hp, rfl⟩
  · rintro (rfl | ⟨past, hp, rfl⟩)
    · exact ⟨_, .inl rfl, rfl⟩
    · exact ⟨past, .inr hp, rfl⟩

structure Recalls (limit : Nat) (ops : List (Operation κ)) (s : FrameStack κ) : Prop where
  frames : s.frames = listAfter limit ops
  highWater : IsGreatest ((empty limit).depths ops) s.highWater
  storage : s.depth ≤ s.capacity
  limit : s.limit = limit

theorem recalls_nil (limit : Nat) : Recalls limit [] (empty limit : FrameStack κ) where
  frames := rfl
  highWater := by
    refine ⟨⟨[], List.nil_prefix, rfl⟩, ?_⟩
    rintro d ⟨past, hp, rfl⟩
    rw [List.prefix_nil.1 hp]
    exact Nat.le_refl 0
  storage := Nat.zero_le _
  limit := rfl

theorem recalls (limit : Nat) (ops : List (Operation κ)) :
    Recalls limit ops ((empty limit).after ops) := by
  -- from the end, as a history has one prefix more than without its last operation
  induction ops using List.reverseRecOn with
  | nil => exact recalls_nil limit
  | append_singleton ops op ih =>
    have hstep := follows ((empty limit).after ops) op
    constructor
    · rw [after_concat, listAfter_concat, hstep.frames, ih.frames, ih.limit]
    · rw [depths_concat, after_concat, hstep.highWater, max_comm]
      exact ih.highWater.insert _
    · rw [after_concat]
      exact hstep.storage ih.storage
    · rw [after_concat, hstep.limit, ih.limit]

/-- The capacity decides which way a push takes, and nothing else. -/
theorem agrees_with_list (limit : Nat) (ops : List (Operation κ)) :
    let s := (empty limit).after ops
    let frames := listAfter limit ops
    s.frames = frames ∧ s.depth = frames.length ∧ frames.length ≤ limit ∧
    (∀ op, (s.operate op).1 = (op.onList limit frames).1 ∧
      (s.operate op).2.frames = (op.onList limit frames).2 ∧
      ((s.operate op).1.Refuses → (s.operate op).2 = s)) ∧
    (∀ frame capacity, (∃ t, { s with capacity := capacity }.push frame = .ok t) ↔
      frames.length < limit) ∧
    IsGreatest ((empty limit : FrameStack κ).depths ops) s.highWater ∧
    s.depth ≤ s.capacity ∧
    (s.depth < limit → s.limit = limit ∧ 0 < growth s.depth s.limit ∧
      s.depth + growth s.depth s.limit ≤ limit ∧
      (growth s.depth s.limit : Int) =
        min (max ((s.depth / 2 : Nat) : Int) leastGrowth) (limit - s.depth)) := by
  intro s frames
  have hs : Recalls limit ops s := recalls limit ops
  have hd : s.depth = frames.length := by rw [s.depth_eq, hs.frames]
  have hle : s.depth ≤ limit := hs.limit ▸ s.depth_le_limit
  refine ⟨hs.frames, hd, hd ▸ hle, fun op => ?_, fun frame capacity => ?_, hs.highWater,
    hs.storage, fun hl => ?_⟩
  · have hstep := follows s op
    have hlist : op.onList s.limit s.frames = op.onList limit frames := by
      rw [hs.limit, hs.frames]
    rw [← hlist]
    exact ⟨hstep.reply, hstep.frames, hstep.refusal⟩
  · rw [exists_push_iff, ← hd, ← hs.limit]
  · rw [hs.limit]
    exact ⟨rfl, growth_pos hl, add_growth_le hle, growth_eq hle⟩

end Histories

section Boundary

def offered (n : Nat) : List (Operation Unit) := List.replicate n (.push (.apply (.int 7)))

theorem agrees_with_list_boundary :
    ((empty 65).after (offered 64)).depth = 64 ∧ ((empty 65).after (offered 64)).capacity = 64 ∧
    growth 64 65 = 1 ∧ ((empty 65).after (offered 65)).capacity = 65 ∧
    (((empty 65).after (offered 65)).operate (.push (.apply (.int 7)))).1 =
      .pushed (.error (.stackOverflow 65)) ∧
    (((empty 65).after (offered 65)).operate (.push (.apply (.int 7)))).2 =
      (empty 65).after (offered 65) ∧
    IsGreatest ((empty 65).depths (offered 66)) 65 := by
  obtain ⟨-, hdepth, -, -, -, -, -, hgrowth⟩ := agrees_with_list 65 (offered 64)
  obtain ⟨-, -, -, hreplies, -⟩ := agrees_with_list 65 (offered 65)
  obtain ⟨-, -, -, -, -, hgreatest, -⟩ := agrees_with_list 65 (offered 66)
  have h64 : ((empty 65).after (offered 64)).depth = 64 := by
    rw [hdepth]
    decide +kernel
  rw [h64] at hgrowth
  obtain ⟨hreply, -, hkept⟩ := hreplies (.push (.apply (.int 7)))
  have hover : (((empty 65).after (offered 65)).operate (.push (.apply (.int 7)))).1 =
      .pushed (.error (.stackOverflow 65)) := by
    have hlength : (listAfter 65 (offered 65)).length = 65 := by decide +kernel
    rw [hreply, Operation.onList, if_neg (by rw [hlength]; decide)]
  obtain ⟨hlimit, hpos, hle, -⟩ := hgrowth (by decide)
  rw [hlimit] at hpos hle
  have hone : growth 64 65 = 1 := by omega
  refine ⟨h64, by decide +kernel, hone, by decide +kernel, hover, hkept ?_, ?_⟩
  · rw [hover]
    trivial
  · rwa [show ((empty 65).after (offered 66)).highWater = 65 by decide +kernel] at hgreatest

end Boundary

end GraphReduction.FrameStack
