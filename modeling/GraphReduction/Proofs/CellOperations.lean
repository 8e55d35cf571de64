import GraphReduction.Proofs.Effects
import GraphReduction.Proofs.Indirections

/-!
Threads touch the heap one cell at a time. A thread that resumes an update frame reads its result to
the end, reads it once more to test it, and publishes it, and between any two of these operations
other threads may do theirs.
-/
namespace GraphReduction.CellOperations

open Evaluation

variable {κ : Type} {h h' h'' : Heap κ}

section Definitions

inductive Phase where
  | resolving (current : Address)
  | testing (value current : Address)
  | looking (value last : Address)
  | publishing (value : Address)

structure Resumption where
  thunk : Address
  phase : Phase

structure Traffic (κ : Type) where
  heap : Heap κ
  resumptions : List Resumption

inductive Reads (h : Heap κ) : Phase → Phase → Prop where
  | follow {a b : Address} : h.target? a = some b → Reads h (.resolving a) (.resolving b)
  | resolved {a : Address} : h.target? a = none → Reads h (.resolving a) (.testing a a)
  | test {v a b : Address} : h.target? a = some b → Reads h (.testing v a) (.testing v b)
  | tested {v a : Address} : h.target? a = none → Reads h (.testing v a) (.looking v a)
  | accept {v a : Address} : h.variant a ≠ .thunk → Reads h (.looking v a) (.publishing v)

/-- The operations on cells. Any thread may do any of them at any time, but a value is published
only at the end of a resumption. -/
inductive Operation : Traffic κ → Traffic κ → Prop where
  | allocate (s : Traffic κ) (c : Cell κ) :
      (∀ state, c = .thunk state → ∃ body, state = .unevaluated body) →
      Operation s { s with heap := (s.heap.allocate c).2 }
  | enter (s : Traffic κ) (t : ThreadId) (a : Address) :
      Operation s { s with heap := (s.heap.enter t a).2 }
  | reset (s : Traffic κ) (a : Address) : Operation s { s with heap := (s.heap.reset a).2 }
  | park {s : Traffic κ} {a : Address} {t : Thread κ} {h : Heap κ} :
      s.heap.park? a t = some h → Operation s { s with heap := h }
  | resume (s : Traffic κ) (a result : Address) : result.index < s.heap.size →
      Operation s { s with resumptions := ⟨a, .resolving result⟩ :: s.resumptions }
  | read {s : Traffic κ} {i : Nat} {a : Address} {p p' : Phase} :
      s.resumptions[i]? = some ⟨a, p⟩ → Reads s.heap p p' →
      Operation s { s with resumptions := s.resumptions.set i ⟨a, p'⟩ }
  | decline {s : Traffic κ} {i : Nat} {a v b : Address} :
      s.resumptions[i]? = some ⟨a, .looking v b⟩ → s.heap.variant b = .thunk →
      Operation s { s with resumptions := s.resumptions.eraseIdx i }
  | publish {s : Traffic κ} {i : Nat} {a v : Address} {released : List (Thread κ)} {h : Heap κ} :
      s.resumptions[i]? = some ⟨a, .publishing v⟩ → s.heap.update a v = .ok (released, h) →
      Operation s ⟨h, s.resumptions.eraseIdx i⟩
  | lose {s : Traffic κ} {i : Nat} {a v first : Address} :
      s.resumptions[i]? = some ⟨a, .publishing v⟩ → s.heap.update a v = .error first →
      Operation s { s with resumptions := s.resumptions.eraseIdx i }

def Operations : Traffic κ → Traffic κ → Prop := Relation.ReflTransGen Operation

end Definitions

section Keeping

def Phase.Known (h : Heap κ) : Phase → Prop
  | resolving a => a.index < h.size
  | testing v a => v.index < h.size ∧ h.Leads v a
  | looking v a => v.index < h.size ∧ h.Leads v a
  | publishing v => h.Valued v

theorem Phase.Known.later {p : Phase} (hp : p.Known h) (hl : h.Later h') : p.Known h' := by
  cases p with
  | resolving a => exact Nat.lt_of_lt_of_le hp hl.size_le
  | testing v a => exact ⟨Nat.lt_of_lt_of_le hp.1 hl.size_le, hp.2.later hl⟩
  | looking v a => exact ⟨Nat.lt_of_lt_of_le hp.1 hl.size_le, hp.2.later hl⟩
  | publishing v => exact Heap.Valued.later hp hl

theorem valued_of_looking {v a : Address} (hd : h.Directed) (hk : (Phase.looking v a).Known h)
    (ha : h.variant a ≠ .thunk) : h.Valued v := by
  -- The end of the chain may have got its value after the last read of the chain, but then this
  -- is an indirection to a value.
  refine .of_leads hk.2 ?_
  cases ht : h.target? a with
  | some b => exact .indirection ht (hd a b ht)
  | none =>
    refine .value (hd.lt_size_of_leads hk.2 hk.1) ?_
    by_contra hn
    exact ha (Heap.variant_eq_thunk_iff.2 ⟨by simpa using hn, ht⟩)

theorem Reads.known {p p' : Phase} (hd : h.Directed) (hr : Reads h p p') (hp : p.Known h) :
    p'.Known h := by
  cases hr with
  | follow ht => exact (hd _ _ ht).lt_size
  | resolved => exact ⟨hp, .refl⟩
  | test ht => exact ⟨hp.1, hp.2.tail ht⟩
  | tested => exact hp
  | accept ha => exact valued_of_looking hd hp ha

structure Keeps (h h' : Heap κ) : Prop where
  later : h.Later h'
  published : ∀ a b, h'.target? a = some b → h.target? a = some b ∨ h.Valued b

theorem Keeps.refl (h : Heap κ) : Keeps h h := ⟨.refl h, fun _ _ => .inl⟩

theorem keeps_allocate {c : Cell κ}
    (hc : ∀ state, c = .thunk state → ∃ body, state = .unevaluated body) :
    Keeps h (h.allocate c).2 := by
  have hsize : h.size ≤ (h.allocate c).2.size := by simp [Heap.size_allocate]
  refine ⟨.of_old hsize fun b => Heap.cell_allocate_of_lt, fun a b hb => .inl ?_⟩
  rw [Heap.target?_eq_some_iff, Heap.cell_allocate] at hb
  split at hb
  · obtain ⟨body, he⟩ := hc _ hb
    cases he
  · exact Heap.target?_eq_some_iff.2 hb

theorem keeps_write {a : Address} {s s' : ThunkState κ} (ha : h.cell a = .thunk s)
    (hs : ∀ v, s ≠ .evaluated v) (hv : ∀ v, s' = .evaluated v → h.Valued v) :
    Keeps h (h.write a (.thunk s')) :=
  ⟨Heap.later_write ha hs, fun _ c hb => (Heap.target?_write ha hb).imp_right (hv c)⟩

theorem keeps_enter (h : Heap κ) (t : ThreadId) (a : Address) : Keeps h (h.enter t a).2 := by
  unfold Heap.enter
  split
  · next hc => exact keeps_write hc nofun nofun
  all_goals exact .refl h

theorem keeps_reset (h : Heap κ) (a : Address) : Keeps h (h.reset a).2 := by
  unfold Heap.reset
  split
  · next hc => exact keeps_write hc nofun nofun
  · exact .refl h

theorem keeps_park {a : Address} {t : Thread κ} (hp : h.park? a t = some h') : Keeps h h' := by
  obtain ⟨_, _, _, hc, rfl⟩ := Heap.park?_eq_some hp
  exact keeps_write hc nofun nofun

theorem keeps_update {a v : Address} {released : List (Thread κ)}
    (hu : h.update a v = .ok (released, h')) (hv : h.Valued v) : Keeps h h' := by
  have hvalue : ∀ w, ThunkState.evaluated (κ := κ) v = .evaluated w → h.Valued w := by
    rintro w ⟨⟩
    exact hv
  unfold Heap.update at hu
  split at hu
  · cases hu
  · unfold Heap.settle at hu
    split at hu <;> cases hu
    · next hc => exact keeps_write hc nofun hvalue
    · next hc => exact keeps_write hc nofun hvalue
    · exact .refl h

theorem Keeps.directed (hk : Keeps h h') (hd : h.Directed) : h'.Directed :=
  hk.later.directed hd hk.published

end Keeping

section Running

variable {s s' s'' : Traffic κ}

structure Ordered (s : Traffic κ) : Prop where
  directed : s.heap.Directed
  known : ∀ r ∈ s.resumptions, r.phase.Known s.heap

theorem Ordered.keeps (ho : Ordered s) (hs : Operation s s') : Keeps s.heap s'.heap := by
  cases hs with
  | allocate c hc => exact keeps_allocate hc
  | enter t a => exact keeps_enter _ t a
  | reset a => exact keeps_reset _ a
  | park hp => exact keeps_park hp
  | publish hi hu => exact keeps_update hu (ho.known _ (List.mem_of_getElem? hi))
  | _ => exact .refl _

theorem Ordered.step (ho : Ordered s) (hs : Operation s s') : Ordered s' := by
  have hk := ho.keeps hs
  have hold : ∀ r ∈ s.resumptions, r.phase.Known s'.heap :=
    fun r hr => (ho.known r hr).later hk.later
  refine ⟨hk.directed ho.directed, fun r hr => ?_⟩
  cases hs with
  | resume a result hlt =>
    rcases List.mem_cons.1 hr with rfl | hr
    · exact hlt
    · exact hold r hr
  | read hi hread =>
    rcases List.mem_or_eq_of_mem_set hr with hr | rfl
    · exact hold r hr
    · exact hread.known ho.directed (ho.known _ (List.mem_of_getElem? hi))
  | decline => exact hold r (List.mem_of_mem_eraseIdx hr)
  | publish => exact hold r (List.mem_of_mem_eraseIdx hr)
  | lose => exact hold r (List.mem_of_mem_eraseIdx hr)
  | _ => exact hold r hr

theorem Ordered.run (ho : Ordered s) (hs : Operations s s') :
    Ordered s' ∧ s.heap.Later s'.heap := by
  induction hs with
  | refl => exact ⟨ho, .refl _⟩
  | tail _ h ih => exact ⟨ih.1.step h, ih.2.trans (ih.1.keeps h).later⟩

theorem ordered_empty : Ordered (κ := κ) ⟨.empty, []⟩ where
  directed a b hb := by
    rw [Heap.target?_eq_some_iff] at hb
    exact absurd (Heap.lt_size_of_cell_eq_thunk hb) (Nat.not_lt_zero _)
  known := by simp

end Running

section Walking

variable {s s' s'' : Traffic κ} {a b e : Address} {as : List Address}

/-- The closures on which a thread finds indirections, reading one at a time while others go on. -/
inductive Walk : Traffic κ → Address → List Address → Traffic κ → Address → Prop where
  | here (s : Traffic κ) (a : Address) : Walk s a [] s a
  | on {s s' s'' : Traffic κ} {a b e : Address} {as : List Address} :
      s.heap.target? a = some b → Operations s s' → Walk s' b as s'' e → Walk s a (a :: as) s'' e

theorem Ordered.walk (ho : Ordered s) (hw : Walk s a as s' e) :
    (∃ rest, s.heap.Chain a (as ++ e :: rest)) ∧
      (s'.heap.target? e = none → e = s.heap.resolve a) := by
  induction hw with
  | here s a =>
    obtain ⟨cs, hc⟩ := ho.directed.exists_chain a
    refine ⟨?_, fun hn => (Heap.resolve_of_target?_eq_none hn).symm⟩
    cases hc with
    | last hn => exact ⟨[], .last hn⟩
    | cons ht hc => exact ⟨_, .cons ht hc⟩
  | @on s s' s'' a b e as ht hs _ ih =>
    obtain ⟨ho', hl⟩ := ho.run hs
    obtain ⟨⟨rest, hc'⟩, he⟩ := ih ho'
    have hb := ho.directed a b ht
    obtain ⟨cs, hc⟩ := ho.directed.exists_chain b
    -- What the others publish meanwhile comes after the end of the chain that starts at `b` now.
    obtain rfl := (hb.chain_later hl hc).unique hc'
    refine ⟨⟨rest, .cons ht hc⟩, fun hn => ?_⟩
    rw [he hn, hb.resolve_later hl, ho.directed.resolve_of_target? ht]

end Walking

section Machines

variable {m m' : Machine κ} {program : Program κ} {a p : Address}

def Operated (h h' : Heap κ) : Prop := ∀ rs, Operations ⟨h, rs⟩ ⟨h', rs⟩

theorem Operated.refl (h : Heap κ) : Operated h h := fun _ => .refl

theorem Operated.trans (h₁ : Operated h h') (h₂ : Operated h' h'') : Operated h h'' :=
  fun rs => (h₁ rs).trans (h₂ rs)

theorem operated_grown (hg : h.Grown h') : Operated h h' := by
  intro rs
  have hold (i : Nat) (hi : i < h.cells.size) (hi' : i < h'.cells.size) :
      h'.cells[i] = h.cells[i] := by
    simpa [Heap.cell, hi, hi'] using hg.old ⟨i⟩ hi
  have hstart : h'.cells.extract 0 h.size = h.cells := by
    have hsize : h.cells.size ≤ h'.cells.size := hg.size_le
    refine Array.ext (by simp [Heap.size, Nat.min_eq_left hsize]) fun i _ hi => ?_
    simpa using hold i hi (Nat.lt_of_lt_of_le hi hg.size_le)
  -- The new cells are allocated one by one: `n` is the size of the heap so far.
  have hrun (n : Nat) (hn : h.size ≤ n) :
      n ≤ h'.size → Operations ⟨h, rs⟩ ⟨⟨h'.cells.extract 0 n⟩, rs⟩ := by
    induction hn with
    | refl =>
      intro _
      rw [hstart]
      exact .refl
    | @step n hn ih =>
      intro hlt
      have hlt : n < h'.cells.size := hlt
      have hnext : (⟨h'.cells.extract 0 (n + 1)⟩ : Heap κ) =
          ((⟨h'.cells.extract 0 n⟩ : Heap κ).allocate (h'.cell ⟨n⟩)).2 := by
        simp [Heap.allocate, Heap.cell, hlt]
      rw [hnext]
      exact (ih (Nat.le_of_lt hlt)).tail (.allocate ⟨_, rs⟩ _ (hg.new ⟨n⟩ · hn))
  simpa [Heap.size] using hrun h'.size hg.size_le (Nat.le_refl _)

theorem Operated.of_eq (hh : h' = h) : Operated h h' := hh ▸ .refl h

theorem permits_operated : Machine.Permits (κ := κ) fun m m' => Operated m.heap m'.heap where
  trans := .trans
  grown hg _ := operated_grown hg
  enter {m a body} hc rs := by
    have hop := Operation.enter ⟨m.heap, rs⟩ m.context.thread a
    have he : (m.heap.enter m.context.thread a).2 =
        m.heap.write a (.thunk (.underEvaluation m.context.thread body [])) := by
      rw [Heap.enter, hc]
    exact .single (he ▸ hop)
  reset m a remark := by
    rw [show (m.resetThunk a remark).heap = (m.heap.reset a).2 from
      congrArg Core.heap (m.core_resetThunk a remark)]
    exact fun rs => .single (.reset ⟨m.heap, rs⟩ a)

theorem operated_settled (hd : h.Directed) (hp : p.index < h.size)
    (hv : h.isValue (h.resolve p) = true) (ha : h.target? a = none) :
    Operated h (h.settle a (h.resolve p)).2 := by
  -- The target is read off the end of the chain twice, and published at once.
  intro rs
  obtain ⟨hn, hl⟩ := hd.resolve_spec p
  have hread {q q' : Phase} (hr : Reads h q q') :
      Operation ⟨h, ⟨a, q⟩ :: rs⟩ ⟨h, ⟨a, q'⟩ :: rs⟩ :=
    .read (i := 0) rfl hr
  have hfollow {b : Address} (hb : h.Leads p b) :
      Operations ⟨h, ⟨a, .resolving p⟩ :: rs⟩ ⟨h, ⟨a, .resolving b⟩ :: rs⟩ := by
    induction hb with
    | refl => exact .refl
    | tail _ ht ih => exact ih.tail (hread (.follow ht))
  have hvariant : h.variant (h.resolve p) ≠ .thunk := by
    simpa [Heap.isValue, Heap.resolve_of_target?_eq_none hn] using hv
  have hupdate : h.update a (h.resolve p) = .ok (h.settle a (h.resolve p)) := by
    rw [Heap.update, ha]
  have hresumed := Relation.ReflTransGen.head (.resume ⟨h, rs⟩ a p hp) (hfollow hl)
  have htested := (hresumed.tail (hread (.resolved hn))).tail (hread (.tested hn))
  exact (htested.tail (hread (.accept hvariant))).tail (.publish (i := 0) rfl hupdate)

theorem operated_updateThunk (hd : m.heap.Directed)
    (hr : ∀ p, m.context.registers.result? = some p → p.index < m.heap.size) (a : Address) :
    Operated m.heap ((updateThunk a).outcome m).2.heap := by
  rcases heap_updateThunk a m with hh | ⟨p, hp, -, hv, ht, hh⟩
  · exact .of_eq hh
  · rw [hh]
    exact operated_settled hd (hr p hp) hv ht

theorem operated_iterate (hd : m.heap.Directed)
    (hr : ∀ p, m.context.registers.result? = some p → p.index < m.heap.size) (n : Nat)
    (c : Control) : Operated m.heap (iterate program n c m).2.heap :=
  permits_operated.iterate (fun m₁ hh hreg a => operated_updateThunk (by rwa [hh])
    (by rwa [hh, hreg]) a) n c

end Machines

section Grounding

variable {s : Traffic κ}

structure Grounded (h : Heap κ) : Prop where
  value : ∀ a b, h.target? a = some b → h.isValue b = true
  chain : ∀ a, ∃ as, h.Chain a as ∧ as.Nodup ∧ as.getLast? = some (h.resolve a)
  ends : ∀ a, h.variant (h.resolve a) ≠ .indirection
  idempotent : ∀ a, h.resolve (h.resolve a) = h.resolve a

structure Lasting (h h' : Heap κ) : Prop where
  target : ∀ a b, h.target? a = some b → h'.target? a = some b
  value : ∀ a b, h.target? a = some b → h'.isValue b = true
  chain : ∀ a b as, h.target? a = some b → h.Chain a as → h'.Chain a as
  resolve : ∀ a b, h.target? a = some b → h'.resolve a = h.resolve a

theorem grounded_of_directed (hd : h.Directed) : Grounded h where
  value a b hb := (hd a b hb).isValue
  chain a := by
    obtain ⟨as, ha⟩ := hd.exists_chain a
    exact ⟨as, ha, ha.nodup, ha.getLast?⟩
  ends a hv := by
    obtain ⟨b, hb⟩ := Heap.variant_eq_indirection_iff.1 hv
    rw [(hd.resolve_spec a).1] at hb
    cases hb
  idempotent a := Heap.resolve_of_target?_eq_none (hd.resolve_spec a).1

theorem lasting_of_later (hd : h.Directed) (hl : h.Later h') : Lasting h h' where
  target := hl.targets
  value a b hb := ((hd a b hb).later hl).isValue
  chain a b _ hb ha := (Heap.Valued.indirection hb (hd a b hb)).chain_later hl ha
  resolve a b hb := (Heap.Valued.indirection hb (hd a b hb)).resolve_later hl

/-- Operations on cells, in any order, keep indirections well founded. What is published is a value
before and ever after; a thread that reads a chain while it is extended comes to the closure at which
the chain ended when it set out. The iterations of threads are made of such operations. -/
theorem grounded_of_operations (hs : Operations ⟨.empty, []⟩ s) :
    Grounded s.heap ∧
      (∀ s' a b, Operation s s' → s.heap.target? a = none → s'.heap.target? a = some b →
        s.heap.isValue b = true ∧ s'.heap.isValue b = true) ∧
      (∀ s', Operations s s' → Lasting s.heap s'.heap) ∧
      (∀ a as s' e, Walk s a as s' e → (∃ rest, s.heap.Chain a (as ++ e :: rest)) ∧
        (s'.heap.target? e = none → e = s.heap.resolve a)) ∧
      ∀ (program : Program κ) (n : Nat) (c : Control) (m : Machine κ), program.Disciplined →
        m.heap = s.heap →
        (∀ p, m.context.registers.result? = some p → p.index < m.heap.size) →
        Operations s ⟨(iterate program n c m).2.heap, s.resumptions⟩ := by
  obtain ⟨ho, -⟩ := ordered_empty.run hs
  refine ⟨grounded_of_directed ho.directed, fun s' a b hop hn hb => ?_, fun s' hrun => ?_,
    fun _ _ _ _ hw => ho.walk hw, fun program n c m _ hh hr => ?_⟩
  · have hk := ho.keeps hop
    have hv : s.heap.Valued b := by
      refine (hk.published a b hb).resolve_left fun hsome => ?_
      rw [hn] at hsome
      cases hsome
    exact ⟨hv.isValue, (hv.later hk.later).isValue⟩
  · exact lasting_of_later ho.directed (ho.run hrun).2
  · have hi : Operated m.heap (iterate program n c m).2.heap :=
      operated_iterate (hh ▸ ho.directed) hr n c
    rw [hh] at hi
    exact hi s.resumptions

def relayed : Traffic Unit :=
  ⟨⟨#[.thunk (.evaluated ⟨1⟩), .thunk (.evaluated ⟨2⟩), .data default []]⟩, []⟩

theorem operations_relayed : Operations ⟨.empty, []⟩ relayed := by
  let body : Suspension Unit := ⟨(), []⟩
  have hfresh (state : ThunkState Unit) (h : Cell.thunk (.unevaluated body) = .thunk state) :
      ∃ b, state = .unevaluated b := ⟨body, (Cell.thunk.inj h).symm⟩
  have hnone : Operations (κ := Unit) ⟨.empty, []⟩ ⟨.empty, []⟩ := .refl
  have hcells := ((hnone.tail (.allocate _ _ hfresh)).tail (.allocate _ _ hfresh)).tail
    (.allocate _ (.data default []) nofun)
  have hentered := (hcells.tail (.enter _ ⟨1⟩ ⟨0⟩)).tail (.enter _ ⟨2⟩ ⟨1⟩)
  have hfirst := ((hentered.tail (.resume _ ⟨0⟩ ⟨1⟩ (by decide))).tail
    (.read (i := 0) rfl (.resolved rfl))).tail (.read (i := 0) rfl (.tested rfl))
  have hsecond := (((hfirst.tail (.resume _ ⟨1⟩ ⟨2⟩ (by decide))).tail
    (.read (i := 0) rfl (.resolved rfl))).tail (.read (i := 0) rfl (.tested rfl))).tail
    (.read (i := 0) rfl (.accept (by decide)))
  have hvalue := hsecond.tail (.publish (i := 0) rfl rfl)
  exact (hvalue.tail (.read (i := 0) rfl (.accept (by decide)))).tail (.publish (i := 0) rfl rfl)

theorem grounded_relayed : Operations ⟨.empty, []⟩ relayed ∧
    relayed.heap.target? ⟨0⟩ = some ⟨1⟩ ∧ relayed.heap.resolve ⟨0⟩ = ⟨2⟩ ∧
    Grounded relayed.heap :=
  ⟨operations_relayed, rfl, rfl, (grounded_of_operations operations_relayed).1⟩

end Grounding

end GraphReduction.CellOperations
