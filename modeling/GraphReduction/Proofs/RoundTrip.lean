import Mathlib.Data.List.Forall2
import Mathlib.Data.List.Nodup
import Mathlib.Data.List.Perm.Basic
import GraphReduction.Options.Record
import GraphReduction.Proofs.Codec
/-!
Records and their JSON texts. A record is read back from every text of an object that has its
members, in any order and among others, and from no text that lacks or repeats one of them.
-/
namespace GraphReduction

namespace Json

inductive Scalar : Json → Prop
  | null : Scalar .null
  | bool (b) : Scalar (.bool b)
  | number (n) : Scalar (.number n)
  | string (s) : Scalar (.string s)
  | unpaired : Scalar .unpaired

mutual

/-- The second value has the members of the first in any order, and perhaps others that hold
scalars; also inside the members. -/
inductive Rearranged : Json → Json → Prop
  | same (j) : Rearranged j j
  | object {known changed extra members} : RearrangedMembers known changed →
      (∀ m ∈ extra, m.1 ∉ known.map Prod.fst ∧ Scalar m.2) → members.Perm (changed ++ extra) →
      Rearranged (.object known) (.object members)

inductive RearrangedMembers : List (String × Json) → List (String × Json) → Prop
  | nil : RearrangedMembers [] []
  | cons {name j j' ms ms'} : Rearranged j j' → RearrangedMembers ms ms' →
      RearrangedMembers ((name, j) :: ms) ((name, j') :: ms')

end

/-- The second value lacks a member of the first or repeats it, at the top or inside a member. -/
inductive Damaged : Json → Json → Prop
  | lacks {known members name} : name ∈ known.map Prod.fst → name ∉ members.map Prod.fst →
      Damaged (.object known) (.object members)
  | repeats {known members name} : name ∈ known.map Prod.fst →
      1 < (members.map Prod.fst).count name → Damaged (.object known) (.object members)
  | inside {known members name j j'} : (name, j) ∈ known → (name, j') ∈ members → Damaged j j' →
      Damaged (.object known) (.object members)

theorem RearrangedMembers.same : (ms : List (String × Json)) → RearrangedMembers ms ms
  | [] => .nil
  | (_, j) :: ms => .cons (.same j) (.same ms)

theorem Rearranged.exists_changed {known : List (String × Json)} {j : Json}
    (h : Rearranged (.object known) j) : ∃ changed extra members, j = .object members ∧
      RearrangedMembers known changed ∧ (∀ m ∈ extra, m.1 ∉ known.map Prod.fst) ∧
      members.Perm (changed ++ extra) := by
  cases h with
  | same => exact ⟨known, [], known, rfl, .same known, by simp, by simp⟩
  | object hchanged hextra hperm => exact ⟨_, _, _, rfl, hchanged, fun m hm => (hextra m hm).1, hperm⟩

end Json

open Json

theorem FitsFields.map_fst {shapes : List (String × Shape)} {ds : List (String × Datum)}
    (h : FitsFields shapes ds) : ds.map Prod.fst = shapes.map Prod.fst := by
  induction shapes generalizing ds with
  | nil =>
    cases h
    rfl
  | cons f shapes ih =>
    cases h with
    | cons _ hrest => rw [List.map_cons, List.map_cons, ih hrest]

theorem FitsFields.exists_shape {shapes : List (String × Shape)} {ds : List (String × Datum)}
    (h : FitsFields shapes ds) {f : String × Datum} (hf : f ∈ ds) :
    ∃ shape, (f.1, shape) ∈ shapes ∧ Fits shape f.2 := by
  induction shapes generalizing ds with
  | nil =>
    cases h
    cases hf
  | cons _ shapes ih =>
    cases h with
    | cons hfits hrest =>
      rcases List.mem_cons.mp hf with rfl | hf
      · exact ⟨_, List.mem_cons_self, hfits⟩
      · obtain ⟨shape, hshape, hfits⟩ := ih hrest hf
        exact ⟨shape, List.mem_cons_of_mem _ hshape, hfits⟩

namespace Codec

variable {S : Codec}

def Awaits (slots : Slots) (members : List (String × Json)) (f : String × Datum) :
    Prop :=
  slots f.1 = some f.2 ∧ f.1 ∉ members.map Prod.fst ∨
    slots f.1 = none ∧ (members.map Prod.fst).count f.1 = 1

def Reads (S : Codec) (fields : List (String × Shape)) (m : String × Json) (f : String × Datum) :
    Prop :=
  m.1 = f.1 ∧ ∃ shape, (m.1, shape) ∈ fields ∧ S.decode shape m.2 = some f.2

section Visit

variable {fields : List (String × Shape)} {slots : Slots}
  {members : List (String × Json)}

theorem Awaits.tail {name : String} {j : Json} {f : String × Datum} (hne : f.1 ≠ name)
    (h : Awaits slots ((name, j) :: members) f) : Awaits slots members f := by
  simpa [Awaits, hne, Ne.symm hne, List.count_cons] using h

theorem Awaits.congr {slots' : Slots} {f : String × Datum}
    (h : Awaits slots members f) (hslots : slots' f.1 = slots f.1) : Awaits slots' members f := by
  rwa [Awaits, hslots]

theorem Awaits.empty {name : String} {j : Json} {f : String × Datum} (hname : f.1 = name)
    (h : Awaits slots ((name, j) :: members) f) :
    slots name = none ∧ name ∉ members.map Prod.fst := by
  subst hname
  rcases h with ⟨-, hnot⟩ | ⟨hnone, hcount⟩
  · exact absurd List.mem_cons_self hnot
  · refine ⟨hnone, ?_⟩
    rw [List.map_cons, List.count_cons_self] at hcount
    exact List.count_eq_zero.mp (by omega)

theorem visit_of_awaits (hS : S.Documented) {ds : List (String × Datum)}
    (hnodup : (fields.map Prod.fst).Nodup) (hnames : ds.map Prod.fst = fields.map Prod.fst)
    (hreads : ∀ m ∈ members, m.1 ∈ fields.map Prod.fst → ∃ f ∈ ds, S.Reads fields m f)
    (hawaits : ∀ f ∈ ds, Awaits slots members f) :
    S.visit fields slots members = some (.record ds) := by
  induction members generalizing slots with
  | nil =>
    refine hS.visit_filled hnames fun f hf => ?_
    obtain ⟨hfilled, -⟩ | ⟨-, hcount⟩ := hawaits f hf
    · exact hfilled
    · cases hcount
  | cons m members ih =>
    obtain ⟨name, j⟩ := m
    have hrest : ∀ m ∈ members, m.1 ∈ fields.map Prod.fst → ∃ f ∈ ds, S.Reads fields m f :=
      fun m hm => hreads m (List.mem_cons_of_mem _ hm)
    by_cases hname : name ∈ fields.map Prod.fst
    · obtain ⟨f, hf, heq, shape, hshape, hdecode⟩ := hreads _ List.mem_cons_self hname
      obtain ⟨hempty, hlast⟩ := (hawaits f hf).empty heq.symm
      rw [hS.visit_known j members hnodup hshape hempty, hdecode, Option.bind_some]
      refine ih hrest fun f' hf' => ?_
      by_cases hsame : f'.1 = name
      · have hff : f' = f := by
          rw [← hnames] at hnodup
          exact List.inj_on_of_nodup_map hnodup hf' hf (hsame.trans heq)
        left
        rw [hff, ← heq]
        exact ⟨Slots.set_self .., hlast⟩
      · exact ((hawaits f' hf').tail hsame).congr (Slots.set_of_ne hsame ..)
    · rw [hS.visit_unknown slots j members hname]
      refine ih hrest fun f hf => (hawaits f hf).tail ?_
      rintro rfl
      exact hname (hnames ▸ List.mem_map_of_mem hf)

theorem visit_of_perm (hS : S.Documented) {ds : List (String × Datum)}
    {changed extra : List (String × Json)} (hnodup : (fields.map Prod.fst).Nodup)
    (hnames : ds.map Prod.fst = fields.map Prod.fst)
    (hreads : List.Forall₂ (S.Reads fields) changed ds)
    (hextra : ∀ m ∈ extra, m.1 ∉ fields.map Prod.fst) (hperm : members.Perm (changed ++ extra)) :
    S.visit fields .empty members = some (.record ds) := by
  have hchanged : changed.map Prod.fst = ds.map Prod.fst := by
    rw [← List.forall₂_eq_eq_eq, List.forall₂_map_left_iff, List.forall₂_map_right_iff]
    exact hreads.imp fun _ _ h => h.1
  refine visit_of_awaits hS hnodup hnames ?_ fun f hf => .inr ⟨rfl, ?_⟩
  · intro m hm hname
    rcases List.mem_append.mp (hperm.mem_iff.mp hm) with hm | hm
    · obtain ⟨i, hi, rfl⟩ := List.getElem_of_mem hm
      have hlength := hreads.length_eq
      exact ⟨ds[i], List.getElem_mem _, hreads.get hi (hlength ▸ hi)⟩
    · exact absurd hname (hextra m hm)
  · have hf' := List.mem_map_of_mem (f := Prod.fst) hf
    rw [(hperm.map Prod.fst).count_eq, List.map_append, List.count_append, hchanged]
    rw [List.count_eq_one_of_mem (hnames ▸ hnodup) hf', List.count_eq_zero_of_not_mem]
    intro hmem
    obtain ⟨m, hm, heq⟩ := List.mem_map.mp hmem
    exact hextra m hm (by rw [heq, ← hnames]; exact hf')

theorem visit_cons_eq_none (hS : S.Documented) (hnodup : (fields.map Prod.fst).Nodup)
    {name : String} {j : Json}
    (hknown : ∀ shape d, (name, shape) ∈ fields → slots name = none → S.decode shape j = some d →
      S.visit fields (slots.set name d) members = none)
    (hunknown : name ∉ fields.map Prod.fst → S.visit fields slots members = none) :
    S.visit fields slots ((name, j) :: members) = none := by
  by_cases hname : name ∈ fields.map Prod.fst
  · by_cases hslot : slots name = none
    · obtain ⟨⟨_, shape⟩, hshape, rfl⟩ := List.mem_map.mp hname
      rw [hS.visit_known j members hnodup hshape hslot]
      cases hd : S.decode shape j with
      | none => rfl
      | some d => exact hknown shape d hshape hslot hd
    · exact hS.visit_repeated j members hname hslot
  · rw [hS.visit_unknown slots j members hname, hunknown hname]

theorem visit_of_lacks (hS : S.Documented) (hnodup : (fields.map Prod.fst).Nodup) {name : String}
    (hname : name ∈ fields.map Prod.fst) (hslot : slots name = none)
    (h : name ∉ members.map Prod.fst) : S.visit fields slots members = none := by
  induction members generalizing slots with
  | nil => exact hS.visit_missing hname hslot
  | cons m members ih =>
    rw [List.map_cons, List.mem_cons, not_or] at h
    obtain ⟨hne, hrest⟩ := h
    refine visit_cons_eq_none hS hnodup (fun shape d _ _ _ => ih ?_ hrest) fun _ => ih hslot hrest
    rwa [Slots.set_of_ne hne]

theorem visit_of_filled (hS : S.Documented) (hnodup : (fields.map Prod.fst).Nodup) {name : String}
    (hname : name ∈ fields.map Prod.fst) (hslot : slots name ≠ none)
    (h : name ∈ members.map Prod.fst) : S.visit fields slots members = none := by
  induction members generalizing slots with
  | nil => cases h
  | cons m members ih =>
    by_cases hm : m.1 = name
    · subst hm
      exact hS.visit_repeated m.2 members hname hslot
    · have hrest : name ∈ members.map Prod.fst :=
        (List.mem_cons.mp h).resolve_left (Ne.symm hm)
      refine visit_cons_eq_none hS hnodup (fun shape d _ _ _ => ih ?_ hrest) fun _ => ih hslot hrest
      rwa [Slots.set_of_ne (Ne.symm hm)]

theorem visit_of_repeats (hS : S.Documented) (hnodup : (fields.map Prod.fst).Nodup) {name : String}
    (hname : name ∈ fields.map Prod.fst) (h : 1 < (members.map Prod.fst).count name) :
    S.visit fields slots members = none := by
  induction members generalizing slots with
  | nil => cases h
  | cons m members ih =>
    by_cases hm : m.1 = name
    · subst hm
      rw [List.map_cons, List.count_cons_self] at h
      have hrest : m.1 ∈ members.map Prod.fst := List.count_pos_iff.mp (by omega)
      refine visit_cons_eq_none hS hnodup (fun shape d _ _ _ => ?_) fun hnot => absurd hname hnot
      refine visit_of_filled hS hnodup hname ?_ hrest
      rw [Slots.set_self]
      exact Option.some_ne_none d
    · rw [List.map_cons, List.count_cons_of_ne hm] at h
      exact visit_cons_eq_none hS hnodup (fun shape d _ _ _ => ih h) fun _ => ih h

theorem visit_of_inside (hS : S.Documented) (hnodup : (fields.map Prod.fst).Nodup) {name : String}
    {shape : Shape} {j : Json} (hname : (name, shape) ∈ fields) (hj : (name, j) ∈ members)
    (h : S.decode shape j = none) : S.visit fields slots members = none := by
  induction members generalizing slots with
  | nil => cases hj
  | cons m members ih =>
    rcases List.mem_cons.mp hj with rfl | hj
    · refine visit_cons_eq_none hS hnodup ?_ fun hnot => absurd (List.mem_map.mpr ⟨_, hname, rfl⟩) hnot
      intro shape' d hshape' _ hd
      have hsame : shape' = shape :=
        congrArg Prod.snd (List.inj_on_of_nodup_map hnodup hshape' hname rfl)
      rw [hsame, h] at hd
      cases hd
    · exact visit_cons_eq_none hS hnodup (fun shape d _ _ _ => ih hj) fun _ => ih hj

end Visit

theorem depth_lt_of_mem {fields : List (String × Shape)} {n : Nat}
    (h : (Shape.record fields).depth < n) : ∀ f ∈ fields, f.2.depth < n := by
  intro f hf
  have hle := Shape.depth_le_depths hf
  rw [Shape.depth] at h
  omega

mutual

theorem decode_of_rearranged (hS : S.Documented) {shape : Shape} {d : Datum} (h : Fits shape d)
    (hdepth : shape.depth < 128) {j : Json} (hj : Rearranged (S.encode d) j) :
    S.decode shape j = some d :=
  match h with
  | .bool b => by
    rw [hS.encode_bool] at hj
    cases hj
    exact hS.decode_bool b
  | .number n => by
    rw [hS.encode_number] at hj
    cases hj
    exact hS.decode_number n
  | .text s => by
    rw [hS.encode_text] at hj
    cases hj
    exact hS.decode_text s
  | @Fits.list element _ hall => by
    rw [hS.encode_list] at hj
    cases hj
    refine hS.decode_list hdepth (decode_all hS hall ?_)
    rw [Shape.depth] at hdepth
    omega
  | @Fits.record fields _ hnodup hfields => by
    rw [hS.encode_record] at hj
    obtain ⟨changed, extra, members, rfl, hchanged, hextra, hperm⟩ := hj.exists_changed
    rw [hS.decode_record members hdepth]
    have hreads := reads_fields hS hfields (depth_lt_of_mem hdepth) (fun _ hf => hf) hchanged
    refine visit_of_perm hS hnodup hfields.map_fst hreads (fun m hm => ?_) hperm
    have hnot := hextra m hm
    rwa [List.map_map, Function.comp_def, hfields.map_fst] at hnot

theorem decode_all (hS : S.Documented) {shape : Shape} {ds : List Datum} (h : FitsAll shape ds)
    (hdepth : shape.depth < 128) :
    List.Forall₂ (fun j d => S.decode shape j = some d) (ds.map S.encode) ds :=
  match h with
  | .nil => .nil
  | .cons hd hds => .cons (decode_of_rearranged hS hd hdepth (.same _)) (decode_all hS hds hdepth)

theorem reads_fields (hS : S.Documented) {shapes fields : List (String × Shape)} {ds : List (String × Datum)}
    (h : FitsFields shapes ds) (hdepth : ∀ f ∈ shapes, f.2.depth < 128)
    (hsub : ∀ f ∈ shapes, f ∈ fields) {changed : List (String × Json)}
    (hchanged : RearrangedMembers (ds.map fun f => (f.1, S.encode f.2)) changed) :
    List.Forall₂ (S.Reads fields) changed ds :=
  match h with
  | .nil => by
    cases hchanged
    exact .nil
  | .cons hd hds => by
    obtain ⟨hdepth, hdepths⟩ := List.forall_mem_cons.mp hdepth
    obtain ⟨hmem, hsub⟩ := List.forall_mem_cons.mp hsub
    cases hchanged with
    | cons hj hrest =>
      exact .cons ⟨rfl, _, hmem, decode_of_rearranged hS hd hdepth hj⟩
        (reads_fields hS hds hdepths hsub hrest)

end

theorem exists_record_of_encode (hS : S.Documented) {shape : Shape} {d : Datum} (h : Fits shape d)
    {known : List (String × Json)} (hknown : S.encode d = .object known) :
    ∃ fields ds, shape = .record fields ∧ (fields.map Prod.fst).Nodup ∧ FitsFields fields ds ∧
      known = ds.map fun f => (f.1, S.encode f.2) := by
  cases h with
  | bool b => rw [hS.encode_bool] at hknown; cases hknown
  | number n => rw [hS.encode_number] at hknown; cases hknown
  | text s => rw [hS.encode_text] at hknown; cases hknown
  | list => rw [hS.encode_list] at hknown; cases hknown
  | record hnodup hfields =>
    rw [hS.encode_record] at hknown
    cases hknown
    exact ⟨_, _, rfl, hnodup, hfields, rfl⟩

theorem decode_of_damaged (hS : S.Documented) {shape : Shape} {d : Datum} (h : Fits shape d)
    (hdepth : shape.depth < 128) {j j' : Json} (hj : S.encode d = j) (hdamaged : Damaged j j') :
    S.decode shape j' = none := by
  have hnames {fields : List (String × Shape)} {ds : List (String × Datum)} {name : String}
      (hfields : FitsFields fields ds)
      (hname : name ∈ (ds.map fun f => (f.1, S.encode f.2)).map Prod.fst) :
      name ∈ fields.map Prod.fst := by
    rwa [List.map_map, Function.comp_def, hfields.map_fst] at hname
  induction hdamaged generalizing shape d with
  | lacks hname hnot =>
    obtain ⟨fields, ds, rfl, hnodup, hfields, rfl⟩ := exists_record_of_encode hS h hj
    rw [hS.decode_record _ hdepth]
    exact visit_of_lacks hS hnodup (hnames hfields hname) rfl hnot
  | repeats hname htwice =>
    obtain ⟨fields, ds, rfl, hnodup, hfields, rfl⟩ := exists_record_of_encode hS h hj
    rw [hS.decode_record _ hdepth]
    exact visit_of_repeats hS hnodup (hnames hfields hname) htwice
  | inside hknown hmember _ ih =>
    obtain ⟨fields, ds, rfl, hnodup, hfields, rfl⟩ := exists_record_of_encode hS h hj
    obtain ⟨f, hf, heq⟩ := List.mem_map.mp hknown
    obtain ⟨rfl, rfl⟩ := Prod.mk.inj heq
    obtain ⟨shape, hshape, hfits⟩ := hfields.exists_shape hf
    rw [hS.decode_record _ hdepth]
    exact visit_of_inside hS hnodup hshape hmember
      (ih hfits (depth_lt_of_mem hdepth _ hshape) rfl)

end Codec

def Faithful (S : Codec) (α : Type) [Recorded α] : Prop :=
  ∀ v : α, S.read? (S.write (Recorded.datum v)) = some v ∧
    S.read? (S.writePretty (Recorded.datum v)) = some v ∧
    (∀ j s, Rearranged (S.encode (Recorded.datum v)) j → SpellsElement j s.toList →
      S.read? s = some v) ∧
    ∀ j s, Damaged (S.encode (Recorded.datum v)) j → SpellsElement j s.toList →
      (S.read? s : Option α) = none

theorem faithful_of_documented {S : Codec} (hS : S.Documented) (α : Type) [Recorded α] :
    Faithful S α := by
  intro v
  have hread {j s} (hj : Rearranged (S.encode (Recorded.datum v)) j)
      (hs : SpellsElement j s.toList) : S.read? s = some v := by
    rw [Codec.read?, hS.read_of_spells Recorded.shallow hs,
      Codec.decode_of_rearranged hS (Recorded.fits v) Recorded.shallow hj, Option.bind_some]
    exact Recorded.ofDatum?_datum v
  refine ⟨hread (.same _) (hS.spells_write _), hread (.same _) (hS.spells_writePretty _),
    fun j s => hread, fun j s hj hs => ?_⟩
  rw [Codec.read?, hS.read_of_spells Recorded.shallow hs,
    Codec.decode_of_damaged hS (Recorded.fits v) Recorded.shallow rfl hj, Option.bind_none]

/-- Options, counters and the report survive being written and read. -/
theorem records_faithful (S : Codec) (hS : S.Documented) :
    Faithful S RuntimeOptions ∧ Faithful S Counters ∧ Faithful S RuntimeInfo :=
  ⟨faithful_of_documented hS _, faithful_of_documented hS _, faithful_of_documented hS _⟩

theorem records_faithful_reversed :
    let members := [("worker_count", ofUInt64 4), ("idle_timeout_ms", ofUInt64 0),
      ("spark_budget", ofUInt64 7), ("stack_limit", ofUInt64 9),
      ("debug", object [("scheduler", bool true)])]
    Codec.standard.read? (object (members.reverse ++ [("since", .null)])).pretty =
      some (⟨4, 0, 7, 9, ⟨true⟩⟩ : RuntimeOptions) ∧
    Codec.standard.read? (object members.tail).compact = (none : Option RuntimeOptions) ∧
    Codec.standard.read? (object (members ++ members)).compact =
      (none : Option RuntimeOptions) := by
  intro members
  obtain ⟨-, -, hrearranged, hdamaged⟩ :=
    (records_faithful Codec.standard Codec.documented_standard).1 ⟨4, 0, 7, 9, ⟨true⟩⟩
  have hmembers : ∀ m ∈ members, Printable m.2 := by
    have hdebug : Printable (object [("scheduler", bool true)]) := .object (by simp [Printable.bool])
    simp [members, printable_ofUInt64, hdebug]
  refine ⟨hrearranged _ _ ?_ (spells_pretty ?_), hdamaged _ _ ?_ (spells_compact ?_),
    hdamaged _ _ ?_ (spells_compact ?_)⟩
  · refine .object (.same members) ?_ ((List.reverse_perm members).append_right _)
    intro m hm
    rw [List.mem_singleton.mp hm]
    exact ⟨by decide, .null⟩
  · apply Printable.object
    intro m hm
    rcases List.mem_append.mp hm with hm | hm
    · exact hmembers m (List.mem_reverse.mp hm)
    · rw [List.mem_singleton.mp hm]
      exact .null
  · exact .lacks List.mem_cons_self (by decide)
  · exact .object fun m hm => hmembers m (List.mem_of_mem_tail hm)
  · exact .repeats List.mem_cons_self (by decide)
  · apply Printable.object
    intro m hm
    rcases List.mem_append.mp hm with hm | hm <;> exact hmembers m hm

end GraphReduction
