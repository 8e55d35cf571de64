import Mathlib.Data.List.Forall2
import GraphReduction.Json.Codec
import GraphReduction.Proofs.JsonText

namespace GraphReduction

open Json

namespace Codec

/-- How derived code and the JSON library are documented to behave, for types that stay below the
depth at which the reader gives up. A record is written with its fields in the declared order. A
reader of a record goes over the members of an object: a known one fills its slot, which must be
empty, an unknown one is passed over, and at the end every slot must be filled. -/
structure Documented (S : Codec) : Prop where
  encode_bool (b) : S.encode (.bool b) = .bool b
  encode_number (n) : S.encode (.number n) = .ofUInt64 n
  encode_text (s) : S.encode (.text s) = .string s
  encode_list (ds) : S.encode (.list ds) = .array (ds.map S.encode)
  encode_record (ds) : S.encode (.record ds) = .object (ds.map fun f => (f.1, S.encode f.2))
  spells_write (d) : SpellsElement (S.encode d) (S.write d).toList
  spells_writePretty (d) : SpellsElement (S.encode d) (S.writePretty d).toList
  read_of_spells {shape j s} : shape.depth < 128 → SpellsElement j s.toList →
    S.read shape s = S.decode shape j
  decode_bool (b) : S.decode .bool (.bool b) = some (.bool b)
  decode_number (n) : S.decode .number (.ofUInt64 n) = some (.number n)
  decode_text (s) : S.decode .text (.string s) = some (.text s)
  decode_list {shape js ds} : (Shape.list shape).depth < 128 →
    List.Forall₂ (fun j d => S.decode shape j = some d) js ds →
    S.decode (.list shape) (.array js) = some (.list ds)
  decode_record {fields} (members) : (Shape.record fields).depth < 128 →
    S.decode (.record fields) (.object members) = S.visit fields .empty members
  visit_known {fields : List (String × Shape)} {slots name shape} (j members) :
    (fields.map Prod.fst).Nodup → (name, shape) ∈ fields → slots name = none →
    S.visit fields slots ((name, j) :: members) =
      (S.decode shape j).bind fun d => S.visit fields (slots.set name d) members
  visit_repeated {fields : List (String × Shape)} {slots name} (j members) :
    name ∈ fields.map Prod.fst → slots name ≠ none →
    S.visit fields slots ((name, j) :: members) = none
  visit_unknown {fields : List (String × Shape)} {name} (slots j members) :
    name ∉ fields.map Prod.fst →
    S.visit fields slots ((name, j) :: members) = S.visit fields slots members
  visit_filled {fields : List (String × Shape)} {slots ds} : ds.map Prod.fst = fields.map Prod.fst →
    (∀ f ∈ ds, slots f.1 = some f.2) → S.visit fields slots [] = some (.record ds)
  visit_missing {fields : List (String × Shape)} {slots name} : name ∈ fields.map Prod.fst →
    slots name = none → S.visit fields slots [] = none

end Codec

section Standard

theorem Datum.jsonAll_eq_map (ds : List Datum) : Datum.jsonAll ds = ds.map Datum.json := by
  induction ds with
  | nil => rfl
  | cons d ds ih => rw [Datum.jsonAll, ih, List.map_cons]

theorem Datum.jsonFields_eq_map (ds : List (String × Datum)) :
    Datum.jsonFields ds = ds.map fun f => (f.1, f.2.json) := by
  induction ds with
  | nil => rfl
  | cons f ds ih => rw [Datum.jsonFields, ih, List.map_cons]

theorem Json.printable_ofUInt64 (n : UInt64) : Printable (.ofUInt64 n) :=
  .number ⟨[], [], rfl, .absent, .absent⟩

mutual

theorem Datum.printable_json : (d : Datum) → Printable d.json
  | .bool b => .bool b
  | .number n => printable_ofUInt64 n
  | .text s => .string s
  | .list ds => .array (Datum.printable_jsonAll ds)
  | .record ds => .object (Datum.printable_jsonFields ds)

theorem Datum.printable_jsonAll : (ds : List Datum) → ∀ j ∈ Datum.jsonAll ds, Printable j
  | [] => by simp [Datum.jsonAll]
  | d :: ds => List.forall_mem_cons.mpr ⟨Datum.printable_json d, Datum.printable_jsonAll ds⟩

theorem Datum.printable_jsonFields : (ds : List (String × Datum)) →
    ∀ m ∈ Datum.jsonFields ds, Printable m.2
  | [] => by simp [Datum.jsonFields]
  | (_, d) :: ds => List.forall_mem_cons.mpr ⟨Datum.printable_json d, Datum.printable_jsonFields ds⟩

end

theorem mapM_eq_some_of_forall₂ {α β : Type} {f : α → Option β} {as : List α} {bs : List β}
    (h : List.Forall₂ (fun a b => f a = some b) as bs) : as.mapM f = some bs := by
  induction h with
  | nil => rfl
  | cons hab _ ih => simp [hab, ih]

theorem mapM_eq_none_of_mem {α β : Type} {f : α → Option β} {as : List α} {a : α} (ha : a ∈ as)
    (h : f a = none) : as.mapM f = none := by
  induction as with
  | nil => cases ha
  | cons b as ih =>
    rcases List.mem_cons.mp ha with rfl | ha
    · simp [h]
    · simp [ih ha]

namespace Shape

variable {fields : List (String × Shape)} {slots : Slots}

theorem map_fst_decoders (fields : List (String × Shape)) :
    (decoders fields).map Prod.fst = fields.map Prod.fst := by
  induction fields with
  | nil => rfl
  | cons f fields ih => rw [decoders, List.map_cons, ih, List.map_cons]

theorem lookup_decoders {name : String} {shape : Shape} (hnodup : (fields.map Prod.fst).Nodup)
    (h : (name, shape) ∈ fields) : (decoders fields).lookup name = some shape.decode := by
  induction fields with
  | nil => cases h
  | cons f fields ih =>
    rw [List.map_cons, List.nodup_cons] at hnodup
    rcases List.mem_cons.mp h with rfl | h
    · rw [decoders, List.lookup_cons_self]
    · have hne : (name == f.1) = false := by
        rw [beq_eq_false_iff_ne]
        rintro rfl
        exact hnodup.1 (List.mem_map.mpr ⟨_, h, rfl⟩)
      rw [decoders, List.lookup_cons, hne]
      exact ih hnodup.2 h

theorem lookup_decoders_eq_none_iff {name : String} :
    (decoders fields).lookup name = none ↔ name ∉ fields.map Prod.fst := by
  rw [← map_fst_decoders]
  induction decoders fields with
  | nil => simp
  | cons f ds ih =>
    rw [List.map_cons, List.mem_cons, not_or, ← ih]
    by_cases h : name = f.1
    · simp [h]
    · simp [h]

theorem fill_filled {ds : List (String × Datum)} (hnames : ds.map Prod.fst = fields.map Prod.fst)
    (h : ∀ f ∈ ds, slots f.1 = some f.2) : fill (decoders fields) slots [] = some (.record ds) := by
  have hall : List.Forall₂ (fun (f : String × (Json → Option Datum)) d =>
      ((slots f.1).map fun d => (f.1, d)) = some d) (decoders fields) ds := by
    rw [← map_fst_decoders] at hnames
    generalize decoders fields = gs at hnames
    induction ds generalizing gs with
    | nil =>
      rw [List.map_nil, eq_comm, List.map_eq_nil_iff] at hnames
      subst hnames
      exact .nil
    | cons d ds ih =>
      obtain ⟨g, gs', rfl, hg, hrest⟩ := List.map_eq_cons_iff.mp hnames.symm
      refine .cons ?_ (ih (fun f hf => h f (List.mem_cons_of_mem _ hf)) gs' hrest.symm)
      rw [hg, h d List.mem_cons_self]
      rfl
  rw [fill, mapM_eq_some_of_forall₂ hall]
  rfl

theorem fill_missing {name : String} (hname : name ∈ fields.map Prod.fst) (h : slots name = none) :
    fill (decoders fields) slots [] = none := by
  rw [← map_fst_decoders] at hname
  obtain ⟨f, hf, rfl⟩ := List.mem_map.mp hname
  rw [fill, mapM_eq_none_of_mem hf]
  · rfl
  · rw [h]
    rfl

end Shape

theorem Codec.documented_standard : Codec.standard.Documented where
  encode_bool _ := rfl
  encode_number _ := rfl
  encode_text _ := rfl
  encode_list ds := congrArg Json.array (Datum.jsonAll_eq_map ds)
  encode_record ds := congrArg Json.object (Datum.jsonFields_eq_map ds)
  spells_write d := spells_compact (Datum.printable_json d)
  spells_writePretty d := spells_pretty (Datum.printable_json d)
  read_of_spells {shape j s} _ hs := by
    show (Json.read? s).bind shape.decode = shape.decode j
    rw [read?_of_spells hs, Option.bind_some]
  decode_bool _ := rfl
  decode_number n := congrArg (Option.map Datum.number) (JsonNumber.uint64?_ofNat n)
  decode_text _ := rfl
  decode_list {shape js ds} _ h :=
    congrArg (Option.map Datum.list) (mapM_eq_some_of_forall₂ h)
  decode_record _ _ := rfl
  visit_known {fields slots name shape} j members hnodup hmem hslot := by
    show Shape.fill _ _ _ = _
    rw [Shape.fill, Shape.lookup_decoders hnodup hmem, hslot]
    rfl
  visit_repeated {fields slots name} j members hname hslot := by
    obtain ⟨d, hd⟩ := Option.ne_none_iff_exists'.mp hslot
    have hlookup := mt Shape.lookup_decoders_eq_none_iff.mp (not_not_intro hname)
    obtain ⟨decode, hdecode⟩ := Option.ne_none_iff_exists'.mp hlookup
    show Shape.fill _ _ _ = _
    rw [Shape.fill, hdecode, hd]
  visit_unknown {fields name} slots j members hname := by
    show Shape.fill _ _ _ = _
    rw [Shape.fill, Shape.lookup_decoders_eq_none_iff.mpr hname]
    rfl
  visit_filled := Shape.fill_filled
  visit_missing := Shape.fill_missing

end Standard

end GraphReduction
