import GraphReduction.Json.Datum
import GraphReduction.Json.Printer
import GraphReduction.Json.Reader

namespace GraphReduction

abbrev Slots := String → Option Datum

namespace Slots

def empty : Slots := fun _ => none

def set (slots : Slots) (name : String) (d : Datum) : Slots :=
  fun key => if key = name then some d else slots key

theorem set_self (slots : Slots) (name : String) (d : Datum) : slots.set name d name = some d :=
  if_pos rfl

theorem set_of_ne {key name : String} (h : key ≠ name) (slots : Slots) (d : Datum) :
    slots.set name d key = slots key :=
  if_neg h

end Slots

/-- A library that writes data as JSON texts and reads them back as data of a declared type.
`encode` and `decode` relate data to JSON values, and `visit` goes over the members of an object
with a slot for each field of a record. -/
structure Codec where
  encode : Datum → Json
  write : Datum → String
  writePretty : Datum → String
  decode : Shape → Json → Option Datum
  visit : List (String × Shape) → Slots → List (String × Json) → Option Datum
  read : Shape → String → Option Datum

namespace Codec

variable {α : Type} [Recorded α]

def read? (S : Codec) (s : String) : Option α := (S.read (Recorded.shape α) s).bind Recorded.ofDatum?

end Codec

namespace Datum

mutual

def json : Datum → Json
  | bool b => .bool b
  | number n => .ofUInt64 n
  | text s => .string s
  | list ds => .array (jsonAll ds)
  | record ds => .object (jsonFields ds)

def jsonAll : List Datum → List Json
  | [] => []
  | d :: ds => d.json :: jsonAll ds

def jsonFields : List (String × Datum) → List (String × Json)
  | [] => []
  | (name, d) :: ds => (name, d.json) :: jsonFields ds

end

end Datum

namespace Shape

def fill (decoders : List (String × (Json → Option Datum))) (slots : Slots) :
    List (String × Json) → Option Datum
  | [] =>
    (decoders.mapM fun f : String × _ => (slots f.1).map fun d => (f.1, d)).map Datum.record
  | (name, j) :: members =>
    match decoders.lookup name, slots name with
    | none, _ => fill decoders slots members
    | some _, some _ => none
    | some decode, none => (decode j).bind fun d => fill decoders (slots.set name d) members

def fillInOrder (decoders : List (String × (Json → Option Datum))) (elements : List Json) :
    Option Datum :=
  if elements.length = decoders.length then
    ((decoders.zip elements).mapM fun p : (String × (Json → Option Datum)) × Json =>
      (p.1.2 p.2).map fun d => (p.1.1, d)).map Datum.record
  else none

mutual

def decode : Shape → Json → Option Datum
  | bool, .bool b => some (.bool b)
  | number, .number n => n.uint64?.map Datum.number
  | text, .string s => some (.text s)
  | list element, .array js => (js.mapM element.decode).map Datum.list
  | record fields, .object members => fill (decoders fields) .empty members
  | record fields, .array elements => fillInOrder (decoders fields) elements
  | _, _ => none

def decoders : List (String × Shape) → List (String × (Json → Option Datum))
  | [] => []
  | (name, shape) :: fields => (name, shape.decode) :: decoders fields

end

end Shape

namespace Codec

def standard : Codec where
  encode := Datum.json
  write d := d.json.compact
  writePretty d := d.json.pretty
  decode := Shape.decode
  visit fields := Shape.fill (Shape.decoders fields)
  read shape s := (Json.read? s).bind shape.decode

end Codec

end GraphReduction
