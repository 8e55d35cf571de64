import GraphReduction.Counters
import GraphReduction.Json.Codec
import GraphReduction.Options.Basic
import GraphReduction.Schema

namespace GraphReduction

namespace DebugFlags

def shape : Shape := .record [("scheduler", .bool)]

def datum (d : DebugFlags) : Datum := .record [("scheduler", .bool d.scheduler)]

def ofDatum? : Datum → Option DebugFlags
  | .record [(_, .bool scheduler)] => some ⟨scheduler⟩
  | _ => none

end DebugFlags

namespace RuntimeOptions

def shape : Shape := .record [
  ("worker_count", .number),
  ("idle_timeout_ms", .number),
  ("spark_budget", .number),
  ("stack_limit", .number),
  ("debug", DebugFlags.shape)]

def datum (o : RuntimeOptions) : Datum := .record [
  ("worker_count", .number o.workerCount),
  ("idle_timeout_ms", .number o.idleTimeout),
  ("spark_budget", .number o.sparkBudget),
  ("stack_limit", .number o.stackLimit),
  ("debug", o.debug.datum)]

def ofDatum? : Datum → Option RuntimeOptions
  | .record [(_, .number workers), (_, .number idle), (_, .number sparks), (_, .number stack),
      (_, debug)] => (DebugFlags.ofDatum? debug).map fun debug => ⟨workers, idle, sparks, stack, debug⟩
  | _ => none

instance : Recorded RuntimeOptions where
  shape := shape
  datum := datum
  ofDatum? := ofDatum?
  shallow := by decide
  fits o := .record (by decide) (.cons (.number _) (.cons (.number _) (.cons (.number _)
    (.cons (.number _) (.cons (.record (by decide) (.cons (.bool _) .nil)) .nil)))))
  ofDatum?_datum _ := rfl

def toJson (o : RuntimeOptions) : Json := o.datum.json

def read? (s : String) : Option RuntimeOptions := Codec.standard.read? s

end RuntimeOptions

namespace Counters

def shape : Shape := .record (zero.fields.map fun (name, _) => (name, .number))

def datum (c : Counters) : Datum := .record (c.fields.map fun (name, n) => (name, .number n))

def ofDatum? : Datum → Option Counters
  | .record [(_, .number a), (_, .number b), (_, .number c), (_, .number d), (_, .number e),
      (_, .number f), (_, .number g), (_, .number h), (_, .number i), (_, .number k)] =>
    some ⟨a, b, c, d, e, f, g, h, i, k⟩
  | _ => none

instance : Recorded Counters where
  shape := shape
  datum := datum
  ofDatum? := ofDatum?
  shallow := by decide
  fits c := by
    refine .record (by decide) ?_
    iterate 10 refine .cons (.number _) ?_
    exact .nil
  ofDatum?_datum _ := rfl

def toJson (c : Counters) : Json := c.datum.json

def ofJson? (j : Json) : Option Counters := (shape.decode j).bind ofDatum?

end Counters

structure RuntimeInfo where
  name : String
  version : String
  registersPerKind : UInt64
  applySchemas : List String
  options : RuntimeOptions
  deriving DecidableEq, Repr

namespace RuntimeInfo

def ofOptions (o : RuntimeOptions) : RuntimeInfo where
  name := "graft"
  version := "0.1.0"
  registersPerKind := UInt64.ofNat GraphReduction.registersPerKind
  applySchemas := SchemaTable.standard.codes
  options := o

def shape : Shape := .record [
  ("name", .text),
  ("version", .text),
  ("registers_per_kind", .number),
  ("apply_schemas", .list .text),
  ("options", RuntimeOptions.shape)]

def datum (i : RuntimeInfo) : Datum := .record [
  ("name", .text i.name),
  ("version", .text i.version),
  ("registers_per_kind", .number i.registersPerKind),
  ("apply_schemas", .list (i.applySchemas.map Datum.text)),
  ("options", i.options.datum)]

def textsOf? : List Datum → Option (List String)
  | [] => some []
  | .text s :: ds => (textsOf? ds).map (s :: ·)
  | _ => none

theorem textsOf?_map (ss : List String) : textsOf? (ss.map Datum.text) = some ss := by
  induction ss with
  | nil => rfl
  | cons s ss ih => simp [textsOf?, ih]

theorem fitsAll_texts (ss : List String) : FitsAll .text (ss.map Datum.text) := by
  induction ss with
  | nil => exact .nil
  | cons s ss ih => exact .cons (.text s) ih

def ofDatum? : Datum → Option RuntimeInfo
  | .record [(_, .text name), (_, .text version), (_, .number registers), (_, .list schemas),
      (_, options)] => do
    return ⟨name, version, registers, ← textsOf? schemas, ← RuntimeOptions.ofDatum? options⟩
  | _ => none

instance : Recorded RuntimeInfo where
  shape := shape
  datum := datum
  ofDatum? := ofDatum?
  shallow := by decide
  fits i := .record (by decide) (.cons (.text _) (.cons (.text _) (.cons (.number _)
    (.cons (.list (fitsAll_texts _)) (.cons (Recorded.fits i.options) .nil)))))
  ofDatum?_datum i := by
    have hoptions : RuntimeOptions.ofDatum? i.options.datum = some i.options :=
      Recorded.ofDatum?_datum i.options
    simp [datum, ofDatum?, textsOf?_map, hoptions]

def text (i : RuntimeInfo) : String := Codec.standard.writePretty i.datum

end RuntimeInfo

end GraphReduction
