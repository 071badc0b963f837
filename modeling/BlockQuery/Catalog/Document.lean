import BlockQuery.Catalog
import BlockQuery.Plan.Document

/-!
# Catalog entries as documents
-/

namespace BlockQuery

open Json (Setting)

namespace TableStats

def toJson (s : TableStats) : Json :=
  .object [("num_rows", .whole s.rows.toNat), ("num_bytes", .whole s.bytes.toNat)]

def ofJson? (v : Json) : Option TableStats := do
  match ← v.fields? ["num_rows", "num_bytes"] with
  | [some rows, some bytes] => return ⟨← rows.toUInt64?, ← bytes.toUInt64?⟩
  | _ => none

end TableStats

namespace TableEntry

def toJson (t : TableEntry) : Json :=
  .object [("name", .text t.name),
    ("meta", .object [("schema", t.schema.toJson), ("store_type", .text t.store.documentName),
      ("options", .object (t.options.map fun (name, value) => (name, .text value))),
      ("stats", .ofOption TableStats.toJson t.stats)]),
    ("path", .text t.path)]

/-- Options by name; of a name that comes twice the last value holds. -/
def optionsOfJson? : Json → Option (List (String × String))
  | .object members =>
    members.foldlM (fun options (name, v) => v.toText?.map (setOption name · options)) []
  | _ => none

def ofJson? (v : Json) : Option TableEntry := do
  match ← v.fields? ["name", "meta", "path"] with
  | [some name, some more, some path] =>
    match ← more.fields? ["schema", "store_type", "options", "stats"] with
    | [some schema, some store, options, stats] =>
      return ⟨← name.toText?, ← Schema.ofJson? .alone schema,
        ← (store.choice? .alone).bind StoreType.ofDocumentName?,
        ← Json.toDefault? optionsOfJson? [] options, ← Json.toOption? TableStats.ofJson? stats,
        ← path.toText?⟩
    | _ => none
  | _ => none

end TableEntry

namespace IndexMethod

def documentName : IndexMethod → String
  | twoLevel => "two_level_bst"

def ofDocumentName? : String → Option IndexMethod
  | "two_level_bst" => some twoLevel
  | _ => none

end IndexMethod

namespace IndexEntry

def toJson (e : IndexEntry) : Json :=
  .object [("name", .text e.name), ("table", .text e.table), ("column", .text e.column),
    ("method", .text e.method.documentName), ("path", .text e.path), ("unique", .bool e.unique),
    ("clustered", .bool e.clustered), ("ascending", .bool e.ascending)]

def ofJson? (v : Json) : Option IndexEntry := do
  match ← v.fields?
      ["name", "table", "column", "method", "path", "unique", "clustered", "ascending"] with
  | [some name, some table, some column, some method, some path, unique, clustered, ascending] =>
    return ⟨← name.toText?, ← table.toText?, ← column.toText?,
      ← (method.choice? .alone).bind IndexMethod.ofDocumentName?, ← path.toText?,
      ← Json.toDefault? Json.toBool? false unique, ← Json.toDefault? Json.toBool? false clustered,
      ← Json.toDefault? Json.toBool? true ascending⟩
  | _ => none

end IndexEntry

namespace FunctionKind

def documentName : FunctionKind → String
  | general => "general"
  | aggregate => "aggregate"

def ofDocumentName? : String → Option FunctionKind
  | "general" => some general
  | "aggregate" => some aggregate
  | _ => none

end FunctionKind

namespace FunctionEntry

def toJson (f : FunctionEntry) : Json :=
  .object [("name", .text f.name), ("kind", .text f.kind.documentName),
    ("return_type", f.returns.toJson), ("arg_types", .array (f.arguments.map DataType.toJson))]

def ofJson? (v : Json) : Option FunctionEntry := do
  match ← v.fields? ["name", "kind", "return_type", "arg_types"] with
  | [some name, some kind, some returns, some arguments] =>
    return ⟨← name.toText?, ← (kind.choice? .alone).bind FunctionKind.ofDocumentName?,
      ← DataType.ofJson? .alone returns, ← arguments.toListOf? (DataType.ofJson? .alone)⟩
  | _ => none

end FunctionEntry
end BlockQuery
