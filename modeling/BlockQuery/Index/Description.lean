import BlockQuery.Index.Reader
import BlockQuery.Json
import BlockQuery.Text.Quoted

/-!
# Descriptions of indexes

What is told about an opened index: lines for people, a JSON object for
programs, and a one-line dump of the reader.
-/

namespace BlockQuery.Index.Reader

def specLine (spec : SortSpec) : String :=
  "sort:         " ++ spec.column ++ " " ++ spec.direction ++ " nulls " ++
    (if spec.nullsFirst then "first" else "last") ++ "\n"

def describe (r : Reader) : String :=
  let h := r.header
  "index:        " ++ r.path ++ "\n" ++
  "entries:      " ++ toString h.entryCount ++ "\n" ++
  "load factor:  " ++ toString h.loadFactor ++ "\n" ++
  "top entries:  " ++ toString h.topCount ++ "\n" ++
  "top bytes:    " ++ toString h.topLength ++ "\n" ++
  "bottom bytes: " ++ toString h.bottomLength ++ "\n" ++
  "key schema:   " ++ h.schema.display ++ "\n" ++
  String.join (h.specs.map specLine)

def toJson (r : Reader) : Json :=
  .object [("path", .text r.path), ("entry_count", .whole r.header.entryCount),
    ("load_factor", .whole r.header.loadFactor), ("top_count", .whole r.header.topCount),
    ("key_schema", .text r.header.schema.display)]

/-- The name of a type in dumps. -/
def dumpType : DataType → String
  | .bool => "Bool"
  | .int4 => "Int4"
  | .int8 => "Int8"
  | .float8 => "Float8"
  | .text => "Text"

def dumpColumn (c : Column) : String :=
  "Column \x7b name: " ++ Text.quoted c.name ++ ", data_type: " ++ dumpType c.type ++ " \x7d"

def dump (r : Reader) : String :=
  "TwoLevelIndexReader \x7b path: " ++ Text.quotedPath r.path ++
    ", entries: " ++ toString r.entryCount ++ ", top_entries: " ++ toString r.top.length ++
    ", key_schema: Schema \x7b columns: [" ++
    ", ".intercalate (r.header.schema.map dumpColumn) ++ "] \x7d \x7d"

end BlockQuery.Index.Reader
