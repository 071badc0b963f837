import BlockQuery.Float8.Decimal
import BlockQuery.Json

/-!
# Writing JSON text

Documents are written compactly, or indented by two spaces per level with one
item or member per line.  Only quotes, backslashes and control characters are
escaped.  A part without a value is written as null.
-/

namespace BlockQuery.Json

def hexDigit (n : Nat) : Char := (Nat.digitChar (n % 16))

/-- The written form of one character of a text. -/
def escapeChar (c : Char) : List Char :=
  if c == '"' then ['\\', '"']
  else if c == '\\' then ['\\', '\\']
  else if c == '\x08' then ['\\', 'b']
  else if c == '\x0c' then ['\\', 'f']
  else if c == '\n' then ['\\', 'n']
  else if c == '\r' then ['\\', 'r']
  else if c == '\t' then ['\\', 't']
  else if c.toNat < 0x20 then
    ['\\', 'u', '0', '0', hexDigit (c.toNat / 16), hexDigit c.toNat]
  else [c]

def quote (s : String) : String :=
  "\"" ++ String.ofList (s.toList.flatMap escapeChar) ++ "\""

mutual

/-- The compact form of a document after the text written so far. -/
def write (out : String) : Json → String
  | null | unreadable => out ++ "null"
  | bool b => out ++ if b then "true" else "false"
  | whole n => out ++ n.repr
  | double x => out ++ x.jsonText
  | text s => out ++ quote s
  | array items => writeItems (out.push '[') true items
  | object members => writeMembers (out.push '\x7b') true members

def writeItems (out : String) (first : Bool) : List Json → String
  | [] => out.push ']'
  | item :: rest =>
    writeItems (write (if first then out else out.push ',') item) false rest

def writeMembers (out : String) (first : Bool) : List (String × Json) → String
  | [] => out.push '\x7d'
  | (name, v) :: rest =>
    writeMembers (write ((if first then out else out.push ',') ++ quote name ++ ":") v) false rest

end

def compact (v : Json) : String := write "" v

/-- A line break and the indentation of a level. -/
def newLine (level : Nat) : String :=
  String.ofList ('\n' :: List.replicate (2 * level) ' ')

mutual

/-- The indented form of a document after the text written so far. -/
def writeIndented (out : String) (level : Nat) : Json → String
  | null | unreadable => out ++ "null"
  | bool b => out ++ if b then "true" else "false"
  | whole n => out ++ n.repr
  | double x => out ++ x.jsonText
  | text s => out ++ quote s
  | array items => writeIndentedItems (out.push '[') level true items
  | object members => writeIndentedMembers (out.push '\x7b') level true members

def writeIndentedItems (out : String) (level : Nat) (first : Bool) : List Json → String
  | [] => (if first then out else out ++ newLine level).push ']'
  | item :: rest =>
    let out := (if first then out else out.push ',') ++ newLine (level + 1)
    writeIndentedItems (writeIndented out (level + 1) item) level false rest

def writeIndentedMembers (out : String) (level : Nat) (first : Bool) :
    List (String × Json) → String
  | [] => (if first then out else out ++ newLine level).push '\x7d'
  | (name, v) :: rest =>
    let out := (if first then out else out.push ',') ++ newLine (level + 1)
    writeIndentedMembers (writeIndented (out ++ quote name ++ ": ") (level + 1) v) level false rest

end

def indented (v : Json) : String := writeIndented "" 0 v

end BlockQuery.Json
