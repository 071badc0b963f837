import BlockQuery.Json.Number

/-!
# Reading JSON text

The reader accepts one document with blanks around it.  Arrays and objects below
127 others have no value, and neither have texts with an escape of half a
character.  What has no value is passed over at any depth, without recursion.
-/

namespace BlockQuery.Json

def maxDepth : Nat := 127

def isBlank (c : Char) : Bool := c == ' ' || c == '\n' || c == '\t' || c == '\r'

def skipBlanks : List Char → List Char
  | c :: cs => if isBlank c then skipBlanks cs else c :: cs
  | [] => []

/-! ## Texts -/

def hexValue? (c : Char) : Option Nat :=
  if c.isDigit then some (digitValue c)
  else if 'a' ≤ c ∧ c ≤ 'f' then some (c.toNat - 'a'.toNat + 10)
  else if 'A' ≤ c ∧ c ≤ 'F' then some (c.toNat - 'A'.toNat + 10)
  else none

/-- The code unit that four hexadecimal digits write. -/
def codeUnit? (a b c d : Char) : Option Nat := do
  let a ← hexValue? a
  let b ← hexValue? b
  let c ← hexValue? c
  let d ← hexValue? d
  return ((a * 16 + b) * 16 + c) * 16 + d

def isHighSurrogate (n : Nat) : Bool := 0xD800 ≤ n && n < 0xDC00

def isLowSurrogate (n : Nat) : Bool := 0xDC00 ≤ n && n < 0xE000

/-- The character that two surrogates stand for. -/
def surrogatePair (high low : Nat) : Char :=
  Char.ofNat ((high - 0xD800) * 1024 + (low - 0xDC00) + 0x10000)

/-- The character of a one-letter escape. -/
def escape? : Char → Option Char
  | '"' => some '"'
  | '\\' => some '\\'
  | '/' => some '/'
  | 'b' => some '\x08'
  | 'f' => some '\x0c'
  | 'n' => some '\n'
  | 'r' => some '\r'
  | 't' => some '\t'
  | _ => none

/-- The part of a text that has been read, as its characters in reverse. -/
inductive TextPart where
  | whole (done : List Char)
  /-- The next escape has to be the second half of a character. -/
  | awaiting (done : List Char) (high : Nat)
  | broken
deriving DecidableEq, Repr

namespace TextPart

def push (c : Char) : TextPart → TextPart
  | whole done => whole (c :: done)
  | _ => broken

/-- A text with one more code unit. -/
def pushUnit (n : Nat) : TextPart → TextPart
  | whole done =>
    if isHighSurrogate n then awaiting done n
    else if isLowSurrogate n then broken
    else whole (Char.ofNat n :: done)
  | awaiting done high => if isLowSurrogate n then whole (surrogatePair high n :: done) else broken
  | broken => broken

/-- The text that ends here, unless it has half a character. -/
def text? : TextPart → Option String
  | whole done => some (String.ofList done.reverse)
  | _ => none

end TextPart

/-- The rest of a text up to its closing quote, and what follows it. -/
def textBody (done : TextPart) : List Char → Option (Option String × List Char)
  | '"' :: cs => some (done.text?, cs)
  | '\\' :: 'u' :: a :: b :: c :: d :: cs =>
    match codeUnit? a b c d with
    | some n => textBody (done.pushUnit n) cs
    | none => none
  | '\\' :: e :: cs =>
    match escape? e with
    | some c => textBody (done.push c) cs
    | none => none
  | c :: cs => if c.toNat < 0x20 || c == '\\' then none else textBody (done.push c) cs
  | [] => none

/-- A text after its opening quote, and what follows it. -/
def quotedText (cs : List Char) : Option (Option String × List Char) := textBody (.whole []) cs

/-! ## Documents -/

/-- What is left of a text after a word at its front. -/
def afterWord? (word : List Char) (cs : List Char) : Option (List Char) :=
  if word.isPrefixOf cs then some (cs.drop word.length) else none

/-- A document without parts, and what follows it. -/
def leaf : List Char → Option (Json × List Char)
  | '"' :: cs => (quotedText cs).map fun (s, rest) => (s.elim unreadable text, rest)
  | 'n' :: cs => (afterWord? "ull".toList cs).map fun rest => (null, rest)
  | 't' :: cs => (afterWord? "rue".toList cs).map fun rest => (bool true, rest)
  | 'f' :: cs => (afterWord? "alse".toList cs).map fun rest => (bool false, rest)
  | cs => number cs

/-- What comes after the name of a member. -/
def afterName? (cs : List Char) : Option (Option String × List Char) :=
  match skipBlanks cs with
  | '"' :: cs => (quotedText cs).bind fun (name, rest) =>
    match skipBlanks rest with
    | ':' :: cs => some (name, cs)
    | _ => none
  | _ => none

/-- What a reader that passes over a document has to find next. -/
inductive Awaited where
  | value
  | member
  | separator
deriving DecidableEq, Repr

/-- What follows a document, of which some arrays and objects are still open.
They are given by the brackets that close them, innermost first. -/
def skip : Nat → Awaited → List Char → List Char → Option (List Char)
  | 0, _, _, _ => none
  | fuel + 1, .value, closing, cs =>
    match skipBlanks cs with
    | '[' :: cs =>
      match skipBlanks cs with
      | ']' :: cs => skip fuel .separator closing cs
      | cs => skip fuel .value (']' :: closing) cs
    | '\x7b' :: cs =>
      match skipBlanks cs with
      | '\x7d' :: cs => skip fuel .separator closing cs
      | cs => skip fuel .member ('\x7d' :: closing) cs
    | cs =>
      match leaf cs with
      | none => none
      | some (_, cs) => skip fuel .separator closing cs
  | fuel + 1, .member, closing, cs =>
    match afterName? cs with
    | none => none
    | some (_, cs) => skip fuel .value closing cs
  | _ + 1, .separator, [], cs => some cs
  | fuel + 1, .separator, c :: closing, cs =>
    match skipBlanks cs with
    | ',' :: cs => skip fuel (if c == ']' then .value else .member) (c :: closing) cs
    | d :: cs => if c == d then skip fuel .separator closing cs else none
    | [] => none

mutual

/-- A document, of which at most `depth` levels have a value. -/
def value : Nat → Nat → List Char → Option (Json × List Char)
  | 0, _, _ => none
  | fuel + 1, depth, cs =>
    let cs := skipBlanks cs
    match depth, cs with
    | 0, '[' :: _ | 0, '\x7b' :: _ =>
      (skip fuel .value [] cs).map fun rest => (unreadable, rest)
    | depth + 1, '[' :: cs =>
      match skipBlanks cs with
      | ']' :: rest => some (array [], rest)
      | cs => items fuel depth [] cs
    | depth + 1, '\x7b' :: cs =>
      match skipBlanks cs with
      | '\x7d' :: rest => some (object [], rest)
      | cs => members fuel depth (some []) cs
    | _, cs => leaf cs

/-- The items of an array from one of them to the closing bracket, after the
ones already read in reverse. -/
def items : Nat → Nat → List Json → List Char → Option (Json × List Char)
  | 0, _, _, _ => none
  | fuel + 1, depth, done, cs =>
    match value fuel depth cs with
    | none => none
    | some (item, rest) =>
      match skipBlanks rest with
      | ',' :: cs => items fuel depth (item :: done) cs
      | ']' :: cs => some (array (item :: done).reverse, cs)
      | _ => none

/-- The members of an object from one of them to the closing brace, after the
ones already read in reverse; there are none once a name has no value. -/
def members : Nat → Nat → Option (List (String × Json)) → List Char →
    Option (Json × List Char)
  | 0, _, _, _ => none
  | fuel + 1, depth, done, cs =>
    match afterName? cs with
    | none => none
    | some (name, cs) =>
      match value fuel depth cs with
      | none => none
      | some (v, rest) =>
        let done := done.bind fun done => name.map fun name => (name, v) :: done
        match skipBlanks rest with
        | ',' :: cs => members fuel depth done cs
        | '\x7d' :: cs => some (done.elim unreadable (object ·.reverse), cs)
        | _ => none

end

/-- The document that a text holds, with blanks around it and nothing else.  Each
step of the reader takes a character, and one more step enters an item. -/
def parse? (s : String) : Option Json :=
  let cs := s.toList
  match value (2 * cs.length + 2) maxDepth cs with
  | some (v, rest) => if (skipBlanks rest).isEmpty then some v else none
  | none => none

end BlockQuery.Json
