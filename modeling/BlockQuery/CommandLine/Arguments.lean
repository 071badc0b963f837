/-!
# Arguments

A command is given as its name and then its options.  The value of an option
follows it, as the next argument or behind an equals sign.  An option may be
given once; its value is looked at when the next option begins or at the end.
-/

namespace BlockQuery.CommandLine

inductive Command where
  | explain (config plan : String) (json : Bool)
  | indexInfo (index : String) (json : Bool)
deriving DecidableEq, Repr

/-- Why arguments are not a command. -/
inductive UsageError where
  | help
  | version
  | noCommand
  | unknownCommand
  | unknownArgument
  | missingArgument
  | missingValue
  | unexpectedValue
  | repeated
deriving DecidableEq, Repr

inductive Token where
  /-- Two hyphens: no options follow. -/
  | escape
  | long (name : String) (value : Option String)
  /-- A group of one-letter options, by its first letter. -/
  | short (letter : Char)
  | plain (text : String)
deriving DecidableEq, Repr

/-- The name and the value of an option without its hyphens. -/
def longOption (cs : List Char) : Token :=
  match cs.dropWhile (· != '=') with
  | [] => .long (String.ofList cs) none
  | _ :: value => .long (String.ofList (cs.takeWhile (· != '='))) (some (String.ofList value))

def Token.ofText (s : String) : Token :=
  match s.toList with
  | ['-', '-'] => escape
  | '-' :: '-' :: cs => longOption cs
  | '-' :: c :: _ => short c
  | _ => plain s

/-- The options that a command knows beside `--help`. -/
structure Options where
  valued : List String
  flags : List String
deriving DecidableEq, Repr

/-- The options that were given so far. -/
structure Given where
  values : List (String × String)
  flags : List String
  /-- An option whose value was not looked at, or has not come yet. -/
  opened : Option (String × Option String)
deriving DecidableEq, Repr

namespace Given

def nothing : Given := ⟨[], [], none⟩

/-- An option with its value. -/
def put (g : Given) (name value : String) : Except UsageError Given :=
  if (g.values.lookup name).isSome then .error .repeated
  else if value.isEmpty then .error .missingValue
  else .ok { g with values := (name, value) :: g.values, opened := none }

/-- Looks at the value of the last option. -/
def settle (g : Given) : Except UsageError Given :=
  match g.opened with
  | none => .ok g
  | some (_, none) => .error .missingValue
  | some (name, some value) => g.put name value

def raise (g : Given) (name : String) : Except UsageError Given :=
  if g.flags.contains name then .error .repeated else .ok { g with flags := name :: g.flags }

/-- Takes one more argument. -/
def take (options : Options) (g : Given) : Token → Except UsageError Given
  | .long name value =>
    if options.valued.contains name then do
      let g ← g.settle
      match value with
      | some v => g.put name v
      | none => return { g with opened := some (name, none) }
    else if name = "help" ∨ options.flags.contains name then
      if value.isSome then .error .unexpectedValue
      else do
        let g ← g.settle
        if name = "help" then throw .help
        g.raise name
    else .error .unknownArgument
  | .short letter =>
    if letter = 'h' then do
      let _ ← g.settle
      throw .help
    else .error .unknownArgument
  | .plain text =>
    match g.opened with
    | some (name, none) => .ok { g with opened := some (name, some text) }
    | _ => .error .unknownArgument
  | .escape => .ok g

/-- Takes all arguments of a command. -/
def takeAll (options : Options) (g : Given) : List String → Except UsageError Given
  | [] => g.settle
  | arg :: args =>
    match Token.ofText arg with
    | .escape => if args.isEmpty then g.settle else .error .unknownArgument
    | token => do takeAll options (← g.take options token) args

/-- The value of an option that has to be given. -/
def required (g : Given) (name : String) : Except UsageError String :=
  match g.values.lookup name with
  | some value => .ok value
  | none => .error .missingArgument

end Given

namespace Command

def defaultConfig : String := "./tessera.json"

def parseExplain (args : List String) : Except UsageError Command := do
  let g ← Given.nothing.takeAll ⟨["config", "plan"], ["json"]⟩ args
  let plan ← g.required "plan"
  return explain ((g.values.lookup "config").getD defaultConfig) plan (g.flags.contains "json")

def parseIndexInfo (args : List String) : Except UsageError Command := do
  let g ← Given.nothing.takeAll ⟨["index"], ["json"]⟩ args
  return indexInfo (← g.required "index") (g.flags.contains "json")

def names : List String := ["explain", "index-info", "help"]

/-- Help is given on the program or on one command. -/
def parseHelp : List String → UsageError
  | [] => .help
  | [name] => if names.contains name then .help else .unknownCommand
  | _ => .unknownCommand

def parse : List String → Except UsageError Command
  | [] => .error .noCommand
  | arg :: args =>
    match Token.ofText arg with
    | .plain "explain" => parseExplain args
    | .plain "index-info" => parseIndexInfo args
    | .plain "help" => .error (parseHelp args)
    | .plain _ => .error .unknownCommand
    | .escape =>
      match args with
      | [] => .error .noCommand
      | name :: _ => .error (if names.contains name then .unknownArgument else .unknownCommand)
    | .short letter =>
      .error (if letter = 'h' then .help else if letter = 'V' then .version else .unknownArgument)
    | .long name value =>
      if name = "help" ∨ name = "version" then
        .error (if value.isSome then .unexpectedValue
          else if name = "help" then .help else .version)
      else .error .unknownArgument

end Command
end BlockQuery.CommandLine
