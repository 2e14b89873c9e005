import ModuleGraph.Command.Basic
import ModuleGraph.Text.Decimal

/-!
# Command lines

Arguments are read from left to right, and the first one that breaks a rule or asks for help or
for the version ends the reading. Options stand before or after the words that are no options;
after `--` there are none. An option that takes a value has it attached (`--format=dot`, `-fdot`,
`-f=dot`) or in the next argument, which then must not look like an option.
-/

namespace ModuleGraph.Command

/-- Why a command line cannot be followed. -/
inductive UsageError where
  | missingCommand
  | unknownCommand (name : String)
  | unexpectedArgument (argument : String)
  | missingValue (option : String)
  | unexpectedValue (option : String)
  | invalidValue (option value : String)
  | repeated (option : String)
  deriving DecidableEq

/-- Why no command is carried out. -/
inductive Halt where
  | help
  | version
  | usage (e : UsageError)
  deriving DecidableEq

/-! ## Options -/

/-- The options. -/
inductive Key where
  | output
  | format
  | config
  | ext
  | exclude
  | threads
  | noGitignore
  | verbose
  | quiet
  | help
  | version
  deriving DecidableEq

namespace Key

def name : Key → String
  | .output => "output"
  | .format => "format"
  | .config => "config"
  | .ext => "ext"
  | .exclude => "exclude"
  | .threads => "threads"
  | .noGitignore => "no-gitignore"
  | .verbose => "verbose"
  | .quiet => "quiet"
  | .help => "help"
  | .version => "version"

def letter? : Key → Option Char
  | .output => some 'o'
  | .format => some 'f'
  | .verbose => some 'v'
  | .quiet => some 'q'
  | .help => some 'h'
  | .version => some 'V'
  | _ => none

/-- An option takes a value; any other is a flag. -/
def takesValue : Key → Bool
  | .output | .format | .config | .ext | .exclude | .threads => true
  | _ => false

/-- An option may be given more than once. -/
def isRepeatable : Key → Bool
  | .ext | .exclude | .verbose => true
  | _ => false

def general : List Key :=
  [.verbose, .quiet, .help, .version]

def common : List Key :=
  [.config, .ext, .exclude, .threads, .noGitignore, .verbose, .quiet, .help]

def building : List Key :=
  .output :: .format :: common

end Key

/-- How an argument is written. -/
inductive Argument where
  /-- `--`, after which there are no options. -/
  | close
  /-- A long option, with the value that is attached to it. -/
  | long (name : List Char) (value? : Option (List Char))
  /-- Letters after a dash. -/
  | letters (cs : List Char)
  | word

def Argument.ofString (s : String) : Argument :=
  match s.toList with
  | ['-', '-'] => .close
  | '-' :: '-' :: cs => .long (cs.takeWhile (· != '=')) (match cs.dropWhile (· != '=') with
    | [] => none
    | _ :: value => some value)
  | '-' :: c :: cs => .letters (c :: cs)
  | _ => .word

/-! ## Reading options -/

/-- A command as far as it is read. -/
structure Draft where
  /-- The options so far. -/
  given : List Key := []
  root : Option Path := none
  output : Option Path := none
  format : Format := .json
  config : Option Path := none
  overrides : Overrides := {}

/-- A path, which is not empty. -/
def path? (value : String) : Option Path :=
  if value.isEmpty then none else some (Path.ofString value)

/-- A number of workers: digits, after a plus sign or not, that sixty-four bits hold. -/
def threads? (value : String) : Option Nat :=
  let digits := match value.toList with
    | '+' :: cs => cs
    | cs => cs
  if digits.isEmpty || !digits.all Char.isDigit then none
  else
    let n := Text.Decimal.value digits
    if n < UInt64.size then some n else none

namespace Draft

def withValue? (draft : Draft) (value : String) : Key → Option Draft
  | .output => (path? value).map fun path => { draft with output := some path }
  | .format => (Format.ofName? value).map fun format => { draft with format }
  | .config => (path? value).map fun path => { draft with config := some path }
  | .ext =>
    let more := (value.toList.splitOn ',').map String.ofList
    some { draft with
      overrides := { draft.overrides with extensions := draft.overrides.extensions ++ more } }
  | .exclude => some { draft with
      overrides := { draft.overrides with exclude := draft.overrides.exclude ++ [value] } }
  | .threads => (threads? value).map fun n => { draft with
      overrides := { draft.overrides with threads := some n } }
  | _ => none

def giving (draft : Draft) (key : Key) : Except Halt Draft :=
  if key ∈ draft.given ∧ !key.isRepeatable then .error (.usage (.repeated key.name))
  else .ok { draft with given := key :: draft.given }

def set (draft : Draft) (key : Key) (value : String) : Except Halt Draft := do
  let draft ← draft.giving key
  match draft.withValue? value key with
  | some draft => .ok draft
  | none => .error (.usage (.invalidValue key.name value))

def flag (draft : Draft) : Key → Except Halt Draft
  | .help => .error .help
  | .version => .error .version
  | .noGitignore => do
    let draft ← draft.giving .noGitignore
    return { draft with overrides := { draft.overrides with noGitignore := true } }
  | key => draft.giving key

/-- The draft with letters after a dash, and the option that still waits for its value. -/
def letters (keys : List Key) (draft : Draft) : List Char → Except Halt (Draft × Option Key)
  | [] => .ok (draft, none)
  | c :: cs =>
    match keys.find? (·.letter? == some c) with
    | none => .error (.usage (.unexpectedArgument (String.ofList ['-', c])))
    | some key =>
      if key.takesValue then
        match cs with
        | [] => .ok (draft, some key)
        | '=' :: value => (draft.set key (String.ofList value)).map (·, none)
        | value => (draft.set key (String.ofList value)).map (·, none)
      else do
        let draft ← draft.flag key
        draft.letters keys cs

/-- The draft with a long option, and the option if it still waits for its value. -/
def long (keys : List Key) (draft : Draft) (name : List Char) (value? : Option (List Char)) :
    Except Halt (Draft × Option Key) :=
  match keys.find? (·.name.toList == name), value? with
  | none, _ => .error (.usage (.unexpectedArgument (String.ofList ('-' :: '-' :: name))))
  | some key, some value =>
    if key.takesValue then (draft.set key (String.ofList value)).map (·, none)
    else .error (.usage (.unexpectedValue key.name))
  | some key, none =>
    if key.takesValue then .ok (draft, some key) else (draft.flag key).map (·, none)

/-- The draft with a word, which is the root. -/
def word (draft : Draft) (s : String) : Except Halt Draft :=
  match draft.root, path? s with
  | some _, _ => .error (.usage (.unexpectedArgument s))
  | none, none => .error (.usage (.invalidValue "root" s))
  | none, some path => .ok { draft with root := some path }

/-- The draft with all arguments of a command, of which the first is the value of `waiting?`. -/
def arguments (keys : List Key) (draft : Draft) (waiting? : Option Key) :
    List String → Except Halt Draft
  | [] => match waiting? with
    | none => .ok draft
    | some key => .error (.usage (.missingValue key.name))
  | s :: rest => match waiting?, Argument.ofString s with
    | some key, .word => do
      let draft ← draft.set key s
      draft.arguments keys none rest
    | some key, _ => .error (.usage (.missingValue key.name))
    | none, .close => rest.foldlM word draft
    | none, .long name value? => do
      let (draft, waiting?) ← draft.long keys name value?
      draft.arguments keys waiting? rest
    | none, .letters cs => do
      let (draft, waiting?) ← draft.letters keys cs
      draft.arguments keys waiting? rest
    | none, .word => do
      let draft ← draft.word s
      draft.arguments keys none rest

/-- The command that a draft comes to. The root is the working directory if none is named. -/
def command (draft : Draft) (action : Action) : Command where
  action := action
  root := draft.root.getD (Path.ofString ".")
  config := draft.config
  overrides := draft.overrides

end Draft

/-! ## Reading a command line -/

/-- The words after `help` name a command, or nothing. -/
def helpOn : List String → Halt
  | [] => .help
  | ["build"] => .help
  | ["files"] => .help
  | ["help"] => .help
  | name :: _ => .usage (.unknownCommand name)

/-- The command of a command line, read after the options in `draft`. -/
def ofArguments (draft : Draft) : List String → Except Halt Command
  | [] => .error (.usage .missingCommand)
  | s :: rest => match Argument.ofString s with
    | .close => .error (.usage .missingCommand)
    | .long name value? => do
      let (draft, _) ← draft.long Key.general name value?
      ofArguments draft rest
    | .letters cs => do
      let (draft, _) ← draft.letters Key.general cs
      ofArguments draft rest
    | .word => match s with
      | "build" => do
        let draft ← Draft.arguments Key.building {} none rest
        return draft.command (.build draft.output draft.format)
      | "files" => do
        let draft ← Draft.arguments Key.common {} none rest
        return draft.command .files
      | "help" => .error (helpOn rest)
      | name => .error (.usage (.unknownCommand name))

def parse (arguments : List String) : Except Halt Command :=
  ofArguments {} arguments

/-! ## Reporting a halt -/

def UsageError.message : UsageError → String
  | .missingCommand => "a command is missing: build or files"
  | .unknownCommand name => "there is no command " ++ name
  | .unexpectedArgument argument => "unexpected argument " ++ argument
  | .missingValue option => "--" ++ option ++ " needs a value"
  | .unexpectedValue option => "--" ++ option ++ " takes no value"
  | .invalidValue option value => "invalid value for " ++ option ++ ": " ++ value
  | .repeated option => "--" ++ option ++ " is given more than once"

def helpText : String :=
  "Map which files of a project import which\n\n"
    ++ "Usage: import-graph [-v]... [-q] build [ROOT] [-o FILE] [-f json|cytoscape|dot] [OPTIONS]\n"
    ++ "       import-graph [-v]... [-q] files [ROOT] [OPTIONS]\n\n"
    ++ "Options:\n"
    ++ "      --config FILE     settings file (default: import-graph.toml at the root)\n"
    ++ "      --ext EXT,...     recognized extensions, most preferred first\n"
    ++ "      --exclude GLOB    files to pass over, relative to the root\n"
    ++ "      --threads N       number of workers\n"
    ++ "      --no-gitignore    do not obey ignore files\n"

def Halt.report : Halt → Report
  | .help => { exit := 0, output := helpText }
  | .version => { exit := 0, output := "import-graph 0.1.0\n" }
  | .usage e => { exit := 2, errors := "error: " ++ e.message ++ "\n" }

end ModuleGraph.Command
