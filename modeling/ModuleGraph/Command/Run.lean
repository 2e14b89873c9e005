import ModuleGraph.Command.Basic
import ModuleGraph.Discovery
import ModuleGraph.Settings.File

/-!
# Running commands

A command is carried out on a disk. It comes to a text for the terminal and the disk as it is
afterwards, or to a failure, which leaves the disk as it was. A project without source files is
told apart by an exit code of its own.

The machine may refuse to start workers, and its terminal may refuse a text; a text is written there
as a whole or not at all, as a file is. What is written for errors is taken to arrive. Notes on the
progress of a run, which are written beside its report, are left out.
-/

namespace ModuleGraph.Command

inductive Failure where
  | settings (e : SettingsError)
  | discovery (e : DiscoveryError)
  | build (root : Path) (e : BuildFailure)
  | output (path : Path) (cause : FileError)
  | terminal (cause : String)
  deriving DecidableEq

namespace Failure

def message : Failure → String
  | .settings e => "error: " ++ e.message
  | .discovery e => "error: " ++ e.message ++ ": " ++ e.causeMessage
  | .build root e => match e.causeMessage? with
    | none => scanning root ++ e.message
    | some cause => "error: " ++ scanning root ++ e.message ++ ": " ++ cause
  | .output path cause => "error: failed to write " ++ path.display ++ ": " ++ cause.message
  | .terminal cause => "error: " ++ cause
where
  scanning (root : Path) : String := "while scanning " ++ root.display ++ ": "

def exit : Failure → Nat
  | .build _ (.failed .noFilesFound) => 2
  | _ => 1

end Failure

/-- The settings of a command: those of the file it names, or else of its root, with its own on top
of them. -/
def settings (command : Command) (disk : Disk) : Except SettingsError Settings :=
  (match command.config with
    | some path => Settings.ofFile disk path
    | none => Settings.ofRoot disk command.root).map fun (settings : Settings) =>
      settings.override command.overrides

/-- The settings and the source files of a command. -/
def scan (command : Command) (disk : Disk) : Except Failure (Settings × Discovery) := do
  let settings ← (command.settings disk).mapError .settings
  let discovery ← (Discovery.ofRoot disk command.root settings).mapError .discovery
  return (settings, discovery)

def endLine (text : String) : String :=
  if text.toList.getLast? = some '\n' then text else text ++ "\n"

def rendered (machine : Machine) (disk : Disk) (format : Format) (settings : Settings)
    (discovery : Discovery) : Except Failure String := do
  let graph ← (buildOn machine.workers (discovery.source disk) settings).mapError
    (.build discovery.root.path)
  return endLine (graph.render format)

/-- The paths of source files, each on a line. -/
def listing (discovery : Discovery) : String :=
  String.join (discovery.files.map fun file => file.path.display ++ "\n")

/-- A text for the terminal, which takes it if it takes any. Nothing is asked of it for no text. -/
def printed (machine : Machine) (text : String) : Except Failure String :=
  match machine.terminal with
  | none => .ok text
  | some cause => if text = "" then .ok text else .error (.terminal cause)

/-- The text for the terminal, and the disk after the command. -/
def run (command : Command) (disk : Disk) (machine : Machine := {}) :
    Except Failure (String × Disk) := do
  let (settings, discovery) ← command.scan disk
  match command.action with
  | .files => return (← printed machine (listing discovery), disk)
  | .build output format =>
    let text ← rendered machine disk format settings discovery
    match output with
    | none => return (← printed machine text, disk)
    | some path => return ("", ← (disk.write path text).mapError (.output path))

/-- The report of a run, and the disk after it. -/
def report (command : Command) (disk : Disk) (machine : Machine := {}) : Report × Disk :=
  match command.run disk machine with
  | .ok (text, disk) => ({ exit := 0, output := text }, disk)
  | .error failure => ({ exit := failure.exit, errors := failure.message ++ "\n" }, disk)

end ModuleGraph.Command
