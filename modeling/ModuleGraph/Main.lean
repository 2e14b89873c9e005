import ModuleGraph.Command.Arguments
import ModuleGraph.Command.Run

/-!
# The program

The arguments are read, what the command can come across is copied from the real disk, the command
is run on the copy, and what it leaves behind is handed over: texts for the terminal, an exit
code, and the output file if one is asked for. A file that cannot be read is copied as one that is
refused; what else cannot be looked at is taken to be missing.
-/

namespace ModuleGraph.Program

open Text

/-- The real entry at a location. -/
def real (place : Location) : IO.FS.DirEntry :=
  ⟨"/", Utf8.decodeLossy (List.intercalate [Path.slash] place)⟩

/-- The location of an absolute path without links. -/
def located (path : String) : Location :=
  (Path.ofString path).segments.filter (!·.isEmpty)

def causeOf : IO.Error → FileError
  | .permissionDenied .. => .permissionDenied
  | _ => .other

/-- What is copied of a disk. -/
structure Copy where
  tree : Entry := .dir []
  /-- The files that cannot be read. -/
  refused : List (Location × FileError) := []

/-- What is at a location, without what a directory holds, and why it cannot be read, if so. -/
def look (place : Location) : IO (Option (Entry × Option FileError)) := do
  try
    let path := (real place).path
    match (← path.symlinkMetadata).type with
    | .dir => return some (.dir [], none)
    | .file =>
      try return some (.file (← IO.FS.readBinFile path).toList, none)
      catch e => return some (.file [], some (causeOf e))
    | .symlink => return some (.link (Path.ofString (← IO.FS.realPath path).toString), none)
    | .other => return none
  catch _ => return none

/-- A copy with one more entry, unless it holds something there. -/
def note (copy : Copy) (place : Location) (e : Entry) (refusal : Option FileError := none) : Copy :=
  if (copy.tree.at? place).isSome then copy
  else
    { tree := (e.set? copy.tree place).getD copy.tree
      refused := (refusal.map (place, ·)).toList ++ copy.refused }

/-- A copy with all that stands on the way of a path, and where the path leads to. -/
def way (copy : Copy) (place : Location) : List Disk.Step → IO (Copy × Location)
  | [] => do
    match ← look place with
    | some (e, refusal) => return (note copy place e refusal, place)
    | none => return (copy, place)
  | .root :: rest => way copy [] rest
  | .up :: rest => way copy place.dropLast rest
  | .name n :: rest => do
    match ← look (place ++ [n]) with
    | some (.link target, _) =>
      way (note copy (place ++ [n]) (.link target)) (located target.display) rest
    | some (e, refusal) => way (note copy (place ++ [n]) e refusal) (place ++ [n]) rest
    | none => way copy (place ++ [n]) rest
  | _ :: rest => way copy place rest

/-- A copy with all that stands on the ways of some paths. -/
def ways (copy : Copy) (place : Location) (paths : List Path) : IO Copy :=
  paths.foldlM (fun copy path => do return (← way copy place (Disk.steps path)).1) copy

/-- A copy with all that is at a location and below it. -/
partial def whole (copy : Copy) (place : Location) : IO Copy := do
  match ← look place with
  | none => return copy
  | some (e, refusal) =>
    let copy := note copy place e refusal
    match e with
    | .file _ => return copy
    | .link target =>
      match ← look (located target.display) with
      | some (.file content, refusal) =>
        return note copy (located target.display) (.file content) refusal
      | _ => return copy
    | .dir _ =>
      let children ← try (real place).path.readDir catch _ => pure #[]
      children.foldlM (fun copy child => whole copy (place ++ [Utf8.encode child.fileName])) copy

/-- The ignore files of a directory. -/
def ignoreFiles : List Path :=
  [".ignore", ".gitignore", ".git/info/exclude"].map Path.ofString

/-- Where the user keeps files of their own. -/
def user : IO User := do
  let home ← IO.getEnv "HOME"
  let config := (← IO.getEnv "XDG_CONFIG_HOME").filter (!·.isEmpty)
  return { home := home.map Path.ofString, config := config.map Path.ofString }

/-- The disk that a copy stands for. -/
def Copy.disk (copy : Copy) (working : Location) (user : User) : Disk :=
  { root := copy.tree, working, user, unreadable := fun place => copy.refused.lookup place }

/-- A copy of what a command can come across. -/
def copied (command : Command) : IO Disk := do
  let working := located (← IO.currentDir).toString
  let user ← user
  let config := command.config.getD (command.root.join Settings.fileName)
  let output := match command.action with
    | .build (some path) _ => [path]
    | _ => []
  let start := note {} working (.dir [])
  let copy ← ways start working (config :: output ++ UserIgnore.configurations user)
  let copy ← ways copy working (UserIgnore.file? (copy.disk working user)).toList
  let (copy, root) ← way copy working (Disk.steps command.root)
  let copy ← (List.range root.length).foldlM (fun copy depth =>
    ways copy (root.take depth) ignoreFiles) copy
  return (← whole copy root).disk working user

/-- The report, once the output file of a command that succeeded is written. -/
def delivered (command : Command) (report : Report) (disk : Disk) : IO Report := do
  match command.action with
  | .build (some path) _ =>
    match disk.entry path with
    | .ok (.file content) =>
      if report.exit = 0 then
        try
          IO.FS.writeBinFile path.display ⟨content.toArray⟩
          return report
        catch _ =>
          let failure := Command.Failure.output path .other
          return { exit := failure.exit, errors := failure.message ++ "\n" }
      else return report
    | _ => return report
  | _ => return report

/-- The report, once its text is printed. -/
def printed (report : Report) : IO Report := do
  try
    IO.print report.output
    (← IO.getStdout).flush
    return report
  catch e =>
    let failure := Command.Failure.terminal (toString e)
    return { exit := failure.exit, errors := failure.message ++ "\n" }

end ModuleGraph.Program

open ModuleGraph in
/-- Runs the command that the arguments ask for. -/
def main (arguments : List String) : IO UInt32 := do
  let report ← match Command.parse arguments with
    | .error halt => pure halt.report
    | .ok command =>
      let disk ← Program.copied command
      let (report, after) := command.report disk
      Program.delivered command report after
  let report ← Program.printed report
  IO.eprint report.errors
  return report.exit.toUInt32
