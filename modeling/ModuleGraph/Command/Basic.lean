import ModuleGraph.Render
import ModuleGraph.Settings

/-!
# Commands

What can be asked for on a command line: the graph of a project, rendered for the terminal or for
a file, or the list of the project's source files. Both take a root and the same options.
-/

namespace ModuleGraph

/-- What is to be done with a project. -/
inductive Command.Action where
  /-- Its graph is rendered, to a file if one is named. -/
  | build (output : Option Path) (format : Format)
  /-- Its source files are listed. -/
  | files
  deriving DecidableEq

structure Command where
  action : Command.Action
  root : Path
  /-- The settings file, if it is not the one at the root. -/
  config : Option Path
  overrides : Overrides
  deriving DecidableEq

/-- What a run finds of the machine, besides the disk. -/
structure Machine where
  /-- Why so many workers cannot be started, if they cannot. -/
  workers : Nat → Option String := fun _ => none
  /-- Why nothing can be written to the terminal, if nothing can. -/
  terminal : Option String := none

/-- What a run leaves behind, besides files. -/
structure Report where
  exit : Nat
  output : String := ""
  errors : String := ""
  deriving DecidableEq

end ModuleGraph
