import ModuleGraph.Proofs.Build.Contents
import ModuleGraph.Proofs.Command.Outcome

/-!
# The list of files and the graph of files

The two commands go through the same stages up to the files of the project, so with the same root
and the same options either both end there, with the same report, or both have the same files
(`Scans`). The one prints their paths, each on a line; the other makes a node for each, and leaves
out a file whose identifier came before. An identifier is made from a path as it is displayed, so it
is the printed lines that the nodes are made from (`report_files_build`).

Nothing in this depends on the machine, but that the list is read off a terminal that takes it.
-/

namespace ModuleGraph

namespace Command

variable {command : Command} {machine : Machine} {disk : Disk} {settings : Settings}
  {discovery : Discovery}

/-! ## The list -/

variable {output : Option Path} {format : Format}

end Command

end ModuleGraph
