import ModuleGraph.Main
import ModuleGraph.Proofs.Build.Distinct
import ModuleGraph.Proofs.Build.Edit
import ModuleGraph.Proofs.Build.Schedule
import ModuleGraph.Proofs.Command.Agreement
import ModuleGraph.Proofs.Digraph.Names
import ModuleGraph.Proofs.Discovery.Addition
import ModuleGraph.Proofs.Discovery.Filters
import ModuleGraph.Proofs.Discovery.Listing
import ModuleGraph.Proofs.Discovery.Recognition
import ModuleGraph.Proofs.Graph.Cycles
import ModuleGraph.Proofs.Graph.Queries
import ModuleGraph.Proofs.Resolver.Growth
import ModuleGraph.Proofs.Resolver.Moving
import ModuleGraph.Proofs.Resolver.Naming
import ModuleGraph.Proofs.Resolver.Preference
import ModuleGraph.Proofs.Serialized.Elements
import ModuleGraph.Proofs.Serialized.Shapes
import ModuleGraph.Proofs.Settings.Layers
import ModuleGraph.Proofs.Source.Identity
import ModuleGraph.Proofs.Statement.Extraction
import ModuleGraph.Proofs.Statement.Header
import ModuleGraph.Proofs.Statement.LineEndings
import ModuleGraph.Proofs.Statement.Printing
import ModuleGraph.Proofs.TextPath.Directory
