import ModuleGraph.Disk
import ModuleGraph.Ignore.Rule

/-!
# Layers of ignore rules

Each directory may hold three ignore files, whose rules are for what is below it. For one entry of
a directory, the nearest `.ignore` file that says something of it decides; if none does, the
nearest `.gitignore`; and if none does, the nearest `.git/info/exclude`.
-/

namespace ModuleGraph

/-- The rules of the ignore files in one directory. -/
structure IgnoreLayer where
  /-- The directory, which the rules' globs start from. -/
  base : Location
  /-- From `.ignore`. -/
  own : List IgnoreRule
  /-- From `.gitignore`. -/
  shared : List IgnoreRule
  /-- From `.git/info/exclude`. -/
  personal : List IgnoreRule

namespace IgnoreLayer

/-- The rules of a file; a file that cannot be read has none. -/
def rulesOf (disk : Disk) (file : Path) : List IgnoreRule :=
  match disk.readBytes file with
  | .ok content => IgnoreRule.ofContent content
  | .error _ => []

def rulesAt (disk : Disk) (directory : Location) (file : String) : List IgnoreRule :=
  rulesOf disk (directory.path.join (Path.ofString file))

def ofDirectory (disk : Disk) (directory : Location) : IgnoreLayer where
  base := directory
  own := rulesAt disk directory ".ignore"
  shared := rulesAt disk directory ".gitignore"
  personal := rulesAt disk directory ".git/info/exclude"

/-- The layers of the directories above `place`, the nearest first. -/
def above (disk : Disk) (place : Location) : List IgnoreLayer :=
  (List.range place.length).reverse.map fun depth => ofDirectory disk (place.take depth)

/-- What the nearest layer that has something to say of `place` says, by the rules of one kind. -/
def nearest? (rules : IgnoreLayer → List IgnoreRule) (layers : List IgnoreLayer) (place : Location)
    (isDir : Bool) : Option Verdict :=
  layers.findSome? fun layer =>
    IgnoreRule.decide? (rules layer) (Location.below layer.base place) isDir

/-- What layers, given with the nearest first, say of `place`. -/
def verdict? (layers : List IgnoreLayer) (place : Location) (isDir : Bool) : Option Verdict :=
  (nearest? (·.own) layers place isDir).or <|
    (nearest? (·.shared) layers place isDir).or (nearest? (·.personal) layers place isDir)

end IgnoreLayer

end ModuleGraph
