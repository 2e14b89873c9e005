import ModuleGraph.Path

/-!
# Why a file operation fails

The causes are those a file system gives, one more for content that is not text, and one for a
file that was never put into a set held in memory.
-/

namespace ModuleGraph

/-- The cause of a failed file operation. -/
inductive FileError where
  | notFound
  /-- The path is not in the file set that was asked for it. -/
  | notInSet (path : Path)
  | permissionDenied
  | notADirectory
  | isADirectory
  /-- More links were met on the way than are followed. -/
  | tooManyLinks
  | notText
  | other
  deriving DecidableEq

def FileError.message : FileError → String
  | .notFound => "No such file or directory (os error 2)"
  | .notInSet path => path.display ++ " is not in the file set"
  | .permissionDenied => "Permission denied (os error 13)"
  | .notADirectory => "Not a directory (os error 20)"
  | .isADirectory => "Is a directory (os error 21)"
  | .tooManyLinks => "Too many levels of symbolic links (os error 40)"
  | .notText => "stream did not contain valid UTF-8"
  | .other => "other error"

end ModuleGraph
