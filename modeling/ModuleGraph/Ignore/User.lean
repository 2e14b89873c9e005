import ModuleGraph.Ignore.Layer

/-!
# The ignore rules of a user

A user may have ignore rules for all projects. Git's configuration names their file, under the key
`excludesFile`; if it names none, it is the file `git/ignore` in the directory for configuration.
There are two configurations, and the one in the home directory is asked first. The key is looked
for line by line, without regard to the sections of a configuration.

These rules are asked last, when no ignore file of a project has something to say of an entry. They
are obeyed even where the ignore files of projects are not, and their globs start from the working
directory, wherever the project is.
-/

namespace ModuleGraph

open Text

/-- The rules that a user has for all projects. -/
@[ext]
structure UserIgnore where
  /-- The directory that the globs start from. -/
  base : Location
  rules : List IgnoreRule

namespace UserIgnore

/-! ## The key in a configuration -/

def quote : UInt8 := 0x22

def equals : UInt8 := 0x3D

def isBlank (b : UInt8) : Bool :=
  b == 0x20 || (0x09 <= b && b <= 0x0D)

def lowercase (b : UInt8) : UInt8 :=
  if 0x41 <= b && b <= 0x5A then b + 0x20 else b

/-- Only blanks are left of the line, or of the text. -/
def endsLine (cs : List UInt8) : Bool :=
  (cs.takeWhile isBlank).contains IgnoreRule.lineFeed || (cs.dropWhile isBlank).isEmpty

/-- The line ends here, or behind a quote. -/
def endsValue (cs : List UInt8) : Bool :=
  endsLine cs || match cs.dropWhile isBlank with
    | c :: rest => c == quote && endsLine rest
    | [] => false

/-- The shortest word at the front of a text behind which a value may end. -/
def word? : List UInt8 → Option (List UInt8)
  | [] => none
  | c :: cs =>
    if isBlank c then none
    else if endsValue cs then some [c]
    else (word? cs).map (c :: ·)

/-- The value at the front of a text. A quote in front of it is no part of it, unless nothing else
could be meant. -/
def value? (cs : List UInt8) : Option (List UInt8) :=
  match cs.dropWhile isBlank with
  | [] => none
  | c :: rest =>
    if c = quote then (word? (rest.dropWhile isBlank)).or (word? (c :: rest)) else word? (c :: rest)

def key : List UInt8 :=
  Utf8.encode "excludesfile"

/-- The value that the key is given at the front of a text. Its letters may be large or small. -/
def given? (cs : List UInt8) : Option (List UInt8) :=
  let cs := cs.dropWhile isBlank
  if (cs.take key.length).map lowercase = key then
    match (cs.drop key.length).dropWhile isBlank with
    | [] => none
    | c :: rest => if c = equals then value? rest else none
  else none

/-- The value that the key is given on the first line that gives it one. `isStart` says whether a
line starts where the text does. -/
def firstGiven? (isStart : Bool) : List UInt8 → Option (List UInt8)
  | [] => none
  | c :: cs =>
    (if isStart then given? (c :: cs) else none).or (firstGiven? (c == IgnoreRule.lineFeed) cs)

def excludesFile? (configuration : List UInt8) : Option String :=
  (firstGiven? true configuration).bind Utf8.decode?

/-! ## The file of the rules -/

/-- The path that a configuration writes as `file`: each `~` stands for the home directory. -/
def expanded (user : User) (file : String) : Path :=
  match user.home with
  | none => Path.ofString file
  | some home => Path.ofString <| String.ofList <|
    file.toList.flatMap fun c => if c = '~' then home.display.toList else [c]

/-- The directory for configuration. -/
def directory? (user : User) : Option Path :=
  user.config.or (user.home.map (·.join (Path.ofString ".config")))

/-- Git's configurations, in the order in which they are asked. -/
def configurations (user : User) : List Path :=
  (user.home.map (·.join (Path.ofString ".gitconfig"))).toList ++
    ((directory? user).map (·.join (Path.ofString "git/config"))).toList

/-- The file that a configuration names. -/
def named? (disk : Disk) (configuration : Path) : Option Path :=
  match disk.readBytes configuration with
  | .ok content => (excludesFile? content).map (expanded disk.user)
  | .error _ => none

/-- The file that holds the rules of the user. -/
def file? (disk : Disk) : Option Path :=
  ((configurations disk.user).findSome? (named? disk)).or
    ((directory? disk.user).map (·.join (Path.ofString "git/ignore")))

def ofDisk (disk : Disk) : UserIgnore where
  base := disk.working
  rules := match file? disk with
    | none => []
    | some file => IgnoreLayer.rulesOf disk file

/-! ## Asking the rules -/

/-- The path of `place`, read from the directory that the globs start from. The path of that
directory is taken off as text, and off every path that begins with it. -/
def seen (base place : Location) : Path :=
  match base.path.bytes.isPrefixOf? place.path.bytes with
  | none => place.path
  | some rest => ⟨if rest.head? = some Path.slash then rest.tail else rest⟩

def verdict? (user : UserIgnore) (place : Location) (isDir : Bool) : Option Verdict :=
  IgnoreRule.decide? user.rules (seen user.base place) isDir

end UserIgnore

/-- The ignore files that are asked of the entries of a directory. -/
structure IgnoreFiles where
  /-- Those of directories, the nearest first. -/
  layers : List IgnoreLayer
  user : UserIgnore

namespace IgnoreFiles

def verdict? (ignore : IgnoreFiles) (place : Location) (isDir : Bool) : Option Verdict :=
  (IgnoreLayer.verdict? ignore.layers place isDir).or (ignore.user.verdict? place isDir)

/-- The ignore files of one more directory are asked before the others. -/
def push (layer : IgnoreLayer) (ignore : IgnoreFiles) : IgnoreFiles :=
  { ignore with layers := layer :: ignore.layers }

end IgnoreFiles

end ModuleGraph
