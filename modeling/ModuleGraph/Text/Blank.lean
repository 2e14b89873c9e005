/-!
# Blank characters

Unicode `White_Space`: the twenty-five characters that may stand between the words of an import
statement and that are cut off both ends of an imported name and of an ignore rule.
-/

namespace ModuleGraph.Text

/-- The `White_Space` property: five controls, the ASCII space, and nineteen further separators. -/
def isBlank (c : Char) : Bool :=
  let n := c.toNat
  (9 ≤ n && n ≤ 13) || n == 0x20 || n == 0x85 || n == 0xA0 || n == 0x1680
    || (0x2000 ≤ n && n ≤ 0x200A) || n == 0x2028 || n == 0x2029 || n == 0x202F
    || n == 0x205F || n == 0x3000

def trimStart (cs : List Char) : List Char :=
  cs.dropWhile isBlank

def trimEnd (cs : List Char) : List Char :=
  (cs.reverse.dropWhile isBlank).reverse

def trim (cs : List Char) : List Char :=
  trimEnd (trimStart cs)

end ModuleGraph.Text
