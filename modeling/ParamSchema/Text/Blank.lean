/-!
# Blank characters: trimming and lines

`isBlank` is the White_Space property: 25 characters.  `trim` and `trimEnd` drop them at the ends
of a text; `lines` cuts a text after every line feed, drops one carriage return before each, and
has no last line after a closing line feed; `ofLines` puts a line feed after every line.
-/

namespace ParamSchema

def isBlank (c : Char) : Bool :=
  let n := c.toNat
  (0x09 ≤ n && n ≤ 0x0D) || n == 0x20 || n == 0x85 || n == 0xA0 || n == 0x1680
    || (0x2000 ≤ n && n ≤ 0x200A) || n == 0x2028 || n == 0x2029 || n == 0x202F || n == 0x205F
    || n == 0x3000

/-! ## trimming -/

def dropBlankEnd (cs : List Char) : List Char := (cs.reverse.dropWhile isBlank).reverse

def trimChars (cs : List Char) : List Char := dropBlankEnd (cs.dropWhile isBlank)

def trim (s : String) : String := String.ofList (trimChars s.toList)

def trimEnd (s : String) : String := String.ofList (dropBlankEnd s.toList)

/-! ## lines -/

/-- a line less its closing carriage return -/
def dropReturn (line : List Char) : List Char :=
  if line.getLast? = some '\r' then line.dropLast else line

/-- the lines of a text; a line that no line feed closes is kept as it is, unless it is empty -/
def linesFrom (line : List Char) : List Char → List (List Char)
  | [] => if line.isEmpty then [] else [line.reverse]
  | '\n' :: cs => dropReturn line.reverse :: linesFrom [] cs
  | c :: cs => linesFrom (c :: line) cs

def lines (s : String) : List String := (linesFrom [] s.toList).map String.ofList

def ofLines (ls : List String) : String := String.join (ls.map fun l => l ++ "\n")

end ParamSchema
