import ParamSchema.Param.Value
import ParamSchema.Text.Blank

/-!
# Printing a parameter set

Three modes: the values alone, every value with its origin in a comment at the end of its first
line, or every assignment with its origin in a comment on the line before.

A value takes one line if it is an atom, a sequence of atoms, or an empty table; all others open
a bracket, take a line or more for each member one level deeper, and close the bracket on a line of
its own.  A separator after an element goes to the end of the element's last line, in front of a
comment there.

The text is a list of lines; only a quoted atom can have a line feed inside its line.
-/

namespace ParamSchema

inductive PrintMode where
  | raw
  | annotated
  | prefixed
deriving DecidableEq

namespace PrintMode

def indent : String := "   "

def pad : Nat → String
  | 0 => ""
  | n + 1 => pad n ++ indent

/-- the comment at the end of a line -/
def note (mode : PrintMode) (o : Option Origin) : String :=
  match mode, o with
  | .annotated, some o => "  # " ++ o.text
  | _, _ => ""

/-- the comment line before an assignment, if there is one -/
def noteLines (mode : PrintMode) (level : Nat) (o : Option Origin) : List String :=
  match mode, o with
  | .prefixed, some o => [pad level ++ "# " ++ o.text]
  | _, _ => []

end PrintMode

open PrintMode

/-- the text of a sequence of atoms -/
def inlineSequence (xs : List Value) : String :=
  "[" ++ ", ".intercalate (xs.map fun x => x.asAtom?.getD "") ++ "]"

section
variable (mode : PrintMode)

mutual

/-- A value after `lead`, the start of its first line.  `o` is the origin to annotate, `trail` the
separator that follows the value. -/
def valueLines (level : Nat) (lead : String) (o : Option Origin) (trail : String) :
    Value → List String
  | .atom _ t => [lead ++ t ++ trail ++ mode.note o]
  | .sequence _ xs =>
    if xs.all Value.isAtom then [lead ++ inlineSequence xs ++ trail ++ mode.note o]
    else
      (lead ++ "[" ++ mode.note o)
        :: (elementLines (level + 1) xs ++ [pad level ++ "]" ++ trail])
  | .table _ es =>
    if es.isEmpty then [lead ++ "\x7b\x7d" ++ trail ++ mode.note o]
    else
      (lead ++ "\x7b" ++ mode.note o)
        :: (entryLines (level + 1) es ++ [pad level ++ "\x7d" ++ trail])

/-- elements, each on lines of its own -/
def elementLines (level : Nat) : List Value → List String
  | [] => []
  | x :: xs =>
    valueLines level (pad level) x.origin (if xs.isEmpty then "" else ",") x
      ++ elementLines level xs

/-- assignments, each on lines of its own -/
def entryLines (level : Nat) : List (String × Value) → List String
  | [] => []
  | (k, v) :: es =>
    mode.noteLines level v.origin ++ valueLines level (pad level ++ k ++ ": ") v.origin "" v
      ++ entryLines level es

end

end

def ParamSet.print (p : ParamSet) (level : Nat) (mode : PrintMode) : String :=
  ofLines (entryLines mode level p)

/-- the plain text of a parameter set -/
def ParamSet.text (p : ParamSet) : String := p.print 0 .raw

end ParamSchema
