import ParamSchema.Number.Decimal

/-!
# Paths: keys such as `a.b[2].c`

`pathOf?` splits a key into its segments: names between dots, each followed by any number of
indices in brackets.  A key with an empty name, with anything but a bracket after a closing
bracket, or with an index that is no number below `2 ^ 64` is no path.
-/

namespace ParamSchema

inductive Segment where
  | name (s : String)
  | index (i : Nat)
deriving DecidableEq

/-! ## indices -/

/-- digits with an optional plus, at most 64 bits -/
def index? (cs : List Char) : Option Nat :=
  let ds := match cs with
    | '+' :: ds => ds
    | ds => ds
  if !ds.isEmpty && ds.all Char.isDigit then
    let n := Decimal.ofDigits ds
    if n < Nat.pow 2 64 then some n else none
  else none

mutual
/-- the indices that follow a name -/
def indices? : List Char → Option (List Nat)
  | [] => some []
  | c :: cs => if c = '[' then insideIndex? [] cs else none
/-- the same inside an open bracket, `seen` in reverse -/
def insideIndex? (seen : List Char) : List Char → Option (List Nat)
  | [] => none
  | c :: cs =>
    if c = ']' then
      match index? seen.reverse, indices? cs with
      | some i, some is => some (i :: is)
      | _, _ => none
    else insideIndex? (c :: seen) cs
end

/-! ## segments -/

/-- the runs between dots -/
def splitDots : List Char → List (List Char)
  | [] => [[]]
  | c :: cs =>
    if c = '.' then [] :: splitDots cs
    else match splitDots cs with
      | part :: parts => (c :: part) :: parts
      | [] => [[c]]

def partSegments? (cs : List Char) : Option (List Segment) :=
  let name := cs.takeWhile (· ≠ '[')
  if name.isEmpty then none
  else (indices? (cs.dropWhile (· ≠ '['))).map fun is => .name (String.ofList name) :: is.map .index

def pathOf? (key : String) : Option (List Segment) :=
  ((splitDots key.toList).mapM partSegments?).map List.flatten

end ParamSchema
