import ParamSchema.Text.Blank
import ParamSchema.Text.DecimalDigit

/-!
# Names and qualified keys

A parameter's name is an identifier; the place of an element in a sequence or tuple has an element
marker `[i]` for its name.  Qualified keys are built by `joinKey`: a dot between names, nothing in
front of a marker.

`KeyStack` holds the qualified keys of the tables that are open while a schema is declared, the
innermost first.
-/

namespace ParamSchema

/-! ## names -/

def isLetter (c : Char) : Bool := ('A' ≤ c && c ≤ 'Z') || ('a' ≤ c && c ≤ 'z') || c = '_'

def isNameChar (c : Char) : Bool := isLetter c || c.isDigit

def isIdentifierChars : List Char → Bool
  | [] => false
  | c :: cs => isLetter c && cs.all isNameChar

def isIdentifier (s : String) : Bool := isIdentifierChars s.toList

/-- `[i]` with at least one decimal digit of any script between the brackets -/
def isElementMarker (s : String) : Bool :=
  match s.toList with
  | '[' :: cs => cs.getLast? = some ']' && !cs.dropLast.isEmpty && cs.dropLast.all isDecimalDigit
  | _ => false

def isValidName (s : String) : Bool := isElementMarker s || isIdentifier s

/-- the name of the element at place `i` -/
def elementMarker (i : Nat) : String := "[" ++ toString i ++ "]"

/-- a comment that says nothing -/
def isBlankComment (s : String) : Bool := s.toList.all isBlank

/-! ## keys -/

def joinKey (parent name : String) : String :=
  if name.toList.head? = some '[' || parent = "" then parent ++ name else parent ++ "." ++ name

def indexKey (parent : String) (i : Nat) : String := parent ++ elementMarker i

theorem joinKey_root (name : String) : joinKey "" name = name := by simp [joinKey]

theorem joinKey_elementMarker (parent : String) (i : Nat) :
    joinKey parent (elementMarker i) = indexKey parent i := by
  simp [joinKey, indexKey, elementMarker]

/-! ## open tables -/

structure KeyStack where
  frames : List String
deriving DecidableEq

namespace KeyStack

def empty : KeyStack := ⟨[]⟩

/-- the key of the innermost open table, empty at the root -/
def current (k : KeyStack) : String := k.frames.head?.getD ""

def depth (k : KeyStack) : Nat := k.frames.length

def qualify (k : KeyStack) (name : String) : String := joinKey k.current name

def enter (k : KeyStack) (name : String) : KeyStack := ⟨k.qualify name :: k.frames⟩

def leave (k : KeyStack) : KeyStack := ⟨k.frames.tail⟩

theorem leave_enter (k : KeyStack) (name : String) : (k.enter name).leave = k := rfl

end KeyStack
end ParamSchema
