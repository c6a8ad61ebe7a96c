import ParamSchema.Dump.Files

/-!
# The folders above a path

A `Climb` is a path seen from its end: its first name, and the others with the last one first.
Climbing drops one name and whatever leads nowhere before it, so every folder on the way has the
text that the path itself begins with.

`Climb.make` makes a folder and those above it that are missing.
-/

namespace ParamSchema

structure Climb where
  /-- empty for a path from the root -/
  first : String
  others : List String
deriving DecidableEq

namespace Climb

/-- a name that stays where it is -/
def isIdle (name : String) : Bool := name = "" || name = "."

def ofPath (path : String) : Climb :=
  match Files.pathNames path with
  | [] => ⟨"", []⟩
  | name :: names => ⟨name, names.reverse.dropWhile isIdle⟩

def text (c : Climb) : String :=
  if c.others.isEmpty && c.first = "" then "/" else "/".intercalate (c.first :: c.others.reverse)

/-- the folder that the last name is in; a path of one name has none to speak of -/
def folder? (c : Climb) : Option Climb :=
  match c.others with
  | [] => none
  | _ :: above =>
    some ⟨c.first, above.dropWhile isIdle⟩

section
variable {m : Type → Type} [Monad m] (host : Host m)

/-- a folder that cannot be made, but is there already -/
def settleFor (e : FileError) (path : String) : m (Except FileError Unit) := do
  if e = .alreadyThere then
    let kind ← host.kind? path
    pure (if kind = some .folder then .ok () else .error e)
  else pure (.error e)

/-- A folder, with `above` to make the folders above it.  For want of those it is tried again. -/
def makeOne (above : m (Except FileError Unit)) (path : String) : m (Except FileError Unit) := do
  match ← host.makeFolder path with
  | .ok () => pure (.ok ())
  | .error .notFound =>
    match ← above with
    | .error e => pure (.error e)
    | .ok () =>
      match ← host.makeFolder path with
      | .ok () => pure (.ok ())
      | .error e => settleFor host e path
  | .error e => settleFor host e path

def makeFrom (first : String) (others : List String) : m (Except FileError Unit) :=
  match others with
  | [] => makeOne host (pure (.ok ())) (text ⟨first, []⟩)
  | name :: above =>
    if isIdle name then makeFrom first above
    else makeOne host (makeFrom first above) (text ⟨first, name :: above⟩)

def make (c : Climb) : m (Except FileError Unit) := makeFrom host c.first c.others

end

end Climb
end ParamSchema
