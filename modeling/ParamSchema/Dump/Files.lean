import ParamSchema.Entries
import ParamSchema.Key.Path

/-!
# Files and folders

`Host` is what a dump needs of the world around it: looking at a path, reading a text, listing a
folder, making one, and writing a text.  `Files` is such a world in itself, a tree of folders with
one of them to start relative paths from, and `Files.host` its operations as state changes.

A path is walked name by name.  An empty name and `.` stay where they are, `..` goes up, and all
three need a folder to stand in; the last name of a path may be missing.
-/

namespace ParamSchema

/-! ## faults -/

inductive FileError where
  | notFound
  | notAFolder
  | isAFolder
  | alreadyThere
  | nameTooLong
  | noText
  | zeroInPath
  | other (text : String)
deriving DecidableEq

def FileError.message : FileError → String
  | .notFound => "No such file or directory (os error 2)"
  | .notAFolder => "Not a directory (os error 20)"
  | .isAFolder => "Is a directory (os error 21)"
  | .alreadyThere => "File exists (os error 17)"
  | .nameTooLong => "File name too long (os error 36)"
  | .noText => "stream did not contain valid UTF-8"
  | .zeroInPath => "file name contained an unexpected NUL byte"
  | .other text => text

/-! ## the world around a dump -/

inductive FileKind where
  | file
  | folder
deriving DecidableEq

structure Host (m : Type → Type) where
  kind? : String → m (Option FileKind)
  read : String → m (Except FileError String)
  names : String → m (Except FileError (List String))
  makeFolder : String → m (Except FileError Unit)
  write : String → String → m (Except FileError Unit)

/-! ## a world of its own -/

inductive Node where
  | folder
  /-- a file that is no text has no content here -/
  | file (content : Option String)
deriving DecidableEq

def Node.kind : Node → FileKind
  | .folder => .folder
  | .file _ => .file

/-- the names from the root down -/
abbrev Location := List String

structure Files where
  nodes : List (Location × Node)
  /-- where relative paths start -/
  start : Location

namespace Files

def splitSlashes : List Char → List (List Char)
  | [] => [[]]
  | c :: cs =>
    if c = '/' then [] :: splitSlashes cs
    else match splitSlashes cs with
      | part :: parts => (c :: part) :: parts
      | [] => [[c]]

/-- the names of a path, empty ones included -/
def pathNames (path : String) : List String := (splitSlashes path.toList).map String.ofList

def isAbsolute (path : String) : Bool := path.toList.head? = some '/'

def nameLimit : Nat := 255
def pathLimit : Nat := 4096

/-- the root is always there -/
def nodeAt? (fs : Files) (l : Location) : Option Node :=
  if l = [] then some .folder else (fs.nodes.find? fun e => e.1 == l).map Prod.snd

def checkFolder (fs : Files) (l : Location) : Except FileError Unit :=
  match fs.nodeAt? l with
  | none => .error .notFound
  | some (.file _) => .error .notAFolder
  | some .folder => .ok ()

def checkName (name : String) : Except FileError Unit :=
  if nameLimit < name.utf8ByteSize then .error .nameTooLong else .ok ()

/-- one name from the folder `l` -/
def goTo (fs : Files) (l : Location) (name : String) : Except FileError Location := do
  fs.checkFolder l
  if name = "" || name = "." then .ok l
  else if name = ".." then .ok l.dropLast
  else do
    checkName name
    .ok (l ++ [name])

def walk (fs : Files) (l : Location) : List String → Except FileError Location
  | [] => .ok l
  | name :: names => do
    let l ← fs.goTo l name
    fs.walk l names

def checkPath (path : String) : Except FileError Unit :=
  if path.toList.contains '\x00' then .error .zeroInPath
  else if path = "" then .error .notFound
  else if pathLimit ≤ path.utf8ByteSize then .error .nameTooLong
  else .ok ()

def origin (fs : Files) (path : String) : Location := if isAbsolute path then [] else fs.start

/-- where a path leads, whether or not something is there -/
def locate (fs : Files) (path : String) : Except FileError Location := do
  checkPath path
  fs.walk (fs.origin path) (pathNames path)

def look (fs : Files) (path : String) : Except FileError Node := do
  let l ← fs.locate path
  match fs.nodeAt? l with
  | some node => .ok node
  | none => .error .notFound

/-! ## operations -/

def kind? (fs : Files) (path : String) : Option FileKind :=
  match fs.look path with
  | .ok node => some node.kind
  | .error _ => none

def read (fs : Files) (path : String) : Except FileError String :=
  match fs.look path with
  | .error e => .error e
  | .ok .folder => .error .isAFolder
  | .ok (.file none) => .error .noText
  | .ok (.file (some text)) => .ok text

/-- the name that `l` has directly in `folder` -/
def nameIn? (folder l : Location) : Option String :=
  if l.dropLast == folder then l.getLast? else none

def names (fs : Files) (path : String) : Except FileError (List String) := do
  let l ← fs.locate path
  fs.checkFolder l
  .ok (fs.nodes.filterMap fun e => nameIn? l e.1)

def put (fs : Files) (l : Location) (node : Node) : Files :=
  { fs with nodes := fs.nodes.filter (fun e => e.1 != l) ++ [(l, node)] }

/-- a new node's place: its folder and its name; `.` and `..` name what is there already -/
inductive Place where
  | new (folder : Location) (name : String)
  | known

/-- the place of the last of the names in reverse -/
def placeFrom (fs : Files) (l : Location) (reversed : List String) : Except FileError Place :=
  match reversed with
  | [] => .ok .known
  | name :: rest => do
    let folder ← fs.walk l rest.reverse
    fs.checkFolder folder
    if name = "." || name = ".." then .ok .known else .ok (.new folder name)

/-- the place that a path names, slashes at its end dropped -/
def place (fs : Files) (path : String) : Except FileError Place := do
  checkPath path
  fs.placeFrom (fs.origin path) ((pathNames path).reverse.dropWhile (· == ""))

def makeFolder (fs : Files) (path : String) : Except FileError Files := do
  match ← fs.place path with
  | .known => .error .alreadyThere
  | .new folder name =>
    checkName name
    if (fs.nodeAt? (folder ++ [name])).isSome then .error .alreadyThere
    else .ok (fs.put (folder ++ [name]) .folder)

def endsInSlash (path : String) : Bool := path.toList.getLast? = some '/'

/-- A path that ends in a slash is a folder's, whatever the name before the slash is. -/
def write (fs : Files) (path text : String) : Except FileError Files := do
  match ← fs.place path with
  | .known => .error .isAFolder
  | .new folder name =>
    if endsInSlash path then .error .isAFolder
    else do
      checkName name
      if fs.nodeAt? (folder ++ [name]) = some .folder then .error .isAFolder
      else .ok (fs.put (folder ++ [name]) (.file (some text)))

/-! ## the world as a host -/

/-- a change that may fail and then changes nothing -/
def attempt (step : Files → Except FileError Files) : StateM Files (Except FileError Unit) :=
  fun fs => match step fs with
    | .ok changed => (.ok (), changed)
    | .error e => (.error e, fs)

def host : Host (StateM Files) where
  kind? path := fun fs => (fs.kind? path, fs)
  read path := fun fs => (fs.read path, fs)
  names path := fun fs => (fs.names path, fs)
  makeFolder path := attempt fun fs => fs.makeFolder path
  write path text := attempt fun fs => fs.write path text

/-! ## building a world -/

/-- the folders above `l` that are not there yet, and then `node` at `l` -/
def plant (fs : Files) (l : Location) (node : Node) : Files :=
  let above := (List.range l.length).map fun n => l.take n
  let grown := above.foldl
    (fun fs l => if (fs.nodeAt? l).isSome then fs else fs.put l .folder) fs
  grown.put l node

end Files
end ParamSchema
