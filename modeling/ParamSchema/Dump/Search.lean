import ParamSchema.Dump.Files
import ParamSchema.Dump.Glob

/-!
# Searching folders for a pattern

A pattern is a list of components, one for each level of folders.  `Search.below` lists what they
match below a path, in order: a component without wildcards is looked up, any other is held against
the names of the folder, in the order of their bytes.  The path of a hit is the path that was
walked, less a `.` in front.

`**` matches every folder on the way down, the one that is found included: it stays in force below
a folder, while the component after it is tried on each name.

The first argument bounds the depth of calls; a path never gets longer than `Files.pathLimit`.
-/

namespace ParamSchema

/-- a folder that could not be listed -/
structure SearchError where
  path : String
  error : FileError
deriving DecidableEq

def SearchError.message (e : SearchError) : String :=
  "attempting to read \x60" ++ e.path ++ "\x60 resulted in an error: " ++ e.error.message

namespace Search

/-! ## paths -/

/-- is the path `.`, however it is written? -/
def isHere (path : String) : Bool :=
  path ≠ "" && !Files.isAbsolute path && (Files.pathNames path).all fun s => s = "" || s = "."

/-- the path of a name in a folder -/
def joinPath (folder name : String) : String :=
  if folder = "" then name
  else if Files.endsInSlash folder then folder ++ name
  else folder ++ "/" ++ name

def childPath (folder name : String) : String :=
  if isHere folder then name else joinPath folder name

/-! ## order -/

def insertName (name : String) : List String → List String
  | [] => [name]
  | other :: names =>
    if name ≤ other then name :: other :: names else other :: insertName name names

/-- names in the order of their bytes, which is that of their characters -/
def sortNames (names : List String) : List String := names.foldr insertName []

/-! ## the search -/

section
variable {m : Type → Type} [Monad m] (host : Host m) (folderOnly : Bool)

abbrev Hits (m : Type → Type) := ExceptT SearchError m (List String)

def isFolder (path : String) : ExceptT SearchError m Bool := do
  let kind ← ExceptT.lift (host.kind? path)
  pure (kind = some .folder)

def isThere (path : String) : ExceptT SearchError m Bool := do
  let kind ← ExceptT.lift (host.kind? path)
  pure kind.isSome

def names (path : String) : ExceptT SearchError m (List String) := do
  match ← ExceptT.lift (host.names path) with
  | .ok names => pure (sortNames names)
  | .error e => throw ⟨path, e⟩

/-- the hits of every member, in order -/
def each {α : Type} (search : α → Hits m) : List α → Hits m
  | [] => pure []
  | a :: as => do
    let hits ← search a
    let more ← each search as
    pure (hits ++ more)

/-- A path that the first components match, with `deeper` to search below it for the others. -/
def arrive (deeper : List Glob → String → Hits m) (components : List Glob) (path : String) :
    Hits m := do
  if components.isEmpty then
    let kept ← if folderOnly then isFolder host path else pure true
    pure (if kept then [path] else [])
  else deeper components path

/-- a name of a folder, held against the first component -/
def visit (deeper : List Glob → String → Hits m) (g : Glob) (components : List Glob)
    (folder name : String) : Hits m := do
  let path := childPath folder name
  if g.isRecursive then
    let inFolder ← isFolder host path
    match components.dropWhile Glob.isRecursive with
    | [] =>
      if inFolder then
        let more ← deeper [g] path
        pure (path :: more)
      else pure []
    | next :: components =>
      let hits ←
        if next.accepts name then arrive host folderOnly deeper components path else pure []
      let more ← if inFolder then deeper (g :: next :: components) path else pure []
      pure (hits ++ more)
  else if g.accepts name then arrive host folderOnly deeper components path
  else pure []

/-- `..` and `.`, which only a pattern with a dot in front matches -/
def dotNames (g : Glob) : List String :=
  if g.startsWithDot then ["..", "."].filter fun name => g.accepts name else []

def below (fuel : Nat) (components : List Glob) (path : String) : Hits m :=
  match fuel, components with
  | 0, _ => pure []
  | _ + 1, [] => pure []
  | fuel + 1, g :: components => do
    let deeper := below fuel
    match g.literal? with
    | some name =>
      let next := childPath path name
      let found ← if name = "." || name = ".." then isFolder host path else isThere host next
      if found then arrive host folderOnly deeper components next else pure []
    | none =>
      if ← isFolder host path then
        let children ← names host path
        let dots ← each
          (fun name => arrive host folderOnly deeper components (joinPath path name)) (dotNames g)
        let hits ← each (visit host folderOnly deeper g components path) children
        pure (dots ++ hits)
      else pure []

end

/-! ## whole patterns -/

/-- the components of a pattern; nothing follows a slash at the end -/
def splitPattern (pattern : String) : List String :=
  let parts := Files.pathNames pattern
  if parts.getLast? = some "" then parts.dropLast else parts

structure Query where
  components : List Glob
  folderOnly : Bool
  start : String

/-- the pattern has to be read as a whole and component by component -/
def Query.read (pattern : String) : Except GlobError Query := do
  let _ ← Glob.read pattern
  let rest := if Files.isAbsolute pattern then String.ofList (pattern.toList.dropWhile (· = '/'))
    else pattern
  let globs ← (splitPattern rest).mapM Glob.read
  .ok ⟨globs, Files.endsInSlash pattern, if Files.isAbsolute pattern then "/" else "."⟩

def Query.hits {m : Type → Type} [Monad m] (q : Query) (host : Host m) : Hits m :=
  below host q.folderOnly (Files.pathLimit + q.components.length) q.components q.start

end Search
end ParamSchema
