import ParamSchema.Number.Decimal

/-!
# Glob patterns

A `Glob` matches names: `?` any character, `*` any run of characters, `[…]` one of a set and
`[!…]` one outside it, everything else itself.  `**` stands for whole folders and has to be a path
component by itself.

`Glob.read` reads a pattern and says where it is faulty; it is applied to the pattern of a whole
path and to each of its components.  `Glob.accepts` is for components, where `**` is told by
`Glob.isRecursive` and matched by the search through the folders.
-/

namespace ParamSchema

inductive CharSet where
  | one (c : Char)
  | range (first last : Char)
deriving DecidableEq

inductive GlobToken where
  | char (c : Char)
  | anyChar
  | anyRun
  | anyFolders
  | within (sets : List CharSet)
  | without (sets : List CharSet)
deriving DecidableEq

structure Glob where
  tokens : List GlobToken
deriving DecidableEq

/-! ## faults -/

inductive GlobFault where
  | longRun
  | partOfComponent
  | badRange
deriving DecidableEq

structure GlobError where
  position : Nat
  fault : GlobFault
deriving DecidableEq

def GlobFault.message : GlobFault → String
  | .longRun => "wildcards are either regular \x60*\x60 or recursive \x60**\x60"
  | .partOfComponent => "recursive wildcards must form a single path component"
  | .badRange => "invalid range pattern"

def GlobError.message (e : GlobError) : String :=
  "Pattern syntax error near position " ++ toString e.position ++ ": " ++ e.fault.message

namespace Glob

/-! ## reading -/

/-- a dash between two characters makes a range -/
def charSets : List Char → List CharSet
  | a :: '-' :: b :: cs => .range a b :: charSets cs
  | c :: cs => .one c :: charSets cs
  | [] => []

/-- What is up to the bracket that closes a set, and what follows the bracket.  The set's first
character may be a bracket itself. -/
def takeSet? : List Char → Option (List Char × List Char)
  | c :: cs =>
    match cs.dropWhile (· ≠ ']') with
    | _ :: rest => some (c :: cs.takeWhile (· ≠ ']'), rest)
    | [] => none
  | [] => none

/-- a set after its opening bracket, and what follows it -/
def readSet? : List Char → Option (GlobToken × List Char)
  | '!' :: cs => (takeSet? cs).map fun (set, rest) => (.without (charSets set), rest)
  | cs => (takeSet? cs).map fun (set, rest) => (.within (charSets set), rest)

/-- the tokens from `position` on; `before` is the character in front, if there is one -/
def readTokens (fuel position : Nat) (before : Option Char) (cs : List Char) :
    Except GlobError (List GlobToken) :=
  match fuel, cs with
  | 0, _ => .ok []
  | _ + 1, [] => .ok []
  | fuel + 1, c :: rest =>
    if c = '*' then
      let run := (c :: rest).takeWhile (· = '*')
      let after := (c :: rest).dropWhile (· = '*')
      if 2 < run.length then .error ⟨position + 2, .longRun⟩
      else if run.length = 2 then
        if before = none || before = some '/' then
          match after with
          | [] => .ok [.anyFolders]
          | '/' :: after => do
            let ts ← readTokens fuel (position + 3) (some '/') after
            .ok (.anyFolders :: ts)
          | _ => .error ⟨position + 2, .partOfComponent⟩
        else .error ⟨position - 1, .partOfComponent⟩
      else do
        let ts ← readTokens fuel (position + 1) (some '*') after
        .ok (.anyRun :: ts)
    else if c = '[' then
      match readSet? rest with
      | none => .error ⟨position, .badRange⟩
      | some (set, after) => do
        let ts ← readTokens fuel (position + 1 + (rest.length - after.length)) (some ']') after
        .ok (set :: ts)
    else do
      let ts ← readTokens fuel (position + 1) (some c) rest
      .ok ((if c = '?' then .anyChar else .char c) :: ts)

def read (pattern : String) : Except GlobError Glob :=
  (readTokens pattern.length 0 none pattern.toList).map Glob.mk

/-! ## matching -/

def CharSet.holds (c : Char) : CharSet → Bool
  | .one d => c = d
  | .range a b => a ≤ c && c ≤ b

/-- a token that stands for one character -/
def admits (t : GlobToken) (c : Char) : Bool :=
  match t with
  | .char d => c = d
  | .anyChar => true
  | .within sets => sets.any (CharSet.holds c)
  | .without sets => !sets.any (CharSet.holds c)
  | .anyRun => true
  | .anyFolders => true

/-- for each end of a text, the whole text first: is it empty? -/
def emptyEnds : List Char → List Bool
  | [] => [true]
  | _ :: cs => false :: emptyEnds cs

/-- which ends are a character that `t` admits and then one of `ends` -/
def oneBefore (t : GlobToken) (cs : List Char) (ends : List Bool) : List Bool :=
  List.zipWith (fun c fits => admits t c && fits) cs ends.tail ++ [false]

/-- which ends are any run of characters and then one of `ends` -/
def runBefore : List Bool → List Bool
  | [] => []
  | fits :: ends =>
    let later := runBefore ends
    (fits || later.headD false) :: later

/-- For each end of a text, the whole text first: do the tokens match it?  One pass over the text
for each token, however many runs there are. -/
def matchEnds (ts : List GlobToken) (cs : List Char) : List Bool :=
  match ts with
  | [] => emptyEnds cs
  | t :: ts =>
    if t = .anyRun then runBefore (matchEnds ts cs) else oneBefore t cs (matchEnds ts cs)

def accepts (g : Glob) (name : String) : Bool := (matchEnds g.tokens name.toList).headD false

def isRecursive (g : Glob) : Bool := g.tokens.contains .anyFolders

/-- the one name that a pattern without wildcards matches -/
def literal? (g : Glob) : Option String :=
  (g.tokens.mapM fun t : GlobToken => match t with
    | .char c => some c
    | _ => none).map String.ofList

/-- does the pattern start with a dot? -/
def startsWithDot (g : Glob) : Bool := g.tokens.head? = some (.char '.')

/-- a text that is read as a pattern at all -/
def isPattern (s : String) : Bool := s.toList.any fun c => c = '*' || c = '?' || c = '['

end Glob
end ParamSchema
