import ParamSchema.Key.Name
import ParamSchema.Param.Token
import ParamSchema.Param.Value

/-!
# Reading a document

A document is a run of assignments `key: value`; a value is a word, a quoted literal, a sequence
in brackets or a table of assignments in braces.  Elements are separated by commas, one may follow
the last; assignments are separated by nothing.

A dotted key reaches into nested tables, and `ParamSet.store` makes the tables that are missing; a
key that is assigned again keeps its place.

The readers go down the token list together.  Their first argument bounds the depth of calls; twice
the number of tokens is always enough, since of two calls in a row one takes a token.
-/

namespace ParamSchema

/-! ## dotted assignment -/

/-- Stores a value under a path, in place: the outcome, and the set as it is left.  A table that is
missing on the way is made before the path is followed into it. -/
def ParamSet.store (p : ParamSet) (path : List String) (value : Value) :
    Except ReadFault Unit × ParamSet :=
  match path with
  | [] => (.ok (), p)
  | [name] => (.ok (), Entries.insert p name value)
  | name :: next :: rest =>
    let p :=
      if (Entries.get? p name).isNone then Entries.insert p name (.table value.origin []) else p
    match Entries.get? p name with
    | some (.table o inner) =>
      let (outcome, inner) := ParamSet.store inner (next :: rest) value
      (outcome, Entries.insert p name (.table o inner))
    | _ => (.error (.notATable name (".".intercalate (next :: rest))), p)

/-- the set with a value under a path, unless the path leads through something else than a table -/
def ParamSet.assign (p : ParamSet) (path : List String) (value : Value) :
    Except ReadFault ParamSet :=
  match p.store path value with
  | (.ok (), q) => .ok q
  | (.error f, _) => .error f

section
variable (p : ParamSet) (value : Value)

theorem ParamSet.assign_nil : p.assign [] value = .ok p := by
  rw [assign, store]

theorem ParamSet.assign_singleton (name : String) :
    p.assign [name] value = .ok (Entries.insert p name value) := by
  rw [assign, store]

theorem ParamSet.assign_cons_cons (name next : String) (rest : List String) :
    p.assign (name :: next :: rest) value =
      match Entries.get? p name with
      | none =>
        (assign [] (next :: rest) value).map fun inner =>
          Entries.insert p name (.table value.origin inner)
      | some (.table o inner) =>
        (assign inner (next :: rest) value).map fun inner =>
          Entries.insert p name (.table o inner)
      | some _ => .error (.notATable name (".".intercalate (next :: rest))) := by
  rw [assign, store]
  cases hget : Entries.get? p name with
  | none =>
    simp only [Option.isNone_none, if_true, Entries.get?_insert_self, assign]
    cases hstore : store [] (next :: rest) value with
    | mk outcome inner => cases outcome <;> simp [Except.map, Entries.insert_insert]
  | some w =>
    cases w with
    | atom o t => simp [hget]
    | sequence o xs => simp [hget]
    | table o es =>
      simp only [Option.isNone_some, Bool.false_eq_true, if_false, hget, assign]
      cases hstore : store es (next :: rest) value with
      | mk outcome inner => cases outcome <;> rfl

end

/-! ## keys -/

/-- the names of an assignment's key, if it is identifiers between dots -/
def assignmentPath? (key : String) : Option (List String) :=
  let parts := splitDots key.toList
  if parts.all isIdentifierChars then some (parts.map String.ofList) else none

/-! ## the readers -/

/-- where the next token stands, or where the text ends -/
def nextPosition (stop : Position) (ts : List Spanned) : Position :=
  match ts with
  | [] => stop
  | t :: _ => t.position

section
variable (source : String) (stop : Position)

mutual

def readValue (fuel : Nat) (ts : List Spanned) : Located (Value × List Spanned) :=
  match fuel, ts with
  | 0, _ => .error (.expectedValue, nextPosition stop ts)
  | _ + 1, [] => .error (.valueMissing, stop)
  | fuel + 1, t :: rest =>
    let origin := some ⟨source, t.position.line⟩
    match t.token with
    | .word s => .ok (.atom origin s, rest)
    | .quoted s => .ok (.atom origin s, rest)
    | .openBracket => do
      let (xs, rest) ← readElements fuel rest
      .ok (.sequence origin xs, rest)
    | .openBrace => do
      let (es, rest) ← readTable fuel rest []
      .ok (.table origin es, rest)
    | _ => .error (.expectedValue, t.position)

/-- the elements up to the closing bracket -/
def readElements (fuel : Nat) (ts : List Spanned) : Located (List Value × List Spanned) :=
  match fuel, ts with
  | 0, _ => .error (.sequenceOpen, nextPosition stop ts)
  | _ + 1, ⟨.closeBracket, _⟩ :: rest => .ok ([], rest)
  | fuel + 1, ts => do
    let (x, rest) ← readValue fuel ts
    match rest with
    | ⟨.closeBracket, _⟩ :: rest => .ok ([x], rest)
    | ⟨.comma, _⟩ :: rest => do
      let (xs, rest) ← readElements fuel rest
      .ok (x :: xs, rest)
    | [] => .error (.sequenceOpen, stop)
    | t :: _ => .error (.expectedSeparator, t.position)

/-- the assignments up to the closing brace, added to `p` -/
def readTable (fuel : Nat) (ts : List Spanned) (p : ParamSet) : Located (ParamSet × List Spanned) :=
  match fuel, ts with
  | 0, _ => .error (.tableOpen, nextPosition stop ts)
  | _ + 1, [] => .error (.tableOpen, stop)
  | _ + 1, ⟨.closeBrace, _⟩ :: rest => .ok (p, rest)
  | fuel + 1, ts => do
    let (p, rest) ← readAssignment fuel ts p
    readTable fuel rest p

/-- one assignment, added to `p` -/
def readAssignment (fuel : Nat) (ts : List Spanned) (p : ParamSet) :
    Located (ParamSet × List Spanned) :=
  match fuel, ts with
  | 0, _ => .error (.expectedName, nextPosition stop ts)
  | fuel + 1, ⟨.word key, start⟩ :: rest =>
    match assignmentPath? key with
    | none => .error (.invalidName key, start)
    | some path =>
      match rest with
      | ⟨.colon, _⟩ :: rest => do
        let (v, rest) ← readValue fuel rest
        match p.assign path v with
        | .ok p => .ok (p, rest)
        | .error f => .error (f, start)
      | rest => .error (.expectedColon, nextPosition stop rest)
  | _ + 1, ts => .error (.expectedName, nextPosition stop ts)

end

/-- the assignments up to the end of the text, added to `p` -/
def readAssignments (fuel : Nat) (ts : List Spanned) (p : ParamSet) : Located ParamSet :=
  match fuel, ts with
  | _, [] => .ok p
  | 0, ts => .error (.expectedName, nextPosition stop ts)
  | fuel + 1, ts => do
    let (p, rest) ← readAssignment source stop (fuel + 1) ts p
    readAssignments fuel rest p

end

/-! ## documents -/

/-- a fault of the text `source` -/
structure ParseError where
  source : String
  line : Nat
  column : Nat
  message : String
deriving DecidableEq

def ParseError.text (e : ParseError) : String :=
  e.source ++ ":" ++ toString e.line ++ ":" ++ toString e.column ++ ": " ++ e.message

def readTokens (source : String) (ts : List Spanned) (stop : Position) : Located ParamSet :=
  readAssignments source stop (2 * ts.length + 2) ts []

def readLocated (source : String) (cs : List Char) : Located ParamSet := do
  let (ts, stop) ← lex .start cs
  readTokens source ts stop

def readDocument (text source : String) : Except ParseError ParamSet :=
  match readLocated source text.toList with
  | .ok p => .ok p
  | .error (f, p) => .error ⟨source, p.line, p.column, f.message⟩

end ParamSchema
