import ParamSchema.Bound.Value
import ParamSchema.Extract.Shape
import ParamSchema.Param.Import
import ParamSchema.Param.Reader
import ParamSchema.Schema.Outline

/-!
# Roots of clients

A `ClientRoot` is a schema together with a reader of the client's record.  Once a parameter set has
been accepted the root also holds the parameter set, the bound table, and the record that the reader
made of the table's JSON.  `ClientRoot.accept` stores all three; where validation or the reader fails
it stores none of them.

In a `TypedRoot` the record is that of a `Shape`.

`Error` gathers everything that can go wrong in the library.
-/

namespace ParamSchema

/-! ## errors -/

inductive Error where
  | declaration (error : DeclarationError)
  | validation (error : ValidationError)
  | parse (error : ParseError)
  | lookup (error : LookupError)
  | inconsistentBind (fault : BindFault)
  | extract (message : String)
  | json (fault : JsonFault)
deriving DecidableEq

def JsonFault.message : JsonFault → String
  | .malformed => "malformed JSON text"
  | .endedEarly => "EOF inside JSON text"

namespace Error

def message : Error → String
  | .declaration e => e.message
  | .validation e => e.message
  | .parse e => e.text
  | .lookup e => e.message
  | .inconsistentBind f => f.message
  | .extract m => "bound values do not fit the requested type: " ++ m
  | .json f => "invalid JSON input: " ++ f.message

def ofBind : BindError → Error
  | .invalid e => .validation e
  | .inconsistent f => .inconsistentBind f

def ofImport : ImportError → Error
  | .json f => .json f
  | .notObject e => .lookup e

end Error

/-! ## extraction -/

/-- what a reader of JSON makes of a bound table -/
def BoundTable.deserialize {α : Type} (b : BoundTable) (read : Json → Filling α) :
    Except Error α :=
  match read b.toJson with
  | .ok x => .ok x
  | .error m => .error (.extract m.message)

/-- the record of a shape, filled from a bound table -/
def BoundTable.extract (b : BoundTable) (s : Shape) : Except Error Json := b.deserialize s.fill

/-! ## roots -/

structure ClientRoot (α : Type) where
  schema : Schema
  read : Json → Filling α
  input : Option ParamSet
  bound : Option BoundTable
  record : Option α

/-- what a root holds once it has accepted a parameter set -/
structure Holding (α : Type) where
  input : ParamSet
  bound : BoundTable
  record : α

namespace ClientRoot

variable {α : Type}

def declare (o : Outline) (read : Json → Filling α) : Except DeclarationError (ClientRoot α) :=
  o.schema.map fun schema => ⟨schema, read, none, none, none⟩

/-- the root after a parameter set was offered, and the error if it was not accepted -/
def accept (r : ClientRoot α) (p : ParamSet) (ignore : List String) :
    ClientRoot α × Option Error :=
  match r.schema.bind p ignore with
  | .error e => (r, some (.ofBind e))
  | .ok b =>
    match b.deserialize r.read with
    | .error e => (r, some e)
    | .ok x => ({ r with input := some p, bound := some b, record := some x }, none)

/-- declared and filled in one step -/
def ofParamSet (o : Outline) (read : Json → Filling α) (p : ParamSet) (ignore : List String) :
    Except Error (ClientRoot α) :=
  match declare o read with
  | .error e => .error (.declaration e)
  | .ok r =>
    match r.accept p ignore with
    | (r, none) => .ok r
    | (_, some e) => .error e

def withComment (r : ClientRoot α) (comment : String) : ClientRoot α :=
  { r with schema := r.schema.withComment comment }

def filled (r : ClientRoot α) : Option (Holding α) :=
  match r.input, r.bound, r.record with
  | some p, some b, some x => some ⟨p, b, x⟩
  | _, _, _ => none

end ClientRoot

/-! ## roots with a shape -/

abbrev TypedRoot := ClientRoot Json

abbrev Filled := Holding Json

namespace TypedRoot

def declare (o : Outline) (s : Shape) : Except DeclarationError TypedRoot :=
  ClientRoot.declare o s.fill

def ofParamSet (o : Outline) (s : Shape) (p : ParamSet) (ignore : List String) :
    Except Error TypedRoot :=
  ClientRoot.ofParamSet o s.fill p ignore

end TypedRoot
end ParamSchema
