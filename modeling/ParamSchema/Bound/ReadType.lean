import ParamSchema.Bound.Value

/-!
# Reading bound values as given types

`ReadType` is what a reader of a bound tree may ask for: a scalar type, a list of one type, a tuple
of given types, a table, or the value as it is.  `ReadType.read?` converts a value to the type
or fails as a whole; the converted value is again a `Bound`.

`ReadType.fullName` is the name by which a message calls the type.
-/

namespace ParamSchema

inductive ReadType where
  | scalar (type : ScalarType)
  | list (element : ReadType)
  | tuple (elements : List ReadType)
  | table
  | value

namespace ReadType

mutual
def read? : ReadType → Bound → Option Bound
  | .scalar t, .scalar s => (s.readAs? t).map .scalar
  | .list t, .sequence xs => (xs.mapM fun x => t.read? x).map .sequence
  | .tuple ts, .sequence xs => (readTuple? ts xs).map .sequence
  | .table, .table es => some (.table es)
  | .value, b => some b
  | _, _ => none
/-- place by place, with as many values as types -/
def readTuple? : List ReadType → List Bound → Option (List Bound)
  | [], [] => some []
  | t :: ts, x :: xs =>
    match t.read? x, readTuple? ts xs with
    | some y, some ys => some (y :: ys)
    | _, _ => none
  | _, _ => none
end

/-! ## names -/

def listName (element : String) : String := "alloc::vec::Vec<" ++ element ++ ">"

def tupleName : List String → String
  | [t] => "(" ++ t ++ ",)"
  | ts => "(" ++ ", ".intercalate ts ++ ")"

mutual
def fullName : ReadType → String
  | .scalar .string => "alloc::string::String"
  | .scalar t => t.name
  | .list t => listName t.fullName
  | .tuple ts => tupleName (fullNames ts)
  | .table => "fhicl::types::bound::BoundTable"
  | .value => "fhicl::types::bound::BoundValue"
def fullNames : List ReadType → List String
  | [] => []
  | t :: ts => t.fullName :: fullNames ts
end

end ReadType

namespace BoundTable

/-- the value at `key`, read as `t` -/
def value (b : BoundTable) (t : ReadType) (key : String) : Except LookupError Bound :=
  match b.at? key with
  | none => .error (.keyNotFound key)
  | some v =>
    match t.read? v with
    | none => .error (.wrongType key t.fullName)
    | some w => .ok w

/-- the value at `key` if there is one -/
def valueIfPresent (b : BoundTable) (t : ReadType) (key : String) :
    Except LookupError (Option Bound) :=
  if b.contains key then (b.value t key).map some else .ok none

end BoundTable
end ParamSchema
