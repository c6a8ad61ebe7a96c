import ParamSchema.Json.Reader
import ParamSchema.Param.Value

/-!
# JSON as a source of parameter sets

An object is a table, an array a sequence; every other value becomes the atom whose literal reads
as that value, and `null` the atom `nil`.  The top of the JSON text has to be an object.
-/

namespace ParamSchema

mutual
def Value.ofJson : Json → Value
  | .null => .atom none "nil"
  | .bool b => .atom none (if b then "true" else "false")
  | .int i => .atom none (toString i)
  | .float x => .atom none (Json.floatText x)
  | .string s => .atom none (quote s)
  | .array xs => .sequence none (ofJsons xs)
  | .object ms => .table none (ofMembers ms)
def Value.ofJsons : List Json → List Value
  | [] => []
  | x :: xs => .ofJson x :: ofJsons xs
def Value.ofMembers : List (String × Json) → List (String × Value)
  | [] => []
  | (k, v) :: ms => (k, .ofJson v) :: ofMembers ms
end

def ParamSet.ofJson? (j : Json) : Except LookupError ParamSet :=
  match j with
  | .object ms => .ok (Value.ofMembers ms)
  | j => .error (.wrongType "<document>" ("a JSON object at top level, not " ++ j.kind))

/-- why a JSON text gives no parameter set -/
inductive ImportError where
  | json (fault : JsonFault)
  | notObject (error : LookupError)
deriving DecidableEq

def ParamSet.readJson (text : String) : Except ImportError ParamSet :=
  match Json.read text with
  | .error f => .error (.json f)
  | .ok j =>
    match ParamSet.ofJson? j with
    | .error e => .error (.notObject e)
    | .ok p => .ok p

end ParamSchema
