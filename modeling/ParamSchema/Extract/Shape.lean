import ParamSchema.Json.Value
import ParamSchema.Key.Name
import ParamSchema.Key.Path
import ParamSchema.Scalar.Basic
import ParamSchema.Text.Visible

/-!
# Filling records from JSON

A `Shape` is the type of a record that a program fills from a bound tree; `Shape.fill` takes the
JSON of the tree, checks it against the shape, and yields the filled record as JSON again, fields in
the order of the shape and absent options `null`.

* A record takes its fields from an object by name, in the order of the object; the first that
  does not fit is reported, and only if all fit the first that is missing.  Other members are
  ignored.  It also takes an array of its fields in order.
* Whole numbers fit a float; a float never fits an integer type.

A misfit is reported with the path to it; the path of a missing field is that of its record.
-/

namespace ParamSchema

inductive Shape where
  | bool
  | signed (width : Width)
  | unsigned (width : Width)
  | float
  | string
  | option (inner : Shape)
  | list (element : Shape)
  | tuple (elements : List Shape)
  | record (name : String) (fields : List (String × Shape))
  | map (value : Shape)
  | any

/-! ## misfits -/

inductive MisfitReason where
  | missingField (name : String)
  | wrongKind (found : Json) (expected : String)
  | integerRange (found : Int) (expected : String)
  | tooShort (length : Nat) (expected : String)
  | tooLong (length : Nat)

structure Misfit where
  path : List Segment
  reason : MisfitReason

/-- what a misfit calls a value; numbers are written as in JSON -/
def Json.mention : Json → String
  | .null => "null"
  | .bool b => "boolean \x60" ++ (if b then "true" else "false") ++ "\x60"
  | .int i => "integer \x60" ++ toString i ++ "\x60"
  | .float x => "floating point \x60" ++ floatText x ++ "\x60"
  | .string s => "string " ++ quoteForMessage s
  | .array _ => "sequence"
  | .object _ => "map"

def MisfitReason.text : MisfitReason → String
  | .missingField name => "missing field \x60" ++ name ++ "\x60"
  | .wrongKind j expected => "invalid type: " ++ j.mention ++ ", expected " ++ expected
  | .integerRange i expected =>
    "invalid value: integer \x60" ++ toString i ++ "\x60, expected " ++ expected
  | .tooShort n expected => "invalid length " ++ toString n ++ ", expected " ++ expected
  | .tooLong n => "invalid length " ++ toString n ++ ", expected fewer elements in array"

/-- a path from its second segment on -/
def laterSegments : List Segment → String
  | [] => ""
  | .name k :: ss => "." ++ k ++ laterSegments ss
  | .index i :: ss => elementMarker i ++ laterSegments ss

/-- a path as a key, a dot for the root -/
def pathText : List Segment → String
  | [] => "."
  | .name k :: ss => k ++ laterSegments ss
  | ss => laterSegments ss

def Misfit.message (m : Misfit) : String :=
  "at key " ++ pathText m.path ++ " → " ++ m.reason.text

abbrev Filling := Except Misfit

namespace Shape

def misfit {α : Type} (reason : MisfitReason) : Filling α := .error ⟨[], reason⟩

/-- the misfit of a part as one of the whole -/
def under {α : Type} (s : Segment) (r : Filling α) : Filling α :=
  r.mapError fun m => { m with path := s :: m.path }

def elementCount (n : Nat) : String := toString n ++ (if n = 1 then " element" else " elements")

def isOption : Shape → Bool
  | .option _ => true
  | _ => false

/-! ## records from objects -/

/-- a field: its name, may it be missing, and what a member of its name gives -/
structure Field where
  name : String
  optional : Bool
  filled : Option (Filling Json)

/-- the first misfit in the order of the members -/
def firstMisfit? (fields : List Field) (ms : List (String × Json)) : Option Misfit :=
  ms.findSome? fun (k, _) =>
    fields.findSome? fun f =>
      if f.name = k then
        match f.filled with
        | some (.error m) => some m
        | _ => none
      else none

/-- the fields in order, those that may be missing as `null` -/
def gather : List Field → Filling (List (String × Json))
  | [] => .ok []
  | f :: fs =>
    match f.filled with
    | some r => do
      let j ← r
      let js ← gather fs
      .ok ((f.name, j) :: js)
    | none =>
      if f.optional then do
        let js ← gather fs
        .ok ((f.name, .null) :: js)
      else misfit (.missingField f.name)

def assemble (fields : List Field) (ms : List (String × Json)) : Filling Json :=
  match firstMisfit? fields ms with
  | some m => .error m
  | none => (gather fields).map .object

/-! ## maps -/

def insertSorted (k : String) (v : Json) : List (String × Json) → List (String × Json)
  | [] => [(k, v)]
  | (l, w) :: es => if k ≤ l then (k, v) :: (l, w) :: es else (l, w) :: insertSorted k v es

/-- members by ascending key -/
def sortMembers (ms : List (String × Json)) : List (String × Json) :=
  ms.foldr (fun (k, v) es => insertSorted k v es) []

/-! ## filling -/

/-- an array read place by place: too many elements are noticed after all places are filled -/
def checkLength {α : Type} (length places : Nat) (r : Filling α) : Filling α := do
  let x ← r
  if places < length then misfit (.tooLong length) else .ok x

mutual

def fill (s : Shape) (j : Json) : Filling Json :=
  match s with
  | .any => .ok j
  | .option s =>
    match j with
    | .null => .ok .null
    | j => s.fill j
  | .bool =>
    match j with
    | .bool b => .ok (.bool b)
    | j => misfit (.wrongKind j "a boolean")
  | .signed w =>
    match j with
    | .int i =>
      if w.holdsSigned i then .ok (.int i) else misfit (.integerRange i (ScalarType.signed w).name)
    | j => misfit (.wrongKind j (ScalarType.signed w).name)
  | .unsigned w =>
    match j with
    | .int i =>
      if w.holdsUnsigned i then .ok (.int i)
      else misfit (.integerRange i (ScalarType.unsigned w).name)
    | j => misfit (.wrongKind j (ScalarType.unsigned w).name)
  | .float =>
    match j with
    | .float x => .ok (.float x)
    | .int i => .ok (.float (.ofInt i))
    | j => misfit (.wrongKind j "f64")
  | .string =>
    match j with
    | .string t => .ok (.string t)
    | j => misfit (.wrongKind j "a string")
  | .list e =>
    match j with
    | .array xs => (xs.zipIdx.mapM fun (x, i) => under (.index i) (e.fill x)).map .array
    | j => misfit (.wrongKind j "a sequence")
  | .tuple es =>
    match j with
    | .array xs =>
      (checkLength xs.length es.length
        (fillPlaces ("a tuple of size " ++ toString es.length) 0 es xs)).map .array
    | j => misfit (.wrongKind j ("a tuple of size " ++ toString es.length))
  | .record name fields =>
    match j with
    | .object ms => assemble (fillFields fields ms) ms
    | .array xs =>
      (checkLength xs.length fields.length
        (fillFieldPlaces ("struct " ++ name ++ " with " ++ elementCount fields.length) 0 fields
          xs)).map .object
    | j => misfit (.wrongKind j ("struct " ++ name))
  | .map s =>
    match j with
    | .object ms =>
      (ms.mapM fun (k, x) => (under (.name k) (s.fill x)).map fun y => (k, y)).map fun ms =>
        .object (sortMembers ms)
    | j => misfit (.wrongKind j "a map")

/-- the places of a tuple from `i` on; `whole` names the tuple -/
def fillPlaces (whole : String) (i : Nat) (es : List Shape) (xs : List Json) :
    Filling (List Json) :=
  match es, xs with
  | [], _ => .ok []
  | _ :: _, [] => misfit (.tooShort i whole)
  | e :: es, x :: xs => do
    let y ← under (.index i) (e.fill x)
    let ys ← fillPlaces whole (i + 1) es xs
    .ok (y :: ys)

/-- the same for a record -/
def fillFieldPlaces (whole : String) (i : Nat) (fields : List (String × Shape)) (xs : List Json) :
    Filling (List (String × Json)) :=
  match fields, xs with
  | [], _ => .ok []
  | _ :: _, [] => misfit (.tooShort i whole)
  | (k, e) :: fields, x :: xs => do
    let y ← under (.index i) (e.fill x)
    let ys ← fillFieldPlaces whole (i + 1) fields xs
    .ok ((k, y) :: ys)

/-- every field with what the member of its name gives -/
def fillFields (fields : List (String × Shape)) (ms : List (String × Json)) : List Field :=
  match fields with
  | [] => []
  | (k, e) :: fields =>
    ⟨k, e.isOption, (Entries.get? ms k).map fun x => under (.name k) (e.fill x)⟩
      :: fillFields fields ms

end

end Shape
end ParamSchema
