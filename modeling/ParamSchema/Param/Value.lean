import ParamSchema.Entries
import ParamSchema.Key.Path
import ParamSchema.Scalar.Decode

/-!
# Parameter sets

A parameter set is a table of values in the order in which they were first given.  A value is an
atom, which keeps its literal text, a sequence, or a table; it may know its `Origin`.  Nothing is
interpreted until somebody asks for a scalar type (`ParamSet.get`).

* `ParamSet.at?`     the value at a path such as `a.b[2].c`;
* `Value.erase`      the value without its origins, the tree that a text denotes;
* `Value.Distinct`   every table in the value has distinct keys.
-/

namespace ParamSchema

structure Origin where
  source : String
  line : Nat
deriving DecidableEq

def Origin.text (o : Origin) : String := o.source ++ ":" ++ toString o.line

inductive Value where
  | atom (origin : Option Origin) (text : String)
  | sequence (origin : Option Origin) (elements : List Value)
  | table (origin : Option Origin) (entries : List (String × Value))

abbrev ParamSet := Entries Value

namespace Value

def origin : Value → Option Origin
  | .atom o _ => o
  | .sequence o _ => o
  | .table o _ => o

def asAtom? : Value → Option String
  | .atom _ t => some t
  | _ => none

def asSequence? : Value → Option (List Value)
  | .sequence _ xs => some xs
  | _ => none

def asTable? : Value → Option ParamSet
  | .table _ es => some es
  | _ => none

/-- what a message calls the value -/
def shape : Value → String
  | .atom _ _ => "an atom"
  | .sequence _ _ => "a sequence"
  | .table _ _ => "a table"

def isAtom (v : Value) : Bool := v.asAtom?.isSome

/-! ## paths -/

def step? (v : Value) (s : Segment) : Option Value :=
  match s, v with
  | .name k, .table _ es => Entries.get? es k
  | .index i, .sequence _ xs => xs[i]?
  | _, _ => none

def follow? (v : Value) : List Segment → Option Value
  | [] => some v
  | s :: ss => (v.step? s).bind fun w => w.follow? ss

/-! ## origins -/

mutual
def erase : Value → Value
  | .atom _ t => .atom none t
  | .sequence _ xs => .sequence none (eraseAll xs)
  | .table _ es => .table none (eraseEntries es)
def eraseAll : List Value → List Value
  | [] => []
  | x :: xs => x.erase :: eraseAll xs
def eraseEntries : List (String × Value) → List (String × Value)
  | [] => []
  | (k, v) :: es => (k, v.erase) :: eraseEntries es
end

/-! ## distinct keys -/

mutual
def Distinct : Value → Prop
  | .atom _ _ => True
  | .sequence _ xs => AllDistinct xs
  | .table _ es => (Entries.keys es).Nodup ∧ EntriesDistinct es
def AllDistinct : List Value → Prop
  | [] => True
  | x :: xs => x.Distinct ∧ AllDistinct xs
def EntriesDistinct : List (String × Value) → Prop
  | [] => True
  | (_, v) :: es => v.Distinct ∧ EntriesDistinct es
end

end Value

namespace ParamSet

/-- the value at a path; the first segment names an entry -/
def follow? (p : ParamSet) : List Segment → Option Value
  | .name k :: ss => (Entries.get? p k).bind fun v => v.follow? ss
  | _ => none

def at? (p : ParamSet) (key : String) : Option Value := (pathOf? key).bind p.follow?

def has (p : ParamSet) (key : String) : Bool := (p.at? key).isSome

def erase (p : ParamSet) : ParamSet := Value.eraseEntries p

def Distinct (p : ParamSet) : Prop := (Entries.keys p).Nodup ∧ Value.EntriesDistinct p

end ParamSet

/-! ## typed look-up -/

inductive LookupError where
  | keyNotFound (key : String)
  | wrongType (key expected : String)
deriving DecidableEq

def LookupError.message : LookupError → String
  | .keyNotFound key => "no parameter at '" ++ key ++ "'"
  | .wrongType key expected => "parameter '" ++ key ++ "' cannot be read as " ++ expected

/-- the atom at `key`, decoded -/
def ParamSet.get (p : ParamSet) (t : ScalarType) (key : String) : Except LookupError Scalar :=
  match p.at? key with
  | none => .error (.keyNotFound key)
  | some v =>
    match v.asAtom?.map t.decode with
    | some (.ok s) => .ok s
    | _ => .error (.wrongType key t.name)

end ParamSchema
