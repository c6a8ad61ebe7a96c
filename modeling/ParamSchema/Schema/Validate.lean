import ParamSchema.Schema.Descriptor

/-!
# Validation

A descriptor and a value are walked together, and every mismatch is a fault at its qualified key;
no fault hides another.  In a table the parameters are looked at in the order of their declaration,
then the keys of the input that no parameter names.  Such a key is passed over if the ignore list
holds it, or a key above it.

`Descriptor.faults` takes a value that is there; a parameter that is left out is a fault by itself
unless it may be absent.
-/

namespace ParamSchema

/-! ## the ignore list -/

/-- Does `above` cover `key`: the key itself, or one below it? -/
def coversChars : List Char → List Char → Bool
  | [], [] => true
  | [], c :: _ => c = '.' || c = '['
  | _ :: _, [] => false
  | a :: as, c :: cs => a = c && coversChars as cs

def covers (above key : String) : Bool := coversChars above.toList key.toList

def isIgnored (ignore : List String) (key : String) : Bool :=
  ignore.any fun above => covers above key

/-! ## atoms -/

/-- the scalar that a value holds for an atom of type `t` -/
def decodeAtom (t : ScalarType) (v : Value) : Except FaultKind Scalar :=
  match v with
  | .atom _ literal =>
    match t.decode literal with
    | .ok s => .ok s
    | .error e => .error (.typeMismatch t.name ("'" ++ literal ++ "' (" ++ e.message ++ ")"))
  | v => .error (.typeMismatch t.name v.shape)

/-! ## tables -/

/-- is the name that of a member? -/
def isMember (ms : List Descriptor) (name : String) : Bool := ms.any fun d => d.name == name

/-- the faults of the keys that no member names -/
def unknownFaults (ignore : List String) (key : String) (ms : List Descriptor) (p : ParamSet) :
    List Fault :=
  ((p.keys.filter fun name => !isMember ms name).map fun name => joinKey key name).filterMap
    fun k => if isIgnored ignore k then none else some ⟨k, .unknown⟩

namespace Descriptor

def absentFaults (key : String) (d : Descriptor) : List Fault :=
  if d.mayBeAbsent then [] else [⟨key, .missing⟩]

section
variable (ignore : List String)

mutual

def faults (key : String) (d : Descriptor) (v : Value) : List Fault :=
  match d with
  | .atom _ t _ =>
    match decodeAtom t v with
    | .ok _ => []
    | .error k => [⟨key, k⟩]
  | .sequence _ e b _ =>
    match v with
    | .sequence _ xs =>
      (if b.admits xs.length then [] else [⟨key, .lengthOutOfBounds b xs.length⟩])
        ++ (xs.zipIdx.map fun (x, i) => e.faults (indexKey key i) x).flatten
    | v => [⟨key, .notASequence v.shape⟩]
  | .tuple _ es _ =>
    match v with
    | .sequence _ xs =>
      (if xs.length = es.length then [] else [⟨key, .arityMismatch es.length xs.length⟩])
        ++ placeFaults key 0 es xs
    | v => [⟨key, .notASequence v.shape⟩]
  | .table _ ms =>
    match v with
    | .table _ p => memberFaults key p ms ++ unknownFaults ignore key ms p
    | v => [⟨key, .typeMismatch "a table" v.shape⟩]
  | .optional d => d.faults key v

/-- the faults of the places of a tuple from `i` on, as far as both lists go -/
def placeFaults (key : String) (i : Nat) (es : List Descriptor) (xs : List Value) : List Fault :=
  match es, xs with
  | e :: es, x :: xs => e.faults (indexKey key i) x ++ placeFaults key (i + 1) es xs
  | _, _ => []

/-- the faults of the members of a table with the entries `p` -/
def memberFaults (key : String) (p : ParamSet) (ms : List Descriptor) : List Fault :=
  match ms with
  | [] => []
  | d :: ds =>
    (match Entries.get? p d.name with
      | some v => d.faults (joinKey key d.name) v
      | none => d.absentFaults (joinKey key d.name))
      ++ memberFaults key p ds

end

end

end Descriptor

namespace Schema

/-- all faults of a parameter set -/
def faults (s : Schema) (p : ParamSet) (ignore : List String) : List Fault :=
  Descriptor.memberFaults ignore "" p s.members ++ unknownFaults ignore "" s.members p

def validate (s : Schema) (p : ParamSet) (ignore : List String) : Except ValidationError Unit :=
  let fs := s.faults p ignore
  if fs.isEmpty then .ok () else .error ⟨s.name, fs⟩

end Schema
end ParamSchema
