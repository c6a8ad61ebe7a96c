import ParamSchema.Schema.Validate

/-!
# Binding

The second walk, over an input that has no faults: values are decoded, defaults filled in, and
optional parameters that are absent left out.  What validation has excluded is a `BindFault` here,
not an assumption.
-/

namespace ParamSchema

namespace Descriptor

mutual

def bind (key : String) (d : Descriptor) (v : Value) : Except BindFault Bound :=
  match d with
  | .atom _ t _ =>
    match decodeAtom t v with
    | .ok s => .ok (.scalar s)
    | .error k => .error ⟨key, k.label⟩
  | .sequence _ e _ _ =>
    match v with
    | .sequence _ xs =>
      (xs.zipIdx.mapM fun (x, i) => e.bind (indexKey key i) x).map .sequence
    | _ => .error ⟨key, "value is not a sequence"⟩
  | .tuple _ es _ =>
    match v with
    | .sequence _ xs =>
      if xs.length = es.length then (bindPlaces key 0 es xs).map .sequence
      else .error ⟨key, "arity changed"⟩
    | _ => .error ⟨key, "value is not a sequence"⟩
  | .table _ ms =>
    match v with
    | .table _ p => (bindMembers key p ms).map .table
    | _ => .error ⟨key, "value is not a table"⟩
  | .optional d => d.bind key v

/-- nothing is what an absent optional parameter binds to -/
def bindAbsent (key : String) (d : Descriptor) : Except BindFault (Option Bound) :=
  match d with
  | .atom _ _ (some s) => .ok (some (.scalar s))
  | .atom _ _ none => .error ⟨key, "required atom has no value"⟩
  | .sequence _ _ _ (some b) => .ok (some b)
  | .sequence _ _ _ none => .error ⟨key, "no value and no default"⟩
  | .tuple _ _ (some b) => .ok (some b)
  | .tuple _ _ none => .error ⟨key, "no value and no default"⟩
  | .table _ ms => (bindMembers key [] ms).map fun es => some (.table es)
  | .optional _ => .ok none

/-- the places of a tuple from `i` on -/
def bindPlaces (key : String) (i : Nat) (es : List Descriptor) (xs : List Value) :
    Except BindFault (List Bound) :=
  match es, xs with
  | e :: es, x :: xs => do
    let y ← e.bind (indexKey key i) x
    let ys ← bindPlaces key (i + 1) es xs
    .ok (y :: ys)
  | _, _ => .ok []

/-- the members of a table with the entries `p`, in the order of their declaration -/
def bindMembers (key : String) (p : ParamSet) (ms : List Descriptor) :
    Except BindFault BoundTable :=
  match ms with
  | [] => .ok []
  | d :: ds => do
    let y ← match Entries.get? p d.name with
      | some v => (d.bind (joinKey key d.name) v).map some
      | none => d.bindAbsent (joinKey key d.name)
    let ys ← bindMembers key p ds
    match y with
    | some y => .ok ((d.name, y) :: ys)
    | none => .ok ys

end

end Descriptor

/-- why a parameter set is not bound -/
inductive BindError where
  | invalid (error : ValidationError)
  | inconsistent (fault : BindFault)
deriving DecidableEq

def BindError.message : BindError → String
  | .invalid e => e.message
  | .inconsistent f => f.message

/-- nothing is bound unless validation is clean -/
def Schema.bind (s : Schema) (p : ParamSet) (ignore : List String) : Except BindError BoundTable :=
  match s.validate p ignore with
  | .error e => .error (.invalid e)
  | .ok () =>
    match Descriptor.bindMembers "" p s.members with
    | .error f => .error (.inconsistent f)
    | .ok b => .ok b

end ParamSchema
