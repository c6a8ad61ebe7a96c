import ParamSchema.Bound.Value
import ParamSchema.Key.Name
import ParamSchema.Schema.Fault

/-!
# Descriptors

A `Descriptor` says what one parameter may be: an atom of a scalar type, a sequence of one element
descriptor, a tuple of several, a table of named members, or any of these made optional.  Its
`Heading` carries the name, the comment, and the qualified key it was declared under; an optional
parameter has the heading of what it wraps.

A `Fragment` is a group of members that tables share.  Members that came from one are marked
`spliced`: they live at the level of the table that includes them, but keep the key they were
declared under.

A `Schema` is the table at the root.
-/

namespace ParamSchema

structure Heading where
  name : String
  comment : String
  key : String
  spliced : Bool
deriving DecidableEq

def Heading.named (name : String) : Heading := ⟨name, "", name, false⟩

inductive Descriptor where
  | atom (heading : Heading) (type : ScalarType) (default : Option Scalar)
  | sequence (heading : Heading) (element : Descriptor) (bound : LengthBound)
      (default : Option Bound)
  | tuple (heading : Heading) (elements : List Descriptor) (default : Option Bound)
  | table (heading : Heading) (members : List Descriptor)
  | optional (inner : Descriptor)

structure Fragment where
  members : List Descriptor

structure Schema where
  heading : Heading
  members : List Descriptor

namespace Descriptor

def heading : Descriptor → Heading
  | .atom h _ _ => h
  | .sequence h _ _ _ => h
  | .tuple h _ _ => h
  | .table h _ => h
  | .optional d => d.heading

def mapHeading (f : Heading → Heading) : Descriptor → Descriptor
  | .atom h t x => .atom (f h) t x
  | .sequence h e b x => .sequence (f h) e b x
  | .tuple h es x => .tuple (f h) es x
  | .table h ms => .table (f h) ms
  | .optional d => .optional (d.mapHeading f)

theorem heading_mapHeading (f : Heading → Heading) (d : Descriptor) :
    (d.mapHeading f).heading = f d.heading := by
  induction d using Descriptor.heading.induct <;> simp_all [mapHeading, heading]

def name (d : Descriptor) : String := d.heading.name
def comment (d : Descriptor) : String := d.heading.comment
def key (d : Descriptor) : String := d.heading.key

def isOptional : Descriptor → Bool
  | .optional _ => true
  | _ => false

def hasDefault : Descriptor → Bool
  | .atom _ _ x => x.isSome
  | .sequence _ _ _ x => x.isSome
  | .tuple _ _ x => x.isSome
  | .table _ _ => false
  | .optional _ => false

/-- the descriptor as the element at place `i` -/
def asElement (i : Nat) (d : Descriptor) : Descriptor :=
  d.mapHeading fun h => { h with name := elementMarker i, key := elementMarker i }

/-- the descriptor as a member of a fragment that a table includes -/
def splice (d : Descriptor) : Descriptor := d.mapHeading fun h => { h with spliced := true }

theorem name_splice (d : Descriptor) : d.splice.name = d.name := by
  simp [splice, name, heading_mapHeading]

mutual
/-- May the parameter be left out?  A table may if all its members may. -/
def mayBeAbsent : Descriptor → Bool
  | .atom _ _ x => x.isSome
  | .sequence _ _ _ x => x.isSome
  | .tuple _ _ x => x.isSome
  | .table _ ms => allMayBeAbsent ms
  | .optional _ => true
def allMayBeAbsent : List Descriptor → Bool
  | [] => true
  | d :: ds => d.mayBeAbsent && allMayBeAbsent ds
end

theorem allMayBeAbsent_eq_all (ds : List Descriptor) : allMayBeAbsent ds = ds.all mayBeAbsent := by
  induction ds with
  | nil => rfl
  | cons d ds ih => rw [allMayBeAbsent, ih, List.all_cons]

/-! ## from bare parts -/

def sequenceOf (name comment : String) (element : Descriptor) (bound : LengthBound)
    (default : Option Bound) : Descriptor :=
  .sequence { Heading.named name with comment } (element.asElement 0) bound default

def asElements (i : Nat) : List Descriptor → List Descriptor
  | [] => []
  | d :: ds => d.asElement i :: asElements (i + 1) ds

def tupleOf (name comment : String) (elements : List Descriptor) (default : Option Bound) :
    Descriptor :=
  .tuple { Heading.named name with comment } (asElements 0 elements) default

end Descriptor

namespace Schema

def name (s : Schema) : String := s.heading.name

def toDescriptor (s : Schema) : Descriptor := .table s.heading s.members

def withComment (s : Schema) (comment : String) : Schema :=
  { s with heading := { s.heading with comment } }

end Schema
end ParamSchema
