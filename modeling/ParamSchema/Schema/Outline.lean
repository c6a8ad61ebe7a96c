import ParamSchema.Schema.Declare

/-!
# Outlines: a declaration as data

An `Outline` names a root table, the steps that declare its members, and the fragments it uses.
`Draft` is a descriptor before it is declared, where a table still consists of steps; `Item` is one
step.  Running an outline builds the fragments in order, each of which may use those before it, and
then the root.

A table inside a draft is declared on its own, before the step that it is part of.
-/

namespace ParamSchema

mutual
inductive Draft where
  | atom (name comment : String) (type : ScalarType) (default : Option Scalar)
  | sequence (name comment : String) (element : Draft) (bound : LengthBound)
      (default : Option Bound)
  | tuple (name comment : String) (elements : List Draft) (default : Option Bound)
  | table (name comment : String) (items : List Item)
  | optional (inner : Draft)
inductive Item where
  | add (draft : Draft)
  | table (name : String) (items : List Item)
  | splice (fragment : String)
  | note
end

structure Outline where
  name : String
  comment : String
  items : List Item
  fragments : List (String × List Item)

/-- the fragment of a name; a name that is not known has no members -/
def fragmentNamed (fs : Entries Fragment) (name : String) : Fragment := (fs.get? name).getD ⟨[]⟩

section
variable (fs : Entries Fragment)

mutual

def Draft.descriptor (draft : Draft) : Declaring Descriptor :=
  match draft with
  | .atom name comment t x =>
    pure (.atom { Heading.named name with comment } t (x.bind fun s => s.readAs? t))
  | .sequence name comment e b x => do
    let e ← e.descriptor
    pure (.sequenceOf name comment e b x)
  | .tuple name comment es x => do
    let es ← draftDescriptors es
    pure (.tupleOf name comment es x)
  | .table name comment items => do
    let s ← Schema.declare name (runItems items)
    pure (s.withComment comment).toDescriptor
  | .optional d => do
    let d ← d.descriptor
    pure (.optional d)

def draftDescriptors (drafts : List Draft) : Declaring (List Descriptor) :=
  match drafts with
  | [] => pure []
  | d :: ds => do
    let d ← d.descriptor
    let ds ← draftDescriptors ds
    pure (d :: ds)

def Item.run (item : Item) : Declaring Unit :=
  match item with
  | .add draft => do
    let d ← draft.descriptor
    Declaring.add d
  | .table name items => Declaring.table name (runItems items)
  | .splice name => Declaring.splice (fragmentNamed fs name)
  | .note => Declaring.note

def runItems (items : List Item) : Declaring Unit :=
  match items with
  | [] => pure ()
  | i :: is => do
    i.run
    runItems is

end

end

/-- the fragments of an outline, in order, after those in `fs` -/
def runFragments (fs : Entries Fragment) : List (String × List Item) → Declaring (Entries Fragment)
  | [] => pure fs
  | (name, items) :: rest => do
    let f ← Fragment.declare (runItems fs items)
    runFragments (fs.insert name f) rest

namespace Outline

def run (o : Outline) : Declaring Schema := do
  let fs ← runFragments [] o.fragments
  let s ← Schema.declare o.name (runItems fs o.items)
  pure (s.withComment o.comment)

/-- the schema, or why there is none -/
def schema (o : Outline) : Except DeclarationError Schema := (o.run (.empty [])).1

/-- the key prefixes that were put down, also those before a mistake -/
def prefixes (o : Outline) : List String := (o.run (.empty [])).2.noted

end Outline
end ParamSchema
