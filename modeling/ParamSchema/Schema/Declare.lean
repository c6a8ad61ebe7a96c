import ParamSchema.Schema.Bind

/-!
# Declaring a schema

Declaring a descriptor under a parent key qualifies its names, checks its structure, and brings the
defaults of its sequences and tuples into the form that binding them yields.  Members that were
spliced in from a fragment stay as they are.

A table is declared step by step: `Declaring` is a computation on a `Builder`, the open tables
and the members of the innermost one so far.  A step that fails leaves the members and the open
tables as they were, so that a declaration may go on after it; a table that was opened is closed
whether its members could be declared or not.

* `Declaring.add`      one more member;
* `Declaring.table`    a nested table declared in place;
* `Declaring.splice`   the members of a fragment;
* `Declaring.note`     puts down the key prefix in force, whatever happens later.
-/

namespace ParamSchema

/-! ## descriptors -/

/-- the heading under `parent`, if its name is one -/
def Heading.qualify (h : Heading) (parent : String) : Except DeclarationError Heading :=
  if isValidName h.name then .ok { h with key := joinKey parent h.name }
  else .error (.invalidName h.name)

namespace Descriptor

/-- an element has a place of its own, so it cannot be left out -/
def checkElement (e : Descriptor) : Except DeclarationError Unit :=
  if e.isOptional then .error (.optionalElement e.key)
  else if e.hasDefault then .error (.defaultedElement e.key)
  else .ok ()

def checkBound (key : String) (b : LengthBound) : Except DeclarationError Unit :=
  match b with
  | .between least greatest =>
    if greatest < least then .error (.invalidBounds key least greatest) else .ok ()
  | _ => .ok ()

/-- what may be wrapped as optional -/
def checkInner (d : Descriptor) : Except DeclarationError Unit :=
  if d.isOptional then .error (.nestedOptional d.key)
  else if d.hasDefault then .error (.optionalWithDefault d.key)
  else .ok ()

/-- a default in the form that binding it yields, if it has no faults -/
def conform (d : Descriptor) (default : Bound) : Except DeclarationError Bound :=
  let fs := d.faults [] d.key default.toValue
  if fs.isEmpty then
    match d.bind d.key default.toValue with
    | .ok b => .ok b
    | .error f => .error (.invalidDefault d.key f.message)
  else .error (.invalidDefault d.key ("; ".intercalate (fs.map Fault.text)))

def conform? (d : Descriptor) (default : Option Bound) : Except DeclarationError (Option Bound) :=
  match default with
  | none => .ok none
  | some b => (d.conform b).map some

mutual

def declare (parent : String) (d : Descriptor) : Except DeclarationError Descriptor :=
  match d with
  | .atom h t x => do
    let h ← h.qualify parent
    .ok (.atom h t x)
  | .sequence h e b x => do
    let h ← h.qualify parent
    let e ← e.declare h.key
    e.checkElement
    checkBound h.key b
    let x ← (Descriptor.sequence h e b none).conform? x
    .ok (.sequence h e b x)
  | .tuple h es x => do
    let h ← h.qualify parent
    if es.isEmpty then .error (.emptyTuple h.key)
    else do
      let es ← declareElements h.key es
      let x ← (Descriptor.tuple h es none).conform? x
      .ok (.tuple h es x)
  | .table h ms => do
    let h ← h.qualify parent
    let ms ← declareMembers h.key ms
    .ok (.table h ms)
  | .optional d => do
    let d ← d.declare parent
    d.checkInner
    .ok (.optional d)

def declareElements (parent : String) (es : List Descriptor) :
    Except DeclarationError (List Descriptor) :=
  match es with
  | [] => .ok []
  | e :: es => do
    let e ← e.declare parent
    e.checkElement
    let es ← declareElements parent es
    .ok (e :: es)

def declareMembers (parent : String) (ms : List Descriptor) :
    Except DeclarationError (List Descriptor) :=
  match ms with
  | [] => .ok []
  | d :: ds => do
    let d ← if d.heading.spliced then .ok d else d.declare parent
    let ds ← declareMembers parent ds
    .ok (d :: ds)

end

end Descriptor

/-! ## tables, step by step -/

structure Builder where
  keys : KeyStack
  members : List Descriptor
  /-- the key prefixes put down so far -/
  noted : List String

namespace Builder

def empty (noted : List String) : Builder := ⟨.empty, [], noted⟩

/-- one more member of the innermost table -/
def push (b : Builder) (d : Descriptor) : Builder := { b with members := b.members ++ [d] }

/-- a table opened inside the innermost one, without members so far -/
def inside (b : Builder) (name : String) : Builder := ⟨b.keys.enter name, [], b.noted⟩

/-- the table `b` again, after the computation that left `c` inside it: the innermost table is
closed, and its members are not kept -/
def outside (b c : Builder) : Builder := ⟨c.keys.leave, b.members, c.noted⟩

end Builder

abbrev Declaring (α : Type) := ExceptT DeclarationError (StateM Builder) α

namespace Declaring

/-- the key prefix of the members added now -/
def keyPrefix : Declaring String := fun b => (.ok b.keys.current, b)

def note : Declaring Unit := fun b => (.ok (), { b with noted := b.noted ++ [b.keys.current] })

def fail {α : Type} (e : DeclarationError) : Declaring α := fun b => (.error e, b)

/-- a member of an open table has a name, not a place -/
def checkName (name : String) : Except DeclarationError Unit :=
  if isElementMarker name then .error (.invalidName name) else .ok ()

/-- no member of the table so far has the name -/
def checkNew (b : Builder) (name : String) : Except DeclarationError Unit :=
  if isMember b.members name then .error (.duplicateName (b.keys.qualify name)) else .ok ()

def checkAllNew (b : Builder) (names : List String) : Except DeclarationError Unit :=
  match names with
  | [] => .ok ()
  | name :: names => do
    checkNew b name
    checkAllNew b names

/-- the member that `add` appends -/
def declared (b : Builder) (d : Descriptor) : Except DeclarationError Descriptor := do
  checkName d.name
  let d ← d.declare b.keys.current
  checkNew b d.name
  .ok d

def add (d : Descriptor) : Declaring Unit := fun b =>
  match declared b d with
  | .error e => (.error e, b)
  | .ok d => (.ok (), b.push d)

/-- the heading of a table opened in place -/
def opened (b : Builder) (name : String) : Except DeclarationError Heading := do
  checkName name
  let h ← (Heading.named name).qualify b.keys.current
  checkNew b h.name
  .ok h

def table (name : String) (body : Declaring Unit) : Declaring Unit := fun b =>
  match opened b name with
  | .error e => (.error e, b)
  | .ok h =>
    match body (b.inside name) with
    | (.error e, c) => (.error e, b.outside c)
    | (.ok (), c) => (.ok (), (b.outside c).push (.table h c.members))

def splice (f : Fragment) : Declaring Unit := fun b =>
  match checkAllNew b (f.members.map Descriptor.name) with
  | .error e => (.error e, b)
  | .ok () => (.ok (), { b with members := b.members ++ f.members.map Descriptor.splice })

/-- a computation on a builder of its own; only the prefixes it puts down are kept -/
def apart {α : Type} (body : Declaring α) : Declaring (α × List Descriptor) := fun b =>
  match body (.empty b.noted) with
  | (.error e, c) => (.error e, { b with noted := c.noted })
  | (.ok x, c) => (.ok (x, c.members), { b with noted := c.noted })

end Declaring

/-! ## whole tables -/

/-- a table declared on its own -/
def Schema.declare (name : String) (body : Declaring Unit) : Declaring Schema :=
  match (Heading.named name).qualify "" with
  | .error e => Declaring.fail e
  | .ok h => do
    let (_, ms) ← Declaring.apart body
    pure ⟨h, ms⟩

def Fragment.declare (body : Declaring Unit) : Declaring Fragment := do
  let (_, ms) ← Declaring.apart body
  pure ⟨ms⟩

def Schema.build (name : String) (body : Declaring Unit) : Except DeclarationError Schema :=
  ((Schema.declare name body) (.empty [])).1

def Fragment.build (body : Declaring Unit) : Except DeclarationError Fragment :=
  ((Fragment.declare body) (.empty [])).1

end ParamSchema
