import ParamSchema.Param.Printer
import ParamSchema.Schema.Descriptor
import ParamSchema.Text.Blank

/-!
# The reference text of a schema

A schema documents itself as a document would be written: every parameter with its default, or
with its type in angle brackets where there is none, notes in comments at the end of a line, and
the comments of the descriptors on lines of their own before them.

The text is a list of lines; an element's separator goes to the end of its last line.
-/

namespace ParamSchema

/-- how a parameter is introduced -/
structure Introduction where
  /-- elements of sequences and tuples have none -/
  label : Option String
  optional : Bool

namespace Reference

/-- `indent` levels for the whole text, `level` for this line -/
def pad (indent level : Nat) : String := PrintMode.pad (indent + level)

def commentLines (indent level : Nat) (comment : String) : List String :=
  if isBlankComment comment then []
  else (lines comment).map fun l => pad indent level ++ "## " ++ trimEnd l

def line (indent level : Nat) (i : Introduction) (body : String) (note : Option String) : String :=
  let notes := (if i.optional then ["optional"] else []) ++ note.toList
  pad indent level ++ (match i.label with | some l => l ++ ": " | none => "") ++ body
    ++ (if notes.isEmpty then "" else "  # " ++ ", ".intercalate notes)

/-- puts a separator at the end of the last line -/
def separate : List String → List String
  | [] => []
  | [l] => [l ++ ","]
  | l :: ls => l :: separate ls

def element : Introduction := ⟨none, false⟩

def named (name : String) : Introduction := ⟨some name, false⟩

section
variable (indent : Nat)

mutual

def describe (level : Nat) (i : Introduction) (d : Descriptor) : List String :=
  match d with
  | .atom h t x =>
    commentLines indent level h.comment ++
      [match x with
        | some s => line indent level i s.literal (some "default")
        | none => line indent level i ("<" ++ t.name ++ ">") none]
  | .sequence h e b x =>
    commentLines indent level h.comment ++
      match x with
      | some s =>
        let note := match b.note? with
          | some n => "default, " ++ n
          | none => "default"
        [line indent level i s.literal (some note)]
      | none =>
        line indent level i "[" b.note? ::
          (separate (describe (level + 1) element e) ++ [line indent (level + 1) element "..." none,
            pad indent level ++ "]"])
  | .tuple h es x =>
    commentLines indent level h.comment ++
      match x with
      | some s => [line indent level i s.literal (some "default")]
      | none =>
        line indent level i "[" none ::
          (describeElements (level + 1) es ++ [pad indent level ++ "]"])
  | .table h ms =>
    commentLines indent level h.comment ++
      if ms.isEmpty then [line indent level i "\x7b\x7d" none]
      else
        line indent level i "\x7b" none ::
          (describeMembers (level + 1) ms ++ [pad indent level ++ "\x7d"])
  | .optional d => describe level { i with optional := true } d

def describeElements (level : Nat) (es : List Descriptor) : List String :=
  match es with
  | [] => []
  | e :: es =>
    (if es.isEmpty then describe level element e else separate (describe level element e))
      ++ describeElements level es

def describeMembers (level : Nat) (ms : List Descriptor) : List String :=
  match ms with
  | [] => []
  | d :: ds => describe level (named d.name) d ++ describeMembers level ds

end

end

end Reference

/-- the reference text, `indent` levels deep -/
def Schema.reference (s : Schema) (indent : Nat) : String :=
  ofLines (Reference.describe indent 0 (Reference.named s.name) s.toDescriptor)

end ParamSchema
