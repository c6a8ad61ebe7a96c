/-!
# What can be wrong with a schema or with an input

* `DeclarationError`   a mistake in the declaration of a schema;
* `Fault`              one mismatch between a schema and a parameter set, at a key;
* `ValidationError`    all mismatches of one parameter set;
* `BindFault`          a value that cannot be bound, which a clean validation excludes.
-/

namespace ParamSchema

/-! ## lengths -/

inductive LengthBound where
  | any
  | exactly (n : Nat)
  | between (least greatest : Nat)
deriving DecidableEq

namespace LengthBound

def admits : LengthBound → Nat → Bool
  | .any, _ => true
  | .exactly n, k => k == n
  | .between a b, k => a ≤ k && k ≤ b

def text : LengthBound → String
  | .any => "any length"
  | .exactly n => "exactly " ++ toString n
  | .between a b => "between " ++ toString a ++ " and " ++ toString b

/-- the bound as a note, if it bounds anything -/
def note? : LengthBound → Option String
  | .any => none
  | b => some ("length " ++ b.text)

/-- a bound that some length meets -/
def isProper : LengthBound → Bool
  | .between a b => a ≤ b
  | _ => true

theorem isProper_iff (b : LengthBound) : b.isProper = true ↔ ∃ n, b.admits n = true := by
  cases b with
  | any => simp [isProper, admits]
  | exactly n => simp [isProper, admits]
  | between a b =>
    simp only [isProper, admits, decide_eq_true_eq, Bool.and_eq_true]
    exact ⟨fun h => ⟨a, Nat.le_refl a, h⟩, fun ⟨_, h, g⟩ => Nat.le_trans h g⟩

end LengthBound

/-! ## declarations -/

inductive DeclarationError where
  | invalidName (name : String)
  | duplicateName (key : String)
  | nestedOptional (key : String)
  | optionalWithDefault (key : String)
  | optionalElement (key : String)
  | defaultedElement (key : String)
  | emptyTuple (key : String)
  | invalidBounds (key : String) (least greatest : Nat)
  | invalidDefault (key reason : String)
deriving DecidableEq

namespace DeclarationError

/-- a complaint about the parameter `key` -/
def about (key complaint : String) : String := "parameter '" ++ key ++ "'" ++ complaint

def message : DeclarationError → String
  | .invalidName name => "'" ++ name ++ "' is not a valid parameter name"
  | .duplicateName key => about key " is declared more than once"
  | .nestedOptional key =>
    about key ": an optional parameter cannot wrap another optional parameter"
  | .optionalWithDefault key => about key ": an optional parameter cannot carry a default value"
  | .optionalElement key => about key ": sequence and tuple elements cannot be optional"
  | .defaultedElement key =>
    about key ": sequence and tuple elements cannot carry their own default"
  | .emptyTuple key => about key ": a tuple needs at least one element"
  | .invalidBounds key a b =>
    about key (": minimum length " ++ toString a ++ " exceeds maximum length " ++ toString b)
  | .invalidDefault key reason =>
    about key (": default value does not fit the declaration (" ++ reason ++ ")")

end DeclarationError

/-! ## inputs -/

inductive FaultKind where
  | missing
  | typeMismatch (expected found : String)
  | notASequence (found : String)
  | lengthOutOfBounds (expected : LengthBound) (found : Nat)
  | arityMismatch (expected found : Nat)
  | unknown
deriving DecidableEq

def FaultKind.label : FaultKind → String
  | .missing => "MissingRequiredKey"
  | .typeMismatch _ _ => "TypeMismatch"
  | .notASequence _ => "NotASequence"
  | .lengthOutOfBounds _ _ => "LengthOutOfBounds"
  | .arityMismatch _ _ => "ArityMismatch"
  | .unknown => "UnknownKey"

def FaultKind.text : FaultKind → String
  | .missing => "missing required parameter"
  | .typeMismatch expected found => "expected " ++ expected ++ ", found " ++ found
  | .notASequence found => "expected a sequence, found " ++ found
  | .lengthOutOfBounds expected found =>
    "sequence has " ++ toString found ++ " element(s), expected " ++ expected.text
  | .arityMismatch expected found =>
    "tuple has " ++ toString found ++ " element(s), expected " ++ toString expected
  | .unknown => "unrecognized parameter"

structure Fault where
  key : String
  kind : FaultKind
deriving DecidableEq

def Fault.text (f : Fault) : String := f.key ++ ": " ++ f.kind.text

structure ValidationError where
  table : String
  faults : List Fault
deriving DecidableEq

def ValidationError.message (e : ValidationError) : String :=
  "validation of '" ++ e.table ++ "' failed with " ++ toString e.faults.length ++ " fault(s):\n"
    ++ String.join (e.faults.map fun f => "  - " ++ f.text ++ "\n")

structure BindFault where
  key : String
  reason : String
deriving DecidableEq

def BindFault.message (e : BindFault) : String :=
  "binding '" ++ e.key ++ "' failed after successful validation: " ++ e.reason

end ParamSchema
