import ParamSchema.Number.Notation
import ParamSchema.Text.Quoted

/-!
# Scalars and their declared types

`ScalarType` is what a parameter may be declared as; `Scalar` is what it is once decoded, where
the width of the declaration is gone: signed types give `int`, unsigned types `uint`, both float
types `float`.

* `Scalar.literal`   the text of a scalar in a document;
* `Scalar.readAs?`   a scalar taken for one of another type, exact for integers, rounded for floats;
* `Scalar.same`      equality, where NaN equals nothing.
-/

namespace ParamSchema

/-! ## types -/

inductive Width where
  | w8
  | w16
  | w32
  | w64
  | size
deriving DecidableEq

def Width.bits : Width → Nat
  | .w8 => 8
  | .w16 => 16
  | .w32 => 32
  | .w64 => 64
  | .size => 64

def Width.name : Width → String
  | .w8 => "8"
  | .w16 => "16"
  | .w32 => "32"
  | .w64 => "64"
  | .size => "size"

inductive ScalarType where
  | bool
  | signed (width : Width)
  | unsigned (width : Width)
  | f32
  | f64
  | string
deriving DecidableEq

namespace ScalarType

def name : ScalarType → String
  | .bool => "bool"
  | .signed w => "i" ++ w.name
  | .unsigned w => "u" ++ w.name
  | .f32 => "f32"
  | .f64 => "f64"
  | .string => "string"

def widths : List Width := [.w8, .w16, .w32, .w64, .size]

def all : List ScalarType :=
  [.bool] ++ widths.map .signed ++ widths.map .unsigned ++ [.f32, .f64, .string]

theorem mem_all (t : ScalarType) : t ∈ all := by
  rcases t with _ | w | w | _ | _ | _ <;> (try cases w) <;> decide

def ofName? (s : String) : Option ScalarType := all.find? (·.name == s)

end ScalarType

/-- the integers of a signed width -/
def Width.holdsSigned (w : Width) (i : Int) : Bool :=
  -(Nat.pow 2 (w.bits - 1) : Int) ≤ i && i < Nat.pow 2 (w.bits - 1)

/-- the integers of an unsigned width -/
def Width.holdsUnsigned (w : Width) (i : Int) : Bool := 0 ≤ i && i < Nat.pow 2 w.bits

/-! ## values -/

inductive Scalar where
  | bool (b : Bool)
  | int (i : Int)
  | uint (n : Nat)
  | float (x : Binary64)
  | string (s : String)
deriving DecidableEq

namespace Scalar

def literal : Scalar → String
  | .bool b => if b then "true" else "false"
  | .int i => toString i
  | .uint n => toString n
  | .float x => NumberStyle.literal.write "nan" "infinity" x
  | .string s => quote s

def same : Scalar → Scalar → Bool
  | .float x, .float y => x.same y
  | s, t => s == t

/-- the integer that a whole scalar is -/
def whole? : Scalar → Option Int
  | .int i => some i
  | .uint n => some n
  | _ => none

/-- the number that a scalar is, rounded to a float -/
def float? : Scalar → Option Binary64
  | .float x => some x
  | .int i => some (.ofInt i)
  | .uint n => some (.ofNat n)
  | _ => none

def ofSigned? (w : Width) (i : Int) : Option Scalar :=
  if w.holdsSigned i then some (.int i) else none

def ofUnsigned? (w : Width) (i : Int) : Option Scalar :=
  if w.holdsUnsigned i then some (.uint i.toNat) else none

def readAs? (t : ScalarType) (s : Scalar) : Option Scalar :=
  match t with
  | .bool => match s with
    | .bool b => some (.bool b)
    | _ => none
  | .signed w => s.whole?.bind (ofSigned? w)
  | .unsigned w => s.whole?.bind (ofUnsigned? w)
  | .f32 => s.float?.map fun x => .float x.narrow
  | .f64 => s.float?.map .float
  | .string => match s with
    | .string t => some (.string t)
    | _ => none

end Scalar
end ParamSchema
