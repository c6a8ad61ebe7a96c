import ParamSchema.Json.Value
import ParamSchema.Param.Value

/-!
# Bound values

What binding yields: scalars, sequences, and tables in declaration order.  A bound tree knows
nothing of the schema or the parameter set it came from.

* `Bound.literal`    the value on one line of a document;
* `Bound.toValue`    the same as a parameter value, without origins;
* `Bound.toJson`     the same as JSON; a float that is not finite becomes `null`;
* `Bound.same`       equality by the numbers in it, where NaN equals nothing.
-/

namespace ParamSchema

inductive Bound where
  | scalar (s : Scalar)
  | sequence (elements : List Bound)
  | table (entries : List (String × Bound))

abbrev BoundTable := Entries Bound

namespace Bound

/-! ## views -/

mutual
def literal : Bound → String
  | .scalar s => s.literal
  | .sequence xs => "[" ++ ", ".intercalate (literals xs) ++ "]"
  | .table es =>
    if es.isEmpty then "\x7b\x7d" else "\x7b " ++ " ".intercalate (entryLiterals es) ++ " \x7d"
def literals : List Bound → List String
  | [] => []
  | x :: xs => x.literal :: literals xs
def entryLiterals : List (String × Bound) → List String
  | [] => []
  | (k, v) :: es => (k ++ ": " ++ v.literal) :: entryLiterals es
end

mutual
def toValue : Bound → Value
  | .scalar s => .atom none s.literal
  | .sequence xs => .sequence none (toValues xs)
  | .table es => .table none (toEntries es)
def toValues : List Bound → List Value
  | [] => []
  | x :: xs => x.toValue :: toValues xs
def toEntries : List (String × Bound) → List (String × Value)
  | [] => []
  | (k, v) :: es => (k, v.toValue) :: toEntries es
end

def scalarJson : Scalar → Json
  | .bool b => .bool b
  | .int i => .int i
  | .uint n => .int n
  | .float x => if x.isFinite then .float x else .null
  | .string s => .string s

mutual
def toJson : Bound → Json
  | .scalar s => scalarJson s
  | .sequence xs => .array (toJsons xs)
  | .table es => .object (toMembers es)
def toJsons : List Bound → List Json
  | [] => []
  | x :: xs => x.toJson :: toJsons xs
def toMembers : List (String × Bound) → List (String × Json)
  | [] => []
  | (k, v) :: es => (k, v.toJson) :: toMembers es
end

/-! ## equality -/

mutual
/-- Tables are equal when each entry of one is in the other, whatever the order. -/
def same : Bound → Bound → Bool
  | .scalar s, .scalar t => s.same t
  | .sequence xs, .sequence ys => sameAll xs ys
  | .table es, .table fs => es.length == fs.length && sameEntries es fs
  | _, _ => false
def sameAll : List Bound → List Bound → Bool
  | [], [] => true
  | x :: xs, y :: ys => x.same y && sameAll xs ys
  | _, _ => false
def sameEntries : List (String × Bound) → List (String × Bound) → Bool
  | [], _ => true
  | (k, v) :: es, fs => ((Entries.get? fs k).map v.same).getD false && sameEntries es fs
end

/-! ## paths -/

def step? (b : Bound) (s : Segment) : Option Bound :=
  match s, b with
  | .name k, .table es => Entries.get? es k
  | .index i, .sequence xs => xs[i]?
  | _, _ => none

def follow? (b : Bound) : List Segment → Option Bound
  | [] => some b
  | s :: ss => (b.step? s).bind fun c => c.follow? ss

end Bound

namespace BoundTable

def follow? (b : BoundTable) : List Segment → Option Bound
  | .name k :: ss => (Entries.get? b k).bind fun c => c.follow? ss
  | _ => none

def at? (b : BoundTable) (key : String) : Option Bound := (pathOf? key).bind b.follow?

def contains (b : BoundTable) (key : String) : Bool := (b.at? key).isSome

def toParamSet (b : BoundTable) : ParamSet := Bound.toEntries b

def toJson (b : BoundTable) : Json := .object (Bound.toMembers b)

def same (b c : BoundTable) : Bool := (Bound.table b).same (.table c)

end BoundTable
end ParamSchema
