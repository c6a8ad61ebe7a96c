import ParamSchema.Number.Shortest

/-!
# Writing floating-point numbers

A `NumberStyle` holds the decisions of one written form: the exponents that are written
positionally, whether a whole number carries `.0`, whether a positive exponent carries its sign,
and which of two equally near shortest decimals is taken.  `NumberStyle.magnitude` writes the
shortest decimal of a magnitude in that style; the sign is put in front of it.

* `literal`    the text of a float in a document: always recognisable as a float;
* `plain`      digits only, however long, for messages about a number;
* `json`       the text of a float in JSON.
-/

namespace ParamSchema

structure NumberStyle where
  /-- is a number with this exponent of its leading digit written positionally? -/
  positional : Int → Bool
  /-- whole numbers end in `.0` -/
  keepPoint : Bool
  /-- positive exponents carry `+` -/
  signedExponent : Bool
  tie : Tie

namespace NumberStyle

def literal : NumberStyle := ⟨fun e => -4 ≤ e && e < 16, true, false, .up⟩
def plain : NumberStyle := ⟨fun _ => true, false, false, .up⟩
def json : NumberStyle := ⟨fun e => -5 ≤ e && e < 16, true, true, .even⟩

/-- digits with the point `point` places after their first digit's left edge -/
def writePositional (keepPoint : Bool) (digits : List Char) (point : Int) : List Char :=
  if point ≤ 0 then '0' :: '.' :: (List.replicate (-point).toNat '0' ++ digits)
  else if digits.length ≤ point.toNat then
    digits ++ List.replicate (point.toNat - digits.length) '0'
      ++ (if keepPoint then ['.', '0'] else [])
  else digits.take point.toNat ++ '.' :: digits.drop point.toNat

/-- one digit, the others after a point, and the exponent of the first -/
def writeScientific (signedExponent : Bool) (digits : List Char) (e : Int) : List Char :=
  let sign := if e < 0 then ['-'] else if signedExponent then ['+'] else []
  let significand := match digits with
    | [d] => [d]
    | d :: ds => d :: '.' :: ds
    | [] => []
  significand ++ 'e' :: (sign ++ Nat.toDigits 10 e.natAbs)

def decimal (style : NumberStyle) (d : Decimal) : List Char :=
  let digits := Nat.toDigits 10 d.digits
  let e := d.exponent + digits.length - 1
  if style.positional e then writePositional style.keepPoint digits (e + 1)
  else writeScientific style.signedExponent digits e

def magnitude (style : NumberStyle) (m : Magnitude) : List Char :=
  style.decimal (m.shortest style.tie)

/-- a finite number, with the texts of the other two kinds given -/
def write (style : NumberStyle) (nan infinity : String) : Binary64 → String
  | .nan => nan
  | .signed s m =>
    (if s then "-" else "")
      ++ (if m.isInfinite then infinity else String.ofList (style.magnitude m))

end NumberStyle
end ParamSchema
