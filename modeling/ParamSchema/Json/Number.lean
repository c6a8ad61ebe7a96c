import ParamSchema.Json.Value

/-!
# Reading JSON numbers

A number without point and exponent is an integer if it fits 64 bits; zero with a minus sign and
all others are floats.

A float is read from its first digits only: digits are gathered in a 64-bit significand until the
next one would not fit, the rest only count (in front of the point) or are dropped (after it).  The
significand is rounded to a float and then multiplied or divided by a rounded power of ten, one
rounding each, so the result may be a neighbour of the nearest float.  A product that overflows
is refused.
-/

namespace ParamSchema

/-- how a text fails to be JSON: it is malformed, or it ends too early -/
inductive JsonFault where
  | malformed
  | endedEarly
deriving DecidableEq

namespace Magnitude

def mul (m n : Magnitude) : Magnitude :=
  ofQuotient (m.units * n.units) (unitsPerOne * unitsPerOne)

def div (m n : Magnitude) : Magnitude := ofQuotient m.units n.units

/-- `10 ^ e` -/
def tenTo (e : Nat) : Magnitude := ofQuotient (Nat.pow 10 e) 1

end Magnitude

namespace Json

abbrev Reading := Except JsonFault

/-! ## floats from their parts -/

/-- the largest power of ten that is used in one step -/
def greatestTen : Nat := 308

/-- `m * 10 ^ e`, in steps -/
def scaleBy (m : Magnitude) (e : Int) : Reading Magnitude :=
  if e.natAbs ≤ greatestTen then
    if 0 ≤ e then
      let p := m.mul (.tenTo e.natAbs)
      if p.isInfinite then .error .malformed else .ok p
    else .ok (m.div (.tenTo e.natAbs))
  else if m.index = 0 then .ok m
  else if 0 ≤ e then .error .malformed
  else scaleBy (m.div (.tenTo greatestTen)) (e + greatestTen)
termination_by (-e).toNat
decreasing_by
  simp only [greatestTen] at *
  omega

def ofParts (negative : Bool) (n : Nat) (e : Int) : Reading Json :=
  (scaleBy (.ofQuotient n 1) e).map fun m => .float (.signed negative m)

/-- the number, and what follows it -/
def finish (negative : Bool) (n : Nat) (e : Int) (rest : List Char) : Reading (Json × List Char) :=
  (ofParts negative n e).map fun j => (j, rest)

/-! ## the parts -/

def fits (n : Nat) : Bool := n < Nat.pow 2 64

def isExponentMark (c : Char) : Bool := c = 'e' || c = 'E'

def digitOf (c : Char) : Nat := c.toNat - '0'.toNat

/-- after the exponent mark -/
def readExponent (negative : Bool) (n : Nat) (e : Int) (cs : List Char) :
    Reading (Json × List Char) :=
  let (down, cs) := match cs with
    | '+' :: cs => (false, cs)
    | '-' :: cs => (true, cs)
    | cs => (false, cs)
  match cs with
  | [] => .error .endedEarly
  | c :: _ =>
    if c.isDigit then
      let x := Decimal.ofDigits (cs.takeWhile Char.isDigit)
      let rest := cs.dropWhile Char.isDigit
      if x < Nat.pow 2 31 then finish negative n (if down then e - x else e + x) rest
      else if n ≠ 0 && !down then .error .malformed
      else .ok (.float (.zero negative), rest)
    else .error .malformed

/-- after the digits of a float -/
def readScale (negative : Bool) (n : Nat) (e : Int) (cs : List Char) : Reading (Json × List Char) :=
  match cs with
  | c :: rest => if isExponentMark c then readExponent negative n e rest else finish negative n e cs
  | [] => finish negative n e []

/-- After the point, `places` digits of which are read. -/
def readFraction (negative : Bool) (n : Nat) (e : Int) (places : Nat) :
    List Char → Reading (Json × List Char)
  | [] => if places = 0 then .error .endedEarly else finish negative n (e - places) []
  | c :: cs =>
    if c.isDigit then
      if fits (10 * n + digitOf c) then readFraction negative (10 * n + digitOf c) e (places + 1) cs
      else readScale negative n (e - places) (cs.dropWhile Char.isDigit)
    else if places = 0 then .error .malformed
    else readScale negative n (e - places) (c :: cs)

/-- the digits in front of the point that are too many, `extra` of which are read -/
def readLong (negative : Bool) (n extra : Nat) : List Char → Reading (Json × List Char)
  | [] => finish negative n extra []
  | c :: cs =>
    if c.isDigit then readLong negative n (extra + 1) cs
    else if c = '.' then readFraction negative n extra 0 cs
    else readScale negative n extra (c :: cs)

/-- a number without point and exponent -/
def ofInteger (negative : Bool) (n : Nat) : Json :=
  if !negative then .int n
  else if n = 0 || Nat.pow 2 63 < n then .float (.signed true (.ofQuotient n 1))
  else .int (-n)

/-- after the first digits, worth `n` -/
def readDigits (negative : Bool) (n : Nat) : List Char → Reading (Json × List Char)
  | [] => .ok (ofInteger negative n, [])
  | c :: cs =>
    if c.isDigit then
      if fits (10 * n + digitOf c) then readDigits negative (10 * n + digitOf c) cs
      else readLong negative n 1 cs
    else if c = '.' then readFraction negative n 0 0 cs
    else if isExponentMark c then readExponent negative n 0 cs
    else .ok (ofInteger negative n, c :: cs)

/-- a number after its sign; a leading zero stands alone -/
def readNumber (negative : Bool) : List Char → Reading (Json × List Char)
  | [] => .error .endedEarly
  | c :: cs =>
    if c = '0' then
      if (cs.head?.map Char.isDigit).getD false then .error .malformed else readDigits negative 0 cs
    else if c.isDigit then readDigits negative (digitOf c) cs
    else .error .malformed

end Json
end ParamSchema
