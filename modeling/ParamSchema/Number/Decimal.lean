/-!
# Decimal numbers: `digits * 10 ^ exponent`, and how a text spells one

`Decimal` is the exact value of a decimal text; nothing is rounded here.
`Decimal.read?` reads the unsigned spelling

* digits with an optional point, at least one digit on either side of it;
* an optional exponent `e` or `E` with an optional sign and at least one digit,

and takes the whole text or nothing.  `Decimal.strip` moves trailing zeros of the digits into
the exponent, so that equal values with nonzero digits get equal digits.
-/

namespace ParamSchema

structure Decimal where
  digits : Nat
  exponent : Int
deriving DecidableEq, Repr

namespace Decimal

/-! ## reading -/

/-- the number that a run of digits spells -/
def ofDigits (cs : List Char) : Nat := Nat.ofDigitChars 10 cs 0

/-- the value of `whole.fraction` -/
def ofParts (whole fraction : List Char) (exponent : Int) : Decimal :=
  ⟨ofDigits (whole ++ fraction), exponent - fraction.length⟩

/-- what may follow the mark of an exponent -/
def readExponent? (cs : List Char) : Option Int :=
  match cs with
  | '-' :: ds => if !ds.isEmpty && ds.all Char.isDigit then some (-(ofDigits ds : Int)) else none
  | '+' :: ds => if !ds.isEmpty && ds.all Char.isDigit then some (ofDigits ds : Int) else none
  | ds => if !ds.isEmpty && ds.all Char.isDigit then some (ofDigits ds : Int) else none

/-- what may follow the digits of the significand -/
def readScale? (cs : List Char) : Option Int :=
  match cs with
  | [] => some 0
  | c :: ds => if c = 'e' || c = 'E' then readExponent? ds else none

def read? (cs : List Char) : Option Decimal :=
  let whole := cs.takeWhile Char.isDigit
  let rest := cs.dropWhile Char.isDigit
  let (fraction, rest) := match rest with
    | '.' :: ds => (ds.takeWhile Char.isDigit, ds.dropWhile Char.isDigit)
    | rest => ([], rest)
  if whole.isEmpty && fraction.isEmpty then none
  else (readScale? rest).map (ofParts whole fraction)

/-! ## trailing zeros -/

def strip (d : Decimal) : Decimal :=
  if h : d.digits ≠ 0 ∧ d.digits % 10 = 0 then strip ⟨d.digits / 10, d.exponent + 1⟩ else d
termination_by d.digits
decreasing_by exact Nat.div_lt_self (Nat.pos_of_ne_zero h.1) (by decide)

/-- the number of digits of a positive number, `1` for zero -/
def width (n : Nat) : Nat := (Nat.toDigits 10 n).length

end Decimal
end ParamSchema
