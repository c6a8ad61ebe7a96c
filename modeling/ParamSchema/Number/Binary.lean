import ParamSchema.Number.Decimal

/-!
# Binary floating-point numbers, exactly

A `BinaryFormat` is a grid of nonnegative numbers.  Its points are counted by an INDEX, which is
the bit pattern of the point read as a number: index `0` is zero, the order of the indices is the
order of the points, and `top` is the first index that is no finite number.

* `units i`       the point of index `i`, as a multiple of `2 ^ -scale`;
* `roundTo a b`   the index of the point nearest to `a / b`, ties to the even index, `top` for
                  everything that is nearer to the first number off the grid;
* `Binary64`      a sign and an index of the 64-bit grid, or NaN; what is stored and compared;
* `narrow`        through the 32-bit grid and back.

Everything is natural-number arithmetic: a quotient is never formed before it is rounded, so one
rounding is one rounding.  One formula covers both halves of the grid: below `2 ^ (fraction + 1)`
units the shift is zero and the index is the number of units itself, above it every binade adds
`2 ^ fraction` indices, and a significand that rounds up to the next power of two carries into
the next binade by itself.
-/

namespace ParamSchema

/-! ## the grid -/

structure BinaryFormat where
  /-- stored bits of a significand -/
  fraction : Nat
  /-- the least positive point is `2 ^ -scale` -/
  scale : Nat
  /-- the first index that is no finite number -/
  top : Nat

/-- the nearest whole number to `a / b`, ties to even -/
def roundQuotient (a b : Nat) : Nat :=
  let q := a / b
  let r := a % b
  if 2 * r < b then q else if b < 2 * r then q + 1 else q + q % 2

theorem roundQuotient_one (a : Nat) : roundQuotient a 1 = a := by
  simp [roundQuotient, Nat.mod_one]

namespace BinaryFormat

def single : BinaryFormat := ⟨23, 149, 255 * Nat.pow 2 23⟩
def double : BinaryFormat := ⟨52, 1074, 2047 * Nat.pow 2 52⟩

/-- how far the significand of index `i` is shifted left -/
def shift (f : BinaryFormat) (i : Nat) : Nat := i / Nat.pow 2 f.fraction - 1

def units (f : BinaryFormat) (i : Nat) : Nat :=
  (i - f.shift i * Nat.pow 2 f.fraction) * Nat.pow 2 (f.shift i)

/-- the index of the point nearest to `a / b` units -/
def indexOf (f : BinaryFormat) (a b : Nat) : Nat :=
  let s := (a / b).log2 - f.fraction
  min f.top (s * Nat.pow 2 f.fraction + roundQuotient a (b * Nat.pow 2 s))

def roundTo (f : BinaryFormat) (a b : Nat) : Nat := f.indexOf (a * Nat.pow 2 f.scale) b

theorem indexOf_le_top (f : BinaryFormat) (a b : Nat) : f.indexOf a b ≤ f.top :=
  Nat.min_le_left _ _

/-- The index nearest to a decimal.  A decimal far off the grid is settled by its size: `10 ^ n` is
at least `8 ^ n`, so neither bound can cut off a number that rounds elsewhere. -/
def ofDecimal (f : BinaryFormat) (d : Decimal) : Nat :=
  if d.digits = 0 then 0
  else if 0 ≤ d.exponent then
    if f.top / Nat.pow 2 f.fraction + f.fraction ≤ d.digits.log2 + 3 * d.exponent.toNat + f.scale
    then f.top
    else f.roundTo (d.digits * Nat.pow 10 d.exponent.toNat) 1
  else
    if d.digits.log2 + f.scale + 2 < 3 * (-d.exponent).toNat then 0
    else f.roundTo d.digits (Nat.pow 10 (-d.exponent).toNat)

end BinaryFormat

/-! ## signed numbers -/

/-- an index of the 64-bit grid, its top (infinity) included -/
structure Magnitude where
  index : Nat
  index_le : index ≤ BinaryFormat.double.top
deriving DecidableEq

namespace Magnitude

def ofQuotient (a b : Nat) : Magnitude :=
  ⟨BinaryFormat.double.roundTo a b, BinaryFormat.double.indexOf_le_top _ _⟩

def ofIndex (i : Nat) : Magnitude := ⟨min BinaryFormat.double.top i, Nat.min_le_left _ _⟩

def infinity : Magnitude := ⟨BinaryFormat.double.top, Nat.le_refl _⟩

def isInfinite (m : Magnitude) : Bool := m.index == BinaryFormat.double.top

/-- a finite magnitude as a multiple of `2 ^ -1074` -/
def units (m : Magnitude) : Nat := BinaryFormat.double.units m.index

/-- the denominator of `units` -/
def unitsPerOne : Nat := Nat.pow 2 BinaryFormat.double.scale

end Magnitude

inductive Binary64 where
  | nan
  | signed (negative : Bool) (magnitude : Magnitude)
deriving DecidableEq

namespace Binary64

def infinity (negative : Bool) : Binary64 := .signed negative .infinity

def zero (negative : Bool) : Binary64 := .signed negative (.ofIndex 0)

def ofDecimal (negative : Bool) (d : Decimal) : Binary64 :=
  .signed negative (.ofIndex (BinaryFormat.double.ofDecimal d))

def ofInt (i : Int) : Binary64 := .signed (i < 0) (.ofQuotient i.natAbs 1)

def ofNat (n : Nat) : Binary64 := .signed false (.ofQuotient n 1)

def isNaN : Binary64 → Bool
  | .nan => true
  | .signed _ _ => false

def isInfinite : Binary64 → Bool
  | .nan => false
  | .signed _ m => m.isInfinite

def isFinite (x : Binary64) : Bool := !x.isNaN && !x.isInfinite

/-- equality of numbers: NaN equals nothing, the two zeros are equal -/
def same : Binary64 → Binary64 → Bool
  | .signed s m, .signed t n => m.index == n.index && (s == t || m.index == 0)
  | _, _ => false

/-- the nearest number of the 32-bit grid -/
def narrow : Binary64 → Binary64
  | .nan => .nan
  | .signed s m =>
    if m.isInfinite then .signed s m
    else
      let i := BinaryFormat.single.roundTo m.units Magnitude.unitsPerOne
      if i = BinaryFormat.single.top then .infinity s
      else
        .signed s
          (.ofQuotient (BinaryFormat.single.units i) (Nat.pow 2 BinaryFormat.single.scale))

/-- the integer that a finite number is, if it is one -/
def toInt? : Binary64 → Option Int
  | .nan => none
  | .signed s m =>
    if m.isInfinite || m.units % Magnitude.unitsPerOne != 0 then none
    else
      let n : Int := m.units / Magnitude.unitsPerOne
      some (if s then -n else n)

/-! ## text -/

/-- Letters in either case. -/
def isWord (word : String) (cs : List Char) : Bool := cs.map Char.toLower == word.toList

/-- An unsigned spelling: a decimal, or one of the words `inf`, `infinity` and `nan`. -/
def readMagnitude? (negative : Bool) (cs : List Char) : Option Binary64 :=
  match Decimal.read? cs with
  | some d => some (.ofDecimal negative d)
  | none =>
    if isWord "inf" cs || isWord "infinity" cs then some (.infinity negative)
    else if isWord "nan" cs then some .nan
    else none

/-- an optional sign and an unsigned spelling -/
def read? : List Char → Option Binary64
  | '-' :: cs => readMagnitude? true cs
  | '+' :: cs => readMagnitude? false cs
  | cs => readMagnitude? false cs

/-! ## bit patterns -/

def ofBits (w : Nat) : Binary64 :=
  let i := w % Nat.pow 2 63
  if i ≤ BinaryFormat.double.top then .signed (Nat.pow 2 63 ≤ w) (.ofIndex i) else .nan

/-- one pattern for every NaN -/
def toBits : Binary64 → Nat
  | .nan => 2047 * Nat.pow 2 52 + Nat.pow 2 51
  | .signed s m => (if s then Nat.pow 2 63 else 0) + m.index

end Binary64
end ParamSchema
