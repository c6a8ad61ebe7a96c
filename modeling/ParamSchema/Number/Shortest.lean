import ParamSchema.Number.Binary

/-!
# The fewest digits that read back

`Magnitude.shortest` picks, for a positive finite magnitude, a decimal with as few digits as
possible among those that round to it, and of two such decimals the nearer one; `Tie` says which
of two equally near ones.

The search is the rule itself.  For `n = 1, 2, …, 17` digits the two neighbours of the value on
the grid of `n`-digit decimals are tried, and "reads back" is `BinaryFormat.ofDecimal`, the very
function that reads a decimal.  Should no grid give a hit, the exact decimal value is taken, so
that the result reads back in any case.
-/

namespace ParamSchema

inductive Tie where
  | up
  | even
deriving DecidableEq

namespace Magnitude

/-- the exponent of the leading digit of `a / b`, both positive -/
def leadingExponent (a b : Nat) : Int :=
  if b ≤ a then (Decimal.width (a / b) : Int) - 1
  else -(Decimal.width ((b - 1) / a) : Int)

def readsBack (m : Magnitude) (d : Decimal) : Bool := BinaryFormat.double.ofDecimal d == m.index

/-- of the two decimals next to `a / b` on the grid of `10 ^ e`, the one to print -/
def onGrid? (m : Magnitude) (tie : Tie) (a b : Nat) (e : Int) : Option Decimal :=
  let a := a * Nat.pow 10 (-e).toNat
  let b := b * Nat.pow 10 e.toNat
  let low := a / b
  let below : Decimal := ⟨low, e⟩
  let above : Decimal := ⟨low + 1, e⟩
  let nearer := compare (2 * a) ((2 * low + 1) * b)
  match low != 0 && m.readsBack below, m.readsBack above with
  | false, false => none
  | true, false => some below
  | false, true => some above
  | true, true =>
    match nearer with
    | .lt => some below
    | .gt => some above
    | .eq => if tie = .even ∧ low % 2 = 0 then some below else some above

/-- the exact value of a finite magnitude: `2 ^ -1` is `5 * 10 ^ -1` -/
def exactDecimal (m : Magnitude) : Decimal :=
  ⟨m.units * Nat.pow 5 BinaryFormat.double.scale, -(BinaryFormat.double.scale : Int)⟩

def shortest (m : Magnitude) (tie : Tie) : Decimal :=
  if m.units = 0 then ⟨0, 0⟩
  else
    let e := leadingExponent m.units unitsPerOne
    let hit := (List.range 17).findSome? fun n : Nat => m.onGrid? tie m.units unitsPerOne (e - n)
    (hit.getD m.exactDecimal).strip

end Magnitude
end ParamSchema
