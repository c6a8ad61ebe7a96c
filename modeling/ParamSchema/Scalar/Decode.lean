import ParamSchema.Scalar.Basic

/-!
# Decoding a literal as a declared type

`ScalarType.decode` reads the text of an atom, blanks at its ends dropped, as a scalar of the
declared type, or says why it is none (`DecodeError`).

* An integer is spelt in decimal digits, or in hexadecimal digits after `0x`, with an optional
  sign; or as a float whose value is a whole number below `integerLimit` (`1e3`).
* A float is spelt as `Binary64.read?` says; an `f32` is then rounded once more, and a finite number
  that this makes infinite is out of range.
* A quoted literal is a string and nothing else.
-/

namespace ParamSchema

inductive DecodeError where
  | notBoolean (text : String)
  | notInteger (text : String)
  | notNumber (text : String)
  | quotedNumber (text : String)
  | integerOutOfRange (value : Int) (type : ScalarType)
  | floatOutOfRange (value : Binary64)
  | nilString
deriving DecidableEq

def DecodeError.message : DecodeError → String
  | .notBoolean t => "'" ++ t ++ "' is not a boolean"
  | .notInteger t => "'" ++ t ++ "' is not an integer"
  | .notNumber t => "'" ++ t ++ "' is not a number"
  | .quotedNumber t => t ++ " is not a number"
  | .integerOutOfRange i t => toString i ++ " is out of range for " ++ t.name
  | .floatOutOfRange x => NumberStyle.plain.write "NaN" "inf" x ++ " is out of range for f32"
  | .nilString => "nil is not a string"

/-! ## integers -/

def isHexDigit (c : Char) : Bool :=
  c.isDigit || ('a' ≤ c && c ≤ 'f') || ('A' ≤ c && c ≤ 'F')

def hexDigit (c : Char) : Nat :=
  if c.isDigit then c.toNat - '0'.toNat else c.toLower.toNat - 'a'.toNat + 10

def ofHexDigits (cs : List Char) : Nat := cs.foldl (fun n c => 16 * n + hexDigit c) 0

/-- the digits of an integer after its sign; a magnitude has to fit 127 bits -/
def magnitude? (cs : List Char) : Option Nat :=
  let n? := match cs with
    | '0' :: 'x' :: hs | '0' :: 'X' :: hs =>
      if !hs.isEmpty && hs.all isHexDigit then some (ofHexDigits hs) else none
    | ds => if !ds.isEmpty && ds.all Char.isDigit then some (Decimal.ofDigits ds) else none
  n?.filter (· < Nat.pow 2 127)

/-- an optional sign in front of digits -/
def signedDigits? (cs : List Char) : Option Int :=
  match cs with
  | '-' :: ds => (magnitude? ds).map fun n => -(n : Int)
  | '+' :: ds => (magnitude? ds).map fun n => (n : Int)
  | ds => (magnitude? ds).map fun n => (n : Int)

/-- floats from here on are not taken for integers -/
def integerLimit : Magnitude := .ofQuotient (Nat.pow 10 38) 1

/-- the whole number that a float literal spells -/
def wholeFloat? (cs : List Char) : Option Int :=
  match Binary64.read? cs with
  | some (.signed s m) =>
    if m.index < integerLimit.index then (Binary64.signed s m).toInt? else none
  | _ => none

def integer? (cs : List Char) : Option Int :=
  if (quoteOf? cs).isSome then none
  else (signedDigits? cs).or (wholeFloat? cs)

def decodeInteger (cs : List Char) : Except DecodeError Int :=
  match integer? cs with
  | some i => .ok i
  | none => .error (.notInteger (String.ofList cs))

/-! ## floats -/

def decodeFloat (cs : List Char) : Except DecodeError Binary64 :=
  if (quoteOf? cs).isSome then .error (.quotedNumber (String.ofList cs))
  else match Binary64.read? cs with
    | some x => .ok x
    | none => .error (.notNumber (String.ofList cs))

def narrowFloat (x : Binary64) : Except DecodeError Binary64 :=
  if x.isFinite && x.narrow.isInfinite then .error (.floatOutOfRange x) else .ok x.narrow

/-! ## all types -/

def decodeString (cs : List Char) : Except DecodeError String :=
  if (quoteOf? cs).isSome then .ok (String.ofList (unquoteChars cs))
  else if cs = ['n', 'i', 'l'] then .error .nilString
  else .ok (String.ofList cs)

def decodeBool (cs : List Char) : Except DecodeError Bool :=
  if cs = ['t', 'r', 'u', 'e'] then .ok true
  else if cs = ['f', 'a', 'l', 's', 'e'] then .ok false
  else .error (.notBoolean (String.ofList cs))

/-- an integer held by a width, or the complaint that it is not -/
def fit (t : ScalarType) (i : Int) (s? : Option Scalar) : Except DecodeError Scalar :=
  match s? with
  | some s => .ok s
  | none => .error (.integerOutOfRange i t)

def ScalarType.decodeChars (t : ScalarType) (cs : List Char) : Except DecodeError Scalar :=
  match t with
  | .bool => .bool <$> decodeBool cs
  | .signed w => do
    let i ← decodeInteger cs
    fit t i (Scalar.ofSigned? w i)
  | .unsigned w => do
    let i ← decodeInteger cs
    fit t i (Scalar.ofUnsigned? w i)
  | .f32 => .float <$> (decodeFloat cs >>= narrowFloat)
  | .f64 => .float <$> decodeFloat cs
  | .string => .string <$> decodeString cs

def ScalarType.decode (t : ScalarType) (literal : String) : Except DecodeError Scalar :=
  t.decodeChars (trimChars literal.toList)

end ParamSchema
