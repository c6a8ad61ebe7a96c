import ParamSchema.Entries
import ParamSchema.Number.Notation

/-!
# JSON values and their compact text

Objects keep their members in order.  A number is an integer or a float; a float that is not
finite has no JSON text and is written `null`.
-/

namespace ParamSchema

inductive Json where
  | null
  | bool (b : Bool)
  | int (i : Int)
  | float (x : Binary64)
  | string (s : String)
  | array (elements : List Json)
  | object (members : List (String × Json))

namespace Json

/-- `\u` and four hexadecimal digits, for a control character -/
def controlEscape (c : Char) : List Char :=
  let digits := Nat.toDigits 16 c.toNat
  '\\' :: 'u' :: (List.replicate (4 - digits.length) '0' ++ digits)

def escapeChar (c : Char) : List Char :=
  match c with
  | '"' => ['\\', '"']
  | '\\' => ['\\', '\\']
  | '\n' => ['\\', 'n']
  | '\t' => ['\\', 't']
  | '\r' => ['\\', 'r']
  | '\x08' => ['\\', 'b']
  | '\x0c' => ['\\', 'f']
  | c => if c.toNat < 0x20 then controlEscape c else [c]

def stringText (s : String) : String :=
  String.ofList ('"' :: (s.toList.flatMap escapeChar ++ ['"']))

/-- the text of a finite number -/
def floatText (x : Binary64) : String :=
  if x.isFinite then NumberStyle.json.write "null" "null" x else "null"

mutual
def text : Json → String
  | .null => "null"
  | .bool b => if b then "true" else "false"
  | .int i => toString i
  | .float x => floatText x
  | .string s => stringText s
  | .array xs => "[" ++ ",".intercalate (texts xs) ++ "]"
  | .object ms => "\x7b" ++ ",".intercalate (memberTexts ms) ++ "\x7d"
def texts : List Json → List String
  | [] => []
  | x :: xs => x.text :: texts xs
def memberTexts : List (String × Json) → List String
  | [] => []
  | (k, v) :: ms => (stringText k ++ ":" ++ v.text) :: memberTexts ms
end

/-- what a message calls the value -/
def kind : Json → String
  | .null => "null"
  | .bool _ => "a boolean"
  | .int _ => "a number"
  | .float _ => "a number"
  | .string _ => "a string"
  | .array _ => "an array"
  | .object _ => "an object"

end Json
end ParamSchema
