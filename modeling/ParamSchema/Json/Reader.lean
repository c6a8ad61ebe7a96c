import ParamSchema.Json.Number
import ParamSchema.Scalar.Decode

/-!
# Reading JSON

`Json.read` takes one value and the blanks around it.  A member that is named again keeps its place
and takes the new value; at most 127 containers may be open at a time.

The first argument of the readers bounds the depth of calls; a text is never longer than it has to
be.  What fails says only whether the text is malformed or ends too early (`JsonFault`).
-/

namespace ParamSchema
namespace Json

def isSpace (c : Char) : Bool := c = ' ' || c = '\n' || c = '\t' || c = '\r'

def skipSpace (cs : List Char) : List Char := cs.dropWhile isSpace

/-! ## strings -/

/-- Four hexadecimal digits.  A text too short for four bytes has ended early. -/
def readHex4 (cs : List Char) : Reading (Nat × List Char) :=
  let ds := cs.take 4
  if ds.length = 4 && ds.all isHexDigit then .ok (ofHexDigits ds, cs.drop 4)
  else if (String.ofList cs).utf8ByteSize < 4 then .error .endedEarly
  else .error .malformed

def isHighSurrogate (n : Nat) : Bool := 0xD800 ≤ n && n ≤ 0xDBFF

def isLowSurrogate (n : Nat) : Bool := 0xDC00 ≤ n && n ≤ 0xDFFF

/-- after `\u`; surrogates come in pairs -/
def readUnicode (cs : List Char) : Reading (Char × List Char) := do
  let (n, rest) ← readHex4 cs
  if isLowSurrogate n then .error .malformed
  else if isHighSurrogate n then
    match rest with
    | [] => .error .endedEarly
    | ['\\'] => .error .endedEarly
    | '\\' :: 'u' :: rest => do
      let (m, rest) ← readHex4 rest
      if isLowSurrogate m then
        .ok (Char.ofNat (0x10000 + (n - 0xD800) * 0x400 + (m - 0xDC00)), rest)
      else .error .malformed
    | _ => .error .malformed
  else .ok (Char.ofNat n, rest)

/-- after a backslash -/
def readEscape (cs : List Char) : Reading (Char × List Char) :=
  match cs with
  | [] => .error .endedEarly
  | c :: rest =>
    match c with
    | '"' => .ok ('"', rest)
    | '\\' => .ok ('\\', rest)
    | '/' => .ok ('/', rest)
    | 'b' => .ok ('\x08', rest)
    | 'f' => .ok ('\x0c', rest)
    | 'n' => .ok ('\n', rest)
    | 'r' => .ok ('\r', rest)
    | 't' => .ok ('\t', rest)
    | 'u' => readUnicode rest
    | _ => .error .malformed

/-- after the opening quote -/
def readChars (fuel : Nat) (cs : List Char) : Reading (List Char × List Char) :=
  match fuel, cs with
  | 0, _ => .error .endedEarly
  | _ + 1, [] => .error .endedEarly
  | fuel + 1, c :: rest =>
    if c = '"' then .ok ([], rest)
    else if c = '\\' then do
      let (d, rest) ← readEscape rest
      let (ds, rest) ← readChars fuel rest
      .ok (d :: ds, rest)
    else if c.toNat < 0x20 then .error .malformed
    else do
      let (ds, rest) ← readChars fuel rest
      .ok (c :: ds, rest)

/-! ## values -/

/-- the letters of a word after its first -/
def readWord (j : Json) : List Char → List Char → Reading (Json × List Char)
  | [], cs => .ok (j, cs)
  | _ :: _, [] => .error .endedEarly
  | w :: ws, c :: cs => if c = w then readWord j ws cs else .error .malformed

mutual

def readValue (fuel depth : Nat) (cs : List Char) : Reading (Json × List Char) :=
  match fuel, skipSpace cs with
  | 0, _ => .error .endedEarly
  | _ + 1, [] => .error .endedEarly
  | fuel + 1, c :: rest =>
    match c with
    | 'n' => readWord .null ['u', 'l', 'l'] rest
    | 't' => readWord (.bool true) ['r', 'u', 'e'] rest
    | 'f' => readWord (.bool false) ['a', 'l', 's', 'e'] rest
    | '-' => readNumber true rest
    | '"' => do
      let (s, rest) ← readChars fuel rest
      .ok (.string (String.ofList s), rest)
    | '[' =>
      match depth with
      | 0 => .error .malformed
      | depth + 1 => readElements fuel depth rest
    | '{' =>
      match depth with
      | 0 => .error .malformed
      | depth + 1 => readMembers fuel depth [] rest
    | c => if c.isDigit then readNumber false (c :: rest) else .error .malformed

/-- after an opening bracket -/
def readElements (fuel depth : Nat) (cs : List Char) : Reading (Json × List Char) :=
  match fuel, skipSpace cs with
  | 0, _ => .error .endedEarly
  | _ + 1, [] => .error .endedEarly
  | _ + 1, ']' :: rest => .ok (.array [], rest)
  | fuel + 1, cs => do
    let (x, rest) ← readValue fuel depth cs
    let (xs, rest) ← readMoreElements fuel depth rest
    .ok (.array (x :: xs), rest)

/-- after an element -/
def readMoreElements (fuel depth : Nat) (cs : List Char) : Reading (List Json × List Char) :=
  match fuel, skipSpace cs with
  | 0, _ => .error .endedEarly
  | _ + 1, [] => .error .endedEarly
  | _ + 1, ']' :: rest => .ok ([], rest)
  | fuel + 1, ',' :: rest =>
    match skipSpace rest with
    | [] => .error .endedEarly
    | ']' :: _ => .error .malformed
    | rest => do
      let (x, rest) ← readValue fuel depth rest
      let (xs, rest) ← readMoreElements fuel depth rest
      .ok (x :: xs, rest)
  | _ + 1, _ => .error .malformed

/-- after an opening brace or, with members in `ms`, after a member -/
def readMembers (fuel depth : Nat) (ms : Entries Json) (cs : List Char) :
    Reading (Json × List Char) :=
  match fuel, skipSpace cs with
  | 0, _ => .error .endedEarly
  | _ + 1, [] => .error .endedEarly
  | _ + 1, '}' :: rest => .ok (.object ms, rest)
  | fuel + 1, c :: rest =>
    if ms.isEmpty then readMember fuel depth ms (c :: rest)
    else if c = ',' then
      match skipSpace rest with
      | [] => .error .endedEarly
      | rest => readMember fuel depth ms rest
    else .error .malformed

/-- a member, from its quote on, and those after it -/
def readMember (fuel depth : Nat) (ms : Entries Json) (cs : List Char) :
    Reading (Json × List Char) :=
  match fuel, cs with
  | 0, _ => .error .endedEarly
  | fuel + 1, '"' :: rest => do
    let (k, rest) ← readChars fuel rest
    match skipSpace rest with
    | [] => .error .endedEarly
    | ':' :: rest => do
      let (v, rest) ← readValue fuel depth rest
      readMembers fuel depth (ms.insert (String.ofList k) v) rest
    | _ => .error .malformed
  | _ + 1, _ => .error .malformed

end

/-- how many containers may be open at a time -/
def depthLimit : Nat := 127

def readAll (cs : List Char) : Reading Json := do
  let (j, rest) ← readValue (3 * cs.length + 3) depthLimit cs
  if (skipSpace rest).isEmpty then .ok j else .error .malformed

def read (text : String) : Reading Json := readAll text.toList

end Json
end ParamSchema
