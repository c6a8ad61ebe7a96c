import ParamSchema.Text.Blank

/-!
# Quoted literals

A literal in quotes stands for the text between them.  Between single quotes every character
stands for itself; between double quotes a backslash gives `n`, `t` and `r` their usual meaning and
makes any other character stand for itself.

* `quote`       the double-quoted literal of a text;
* `isQuoted`    a literal of at least two characters whose ends are the same quote;
* `unquote`     the text of a quoted literal.
-/

namespace ParamSchema

/-! ## writing -/

def escapeChar (c : Char) : List Char :=
  match c with
  | '"' => ['\\', '"']
  | '\\' => ['\\', '\\']
  | '\n' => ['\\', 'n']
  | '\t' => ['\\', 't']
  | '\r' => ['\\', 'r']
  | c => [c]

def escape (cs : List Char) : List Char := cs.flatMap escapeChar

theorem escape_cons (c : Char) (cs : List Char) : escape (c :: cs) = escapeChar c ++ escape cs :=
  rfl

def quoteChars (cs : List Char) : List Char := '"' :: (escape cs ++ ['"'])

def quote (s : String) : String := String.ofList (quoteChars s.toList)

/-! ## reading -/

/-- the character that a backslash and `c` stand for -/
def unescapeChar (c : Char) : Char :=
  match c with
  | 'n' => '\n'
  | 't' => '\t'
  | 'r' => '\r'
  | c => c

/-- a backslash at the very end stands for itself -/
def unescape : List Char → List Char
  | '\\' :: c :: cs => unescapeChar c :: unescape cs
  | c :: cs => c :: unescape cs
  | [] => []

theorem unescape_escapeChar (c : Char) (cs : List Char) :
    unescape (escapeChar c ++ cs) = c :: unescape cs := by
  unfold escapeChar
  split <;> simp [unescape, unescapeChar]
  rename_i h _ _ _
  rw [unescape]
  rintro _ _ rfl
  exact absurd rfl h

theorem unescape_escape (cs : List Char) : unescape (escape cs) = cs := by
  induction cs with
  | nil => rfl
  | cons c cs ih => rw [escape_cons, unescape_escapeChar, ih]

/-- the quote at both ends of a literal -/
def quoteOf? (cs : List Char) : Option Char :=
  match cs with
  | c :: rest => if (c = '"' || c = '\'') && rest.getLast? = some c then some c else none
  | [] => none

def isQuoted (s : String) : Bool := (quoteOf? s.toList).isSome

/-- what is left of a literal without its two ends -/
def inner (cs : List Char) : List Char := cs.tail.dropLast

def unquoteChars (cs : List Char) : List Char :=
  if cs.head? = some '\'' then inner cs else unescape (inner cs)

def unquote (s : String) : String := String.ofList (unquoteChars s.toList)

theorem quoteOf?_quoteChars (cs : List Char) : quoteOf? (quoteChars cs) = some '"' := by
  simp [quoteOf?, quoteChars]

theorem unquoteChars_quoteChars (cs : List Char) : unquoteChars (quoteChars cs) = cs := by
  simp [unquoteChars, quoteChars, inner, unescape_escape]

end ParamSchema
