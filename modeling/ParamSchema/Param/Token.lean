import ParamSchema.Text.Blank

/-!
# Tokens of a document

`lex` cuts a text into tokens and their positions.  Blanks and comments (from `#` or `//` to the
end of the line) separate tokens and are dropped; a literal in quotes is one token, quotes and
escapes kept; everything else up to the next blank, quote, `#`, `//` or punctuation is a word.

Two things are refused as soon as they are met: a comment that starts with `#include`, and a token
that starts with `@`.  Both would ask for text from elsewhere.

Every step takes at least one character, so the rest of the text is the measure.  For a word that is
because what starts no other token starts a word (`takeWord_of_start`).
-/

namespace ParamSchema

/-! ## positions -/

/-- line and column of a character, both from `1` -/
structure Position where
  line : Nat
  column : Nat
deriving DecidableEq

namespace Position

def start : Position := ⟨1, 1⟩

def step (p : Position) (c : Char) : Position :=
  if c = '\n' then ⟨p.line + 1, 1⟩ else ⟨p.line, p.column + 1⟩

def advance (p : Position) (cs : List Char) : Position := cs.foldl step p

theorem advance_nil (p : Position) : p.advance [] = p := rfl
theorem advance_cons (p : Position) (c : Char) (cs : List Char) :
    p.advance (c :: cs) = (p.step c).advance cs := rfl
theorem advance_append (p : Position) (as bs : List Char) :
    p.advance (as ++ bs) = (p.advance as).advance bs := List.foldl_append

end Position

/-! ## tokens -/

inductive Token where
  | word (text : String)
  /-- a literal in quotes, as written -/
  | quoted (text : String)
  | colon
  | comma
  | openBracket
  | closeBracket
  | openBrace
  | closeBrace
deriving DecidableEq

structure Spanned where
  token : Token
  position : Position
deriving DecidableEq

/-- why a text is no document -/
inductive ReadFault where
  | includeDirective
  | reference
  | unterminatedString
  | expectedName
  | invalidName (key : String)
  | expectedColon
  | expectedValue
  | valueMissing
  | sequenceOpen
  | expectedSeparator
  | tableOpen
  | notATable (name rest : String)
deriving DecidableEq

def ReadFault.message : ReadFault → String
  | .includeDirective => "#include directives are not supported"
  | .reference => "'@' references are not supported"
  | .unterminatedString => "unterminated string"
  | .expectedName => "expected a parameter name"
  | .invalidName key => "'" ++ key ++ "' is not a valid parameter name"
  | .expectedColon => "expected ':' after parameter name"
  | .expectedValue => "expected a value"
  | .valueMissing => "expected a value, found end of input"
  | .sequenceOpen => "unterminated sequence, found end of input"
  | .expectedSeparator => "expected ',' or ']'"
  | .tableOpen => "unterminated table, expected '\x7d'"
  | .notATable name rest => "'" ++ name ++ "' is not a table and cannot hold '" ++ rest ++ "'"

/-! ## character classes -/

def isQuote (c : Char) : Bool := c = '"' || c = '\''

def punctuation? (c : Char) : Option Token :=
  match c with
  | ':' => some .colon
  | ',' => some .comma
  | '[' => some .openBracket
  | ']' => some .closeBracket
  | '{' => some .openBrace
  | '}' => some .closeBrace
  | _ => none

/-- characters that end a word wherever they stand -/
def endsWord (c : Char) : Bool := isBlank c || (punctuation? c).isSome || isQuote c || c = '#'

def startsSlashes (cs : List Char) : Bool := cs.take 2 = ['/', '/']

def startsComment (cs : List Char) : Bool := cs.head? = some '#' || startsSlashes cs

/-! ## pieces -/

/-- the characters of a word, and what follows it -/
def takeWord : List Char → List Char × List Char
  | [] => ([], [])
  | c :: cs =>
    if endsWord c || startsSlashes (c :: cs) then ([], c :: cs)
    else (c :: (takeWord cs).1, (takeWord cs).2)

/-- The rest of a quoted literal, its closing quote included, and what follows it.  A backslash
between double quotes takes the next character with it. -/
def takeQuoted (quote : Char) : List Char → Option (List Char × List Char)
  | [] => none
  | c :: cs =>
    if c = quote then some ([c], cs)
    else if c = '\\' && quote = '"' then
      match cs with
      | [] => none
      | d :: ds => (takeQuoted quote ds).map fun (ws, rest) => (c :: d :: ws, rest)
    else (takeQuoted quote cs).map fun (ws, rest) => (c :: ws, rest)

def takeComment (cs : List Char) : List Char × List Char :=
  (cs.takeWhile (· ≠ '\n'), cs.dropWhile (· ≠ '\n'))

theorem takeWord_append (cs : List Char) : (takeWord cs).1 ++ (takeWord cs).2 = cs := by
  induction cs with
  | nil => rfl
  | cons c cs ih => rw [takeWord]; split <;> simp [ih]

theorem takeQuoted_append {quote : Char} {cs ws rest : List Char}
    (h : takeQuoted quote cs = some (ws, rest)) : ws ++ rest = cs := by
  fun_induction takeQuoted quote cs generalizing ws rest with
  | case1 => simp at h
  | case2 =>
    simp only [Option.some.injEq, Prod.mk.injEq] at h
    simp [← h.1, ← h.2]
  | case3 => simp at h
  | case4 _ _ _ _ _ ih =>
    obtain ⟨⟨us, r⟩, hu, he⟩ := Option.map_eq_some_iff.1 h
    simp only [Prod.mk.injEq] at he
    simp [← he.1, ← he.2, ih hu]
  | case5 _ _ _ _ ih =>
    obtain ⟨⟨us, r⟩, hu, he⟩ := Option.map_eq_some_iff.1 h
    simp only [Prod.mk.injEq] at he
    simp [← he.1, ← he.2, ih hu]

theorem takeComment_append (cs : List Char) : (takeComment cs).1 ++ (takeComment cs).2 = cs :=
  List.takeWhile_append_dropWhile

theorem length_takeQuoted_le {quote : Char} {cs ws rest : List Char}
    (h : takeQuoted quote cs = some (ws, rest)) : rest.length ≤ cs.length := by
  have h := congrArg List.length (takeQuoted_append h)
  rw [List.length_append] at h
  omega

theorem length_takeComment_lt {c : Char} {cs : List Char} (h : startsComment (c :: cs) = true) :
    (takeComment (c :: cs)).2.length < (c :: cs).length := by
  have hc : c ≠ '\n' := by
    rintro rfl
    simp [startsComment, startsSlashes] at h
  rw [takeComment, List.dropWhile_cons_of_pos (by simpa using hc)]
  exact Nat.lt_succ_of_le (List.dropWhile_suffix _).length_le

theorem takeWord_of_endsWord {c : Char} {cs : List Char}
    (h : (endsWord c || startsSlashes (c :: cs)) = true) : takeWord (c :: cs) = ([], c :: cs) := by
  rw [takeWord, if_pos h]

theorem takeWord_of_not_endsWord {c : Char} {cs : List Char}
    (h : ¬ (endsWord c || startsSlashes (c :: cs)) = true) :
    takeWord (c :: cs) = (c :: (takeWord cs).1, (takeWord cs).2) := by
  rw [takeWord, if_neg h]

/-- what starts no other token starts a word -/
theorem takeWord_of_start {c : Char} {rest : List Char} (hblank : ¬ isBlank c = true)
    (hcomment : ¬ startsComment (c :: rest) = true) (hpunctuation : punctuation? c = none)
    (hquote : ¬ isQuote c = true) :
    takeWord (c :: rest) = (c :: (takeWord rest).1, (takeWord rest).2) := by
  rw [Bool.not_eq_true] at hblank hquote
  simp only [startsComment, Bool.or_eq_true, not_or, List.head?_cons, decide_eq_true_eq,
    Option.some.injEq, Bool.not_eq_true] at hcomment
  have hc : endsWord c = false := by
    rw [endsWord, hblank, hpunctuation, hquote]
    simpa using hcomment.1
  refine takeWord_of_not_endsWord ?_
  rw [hc, hcomment.2]
  decide

theorem length_takeWord_lt {c : Char} {rest : List Char} (hblank : ¬ isBlank c = true)
    (hcomment : ¬ startsComment (c :: rest) = true) (hpunctuation : punctuation? c = none)
    (hquote : ¬ isQuote c = true) :
    (takeWord (c :: rest)).2.length < (c :: rest).length := by
  have h := congrArg List.length (takeWord_append rest)
  rw [List.length_append] at h
  rw [takeWord_of_start hblank hcomment hpunctuation hquote]
  show (takeWord rest).2.length < rest.length + 1
  omega

/-! ## the lexer -/

abbrev Located (α : Type) := Except (ReadFault × Position) α

/-- the tokens of a text that starts at `p`, and the position of its end -/
def lex (p : Position) (cs : List Char) : Located (List Spanned × Position) :=
  match cs with
  | [] => .ok ([], p)
  | c :: rest =>
    if _hblank : isBlank c then lex (p.step c) rest
    else if _hcomment : startsComment (c :: rest) then
      if "#include".toList.isPrefixOf (takeComment (c :: rest)).1 then .error (.includeDirective, p)
      else lex (p.advance (takeComment (c :: rest)).1) (takeComment (c :: rest)).2
    else match _hpunctuation : punctuation? c with
      | some t => (lex (p.step c) rest).map fun (ts, stop) => (⟨t, p⟩ :: ts, stop)
      | none =>
        if _hquote : isQuote c then
          match _hquoted : takeQuoted c rest with
          | none => .error (.unterminatedString, p)
          | some (ws, after) =>
            (lex ((p.step c).advance ws) after).map fun (ts, stop) =>
              (⟨.quoted (String.ofList (c :: ws)), p⟩ :: ts, stop)
        else if c = '@' then .error (.reference, p)
        else
          (lex (p.advance (takeWord (c :: rest)).1) (takeWord (c :: rest)).2).map fun (ts, stop) =>
            (⟨.word (String.ofList (takeWord (c :: rest)).1), p⟩ :: ts, stop)
termination_by cs.length
decreasing_by
  · simp
  · exact length_takeComment_lt _hcomment
  · simp
  · exact Nat.lt_succ_of_le (length_takeQuoted_le _hquoted)
  · exact length_takeWord_lt _hblank _hcomment _hpunctuation _hquote

end ParamSchema
