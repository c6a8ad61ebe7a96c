import Mathlib.Data.List.DropRight
import ParamSchema.Proofs.Param.Splitting

/-!
# Where tokens stand

The lexer counts lines and columns as it goes.  What it has counted at any time is the position of
the offset that it has reached (`positionAt`): the line feeds before it, and the characters since
the last of them.  So the tokens it finds are given the positions of their first characters, and a
text it refuses is refused at the position of what is refused (`exact_lex`).

* `Marks`     a text as blanks, comments and tokens with their offsets, up to an offset;
* `Refused`   what the lexer refuses as soon as it meets it.
-/

namespace ParamSchema

/-! ## positions -/

/-- one more than the line feeds before the offset -/
def lineAt (cs : List Char) (o : Nat) : Nat := 1 + (cs.take o).count '\n'

/-- one more than the characters between the last line feed before the offset and the offset -/
def columnAt (cs : List Char) (o : Nat) : Nat := 1 + ((cs.take o).rtakeWhile (· ≠ '\n')).length

def positionAt (cs : List Char) (o : Nat) : Position := ⟨lineAt cs o, columnAt cs o⟩

theorem lineAt_le (cs : List Char) (o : Nat) : lineAt cs o ≤ cs.length + 1 := by
  have hcount : (cs.take o).count '\n' ≤ (cs.take o).length := List.count_le_length
  have htake : (cs.take o).length ≤ cs.length := List.length_take_le' o cs
  rw [lineAt]
  omega

theorem columnAt_le (cs : List Char) (o : Nat) : columnAt cs o ≤ cs.length + 1 := by
  have hsuffix := (List.rtakeWhile_suffix (· ≠ '\n') (cs.take o)).length_le
  have htake : (cs.take o).length ≤ cs.length := List.length_take_le' o cs
  rw [columnAt]
  omega

/-- the counters of the lexer behind a text -/
theorem advance_start (as : List Char) :
    Position.start.advance as
      = ⟨1 + as.count '\n', 1 + (as.rtakeWhile (· ≠ '\n')).length⟩ := by
  induction as using List.reverseRecOn with
  | nil => rfl
  | append_singleton as c ih =>
    rw [Position.advance_append, ih, Position.advance_cons, Position.advance_nil, Position.step]
    by_cases hc : c = '\n'
    · subst hc
      simp [List.rtakeWhile_concat_neg, Nat.add_assoc]
    · simp [hc, List.rtakeWhile_concat_pos, Nat.add_comm]

/-- the lexer has counted up to the offset `o` of the text, where `cs` is left -/
structure Counted (text : List Char) (p : Position) (o : Nat) (cs : List Char) : Prop where
  position : p = positionAt text o
  split : ∃ before, text = before ++ cs ∧ before.length = o

namespace Counted

variable {text ws cs : List Char} {p : Position} {o : Nat}

theorem start (text : List Char) : Counted text .start 0 text := ⟨rfl, [], rfl, rfl⟩

/-- a piece of text moves the counters to its end -/
theorem advance (h : Counted text p o (ws ++ cs)) :
    Counted text (p.advance ws) (o + ws.length) cs := by
  obtain ⟨rfl, before, rfl, rfl⟩ := h
  have hat : ∀ as bs, positionAt (as ++ bs) as.length = Position.start.advance as := by
    intro as bs
    rw [positionAt, lineAt, columnAt, List.take_left, advance_start]
  refine ⟨?_, before ++ ws, (List.append_assoc _ _ _).symm, List.length_append⟩
  rw [hat, ← Position.advance_append, ← List.append_assoc, ← List.length_append, hat]

theorem step {c : Char} (h : Counted text p o (c :: cs)) :
    Counted text (p.step c) (o + 1) cs := by
  have hsingle : Counted text p o ([c] ++ cs) := h
  exact hsingle.advance

theorem length_eq (h : Counted text p o []) : o = text.length := by
  obtain ⟨_, before, rfl, rfl⟩ := h
  rw [List.append_nil]

end Counted

/-! ## tokens and their offsets -/

/-- a token, and the offset of its first character -/
structure Mark where
  token : Token
  offset : Nat

def Mark.spanned (text : List Char) (m : Mark) : Spanned := ⟨m.token, positionAt text m.offset⟩

/-- From the offset `o` on the text consists of blanks, comments and these tokens, up to the offset
`e` where `rest` is left. -/
inductive Marks : Nat → List Char → List Mark → Nat → List Char → Prop
  | stop {o : Nat} {cs : List Char} : Marks o cs [] o cs
  | blank {o e : Nat} {c : Char} {cs rest : List Char} {ms : List Mark} :
      isBlank c = true → Marks (o + 1) cs ms e rest → Marks o (c :: cs) ms e rest
  | comment {o e : Nat} {ws cs rest : List Char} {ms : List Mark} :
      IsComment ws → (∀ c ∈ cs.head?, c = '\n') → Marks (o + ws.length) cs ms e rest →
        Marks o (ws ++ cs) ms e rest
  | punctuation {o e : Nat} {c : Char} {t : Token} {cs rest : List Char} {ms : List Mark} :
      punctuation? c = some t → Marks (o + 1) cs ms e rest →
        Marks o (c :: cs) (⟨t, o⟩ :: ms) e rest
  | quoted {o e : Nat} {q : Char} {ws cs rest : List Char} {ms : List Mark} :
      isQuote q = true → ClosedBy q ws → Marks (o + (q :: ws).length) cs ms e rest →
        Marks o (q :: ws ++ cs) (⟨.quoted (String.ofList (q :: ws)), o⟩ :: ms) e rest
  | word {o e : Nat} {ws cs rest : List Char} {ms : List Mark} :
      IsRun ws cs → ws.head? ≠ some '@' → Marks (o + ws.length) cs ms e rest →
        Marks o (ws ++ cs) (⟨.word (String.ofList ws), o⟩ :: ms) e rest

/-- the text starts with what no text may hold: a directive, a reference, a quote that nothing
closes -/
def Refused (f : ReadFault) (cs : List Char) : Prop :=
  match f with
  | .includeDirective => "#include".toList <+: cs
  | .reference => ['@'] <+: cs
  | .unterminatedString =>
    ∃ q body, isQuote q = true ∧ cs = q :: body ∧ ∀ ws, ClosedBy q ws → ¬ ws <+: body
  | _ => False

/-- the outcome of the lexer at an offset of a text: its tokens, or what is refused, with their
positions -/
def Exact (text : List Char) (o : Nat) (cs : List Char) :
    Located (List Spanned × Position) → Prop
  | .ok (sp, stop) => ∃ ms, Marks o cs ms text.length [] ∧ sp = ms.map (Mark.spanned text)
      ∧ stop = positionAt text text.length
  | .error (f, p) => ∃ ms e rest, Marks o cs ms e rest ∧ Refused f rest ∧ p = positionAt text e

namespace Exact

variable {text cs cs' : List Char} {o o' : Nat} {r : Located (List Spanned × Position)}

theorem skip (hmarks : ∀ {ms e rest}, Marks o' cs' ms e rest → Marks o cs ms e rest)
    (h : Exact text o' cs' r) : Exact text o cs r := by
  cases r with
  | ok out =>
    obtain ⟨ms, hms, hout⟩ := h
    exact ⟨ms, hmarks hms, hout⟩
  | error out =>
    obtain ⟨ms, e, rest, hms, hout⟩ := h
    exact ⟨ms, e, rest, hmarks hms, hout⟩

theorem token {m : Mark} {s : Spanned} (hs : s = m.spanned text)
    (hmarks : ∀ {ms e rest}, Marks o' cs' ms e rest → Marks o cs (m :: ms) e rest)
    (h : Exact text o' cs' r) :
    Exact text o cs (r.map fun (ts, stop) => (s :: ts, stop)) := by
  cases r with
  | ok out =>
    obtain ⟨ms, hms, hsp, hstop⟩ := h
    exact ⟨m :: ms, hmarks hms, by rw [hsp, hs, List.map_cons], hstop⟩
  | error out =>
    obtain ⟨ms, e, rest, hms, hout⟩ := h
    exact ⟨m :: ms, e, rest, hmarks hms, hout⟩

end Exact

/-- a quote with a literal behind it that nothing closes -/
theorem not_closedBy_of_takeQuoted {q : Char} {cs ws : List Char} (h : takeQuoted q cs = none)
    (hws : ClosedBy q ws) : ¬ ws <+: cs := by
  rintro ⟨rest, rfl⟩
  rw [takeQuoted_of_closedBy rest hws] at h
  cases h

/-- the lexer gives every token its position, and reports what it refuses at its own -/
theorem exact_lex {text cs : List Char} {p : Position} {o : Nat} (h : Counted text p o cs) :
    Exact text o cs (lex p cs) := by
  fun_induction lex p cs generalizing o with
  | case1 p =>
    obtain rfl := h.length_eq
    exact ⟨[], .stop, rfl, h.position⟩
  | case2 p c rest hblank ih =>
    exact .skip (.blank hblank) (ih h.step)
  | case3 p c rest hblank hcomment hinclude =>
    refine ⟨[], o, c :: rest, .stop, ?_, h.position⟩
    rw [List.isPrefixOf_iff_prefix] at hinclude
    exact hinclude.trans (List.takeWhile_prefix _)
  | case4 p c rest hblank hcomment hplain ih =>
    have hsplit := takeComment_append (c :: rest)
    rw [← hsplit] at h
    refine .skip (fun hms => ?_) (ih h.advance)
    have hmarks := Marks.comment (isComment_takeComment hcomment hplain) (head?_takeComment _) hms
    rwa [hsplit] at hmarks
  | case5 p c rest hblank hcomment t ht ih =>
    exact .token (m := ⟨t, o⟩) (congrArg _ h.position) (.punctuation ht) (ih h.step)
  | case6 p c rest hblank hcomment hpunctuation hquote htake =>
    refine ⟨[], o, c :: rest, .stop, ?_, h.position⟩
    exact ⟨c, rest, hquote, rfl, fun ws hws => not_closedBy_of_takeQuoted htake hws⟩
  | case7 p c rest hblank hcomment hpunctuation hquote ws after htake ih =>
    have hsplit : c :: ws ++ after = c :: rest := congrArg _ (takeQuoted_append htake)
    rw [← hsplit] at h
    refine .token (m := ⟨.quoted (String.ofList (c :: ws)), o⟩) (congrArg _ h.position)
      (fun hms => ?_) (ih h.advance)
    have hmarks := Marks.quoted hquote (closedBy_of_takeQuoted htake) hms
    rwa [hsplit] at hmarks
  | case8 p rest => exact ⟨[], o, '@' :: rest, .stop, List.prefix_append ['@'] rest, h.position⟩
  | case9 p c rest hblank hcomment hpunctuation hquote hat ih =>
    have hsplit := takeWord_append (c :: rest)
    have hword := isWord_takeWord hblank hcomment hpunctuation hquote hat
    rw [← hsplit] at h
    refine .token (m := ⟨.word (String.ofList (takeWord (c :: rest)).1), o⟩)
      (congrArg _ h.position) (fun hms => ?_) (ih h.advance)
    have hmarks := Marks.word (isRun_of_takeWord rfl hword.1) hword.2.1 hms
    rwa [hsplit] at hmarks

end ParamSchema
