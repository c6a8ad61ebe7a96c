import ParamSchema.Proofs.Scalar.Literal

/-!
# A literal in front of a text

The literal of a scalar stands in a document in front of blanks, commas, brackets, comments or the
end.  Whichever it is, the lexer cuts off the literal and nothing else, and lexes the rest as if it
stood alone (`lex_literal`).  A literal in quotes ends by itself, a word needs something to end it.

* `EndsWords`                what a word may stand in front of;
* `isRun_of_isPlain`         plain characters are one word in front of it;
* `lex_literal_and_decode`   a scalar of any type survives being written, lexed and decoded.
-/

namespace ParamSchema

/-- what a word may stand in front of: the end of the text, a blank, a quote, punctuation or a
comment -/
def EndsWords (cs : List Char) : Prop :=
  (∀ c ∈ cs.head?, endsWord c = true) ∨ ['/', '/'] <+: cs

/-- plain characters hold no slash, so no comment starts in them -/
theorem isRun_of_isPlain {ws cs : List Char} (hne : ws ≠ []) (hws : ∀ c ∈ ws, isPlain c = true)
    (hcs : EndsWords cs) : IsRun ws cs := by
  refine ⟨hne, fun c hc => (endsWord_of_isPlain (hws c hc)).1, ?_, hcs⟩
  intro us vs husvs hvs hslashes
  obtain ⟨c, vs, rfl⟩ := List.exists_cons_of_ne_nil hvs
  have hc : c ∈ ws := by
    rw [husvs]
    exact List.mem_append_right us List.mem_cons_self
  obtain ⟨rfl, _⟩ := List.cons_prefix_cons.1 hslashes
  exact (endsWord_of_isPlain (hws '/' hc)).2 rfl

namespace Scalar

/-- the one token of a literal -/
def token : Scalar → Token
  | .string text => .quoted (quote text)
  | s => .word s.literal

theorem token_of_ne_string {s : Scalar} (h : ∀ text, s ≠ .string text) :
    s.token = .word s.literal := by
  cases s with
  | string text => exact absurd rfl (h text)
  | _ => rfl

/-- the literal of a scalar is cut off as one token; the rest is lexed, or refused, as it stands -/
theorem lex_literal (s : Scalar) (p : Position) {cs : List Char} (hcs : EndsWords cs) :
    lex p (s.literal.toList ++ cs) = (lex (p.advance s.literal.toList) cs).map
      fun (ts, stop) => (⟨s.token, p⟩ :: ts, stop) := by
  by_cases hs : ∃ text, s = .string text
  · obtain ⟨text, rfl⟩ := hs
    have hquoted : IsQuoteLiteral (Scalar.string text).literal.toList := by
      rw [literal, quote, String.toList_ofList]
      exact isQuoteLiteral_quoteChars text.toList
    rw [lex_quoted hquoted, String.ofList_toList]
    rfl
  · have hword : ∀ text, s ≠ .string text := fun text h => hs ⟨text, h⟩
    obtain ⟨hne, hplain⟩ := isPlain_of_mem_literal hword
    have hat : s.literal.toList.head? ≠ some '@' := (isWord_literal hword).2.1
    rw [lex_run (isRun_of_isPlain hne hplain hcs) hat, String.ofList_toList,
      token_of_ne_string hword]

/-- **A scalar survives its literal.**  Whatever may end a word follows the literal of a scalar
that a type has: the lexer takes the literal for one token, a literal in quotes for strings and a
word for all others, goes on behind it as if the literal were not there, and the text of the token
decodes, for that type, to the scalar. -/
theorem lex_literal_and_decode {t : ScalarType} {s : Scalar} (hs : t.Holds s) (p : Position)
    {cs : List Char} (hcs : EndsWords cs) :
    (lex p (s.literal.toList ++ cs) = (lex (p.advance s.literal.toList) cs).map
      fun (ts, stop) => (⟨s.token, p⟩ :: ts, stop))
    ∧ s.token = (if t = .string then .quoted s.literal else .word s.literal)
    ∧ t.decode s.literal = .ok s := by
  refine ⟨s.lex_literal p hcs, ?_, decode_literal hs⟩
  by_cases ht : t = .string
  · subst ht
    cases s with
    | string text => rfl
    | _ => cases hs
  · rw [if_neg ht]
    refine token_of_ne_string fun text h => ht ?_
    subst h
    cases t with
    | string => rfl
    | _ => cases hs

/-- the least number of 64 bits, at the end of a sequence -/
theorem lex_literal_and_decode_least :
    (ScalarType.signed .w64).Holds (.int (-9223372036854775808))
    ∧ EndsWords [']']
    ∧ (lex .start ("-9223372036854775808".toList ++ [']'])
        = .ok ([⟨.word "-9223372036854775808", .start⟩, ⟨.closeBracket, ⟨1, 21⟩⟩], ⟨1, 22⟩))
    ∧ (ScalarType.signed .w64).decode "-9223372036854775808"
        = .ok (.int (-9223372036854775808)) := by
  have hholds : (ScalarType.signed .w64).Holds (.int (-9223372036854775808)) := by
    show Width.holdsSigned _ _ = true
    decide
  have hends : EndsWords [']'] := by
    refine .inl fun c hc => ?_
    obtain rfl := Option.some.inj hc
    decide
  have hrest : lex ⟨1, 21⟩ [']'] = .ok ([⟨.closeBracket, ⟨1, 21⟩⟩], ⟨1, 22⟩) := by
    rw [lex_punctuation (by decide) (by decide) rfl, lex_nil]
    rfl
  obtain ⟨hlex, _, hdecode⟩ := lex_literal_and_decode hholds .start hends
  exact ⟨hholds, hends, hlex.trans (congrArg _ hrest), hdecode⟩

end Scalar
end ParamSchema
