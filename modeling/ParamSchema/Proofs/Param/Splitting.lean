import ParamSchema.Proofs.Param.Lexing

/-!
# How a text splits into tokens

`Splits cs ts` says that the text `cs` consists of blanks, comments and the tokens `ts`.  The lexer
accepts exactly the texts that split, and finds those tokens (`exists_lex_iff`).
-/

namespace ParamSchema

/-! ## quotes -/

/-- the rest of a literal in quotes: up to the first quote that no backslash takes; only between
double quotes do backslashes take anything -/
inductive ClosedBy (q : Char) : List Char → Prop
  | quote : ClosedBy q [q]
  | plain {c : Char} {cs : List Char} :
      c ≠ q → ¬ (c = '\\' ∧ q = '"') → ClosedBy q cs → ClosedBy q (c :: cs)
  | escaped {d : Char} {cs : List Char} : q = '"' → ClosedBy q cs → ClosedBy q ('\\' :: d :: cs)

theorem takeQuoted_of_closedBy {q : Char} {ws : List Char} (cs : List Char) (h : ClosedBy q ws) :
    takeQuoted q (ws ++ cs) = some (ws, cs) := by
  induction h with
  | quote =>
    rw [List.cons_append, takeQuoted.eq_def]
    exact if_pos rfl
  | @plain c ws hne hesc _ ih =>
    have hesc : ¬ (decide (c = '\\') && decide (q = '"')) = true := by simpa using hesc
    rw [List.cons_append, takeQuoted.eq_def]
    simp only [if_neg hne, if_neg hesc, ih, Option.map_some]
  | @escaped d ws hq _ ih =>
    subst hq
    have hne : ¬ '\\' = '"' := by decide
    rw [List.cons_append, List.cons_append, takeQuoted, if_neg hne, if_pos (by decide), ih]
    rfl

theorem closedBy_of_takeQuoted {q : Char} {cs ws rest : List Char}
    (h : takeQuoted q cs = some (ws, rest)) : ClosedBy q ws := by
  fun_induction takeQuoted q cs generalizing ws rest with
  | case1 => cases h
  | case2 cs =>
    obtain ⟨rfl, _⟩ := Prod.mk.inj (Option.some.inj h)
    exact .quote
  | case3 => cases h
  | case4 c hc hesc d cs ih =>
    obtain ⟨⟨us, r⟩, hu, he⟩ := Option.map_eq_some_iff.1 h
    obtain ⟨rfl, _⟩ := Prod.mk.inj he
    simp only [Bool.and_eq_true, decide_eq_true_eq] at hesc
    obtain ⟨rfl, hq⟩ := hesc
    exact .escaped hq (ih hu)
  | case5 c cs hc hesc ih =>
    obtain ⟨⟨us, r⟩, hu, he⟩ := Option.map_eq_some_iff.1 h
    obtain ⟨rfl, _⟩ := Prod.mk.inj he
    simp only [Bool.and_eq_true, decide_eq_true_eq] at hesc
    exact .plain hc hesc (ih hu)

/-! ## texts -/

/-- the text consists of blanks, comments and these tokens -/
inductive Splits : List Char → List Token → Prop
  | nil : Splits [] []
  | blank {c : Char} {cs : List Char} {ts : List Token} :
      isBlank c = true → Splits cs ts → Splits (c :: cs) ts
  | comment {ws cs : List Char} {ts : List Token} :
      IsComment ws → (∀ c ∈ cs.head?, c = '\n') → Splits cs ts → Splits (ws ++ cs) ts
  | punctuation {c : Char} {t : Token} {cs : List Char} {ts : List Token} :
      punctuation? c = some t → Splits cs ts → Splits (c :: cs) (t :: ts)
  | quoted {q : Char} {ws cs : List Char} {ts : List Token} :
      isQuote q = true → ClosedBy q ws → Splits cs ts →
        Splits (q :: ws ++ cs) (.quoted (String.ofList (q :: ws)) :: ts)
  | word {ws cs : List Char} {ts : List Token} :
      IsRun ws cs → ws.head? ≠ some '@' → Splits cs ts →
        Splits (ws ++ cs) (.word (String.ofList ws) :: ts)

theorem Splits.lexes {cs : List Char} {ts : List Token} (h : Splits cs ts) : Lexes cs ts := by
  induction h with
  | nil => exact .nil
  | blank hc _ ih => exact ih.blank hc
  | comment hws hcs _ ih => exact ih.comment hws hcs
  | punctuation hc _ ih => exact ih.punctuation hc
  | @quoted q ws cs ts hq hws _ ih =>
    have htake := takeQuoted_of_closedBy [] hws
    rw [List.append_nil] at htake
    exact ih.quoted ⟨q, ws, hq, rfl, htake⟩
  | word hws hat _ ih => exact ih.run hws hat

/-- the tokens of a text from the first of them on -/
theorem splits_of_map_cons {r : Located (List Spanned × Position)} {s : Spanned}
    {sp : List Spanned} {stop : Position} {cs : List Char}
    (h : (r.map fun (ts, stop) => (s :: ts, stop)) = .ok (sp, stop))
    (ih : ∀ {sp stop}, r = .ok (sp, stop) → Splits cs (sp.map Spanned.token)) :
    ∃ ts, sp.map Spanned.token = s.token :: ts ∧ Splits cs ts := by
  obtain ⟨⟨us, e⟩, hus, he⟩ := map_eq_ok.1 h
  obtain ⟨rfl, rfl⟩ := Prod.mk.inj he
  exact ⟨_, List.map_cons, ih hus⟩

theorem splits_of_lex {p : Position} {cs : List Char} {sp : List Spanned} {stop : Position}
    (h : lex p cs = .ok (sp, stop)) : Splits cs (sp.map Spanned.token) := by
  fun_induction lex p cs generalizing sp stop with
  | case1 p =>
    obtain ⟨rfl, rfl⟩ := Prod.mk.inj (Except.ok.inj h)
    exact .nil
  | case2 p c rest hblank ih => exact .blank hblank (ih h)
  | case3 => cases h
  | case4 p c rest hblank hcomment hplain ih =>
    have hws := isComment_takeComment hcomment hplain
    have hsplit := Splits.comment hws (head?_takeComment _) (ih h)
    rwa [takeComment_append] at hsplit
  | case5 p c rest hblank hcomment t ht ih =>
    obtain ⟨ts, hts, hrest⟩ := splits_of_map_cons h ih
    rw [hts]
    exact .punctuation ht hrest
  | case6 => cases h
  | case7 p c rest hblank hcomment hpunctuation hquote ws after htake ih =>
    obtain ⟨ts, hts, hrest⟩ := splits_of_map_cons h ih
    have hsplit := Splits.quoted hquote (closedBy_of_takeQuoted htake) hrest
    rw [hts]
    rwa [List.cons_append, takeQuoted_append htake] at hsplit
  | case8 => cases h
  | case9 p c rest hblank hcomment hpunctuation hquote hat ih =>
    obtain ⟨ts, hts, hrest⟩ := splits_of_map_cons h ih
    have hword := isWord_takeWord hblank hcomment hpunctuation hquote hat
    have hsplit := Splits.word (isRun_of_takeWord rfl hword.1) hword.2.1 hrest
    rw [hts]
    rwa [takeWord_append] at hsplit

/-- the lexer accepts what splits into tokens, and finds those tokens -/
theorem exists_lex_iff {p : Position} {cs : List Char} {ts : List Token} :
    (∃ sp stop, lex p cs = .ok (sp, stop) ∧ sp.map Spanned.token = ts) ↔ Splits cs ts := by
  constructor
  · rintro ⟨sp, stop, hlex, rfl⟩
    exact splits_of_lex hlex
  · exact fun h => h.lexes p

end ParamSchema
