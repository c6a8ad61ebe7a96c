import ParamSchema.Key.Name
import ParamSchema.Param.Token
import ParamSchema.Proofs.Outcome

/-!
# Texts that lex piece by piece

Lexing forgets where it started: `Lexes cs ts` says that `cs` has the tokens `ts` wherever it
stands.  A piece of text is known by what it puts in front of any text that lexes (`Writes`), so
that the pieces of a printed line are joined by `Writes.append`.

* `IsRun`, `IsComment`  a word and a comment, with what may follow them;
* `IsLiteral`           the characters of one word, or of one literal in quotes;
* `lex_word` and its like   what the lexer does at the first character of a text;
* `Writes.literal`      a literal in front of a piece that ends words is one token;
* `Writes.comment`      a comment up to its line feed is no token;
* `isGenuine_of_lex`    every token that the lexer finds has a literal for its text.
-/

namespace ParamSchema

/-! ## words -/

theorem startsSlashes_iff {cs : List Char} : startsSlashes cs = true ↔ ['/', '/'] <+: cs := by
  rw [startsSlashes, decide_eq_true_eq, List.prefix_iff_eq_take]
  exact eq_comm

/-- `ws` is a word in front of `cs`: it goes on as long as it can, but not into a comment -/
structure IsRun (ws cs : List Char) : Prop where
  nonempty : ws ≠ []
  plain : ∀ c ∈ ws, endsWord c = false
  unbroken : ∀ us vs, ws = us ++ vs → vs ≠ [] → ¬ ['/', '/'] <+: vs ++ cs
  maximal : (∀ c ∈ cs.head?, endsWord c = true) ∨ ['/', '/'] <+: cs

theorem takeWord_eq_nil {cs : List Char}
    (h : (∀ c ∈ cs.head?, endsWord c = true) ∨ ['/', '/'] <+: cs) : takeWord cs = ([], cs) := by
  cases cs with
  | nil => rfl
  | cons c cs =>
    refine takeWord_of_endsWord ?_
    rw [Bool.or_eq_true, startsSlashes_iff]
    exact h.imp_left fun hc => hc c rfl

theorem takeWord_of_unbroken {ws cs : List Char} (hplain : ∀ c ∈ ws, endsWord c = false)
    (hunbroken : ∀ us vs, ws = us ++ vs → vs ≠ [] → ¬ ['/', '/'] <+: vs ++ cs)
    (hmaximal : (∀ c ∈ cs.head?, endsWord c = true) ∨ ['/', '/'] <+: cs) :
    takeWord (ws ++ cs) = (ws, cs) := by
  induction ws with
  | nil => exact takeWord_eq_nil hmaximal
  | cons c ws ih =>
    obtain ⟨hc, hplain⟩ := List.forall_mem_cons.1 hplain
    have hslashes : ¬ startsSlashes (c :: (ws ++ cs)) = true := by
      rw [startsSlashes_iff]
      exact hunbroken [] (c :: ws) rfl (List.cons_ne_nil c ws)
    have hrest := ih hplain fun us vs husvs =>
      hunbroken (c :: us) vs (by rw [husvs, List.cons_append])
    rw [List.cons_append, takeWord_of_not_endsWord (by simpa [hc] using hslashes), hrest]

theorem takeWord_plain (cs : List Char) : ∀ c ∈ (takeWord cs).1, endsWord c = false := by
  induction cs with
  | nil => exact List.forall_mem_nil _
  | cons c cs ih =>
    by_cases h : (endsWord c || startsSlashes (c :: cs)) = true
    · rw [takeWord_of_endsWord h]
      exact List.forall_mem_nil _
    · rw [takeWord_of_not_endsWord h]
      rw [Bool.or_eq_true, not_or, Bool.not_eq_true] at h
      exact List.forall_mem_cons.2 ⟨h.1, ih⟩

theorem takeWord_unbroken {cs us vs : List Char} (husvs : (takeWord cs).1 = us ++ vs)
    (hvs : vs ≠ []) : ¬ ['/', '/'] <+: vs ++ (takeWord cs).2 := by
  induction cs generalizing us with
  | nil => exact absurd (List.append_eq_nil_iff.1 husvs.symm).2 hvs
  | cons c cs ih =>
    by_cases h : (endsWord c || startsSlashes (c :: cs)) = true
    · rw [takeWord_of_endsWord h] at husvs
      exact absurd (List.append_eq_nil_iff.1 husvs.symm).2 hvs
    · rw [takeWord_of_not_endsWord h] at husvs ⊢
      cases us with
      | nil =>
        rw [Bool.or_eq_true, not_or, startsSlashes_iff] at h
        rw [List.nil_append] at husvs
        rw [← husvs, List.cons_append, takeWord_append]
        exact h.2
      | cons d us => exact ih (List.cons.inj husvs).2

theorem takeWord_maximal (cs : List Char) :
    (∀ c ∈ (takeWord cs).2.head?, endsWord c = true) ∨ ['/', '/'] <+: (takeWord cs).2 := by
  induction cs with
  | nil =>
    left
    intro c hc
    cases hc
  | cons c cs ih =>
    by_cases h : (endsWord c || startsSlashes (c :: cs)) = true
    · rw [takeWord_of_endsWord h]
      rw [Bool.or_eq_true, startsSlashes_iff] at h
      refine h.imp_left fun hc d hd => ?_
      obtain rfl := Option.some.inj hd
      exact hc
    · rw [takeWord_of_not_endsWord h]
      exact ih

/-- what is taken for a word goes on as long as it can -/
theorem isRun_of_takeWord {cs ws rest : List Char} (h : takeWord cs = (ws, rest))
    (hne : ws ≠ []) : IsRun ws rest := by
  obtain rfl : (takeWord cs).1 = ws := congrArg Prod.fst h
  obtain rfl : (takeWord cs).2 = rest := congrArg Prod.snd h
  exact ⟨hne, takeWord_plain cs, fun _ _ husvs hvs => takeWord_unbroken husvs hvs,
    takeWord_maximal cs⟩

/-- the characters of one word, and nothing else -/
def IsWord (cs : List Char) : Prop := cs ≠ [] ∧ cs.head? ≠ some '@' ∧ takeWord cs = (cs, [])

theorem startsSlashes_cons {c : Char} {cs : List Char} :
    startsSlashes (c :: cs) = true ↔ c = '/' ∧ cs.head? = some '/' := by
  cases cs <;> simp [startsSlashes]

theorem takeWord_cons_eq_self {c : Char} {cs : List Char} :
    takeWord (c :: cs) = (c :: cs, []) ↔
      endsWord c = false ∧ startsSlashes (c :: cs) = false ∧ takeWord cs = (cs, []) := by
  rw [takeWord]
  split
  · rename_i h
    simp only [Bool.or_eq_true] at h
    constructor
    · intro hw
      cases hw
    · intro h
      obtain ⟨he, hs, _⟩ := h
      rw [he, hs] at h
      simp at h
  · rename_i h
    simp only [Bool.or_eq_true, not_or, Bool.not_eq_true] at h
    simp [h.1, h.2, Prod.ext_iff]

/-- a word goes on to the next character that ends words -/
theorem IsWord.isRun {w : List Char} {d : Char} (cs : List Char) (hw : IsWord w)
    (hd : endsWord d = true) : IsRun w (d :: cs) := by
  obtain ⟨hne, _, htake⟩ := hw
  have halone : IsRun w [] := isRun_of_takeWord htake hne
  refine ⟨hne, halone.plain, fun us vs husvs hvs hslashes => ?_, .inl fun e he => ?_⟩
  · cases vs with
    | nil => exact hvs rfl
    | cons c vs =>
      refine halone.unbroken us (c :: vs) husvs hvs ?_
      rw [List.cons_append] at hslashes
      obtain ⟨rfl, hslash⟩ := List.cons_prefix_cons.1 hslashes
      cases vs with
      | nil =>
        obtain ⟨rfl, _⟩ := List.cons_prefix_cons.1 hslash
        exact absurd hd (by decide)
      | cons e vs =>
        obtain ⟨rfl, _⟩ := List.cons_prefix_cons.1 hslash
        exact List.prefix_append ['/', '/'] (vs ++ [])
  · obtain rfl := Option.some.inj he
    exact hd

/-- what is taken for a word is one -/
theorem takeWord_takeWord (cs : List Char) :
    takeWord (takeWord cs).1 = ((takeWord cs).1, []) := by
  induction cs with
  | nil => rfl
  | cons c cs ih =>
    rw [takeWord]
    split
    · rfl
    · rename_i h
      simp only [Bool.or_eq_true, not_or, Bool.not_eq_true] at h
      refine takeWord_cons_eq_self.2 ⟨h.1, ?_, ih⟩
      rw [Bool.eq_false_iff]
      intro hs
      obtain ⟨hslash, hhead⟩ := startsSlashes_cons.1 hs
      have hprefix : cs.head? = some '/' := by
        rw [← takeWord_append cs, List.head?_append, hhead]
        rfl
      rw [startsSlashes_cons.2 ⟨hslash, hprefix⟩] at h
      exact absurd h.2 (by decide)

theorem IsWord.plain {cs : List Char} (h : IsWord cs) : ∀ c ∈ cs, endsWord c = false :=
  (isRun_of_takeWord h.2.2 h.1).plain

/-- the characters that names and numbers are made of -/
def isPlain (c : Char) : Bool := isNameChar c || c = '.' || c = '-'

theorem toNat_of_isNameChar {c : Char} (h : isNameChar c = true) :
    (48 ≤ c.toNat ∧ c.toNat ≤ 57) ∨ (65 ≤ c.toNat ∧ c.toNat ≤ 90) ∨ c.toNat = 95
      ∨ (97 ≤ c.toNat ∧ c.toNat ≤ 122) := by
  simp only [isNameChar, isLetter, Char.isDigit, Bool.or_eq_true, Bool.and_eq_true,
    decide_eq_true_eq, Char.le_def, UInt32.le_iff_toNat_le, ge_iff_le] at h
  have hval : c.toNat = c.val.toNat := rfl
  rw [hval]
  rcases h with ((h | h) | rfl) | h
  · exact .inr (.inl h)
  · exact .inr (.inr (.inr h))
  · exact .inr (.inr (.inl rfl))
  · exact .inl h

theorem endsWord_of_isPlain {c : Char} (h : isPlain c = true) : endsWord c = false ∧ c ≠ '/' := by
  simp only [isPlain, Bool.or_eq_true, decide_eq_true_eq] at h
  rcases h with (h | rfl) | rfl
  · have hn := toNat_of_isNameChar h
    have hblank : isBlank c = false := by
      simp only [isBlank, Bool.or_eq_false_iff, Bool.and_eq_false_iff, decide_eq_false_iff_not,
        beq_eq_false_iff_ne]
      omega
    have hpunctuation : punctuation? c = none := by
      unfold punctuation?
      split <;> first | rfl | exact absurd h (by decide)
    refine ⟨?_, ?_⟩
    · rw [endsWord, hblank, hpunctuation, isQuote]
      simp only [Bool.or_eq_false_iff, decide_eq_false_iff_not]
      refine ⟨⟨⟨trivial, rfl⟩, ?_, ?_⟩, ?_⟩ <;> (rintro rfl; exact absurd h (by decide))
    · rintro rfl
      exact absurd h (by decide)
  · decide
  · decide

theorem isWord_of_forall {cs : List Char} (hne : cs ≠ []) (hat : cs.head? ≠ some '@')
    (h : ∀ c ∈ cs, endsWord c = false ∧ c ≠ '/') : IsWord cs := by
  refine ⟨hne, hat, ?_⟩
  clear hne hat
  induction cs with
  | nil => rfl
  | cons c cs ih =>
    have hc := h c List.mem_cons_self
    refine takeWord_cons_eq_self.2 ⟨hc.1, ?_, ih fun d hd => h d (List.mem_cons_of_mem c hd)⟩
    rw [Bool.eq_false_iff]
    intro hs
    exact hc.2 (startsSlashes_cons.1 hs).1

theorem isWord_of_isPlain {cs : List Char} (hne : cs ≠ []) (h : ∀ c ∈ cs, isPlain c = true) :
    IsWord cs := by
  refine isWord_of_forall hne ?_ fun c hc => endsWord_of_isPlain (h c hc)
  intro hat
  exact absurd (h '@' (List.mem_of_mem_head? hat)) (by decide)

theorem isWord_of_isIdentifierChars {cs : List Char} (h : isIdentifierChars cs = true) :
    IsWord cs := by
  cases cs with
  | nil => cases h
  | cons c cs =>
    simp only [isIdentifierChars, Bool.and_eq_true, List.all_eq_true] at h
    refine isWord_of_isPlain (List.cons_ne_nil c cs) fun d hd => ?_
    rcases List.mem_cons.1 hd with rfl | hd
    · simp [isPlain, isNameChar, h.1]
    · simp [isPlain, h.2 d hd]

/-! ## comments -/

/-- a comment up to the end of its line, and no directive -/
structure IsComment (ws : List Char) : Prop where
  starts : ['#'] <+: ws ∨ ['/', '/'] <+: ws
  line : '\n' ∉ ws
  plain : ¬ "#include".toList <+: ws

theorem IsComment.ne_nil {ws : List Char} (h : IsComment ws) : ws ≠ [] := by
  rintro rfl
  rcases h.starts with h | h <;> cases List.prefix_nil.1 h

theorem takeComment_of_isComment {ws cs : List Char} (hws : IsComment ws)
    (hcs : ∀ c ∈ cs.head?, c = '\n') : takeComment (ws ++ cs) = (ws, cs) := by
  have hall : ∀ c ∈ ws, decide (c ≠ '\n') = true := by
    intro c hc
    rw [decide_eq_true_eq]
    rintro rfl
    exact hws.line hc
  rw [takeComment, List.takeWhile_append_of_pos hall, List.dropWhile_append_of_pos hall]
  cases cs with
  | nil => rw [List.takeWhile_nil, List.dropWhile_nil, List.append_nil]
  | cons c cs =>
    obtain rfl := hcs c rfl
    simp

/-- the lexer takes comments to the end of their lines -/
theorem isComment_takeComment {cs : List Char} (hstart : startsComment cs = true)
    (hplain : ¬ "#include".toList.isPrefixOf (takeComment cs).1 = true) :
    IsComment (takeComment cs).1 := by
  refine ⟨?_, ?_, ?_⟩
  · rw [startsComment, Bool.or_eq_true, decide_eq_true_eq] at hstart
    rcases hstart with hhash | hslashes
    · obtain ⟨rest, rfl⟩ := List.head?_eq_some_iff.1 hhash
      left
      simp [takeComment]
    · obtain ⟨rest, rfl⟩ := startsSlashes_iff.1 hslashes
      right
      simp [takeComment]
  · intro hmem
    have hne := List.all_eq_true.1 List.all_takeWhile '\n' hmem
    exact of_decide_eq_true hne rfl
  · rw [← List.isPrefixOf_iff_prefix]
    exact hplain

theorem head?_takeComment (cs : List Char) : ∀ c ∈ (takeComment cs).2.head?, c = '\n' := by
  intro c hc
  have hstop := List.head?_dropWhile_not (fun c : Char => decide (c ≠ '\n')) cs
  rw [show (cs.dropWhile fun c => decide (c ≠ '\n')).head? = some c from hc] at hstop
  simpa using hstop

/-! ## literals in quotes -/

/-- the characters of one literal in quotes, and nothing else -/
def IsQuoteLiteral (cs : List Char) : Prop :=
  ∃ q body, isQuote q = true ∧ cs = q :: body ∧ takeQuoted q body = some (body, [])

/-- a literal in quotes ends at its quote, whatever follows -/
theorem takeQuoted_append_right {q : Char} {cs ws rest : List Char} (ds : List Char)
    (h : takeQuoted q cs = some (ws, rest)) : takeQuoted q (ws ++ ds) = some (ws, ds) := by
  fun_induction takeQuoted q cs generalizing ws rest with
  | case1 => cases h
  | case2 cs =>
    obtain ⟨rfl, _⟩ := Prod.mk.inj (Option.some.inj h)
    rw [List.cons_append, takeQuoted.eq_def]
    exact if_pos rfl
  | case3 => cases h
  | case4 c hc hesc d cs ih =>
    obtain ⟨⟨us, r⟩, hu, he⟩ := Option.map_eq_some_iff.1 h
    obtain ⟨rfl, _⟩ := Prod.mk.inj he
    rw [List.cons_append, List.cons_append, takeQuoted, if_neg hc, if_pos hesc]
    simp only [ih hu, Option.map_some]
  | case5 c cs hc hesc ih =>
    obtain ⟨⟨us, r⟩, hu, he⟩ := Option.map_eq_some_iff.1 h
    obtain ⟨rfl, _⟩ := Prod.mk.inj he
    rw [List.cons_append, takeQuoted.eq_def]
    simp only [if_neg hc, if_neg hesc, ih hu, Option.map_some]

theorem isQuoteLiteral_of_takeQuoted {q : Char} {cs ws rest : List Char} (hq : isQuote q = true)
    (h : takeQuoted q cs = some (ws, rest)) : IsQuoteLiteral (q :: ws) := by
  refine ⟨q, ws, hq, rfl, ?_⟩
  have hws := takeQuoted_append_right [] h
  rwa [List.append_nil] at hws

/-! ## literals -/

/-- the text of an atom: one word, or one literal in quotes -/
def IsLiteral (cs : List Char) : Prop := IsWord cs ∨ IsQuoteLiteral cs

/-- the token that a literal is -/
def literalToken (s : String) : Token :=
  if s.toList.head?.any isQuote then .quoted s else .word s

theorem literalToken_of_isWord {s : String} (h : IsWord s.toList) : literalToken s = .word s := by
  unfold literalToken
  obtain ⟨hne, _, hw⟩ := h
  cases hs : s.toList with
  | nil => exact absurd hs hne
  | cons c cs =>
    rw [hs] at hw
    have hc := (takeWord_cons_eq_self.1 hw).1
    simp only [endsWord, Bool.or_eq_false_iff] at hc
    simp [hc.1.2]

theorem literalToken_of_isQuoteLiteral {s : String} (h : IsQuoteLiteral s.toList) :
    literalToken s = .quoted s := by
  obtain ⟨q, body, hq, hs, _⟩ := h
  rw [literalToken, hs]
  simp [hq]

/-- a token as the lexer makes it -/
def Token.IsGenuine : Token → Prop
  | .word s => IsWord s.toList
  | .quoted s => IsQuoteLiteral s.toList
  | _ => True

/-! ## the steps of the lexer -/

section
variable {c : Char} {cs : List Char}

theorem lex_nil (p : Position) : lex p [] = .ok ([], p) := by rw [lex.eq_def]

theorem lex_blank (hblank : isBlank c = true) (p : Position) :
    lex p (c :: cs) = lex (p.step c) cs := by
  rw [lex.eq_def]
  exact dif_pos hblank

theorem lex_comment (hblank : ¬ isBlank c = true) (hcomment : startsComment (c :: cs) = true)
    (hplain : ¬ "#include".toList.isPrefixOf (takeComment (c :: cs)).1 = true) (p : Position) :
    lex p (c :: cs) = lex (p.advance (takeComment (c :: cs)).1) (takeComment (c :: cs)).2 := by
  rw [lex.eq_def]
  dsimp only
  rw [dif_neg hblank, dif_pos hcomment, if_neg hplain]

theorem lex_punctuation {t : Token} (hblank : ¬ isBlank c = true)
    (hcomment : ¬ startsComment (c :: cs) = true) (hpunctuation : punctuation? c = some t)
    (p : Position) :
    lex p (c :: cs) = (lex (p.step c) cs).map fun (ts, stop) => (⟨t, p⟩ :: ts, stop) := by
  rw [lex.eq_def]
  dsimp only
  rw [dif_neg hblank, dif_neg hcomment]
  split
  · rename_i u hu
    obtain rfl := Option.some.inj (hpunctuation.symm.trans hu)
    rfl
  · rename_i hnone
    cases hpunctuation.symm.trans hnone

theorem lex_quote {ws after : List Char} (hblank : ¬ isBlank c = true)
    (hcomment : ¬ startsComment (c :: cs) = true) (hpunctuation : punctuation? c = none)
    (hquote : isQuote c = true) (htake : takeQuoted c cs = some (ws, after)) (p : Position) :
    lex p (c :: cs) = (lex ((p.step c).advance ws) after).map fun (ts, stop) =>
      (⟨.quoted (String.ofList (c :: ws)), p⟩ :: ts, stop) := by
  rw [lex.eq_def]
  dsimp only
  rw [dif_neg hblank, dif_neg hcomment]
  split
  · rename_i u hu
    cases hpunctuation.symm.trans hu
  · rw [dif_pos hquote]
    split
    · rename_i hnone
      cases htake.symm.trans hnone
    · rename_i us rest hsome
      obtain ⟨rfl, rfl⟩ := Prod.mk.inj (Option.some.inj (htake.symm.trans hsome))
      rfl

theorem lex_word (hblank : ¬ isBlank c = true) (hcomment : ¬ startsComment (c :: cs) = true)
    (hpunctuation : punctuation? c = none) (hquote : ¬ isQuote c = true) (hat : ¬ c = '@')
    (p : Position) :
    lex p (c :: cs) = (lex (p.advance (takeWord (c :: cs)).1) (takeWord (c :: cs)).2).map
      fun (ts, stop) => (⟨.word (String.ofList (takeWord (c :: cs)).1), p⟩ :: ts, stop) := by
  rw [lex.eq_def]
  dsimp only
  rw [dif_neg hblank, dif_neg hcomment]
  split
  · rename_i u hu
    cases hpunctuation.symm.trans hu
  · rw [dif_neg hquote, if_neg hat]

end

/-! ## a token in front of a text -/

/-- a word is one token, and the rest is lexed from its end -/
theorem lex_run {ws cs : List Char} (hw : IsRun ws cs) (hat : ws.head? ≠ some '@')
    (p : Position) :
    lex p (ws ++ cs) = (lex (p.advance ws) cs).map fun (ts, stop) =>
      (⟨.word (String.ofList ws), p⟩ :: ts, stop) := by
  have htake : takeWord (ws ++ cs) = (ws, cs) :=
    takeWord_of_unbroken hw.plain hw.unbroken hw.maximal
  obtain ⟨c, rest, rfl⟩ := List.exists_cons_of_ne_nil hw.nonempty
  have hc := hw.plain c List.mem_cons_self
  simp only [endsWord, Bool.or_eq_false_iff, decide_eq_false_iff_not] at hc
  obtain ⟨⟨⟨hblank, hpunctuation⟩, hquote⟩, hhash⟩ := hc
  have hslashes : ¬ startsSlashes (c :: (rest ++ cs)) = true := by
    rw [startsSlashes_iff]
    exact hw.unbroken [] (c :: rest) rfl (List.cons_ne_nil c rest)
  have hcomment : ¬ startsComment (c :: (rest ++ cs)) = true := by
    rw [startsComment, Bool.not_eq_true _ |>.mp hslashes]
    simpa using hhash
  rw [List.cons_append] at htake ⊢
  rw [lex_word (by simpa using hblank) hcomment (by simpa using hpunctuation)
    (by simpa using hquote) (by simpa using hat), htake]

/-- a literal in quotes is one token, and the rest is lexed from its end -/
theorem lex_quoted {ws : List Char} (hw : IsQuoteLiteral ws) (cs : List Char) (p : Position) :
    lex p (ws ++ cs) = (lex (p.advance ws) cs).map fun (ts, stop) =>
      (⟨.quoted (String.ofList ws), p⟩ :: ts, stop) := by
  obtain ⟨q, body, hq, rfl, hbody⟩ := hw
  have hq' : q = '"' ∨ q = '\'' := by simpa [isQuote] using hq
  have hblank : ¬ isBlank q = true := by rcases hq' with rfl | rfl <;> decide
  have hcomment : ¬ startsComment (q :: (body ++ cs)) = true := by
    simp only [startsComment, Bool.or_eq_true, startsSlashes_cons, decide_eq_true_eq,
      List.head?_cons, Option.some.injEq]
    rcases hq' with rfl | rfl <;> simp
  have hpunctuation : punctuation? q = none := by rcases hq' with rfl | rfl <;> rfl
  exact lex_quote hblank hcomment hpunctuation hq (takeQuoted_append_right cs hbody) p

/-! ## texts and their tokens -/

/-- the tokens of a text, wherever it starts -/
def Lexes (cs : List Char) (ts : List Token) : Prop :=
  ∀ p, ∃ sp stop, lex p cs = .ok (sp, stop) ∧ sp.map Spanned.token = ts

namespace Lexes

variable {c d : Char} {cs ws : List Char} {t : Token} {ts : List Token}

theorem nil : Lexes [] [] := by
  intro p
  exact ⟨[], p, lex_nil p, rfl⟩

theorem blank (hc : isBlank c = true) (h : Lexes cs ts) : Lexes (c :: cs) ts := by
  intro p
  obtain ⟨sp, stop, hl, ht⟩ := h (p.step c)
  exact ⟨sp, stop, (lex_blank hc p).trans hl, ht⟩

/-- a comment runs to the end of its line -/
theorem comment (hws : IsComment ws) (hcs : ∀ c ∈ cs.head?, c = '\n') (h : Lexes cs ts) :
    Lexes (ws ++ cs) ts := by
  intro p
  obtain ⟨sp, stop, hl, ht⟩ := h (p.advance ws)
  refine ⟨sp, stop, ?_, ht⟩
  have htake := takeComment_of_isComment hws hcs
  obtain ⟨c, rest, hc⟩ := List.exists_cons_of_ne_nil hws.ne_nil
  subst hc
  have hstart : startsComment (c :: (rest ++ cs)) = true := by
    rw [startsComment, Bool.or_eq_true, decide_eq_true_eq, startsSlashes_iff]
    refine hws.starts.imp ?_ fun hslashes => hslashes.trans (List.prefix_append _ _)
    intro hhash
    rw [(List.cons_prefix_cons.1 hhash).1, List.head?_cons]
  have hblank : ¬ isBlank c = true := by
    rcases hws.starts with h | h <;>
    · obtain ⟨rfl, _⟩ := List.cons_prefix_cons.1 h
      decide
  have hplain : ¬ "#include".toList.isPrefixOf (c :: rest) = true := by
    rw [List.isPrefixOf_iff_prefix]
    exact hws.plain
  rw [List.cons_append] at htake ⊢
  rw [lex_comment hblank hstart (by rwa [htake]), htake, hl]

theorem punctuation (hc : punctuation? c = some t) (h : Lexes cs ts) :
    Lexes (c :: cs) (t :: ts) := by
  intro p
  obtain ⟨sp, stop, hl, ht⟩ := h (p.step c)
  have hcs : c = ':' ∨ c = ',' ∨ c = '[' ∨ c = ']' ∨ c = '\x7b' ∨ c = '\x7d' := by
    unfold punctuation? at hc
    split at hc <;> simp_all
  have hblank : ¬ isBlank c = true := by
    rcases hcs with rfl | rfl | rfl | rfl | rfl | rfl <;> decide
  have hcomment : ¬ startsComment (c :: cs) = true := by
    simp only [startsComment, Bool.or_eq_true, startsSlashes_cons, decide_eq_true_eq,
      List.head?_cons, Option.some.injEq]
    rcases hcs with rfl | rfl | rfl | rfl | rfl | rfl <;> simp
  refine ⟨⟨t, p⟩ :: sp, stop, ?_, ?_⟩
  · rw [lex_punctuation hblank hcomment hc, hl]
    rfl
  · rw [List.map_cons, ht]

theorem run (hw : IsRun ws cs) (hat : ws.head? ≠ some '@') (h : Lexes cs ts) :
    Lexes (ws ++ cs) (.word (String.ofList ws) :: ts) := by
  intro p
  obtain ⟨sp, stop, hl, ht⟩ := h (p.advance ws)
  refine ⟨⟨.word (String.ofList ws), p⟩ :: sp, stop, ?_, ?_⟩
  · rw [lex_run hw hat, hl]
    rfl
  · rw [List.map_cons, ht]

theorem quoted (hw : IsQuoteLiteral ws) (h : Lexes cs ts) :
    Lexes (ws ++ cs) (.quoted (String.ofList ws) :: ts) := by
  intro p
  obtain ⟨sp, stop, hl, ht⟩ := h (p.advance ws)
  refine ⟨⟨.quoted (String.ofList ws), p⟩ :: sp, stop, ?_, ?_⟩
  · rw [lex_quoted hw, hl]
    rfl
  · rw [List.map_cons, ht]

/-- a literal that nothing follows is one token -/
theorem literal {s : String} (hs : IsLiteral s.toList) : Lexes s.toList [literalToken s] := by
  rcases hs with hs | hs
  · have hrun : IsRun s.toList [] := isRun_of_takeWord hs.2.2 hs.1
    have hword := Lexes.nil.run hrun hs.2.1
    rwa [List.append_nil, String.ofList_toList, ← literalToken_of_isWord hs] at hword
  · have hquoted := Lexes.nil.quoted hs
    rwa [List.append_nil, String.ofList_toList, ← literalToken_of_isQuoteLiteral hs] at hquoted

end Lexes

/-! ## pieces -/

/-- a piece that puts its tokens in front of those of any text -/
def Writes (text : List Char) (us : List Token) : Prop :=
  ∀ cs ts, Lexes cs ts → Lexes (text ++ cs) (us ++ ts)

/-- a piece that ends a word in front of it -/
def Closes (text : List Char) : Prop := ∃ d rest, text = d :: rest ∧ endsWord d = true

namespace Writes

variable {as bs : List Char} {us vs : List Token}

theorem nil : Writes [] [] := fun _ _ h => h

theorem append (ha : Writes as us) (hb : Writes bs vs) : Writes (as ++ bs) (us ++ vs) := by
  intro cs ts h
  rw [List.append_assoc, List.append_assoc]
  exact ha _ _ (hb _ _ h)

theorem lexes (h : Writes as us) : Lexes as us := by
  have hall := h [] [] .nil
  rwa [List.append_nil, List.append_nil] at hall

theorem blank {c : Char} (hc : isBlank c = true) : Writes [c] [] := fun _ _ h => h.blank hc

theorem blanks (h : ∀ c ∈ as, isBlank c = true) : Writes as [] := by
  induction as with
  | nil => exact .nil
  | cons c cs ih =>
    have hcs := ih fun d hd => h d (List.mem_cons_of_mem c hd)
    exact (blank (h c List.mem_cons_self)).append hcs

/-- a comment and the end of its line -/
theorem commentLine (h : IsComment as) : Writes (as ++ ['\n']) [] := by
  intro cs ts hcs
  have hline : ∀ c ∈ ('\n' :: cs).head?, c = '\n' := by
    intro c hc
    exact (Option.some.inj hc).symm
  have hall := (hcs.blank (c := '\n') rfl).comment h hline
  simpa using hall

theorem comment (h : '\n' ∉ as) : Writes ('#' :: ' ' :: (as ++ ['\n'])) [] := by
  have hcomment : IsComment ('#' :: ' ' :: as) := by
    refine ⟨.inl (List.prefix_append ['#'] (' ' :: as)), ?_, ?_⟩
    · simp [h]
    · simp [List.cons_prefix_cons]
  exact commentLine hcomment

theorem punctuation {c : Char} {t : Token} (h : punctuation? c = some t) : Writes [c] [t] :=
  fun _ _ hcs => hcs.punctuation h

/-- a literal is one token in front of a piece that ends words -/
theorem literal {s : String} (hs : IsLiteral s.toList) (hb : Writes bs vs) (hclose : Closes bs) :
    Writes (s.toList ++ bs) (literalToken s :: vs) := by
  intro cs ts hcs
  have hrest := hb cs ts hcs
  rw [List.append_assoc, List.cons_append]
  rcases hs with hs | hs
  · obtain ⟨d, rest, rfl, hd⟩ := hclose
    have hword := hrest.run (hs.isRun (rest ++ cs) hd) hs.2.1
    rwa [String.ofList_toList, ← literalToken_of_isWord hs] at hword
  · have hquoted := Lexes.quoted hs hrest
    rwa [String.ofList_toList, ← literalToken_of_isQuoteLiteral hs] at hquoted

end Writes

/-! ## what the lexer finds -/

theorem punctuation?_isGenuine {c : Char} {t : Token} (h : punctuation? c = some t) :
    t.IsGenuine := by
  unfold punctuation? at h
  split at h <;> first | (cases h; trivial) | cases h

/-- what is left of a text at a word starts with a word -/
theorem isWord_takeWord {c : Char} {rest : List Char} (hblank : ¬ isBlank c = true)
    (hcomment : ¬ startsComment (c :: rest) = true) (hpunctuation : punctuation? c = none)
    (hquote : ¬ isQuote c = true) (hat : ¬ c = '@') : IsWord (takeWord (c :: rest)).1 := by
  refine ⟨?_, ?_, takeWord_takeWord (c :: rest)⟩ <;>
    rw [takeWord_of_start hblank hcomment hpunctuation hquote]
  · exact List.cons_ne_nil _ _
  · simpa using hat

theorem isGenuine_of_map_cons {r : Located (List Spanned × Position)} {s : Spanned}
    {sp : List Spanned} {stop : Position}
    (h : (r.map fun (ts, stop) => (s :: ts, stop)) = .ok (sp, stop)) (hs : s.token.IsGenuine)
    (ih : ∀ {sp stop}, r = .ok (sp, stop) → ∀ t ∈ sp, t.token.IsGenuine) :
    ∀ t ∈ sp, t.token.IsGenuine := by
  obtain ⟨⟨ts, e⟩, hts, he⟩ := map_eq_ok.1 h
  obtain ⟨rfl, rfl⟩ := Prod.mk.inj he
  exact List.forall_mem_cons.2 ⟨hs, ih hts⟩

/-- every token that the lexer finds reads as a token by itself -/
theorem isGenuine_of_lex {p : Position} {cs : List Char} {sp : List Spanned} {stop : Position}
    (h : lex p cs = .ok (sp, stop)) : ∀ t ∈ sp, t.token.IsGenuine := by
  fun_induction lex p cs generalizing sp stop with
  | case1 p =>
    obtain ⟨rfl, rfl⟩ := Prod.mk.inj (Except.ok.inj h)
    exact List.forall_mem_nil _
  | case2 p c rest hblank ih => exact ih h
  | case3 => cases h
  | case4 p c rest hblank hcomment hplain ih => exact ih h
  | case5 p c rest hblank hcomment t ht ih =>
    exact isGenuine_of_map_cons h (punctuation?_isGenuine ht) ih
  | case6 => cases h
  | case7 p c rest hblank hcomment hpunctuation hquote ws after htake ih =>
    refine isGenuine_of_map_cons h ?_ ih
    rw [Token.IsGenuine, String.toList_ofList]
    exact isQuoteLiteral_of_takeQuoted hquote htake
  | case8 => cases h
  | case9 p c rest hblank hcomment hpunctuation hquote hat ih =>
    refine isGenuine_of_map_cons h ?_ ih
    rw [Token.IsGenuine, String.toList_ofList]
    exact isWord_takeWord hblank hcomment hpunctuation hquote hat

end ParamSchema
