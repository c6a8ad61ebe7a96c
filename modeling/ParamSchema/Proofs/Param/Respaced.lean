import ParamSchema.Proofs.Param.Language
import ParamSchema.Proofs.Scalar.Literal

/-!
# Texts that are spaced in another way

What stands between two tokens of a text makes no difference as long as it starts with a blank: the
same tokens, written down again with other blanks and comments between them, lex to the same tokens
(`Spaced.lexes`).  An atom of a document keeps the text of its token, and that text says by itself
whether it was in quotes, is nowhere blank at its ends, and has no backslash without a character to
take (`lex_respaced`).

* `IsTrivia`         blanks and comments that end with their line;
* `Spaced`           tokens as written, with trivia between them;
* `unescape?`        `unescape` where no backslash stands alone;
* `Value.HasAtom`    the texts of the atoms in a value.
-/

namespace ParamSchema

/-! ## trivia -/

/-- the characters of a token, as written -/
def Token.chars : Token → List Char
  | .word s => s.toList
  | .quoted s => s.toList
  | .colon => [':']
  | .comma => [',']
  | .openBracket => ['[']
  | .closeBracket => [']']
  | .openBrace => ['\x7b']
  | .closeBrace => ['\x7d']

/-- blanks and comments, each comment with the line feed that ends it -/
inductive IsTrivia : List Char → Prop
  | nil : IsTrivia []
  | blank {c : Char} {cs : List Char} : isBlank c = true → IsTrivia cs → IsTrivia (c :: cs)
  | comment {ws cs : List Char} : IsComment ws → IsTrivia cs → IsTrivia (ws ++ '\n' :: cs)

/-- the tokens as written, between any two of them trivia that starts with a blank -/
inductive Spaced : List Token → List Char → Prop
  | nil : Spaced [] []
  | single (t : Token) : Spaced [t] t.chars
  | cons {t u : Token} {ts : List Token} {c : Char} {gap cs : List Char} :
      isBlank c = true → IsTrivia gap → Spaced (u :: ts) cs →
        Spaced (t :: u :: ts) (t.chars ++ c :: (gap ++ cs))

variable {cs : List Char} {ts : List Token} {t : Token}

theorem IsTrivia.writes {gap : List Char} (h : IsTrivia gap) : Writes gap [] := by
  induction h with
  | nil => exact .nil
  | blank hc _ ih => exact (Writes.blank hc).append ih
  | @comment ws cs hws _ ih =>
    have hline := (Writes.commentLine hws).append ih
    rwa [List.append_assoc] at hline

theorem Token.IsGenuine.lexes (h : t.IsGenuine) : Lexes t.chars [t] := by
  cases t with
  | word s =>
    have hword := Lexes.literal (.inl h)
    rwa [literalToken_of_isWord h] at hword
  | quoted s =>
    have hquoted := Lexes.literal (.inr h)
    rwa [literalToken_of_isQuoteLiteral h] at hquoted
  | _ => exact Lexes.nil.punctuation rfl

/-- a token is lexed alone if a character that ends words follows it -/
theorem Token.IsGenuine.lexes_cons {d : Char} (h : t.IsGenuine) (hd : endsWord d = true)
    (hcs : Lexes (d :: cs) ts) : Lexes (t.chars ++ d :: cs) (t :: ts) := by
  cases t with
  | word s =>
    have hword := hcs.run (IsWord.isRun cs h hd) h.2.1
    rwa [String.ofList_toList] at hword
  | quoted s =>
    have hquoted := Lexes.quoted h hcs
    rwa [String.ofList_toList] at hquoted
  | _ => exact hcs.punctuation rfl

theorem Spaced.lexes (h : Spaced ts cs) (hts : ∀ t ∈ ts, t.IsGenuine) : Lexes cs ts := by
  induction h with
  | nil => exact .nil
  | single t => exact (hts t List.mem_cons_self).lexes
  | @cons t u ts c gap cs hc hgap _ ih =>
    obtain ⟨ht, hts⟩ := List.forall_mem_cons.1 hts
    have hend : endsWord c = true := by simp [endsWord, hc]
    exact ht.lexes_cons hend ((hgap.writes cs _ (ih hts)).blank hc)

/-! ## what the text of a literal says -/

/-- as `unescape`, but a backslash with nothing after it is refused -/
def unescape? : List Char → Option (List Char)
  | ['\\'] => none
  | '\\' :: c :: cs => (unescape? cs).map fun us => unescapeChar c :: us
  | c :: cs => (unescape? cs).map fun us => c :: us
  | [] => some []

theorem unescape?_cons {c : Char} (hc : c ≠ '\\') (cs : List Char) :
    unescape? (c :: cs) = (unescape? cs).map fun us => c :: us := by
  rw [unescape?]
  · rintro rfl
    exact absurd rfl hc
  · rintro d ds rfl
    exact absurd rfl hc

theorem unescape_cons {c : Char} (hc : c ≠ '\\') (cs : List Char) :
    unescape (c :: cs) = c :: unescape cs := by
  rw [unescape]
  rintro d ds rfl
  exact absurd rfl hc

theorem ClosedBy.getLast? {q : Char} (h : ClosedBy q cs) : cs.getLast? = some q := by
  induction h with
  | quote => rfl
  | plain _ _ _ ih => rw [List.getLast?_cons, ih]; rfl
  | escaped _ _ ih => rw [List.getLast?_cons, List.getLast?_cons, ih]; rfl

theorem ClosedBy.ne_nil {q : Char} (h : ClosedBy q cs) : cs ≠ [] := by
  cases h <;> exact List.cons_ne_nil _ _

/-- every backslash between double quotes takes a character with it -/
theorem ClosedBy.unescape?_dropLast (h : ClosedBy '"' cs) :
    unescape? cs.dropLast = some (unescape cs.dropLast) := by
  induction h with
  | quote => rfl
  | @plain c cs _ hesc hcs ih =>
    have hc : c ≠ '\\' := fun hc => hesc ⟨hc, rfl⟩
    rw [List.dropLast_cons_of_ne_nil hcs.ne_nil, unescape?_cons hc, unescape_cons hc, ih]
    rfl
  | @escaped d cs _ hcs ih =>
    rw [List.dropLast_cons_of_ne_nil (List.cons_ne_nil _ _),
      List.dropLast_cons_of_ne_nil hcs.ne_nil, unescape?, unescape, ih]
    rfl

theorem IsQuoteLiteral.exists_closedBy (h : IsQuoteLiteral cs) :
    ∃ q body, isQuote q = true ∧ cs = q :: body ∧ ClosedBy q body := by
  obtain ⟨q, body, hq, rfl, hbody⟩ := h
  exact ⟨q, body, hq, rfl, closedBy_of_takeQuoted hbody⟩

theorem isBlank_of_isQuote {q : Char} (h : isQuote q = true) : isBlank q = false := by
  have hq : q = '"' ∨ q = '\'' := by simpa [isQuote] using h
  rcases hq with rfl | rfl <;> rfl

theorem quoteOf?_of_isQuoteLiteral (h : IsQuoteLiteral cs) : (quoteOf? cs).isSome = true := by
  obtain ⟨q, body, hq, rfl, hbody⟩ := h.exists_closedBy
  rw [isQuote] at hq
  rw [quoteOf?, hbody.getLast?, hq]
  simp

theorem trimChars_of_isQuoteLiteral (h : IsQuoteLiteral cs) : trimChars cs = cs := by
  obtain ⟨q, body, hq, rfl, hbody⟩ := h.exists_closedBy
  have hblank := isBlank_of_isQuote hq
  refine trimChars_eq_self ?_ ?_
  · intro c hc
    obtain rfl := Option.some.inj hc
    exact hblank
  · intro c hc
    rw [List.getLast?_cons, hbody.getLast?] at hc
    obtain rfl := Option.some.inj hc
    exact hblank

/-! ## atoms -/

/-- the value has an atom with the text `s` -/
inductive Value.HasAtom (s : String) : Value → Prop
  | here {o : Option Origin} : HasAtom s (.atom o s)
  | element {o : Option Origin} {xs : List Value} {x : Value} :
      x ∈ xs → HasAtom s x → HasAtom s (.sequence o xs)
  | entry {o : Option Origin} {es : ParamSet} {e : String × Value} :
      e ∈ es → HasAtom s e.2 → HasAtom s (.table o es)

def ParamSet.HasAtom (p : ParamSet) (s : String) : Prop := ∃ e ∈ p, e.2.HasAtom s

theorem Value.HasAtom.erase {s : String} {v : Value} (h : v.HasAtom s) : v.erase.HasAtom s := by
  induction h with
  | here => exact .here
  | @element o xs x hx _ ih =>
    rw [Value.erase, eraseAll_eq_map]
    exact .element (List.mem_map_of_mem hx) ih
  | @entry o es e he _ ih =>
    rw [Value.erase, eraseEntries_eq_map]
    exact .entry (List.mem_map_of_mem (f := fun e => (e.1, e.2.erase)) he) ih

/-- the text of an atom's token -/
def Token.text? : Token → Option String
  | .word s => some s
  | .quoted s => some s
  | _ => none

theorem Token.text?_eq_some {s : String} : t.text? = some s ↔ t = .word s ∨ t = .quoted s := by
  cases t <;> simp [text?]

section
variable {s name : String} {p : ParamSet} {v : Value}

theorem hasAtom_insert (h : ParamSet.HasAtom (Entries.insert p name v) s) :
    p.HasAtom s ∨ v.HasAtom s := by
  obtain ⟨e, he, hs⟩ := h
  rcases Entries.eq_or_mem_of_mem_insert he with rfl | he
  · exact .inr hs
  · exact .inl ⟨e, he, hs⟩

theorem hasAtom_tableAt (h : (p.tableAt name).HasAtom s) : p.HasAtom s := by
  rw [ParamSet.tableAt] at h
  cases hget : Entries.get? p name with
  | none =>
    rw [hget] at h
    obtain ⟨e, he, _⟩ := h
    cases he
  | some w =>
    rw [hget] at h
    cases w with
    | table o es =>
      obtain ⟨e, he, hs⟩ := h
      exact ⟨(name, .table o es), Entries.mem_of_get? hget, .entry he hs⟩
    | _ =>
      obtain ⟨e, he, _⟩ := h
      cases he

/-- what is stored under a path brings its own atoms and no others -/
theorem hasAtom_put {path : List String} (h : (p.put path v).HasAtom s) :
    p.HasAtom s ∨ v.HasAtom s := by
  induction path generalizing p with
  | nil => exact .inl h
  | cons name path ih =>
    cases path with
    | nil => exact hasAtom_insert h
    | cons next rest =>
      rcases hasAtom_insert h with hp | hinner
      · exact .inl hp
      · cases hinner with
        | entry he hs => exact (ih ⟨_, he, hs⟩).imp_left hasAtom_tableAt

theorem not_hasAtom_nil : ¬ ParamSet.HasAtom [] s := by
  rintro ⟨e, he, _⟩
  cases he

end

mutual

/-- the atoms of a value are the words and the literals in quotes that it is derived from -/
theorem IsValue.exists_text {x : Form} {ts : List Token} {s : String} (h : IsValue x ts)
    (hs : x.value.HasAtom s) : ∃ t ∈ ts, t.text? = some s := by
  match h with
  | .word | .quoted =>
    cases hs
    exact ⟨_, List.mem_cons_self, rfl⟩
  | .sequence hxs =>
    cases hs with
    | element hv hs =>
      obtain ⟨t, ht, hts⟩ := hxs.exists_text hv hs
      exact ⟨t, List.mem_append_left _ (List.mem_cons_of_mem _ ht), hts⟩
  | .table has =>
    cases hs with
    | entry he hs =>
      obtain ⟨t, ht, hts⟩ := (has.exists_text [] ⟨_, he, hs⟩).resolve_left not_hasAtom_nil
      exact ⟨t, List.mem_append_left _ (List.mem_cons_of_mem _ ht), hts⟩

theorem IsElements.exists_text {xs : List Form} {ts : List Token} {v : Value} {s : String}
    (h : IsElements xs ts) (hv : v ∈ formValues xs) (hs : v.HasAtom s) :
    ∃ t ∈ ts, t.text? = some s := by
  match h with
  | .nil => cases hv
  | .last hx =>
    obtain rfl := List.mem_singleton.1 hv
    exact hx.exists_text hs
  | .cons hx hxs =>
    rcases List.mem_cons.1 hv with rfl | hv
    · obtain ⟨t, ht, hts⟩ := hx.exists_text hs
      exact ⟨t, List.mem_append_left _ ht, hts⟩
    · obtain ⟨t, ht, hts⟩ := hxs.exists_text hv hs
      exact ⟨t, List.mem_append_right _ (List.mem_cons_of_mem _ ht), hts⟩

theorem IsAssignments.exists_text {as : List (List String × Form)} {ts : List Token} {s : String}
    (h : IsAssignments as ts) (p : ParamSet) (hs : (build p as).HasAtom s) :
    p.HasAtom s ∨ ∃ t ∈ ts, t.text? = some s := by
  match h with
  | .nil => exact .inl hs
  | .cons hkey hx has =>
    rcases has.exists_text _ hs with hput | ⟨t, ht, hts⟩
    · refine (hasAtom_put hput).imp_right fun hs => ?_
      obtain ⟨t, ht, hts⟩ := hx.exists_text hs
      exact ⟨t, List.mem_append_left _ (by simp [ht]), hts⟩
    · exact .inr ⟨t, List.mem_append_right _ ht, hts⟩

end

/-- an atom of a document has the text of a token -/
theorem exists_text_of_readTokens {sp : List Spanned} {stop : Position} {source s : String}
    {p : ParamSet} (h : readTokens source sp stop = .ok p) (hs : p.HasAtom s) :
    ∃ t ∈ sp.map Spanned.token, t.text? = some s := by
  obtain ⟨as, has, _, hbuild⟩ := exists_isAssignments_of_readAssignments h
  obtain ⟨e, he, hs⟩ := hs
  have herased : (ParamSet.erase p).HasAtom s := by
    rw [ParamSet.erase, Value.eraseEntries_eq_map]
    exact ⟨_, List.mem_map_of_mem (f := fun e => (e.1, e.2.erase)) he, hs.erase⟩
  rw [← hbuild] at herased
  exact (has.exists_text _ herased).resolve_left not_hasAtom_nil

/-! ## one text, two readers -/

/-- whoever looks at the text `s` again comes to the same result as the lexer -/
structure Token.Recovered (s : String) (ts : List Token) : Prop where
  quoted : isQuoted s = true ↔ .quoted s ∈ ts
  word : isQuoted s = false ↔ .word s ∈ ts
  trimmed : trim s = s
  escapes : s.toList.head? = some '"' → unescape? (inner s.toList) = some (unquote s).toList

section
variable {s : String}

theorem trim_of_isLiteral (h : IsLiteral s.toList) : trim s = s := by
  have hchars : trimChars s.toList = s.toList :=
    h.elim trimChars_of_isWord trimChars_of_isQuoteLiteral
  rw [trim, hchars, String.ofList_toList]

theorem unescape?_inner (h : IsLiteral s.toList) (hhead : s.toList.head? = some '"') :
    unescape? (inner s.toList) = some (unquote s).toList := by
  rcases h with h | h
  · have hplain := h.plain '"' (List.mem_of_mem_head? hhead)
    exact absurd hplain (by decide)
  · obtain ⟨q, body, _, hs, hbody⟩ := h.exists_closedBy
    rw [unquote, String.toList_ofList, unquoteChars]
    rw [hs] at hhead ⊢
    obtain rfl := Option.some.inj hhead
    exact hbody.unescape?_dropLast

/-- the class of a token can be told from its text -/
theorem Token.IsGenuine.recovered (hts : ∀ t ∈ ts, t.IsGenuine)
    (hs : ∃ t ∈ ts, t.text? = some s) : Token.Recovered s ts := by
  have hword : .word s ∈ ts → isQuoted s = false := by
    intro hmem
    rw [isQuoted, quoteOf?_of_isWord (hts _ hmem)]
    rfl
  have hquoted : .quoted s ∈ ts → isQuoted s = true := by
    intro hmem
    exact quoteOf?_of_isQuoteLiteral (hts _ hmem)
  have hclass : .word s ∈ ts ∨ .quoted s ∈ ts := by
    obtain ⟨t, ht, hts⟩ := hs
    rcases Token.text?_eq_some.1 hts with rfl | rfl
    · exact .inl ht
    · exact .inr ht
  have hliteral : IsLiteral s.toList := hclass.imp (hts _) (hts _)
  refine ⟨⟨fun h => ?_, hquoted⟩, ⟨fun h => ?_, hword⟩, trim_of_isLiteral hliteral,
    unescape?_inner hliteral⟩
  · refine hclass.resolve_left fun hmem => ?_
    rw [hword hmem] at h
    cases h
  · refine hclass.resolve_right fun hmem => ?_
    rw [hquoted hmem] at h
    cases h

end

/-- **Spaced in another way.**  Tokens of a text that are written down again, with other trivia
between any two of them, lex to the same tokens, wherever they stand.  And the text of an atom says
what the lexer knew: it is in quotes exactly if its token is, it has nothing to trim, and between
double quotes no backslash stands alone. -/
theorem lex_respaced {text : String} {sp : List Spanned} {stop : Position}
    (h : lex .start text.toList = .ok (sp, stop)) :
    (∀ cs, Spaced (sp.map Spanned.token) cs → Lexes cs (sp.map Spanned.token))
      ∧ ∀ source p, readDocument text source = .ok p → ∀ s, p.HasAtom s →
          Token.Recovered s (sp.map Spanned.token) := by
  have hgenuine : ∀ t ∈ sp.map Spanned.token, t.IsGenuine :=
    List.forall_mem_map.2 (isGenuine_of_lex h)
  refine ⟨fun cs hcs => hcs.lexes hgenuine, fun source p hp s hs => ?_⟩
  obtain ⟨sp', stop', hlex, hread⟩ := readDocument_eq_ok.1 hp
  obtain ⟨rfl, rfl⟩ := Prod.mk.inj (Except.ok.inj (h.symm.trans hlex))
  exact Token.IsGenuine.recovered hgenuine (exists_text_of_readTokens hread hs)

/-- the tokens with the same gap between any two of them -/
def spaceOut (c : Char) (gap : List Char) : List Token → List Char
  | [] => []
  | [t] => t.chars
  | t :: u :: ts => t.chars ++ c :: (gap ++ spaceOut c gap (u :: ts))

theorem spaced_spaceOut {c : Char} {gap : List Char} (hc : isBlank c = true) (hgap : IsTrivia gap)
    (ts : List Token) : Spaced ts (spaceOut c gap ts) := by
  fun_induction spaceOut c gap ts with
  | case1 => exact .nil
  | case2 t => exact .single t
  | case3 t u ts ih => exact .cons hc hgap ih

/-- a word that ends at a comment, slashes and escapes between quotes, a backslash at a quote -/
def slashes : String := "x: [a/b/// one\n, \"\\\"//\\\\\"]y: 'c:\\'"

def slashTokens : List Spanned :=
  [⟨.word "x", ⟨1, 1⟩⟩, ⟨.colon, ⟨1, 2⟩⟩, ⟨.openBracket, ⟨1, 4⟩⟩, ⟨.word "a/b", ⟨1, 5⟩⟩,
    ⟨.comma, ⟨2, 1⟩⟩, ⟨.quoted "\"\\\"//\\\\\"", ⟨2, 3⟩⟩, ⟨.closeBracket, ⟨2, 11⟩⟩,
    ⟨.word "y", ⟨2, 12⟩⟩, ⟨.colon, ⟨2, 13⟩⟩, ⟨.quoted "'c:\\'", ⟨2, 15⟩⟩]

theorem lex_respaced_slashes :
    lex .start slashes.toList = .ok (slashTokens, ⟨2, 20⟩)
      ∧ Lexes (spaceOut '\t' "//[\n".toList (slashTokens.map Spanned.token))
          (slashTokens.map Spanned.token)
      ∧ Token.Recovered "\"\\\"//\\\\\"" (slashTokens.map Spanned.token) := by
  have hlex : lex .start slashes.toList = .ok (slashTokens, ⟨2, 20⟩) := by decide +kernel
  have hgap : IsTrivia "//[\n".toList :=
    @IsTrivia.comment "//[".toList [] ⟨.inr (by decide), by decide, by decide⟩ .nil
  have hread : readDocument slashes "in" = .ok
      [("x", .sequence (some ⟨"in", 1⟩)
          [.atom (some ⟨"in", 1⟩) "a/b", .atom (some ⟨"in", 2⟩) "\"\\\"//\\\\\""]),
        ("y", .atom (some ⟨"in", 2⟩) "'c:\\'")] :=
    readDocument_eq_ok.2 ⟨_, _, hlex, rfl⟩
  obtain ⟨hspaced, hatoms⟩ := lex_respaced hlex
  refine ⟨hlex, hspaced _ (spaced_spaceOut rfl hgap _), hatoms "in" _ hread _ ?_⟩
  exact ⟨_, List.mem_cons_self, .element (List.mem_cons_of_mem _ List.mem_cons_self) .here⟩

end ParamSchema
