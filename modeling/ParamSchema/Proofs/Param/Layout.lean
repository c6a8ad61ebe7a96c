import ParamSchema.Param.Printer
import ParamSchema.Proofs.Param.Lexing
import ParamSchema.Proofs.Trees

/-!
# The tokens of a printed value

All layouts of a value are the same to the lexer: in every mode and at every level it finds
`Value.tokens`, and nothing else (`Value.Legible.printsTokens`).

* `Value.Legible`      atoms are literals, keys are distinct names, origins fit on a line;
* `Trails`             the separators that may stand between a value and the comment of its line;
* `Writes.lineEnd`     what ends a line ends a word, and is no token but its separator.
-/

namespace ParamSchema

/-! ## what a document can hold -/

/-- an origin that a comment can hold -/
def Origin.OnLine (o : Origin) : Prop := '\n' ∉ o.source.toList

theorem Origin.onLine_none : ∀ o ∈ (none : Option Origin), o.OnLine := by
  intro o ho
  cases ho

/-- a value that can be the value of an assignment -/
inductive Value.Legible : Value → Prop
  | atom {o : Option Origin} {t : String} :
      (∀ a ∈ o, a.OnLine) → IsLiteral t.toList → Legible (.atom o t)
  | sequence {o : Option Origin} {xs : List Value} :
      (∀ a ∈ o, a.OnLine) → (∀ x ∈ xs, x.Legible) → Legible (.sequence o xs)
  | table {o : Option Origin} {es : List (String × Value)} :
      (∀ a ∈ o, a.OnLine) → (Entries.keys es).Nodup →
        (∀ e ∈ es, isIdentifier e.1 = true) → (∀ e ∈ es, e.2.Legible) → Legible (.table o es)

/-- a parameter set that a document can spell -/
structure ParamSet.Legible (p : ParamSet) : Prop where
  distinct : p.keys.Nodup
  names : ∀ e ∈ p, isIdentifier e.1 = true
  values : ∀ e ∈ p, e.2.Legible

theorem Value.Legible.onLine {v : Value} (h : v.Legible) : ∀ a ∈ v.origin, a.OnLine := by
  cases h with
  | atom ho _ => exact ho
  | sequence ho _ => exact ho
  | table ho _ _ _ => exact ho

/-! ## the tokens of a value -/

mutual
def Value.tokens : Value → List Token
  | .atom _ t => [literalToken t]
  | .sequence _ xs => .openBracket :: (elementTokens xs ++ [.closeBracket])
  | .table _ es => .openBrace :: (entryTokens es ++ [.closeBrace])
def elementTokens : List Value → List Token
  | [] => []
  | x :: xs => x.tokens ++ (if xs.isEmpty then [] else [.comma]) ++ elementTokens xs
def entryTokens : List (String × Value) → List Token
  | [] => []
  | (k, v) :: es => .word k :: .colon :: (v.tokens ++ entryTokens es)
end

theorem elementTokens_singleton (x : Value) : elementTokens [x] = x.tokens := by
  simp [elementTokens]

theorem elementTokens_cons_cons (x y : Value) (ys : List Value) :
    elementTokens (x :: y :: ys) = x.tokens ++ .comma :: elementTokens (y :: ys) := by
  simp [elementTokens]

/-! ## the ends of lines -/

/-- a separator after a value -/
inductive Trails : String → List Token → Prop
  | nothing : Trails "" []
  | comma : Trails "," [.comma]

theorem trails_separator (last : Bool) :
    Trails (if last then "" else ",") (if last then [] else [.comma]) := by
  cases last with
  | true => exact .nothing
  | false => exact .comma

theorem newline_not_mem_toString (n : Nat) : '\n' ∉ (toString n).toList := by
  intro hmem
  rw [Nat.toString_eq_ofList_toDigits, String.toList_ofList] at hmem
  exact absurd (Nat.isDigit_of_mem_toDigits (by decide) (by decide) hmem) (by decide)

theorem Origin.OnLine.text {o : Origin} (h : o.OnLine) : '\n' ∉ o.text.toList := by
  unfold Origin.text
  simp only [String.toList_append, List.mem_append, not_or]
  exact ⟨⟨h, by decide⟩, newline_not_mem_toString o.line⟩

/-- a comment at the end of a line -/
theorem Writes.trailingComment {text : String} (h : '\n' ∉ text.toList) :
    Writes (("  # " ++ text).toList ++ ['\n']) [] ∧ Closes (("  # " ++ text).toList ++ ['\n']) := by
  have htext : ("  # " ++ text).toList ++ ['\n']
      = [' ', ' '] ++ '#' :: ' ' :: (text.toList ++ ['\n']) := by
    simp
  have hblanks : Writes [' ', ' '] [] := .blanks (List.all_eq_true.1 rfl)
  rw [htext]
  refine ⟨hblanks.append (.comment h), ?_⟩
  exact ⟨' ', ' ' :: '#' :: ' ' :: (text.toList ++ ['\n']), rfl, rfl⟩

theorem Writes.noteEnd (mode : PrintMode) {o : Option Origin} (h : ∀ a ∈ o, a.OnLine) :
    Writes ((mode.note o).toList ++ ['\n']) [] ∧ Closes ((mode.note o).toList ++ ['\n']) := by
  have bare : Writes ['\n'] [] ∧ Closes ['\n'] := ⟨.blank rfl, '\n', [], rfl, rfl⟩
  cases mode with
  | raw => exact bare
  | prefixed => exact bare
  | annotated =>
    cases o with
    | none => exact bare
    | some o => exact Writes.trailingComment (h o rfl).text

/-- what may stand between a value and the next line -/
theorem Writes.lineEnd (mode : PrintMode) {trail : String} {ts : List Token} {o : Option Origin}
    (ht : Trails trail ts) (ho : ∀ a ∈ o, a.OnLine) :
    Writes (trail.toList ++ ((mode.note o).toList ++ ['\n'])) ts
      ∧ Closes (trail.toList ++ ((mode.note o).toList ++ ['\n'])) := by
  have hnote := Writes.noteEnd mode ho
  cases ht with
  | nothing => exact hnote
  | comma =>
    refine ⟨(Writes.punctuation rfl).append hnote.1, ?_⟩
    exact ⟨',', _, rfl, rfl⟩

/-! ## lines -/

theorem toList_ofLines (ls : List String) :
    (ofLines ls).toList = ls.flatMap fun l => l.toList ++ ['\n'] := by
  rw [ofLines, String.toList_join, List.flatMap_map]
  simp

theorem toList_ofLines_cons (l : String) (ls : List String) :
    (ofLines (l :: ls)).toList = (l.toList ++ ['\n']) ++ (ofLines ls).toList := by
  rw [toList_ofLines, toList_ofLines, List.flatMap_cons]

theorem toList_ofLines_append (as bs : List String) :
    (ofLines (as ++ bs)).toList = (ofLines as).toList ++ (ofLines bs).toList := by
  rw [toList_ofLines, toList_ofLines, toList_ofLines, List.flatMap_append]

theorem Writes.pad (level : Nat) : Writes (PrintMode.pad level).toList [] := by
  have hblank : ∀ c ∈ (PrintMode.pad level).toList, isBlank c = true := by
    induction level with
    | zero => exact List.forall_mem_nil _
    | succ n ih =>
      rw [PrintMode.pad, String.toList_append]
      intro c hc
      rcases List.mem_append.1 hc with hc | hc
      · exact ih c hc
      · have hindent : PrintMode.indent.toList.all isBlank = true := rfl
        exact List.all_eq_true.1 hindent c hc
  exact .blanks hblank

/-- a key and its colon in front of a value -/
theorem Writes.key {k : String} (level : Nat) (hk : isIdentifier k = true) :
    Writes (PrintMode.pad level ++ k ++ ": ").toList [.word k, .colon] := by
  have hword : IsWord k.toList := isWord_of_isIdentifierChars hk
  have hcolon : Writes [':', ' '] [.colon] :=
    (Writes.punctuation (c := ':') rfl).append (.blank rfl)
  have hkey := Writes.literal (.inl hword) hcolon ⟨':', [' '], rfl, rfl⟩
  rw [literalToken_of_isWord hword] at hkey
  have hall := (Writes.pad level).append hkey
  simpa using hall

theorem Writes.noteLines (mode : PrintMode) (level : Nat) {o : Option Origin}
    (h : ∀ a ∈ o, a.OnLine) : Writes (ofLines (mode.noteLines level o)).toList [] := by
  cases mode with
  | raw => exact .nil
  | annotated => exact .nil
  | prefixed =>
    cases o with
    | none => exact .nil
    | some o =>
      have hall := (Writes.pad level).append (Writes.comment (h o rfl).text)
      simpa [PrintMode.noteLines, toList_ofLines] using hall

/-! ## layouts -/

/-- on its lines, at any level, the value has its own tokens and no others -/
def PrintsTokens (mode : PrintMode) (v : Value) : Prop :=
  ∀ (level : Nat) {lead trail : String} {o : Option Origin} {us ts : List Token},
    Writes lead.toList us → Trails trail ts → (∀ a ∈ o, a.OnLine) →
      Writes (ofLines (valueLines mode level lead o trail v)).toList (us ++ (v.tokens ++ ts))

/-- the elements of a sequence of atoms, and its closing bracket -/
theorem Writes.inlineElements {xs : List Value} (hatoms : ∀ x ∈ xs, x.isAtom = true)
    (h : ∀ x ∈ xs, x.Legible) :
    Writes ((", ".intercalate (xs.map fun x => x.asAtom?.getD "")).toList ++ [']'])
      (elementTokens xs ++ [.closeBracket]) := by
  induction xs with
  | nil => exact .punctuation rfl
  | cons x xs ih =>
    have hrest := ih (fun y hy => hatoms y (List.mem_cons_of_mem x hy))
      (fun y hy => h y (List.mem_cons_of_mem x hy))
    cases h x List.mem_cons_self with
    | sequence _ _ => cases hatoms _ List.mem_cons_self
    | table _ _ _ _ => cases hatoms _ List.mem_cons_self
    | @atom o t _ hlit =>
      cases xs with
      | nil =>
        have hall := Writes.literal hlit (.punctuation (c := ']') rfl) ⟨']', [], rfl, rfl⟩
        simpa [Value.asAtom?, elementTokens_singleton, Value.tokens] using hall
      | cons y ys =>
        have hcomma : Writes [',', ' '] [.comma] :=
          (Writes.punctuation (c := ',') rfl).append (.blank rfl)
        have hall := Writes.literal hlit (hcomma.append hrest) ⟨',', _, rfl, rfl⟩
        rw [List.map_cons, List.map_cons, String.intercalate_cons_cons, elementTokens_cons_cons]
        simpa [Value.asAtom?, Value.tokens] using hall

theorem Writes.inlineSequence {xs : List Value} (hatoms : xs.all Value.isAtom = true)
    (h : ∀ x ∈ xs, x.Legible) :
    Writes (inlineSequence xs).toList (.openBracket :: (elementTokens xs ++ [.closeBracket])) := by
  have helements := Writes.inlineElements (List.all_eq_true.1 hatoms) h
  have hall := (Writes.punctuation (c := '[') rfl).append helements
  simpa [ParamSchema.inlineSequence] using hall

theorem Writes.elementLines {mode : PrintMode} {xs : List Value} (hxs : ∀ x ∈ xs, x.Legible)
    (ih : ∀ x ∈ xs, PrintsTokens mode x) (level : Nat) :
    Writes (ofLines (elementLines mode level xs)).toList (elementTokens xs) := by
  induction xs with
  | nil => exact .nil
  | cons x xs ihx =>
    have hhead := ih x List.mem_cons_self level (Writes.pad level) (trails_separator xs.isEmpty)
      (hxs x List.mem_cons_self).onLine
    have htail := ihx (fun y hy => hxs y (List.mem_cons_of_mem x hy))
      (fun y hy => ih y (List.mem_cons_of_mem x hy))
    rw [ParamSchema.elementLines, toList_ofLines_append, elementTokens]
    exact hhead.append htail

theorem Writes.entryLines {mode : PrintMode} {es : List (String × Value)}
    (hnames : ∀ e ∈ es, isIdentifier e.1 = true) (hes : ∀ e ∈ es, e.2.Legible)
    (ih : ∀ e ∈ es, PrintsTokens mode e.2) (level : Nat) :
    Writes (ofLines (entryLines mode level es)).toList (entryTokens es) := by
  induction es with
  | nil => exact .nil
  | cons e es ihe =>
    obtain ⟨k, v⟩ := e
    have hline := (hes (k, v) List.mem_cons_self).onLine
    have hnote := Writes.noteLines mode level hline
    have hhead := ih (k, v) List.mem_cons_self level
      (Writes.key level (hnames (k, v) List.mem_cons_self)) .nothing hline
    have htail := ihe (fun y hy => hnames y (List.mem_cons_of_mem _ hy))
      (fun y hy => hes y (List.mem_cons_of_mem _ hy))
      (fun y hy => ih y (List.mem_cons_of_mem _ hy))
    rw [ParamSchema.entryLines, toList_ofLines_append, toList_ofLines_append, entryTokens]
    have hall := (hnote.append hhead).append htail
    simpa using hall

theorem Value.Legible.printsTokens {v : Value} (mode : PrintMode) (h : v.Legible) :
    PrintsTokens mode v := by
  induction v with
  | atom o t =>
    intro level lead trail a us ts hlead htrail ha
    cases h with
    | atom _ hlit =>
      obtain ⟨hend, hclose⟩ := Writes.lineEnd mode htrail ha
      have hall := hlead.append (Writes.literal hlit hend hclose)
      simpa [valueLines, toList_ofLines, Value.tokens] using hall
  | sequence o xs ih =>
    intro level lead trail a us ts hlead htrail ha
    cases h with
    | sequence _ hxs =>
      unfold valueLines
      split
      · rename_i hatoms
        obtain ⟨hend, _⟩ := Writes.lineEnd mode htrail ha
        have hall := hlead.append ((Writes.inlineSequence hatoms hxs).append hend)
        simpa [toList_ofLines, Value.tokens] using hall
      · obtain ⟨hnote, _⟩ := Writes.noteEnd mode ha
        obtain ⟨hend, _⟩ := Writes.lineEnd .raw htrail Origin.onLine_none
        have hopen := hlead.append ((Writes.punctuation (c := '[') rfl).append hnote)
        have hinner := Writes.elementLines hxs (fun x hx => ih x hx (hxs x hx)) (level + 1)
        have hclose := (Writes.pad level).append ((Writes.punctuation (c := ']') rfl).append hend)
        have hall := hopen.append (hinner.append hclose)
        rw [toList_ofLines_cons, toList_ofLines_append, toList_ofLines_cons]
        simpa [toList_ofLines, Value.tokens, PrintMode.note] using hall
  | table o es ih =>
    intro level lead trail a us ts hlead htrail ha
    cases h with
    | table _ _ hnames hes =>
      unfold valueLines
      split
      · rename_i hempty
        obtain rfl := List.isEmpty_iff.1 hempty
        obtain ⟨hend, _⟩ := Writes.lineEnd mode htrail ha
        have hbraces : Writes ['\x7b', '\x7d'] [.openBrace, .closeBrace] :=
          (Writes.punctuation (c := '\x7b') rfl).append (.punctuation rfl)
        have hall := hlead.append (hbraces.append hend)
        simpa [toList_ofLines, Value.tokens, entryTokens] using hall
      · obtain ⟨hnote, _⟩ := Writes.noteEnd mode ha
        obtain ⟨hend, _⟩ := Writes.lineEnd .raw htrail Origin.onLine_none
        have hopen := hlead.append ((Writes.punctuation (c := '\x7b') rfl).append hnote)
        have hinner := Writes.entryLines hnames hes (fun e he => ih e he (hes e he)) (level + 1)
        have hclose :=
          (Writes.pad level).append ((Writes.punctuation (c := '\x7d') rfl).append hend)
        have hall := hopen.append (hinner.append hclose)
        rw [toList_ofLines_cons, toList_ofLines_append, toList_ofLines_cons]
        simpa [toList_ofLines, Value.tokens, PrintMode.note] using hall

/-- the tokens of printed entries, in every mode and at every level -/
theorem lexes_print {es : ParamSet} (hnames : ∀ e ∈ es, isIdentifier e.1 = true)
    (hes : ∀ e ∈ es, e.2.Legible) (level : Nat) (mode : PrintMode) :
    Lexes (es.print level mode).toList (entryTokens es) := by
  unfold ParamSet.print
  have hall := Writes.entryLines hnames hes (fun e he => (hes e he).printsTokens mode) level
  exact hall.lexes

theorem ParamSet.Legible.lexes {p : ParamSet} (h : p.Legible) (level : Nat) (mode : PrintMode) :
    Lexes (p.print level mode).toList (entryTokens p) :=
  lexes_print h.names h.values level mode

end ParamSchema
