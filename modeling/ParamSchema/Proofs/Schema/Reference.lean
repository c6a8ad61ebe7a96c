import ParamSchema.Proofs.Bound.Literal
import ParamSchema.Proofs.Schema.Rebind
import ParamSchema.Schema.Reference

/-!
# The tokens of a reference

The reference of a descriptor has the tokens of a value: the table that the descriptor describes,
with placeholders for what has no default (`Descriptor.specimen`).  Comments and notes are no tokens
(`Reference.describes_of_wellFormed`).

The comma after an element goes to the end of its last line.  Elements are neither optional nor have
they a default, so no note stands there.

* `Reference.endWith`            the lines with a separator at the end of the last one;
* `Reference.writes_line`        a line has the tokens of its label and its body;
* `Reference.Describes`          the lines of a descriptor have the tokens of its specimen.
-/

namespace ParamSchema

/-! ## comments -/

theorem mem_of_mem_dropBlankEnd {c : Char} {cs : List Char} (h : c ∈ dropBlankEnd cs) : c ∈ cs := by
  unfold dropBlankEnd at h
  rw [List.mem_reverse] at h
  exact List.mem_reverse.1 ((List.dropWhile_suffix _).subset h)

theorem mem_of_mem_dropReturn {c : Char} {cs : List Char} (h : c ∈ dropReturn cs) : c ∈ cs := by
  unfold dropReturn at h
  split at h
  · exact (List.dropLast_sublist cs).subset h
  · exact h

theorem newline_not_mem_linesFrom {line cs : List Char} (h : '\n' ∉ line) :
    ∀ l ∈ linesFrom line cs, '\n' ∉ l := by
  fun_induction linesFrom line cs with
  | case1 line hempty => exact List.forall_mem_nil _
  | case2 line hempty => exact List.forall_mem_singleton.2 fun hl => h (List.mem_reverse.1 hl)
  | case3 line cs ih =>
    refine List.forall_mem_cons.2 ⟨fun hl => h ?_, ih List.not_mem_nil⟩
    exact List.mem_reverse.1 (mem_of_mem_dropReturn hl)
  | case4 line c cs hc ih =>
    refine ih fun hl => ?_
    rcases List.mem_cons.1 hl with rfl | hl
    · exact hc rfl
    · exact h hl

namespace Reference

variable {indent : Nat}

theorem writes_commentLines (indent level : Nat) (comment : String) :
    Writes (ofLines (commentLines indent level comment)).toList [] := by
  have hlines : ∀ ls : List (List Char), (∀ l ∈ ls, '\n' ∉ l) →
      Writes (ofLines ((ls.map String.ofList).map fun l =>
        pad indent level ++ "## " ++ trimEnd l)).toList [] := by
    intro ls hls
    induction ls with
    | nil => exact .nil
    | cons l ls ih =>
      obtain ⟨hl, hls⟩ := List.forall_mem_cons.1 hls
      have hcomment : IsComment ('#' :: '#' :: ' ' :: dropBlankEnd l) := by
        refine ⟨.inl (List.prefix_append ['#'] _), ?_, ?_⟩
        · have hend : '\n' ∉ dropBlankEnd l := fun h => hl (mem_of_mem_dropBlankEnd h)
          simp [hend]
        · simp [List.cons_prefix_cons]
      have hpad : Writes (pad indent level).toList [] := Writes.pad (indent + level)
      have hall := (hpad.append (Writes.commentLine hcomment)).append (ih hls)
      rw [List.map_cons, List.map_cons, toList_ofLines_cons]
      simpa [trimEnd] using hall
  unfold commentLines
  split
  · exact .nil
  · exact hlines _ (newline_not_mem_linesFrom List.not_mem_nil)

/-! ## lines -/

/-- the last line with a separator -/
def endWith (trail : String) : List String → List String
  | [] => []
  | [l] => [l ++ trail]
  | l :: ls => l :: endWith trail ls

theorem separate_eq_endWith (ls : List String) : separate ls = endWith "," ls := by
  fun_induction separate ls with
  | case1 => rfl
  | case2 l => rfl
  | case3 l ls hne ih => rw [endWith, ih]; exact hne

theorem endWith_nothing (ls : List String) : endWith "" ls = ls := by
  fun_induction endWith "" ls with
  | case1 => rfl
  | case2 l => rw [String.append_empty]
  | case3 l ls hne ih => rw [ih]

theorem endWith_append (trail : String) (ks : List String) {ls : List String} (h : ls ≠ []) :
    endWith trail (ks ++ ls) = ks ++ endWith trail ls := by
  induction ks with
  | nil => rfl
  | cons k ks ih =>
    rw [List.cons_append, endWith, ih, List.cons_append]
    simp [h]

/-- the tokens of what introduces a parameter -/
def introTokens (i : Introduction) : List Token :=
  match i.label with
  | some l => [.word l, .colon]
  | none => []

/-- the notes of a line, as a comment at its end -/
def notes (i : Introduction) (note : Option String) : String :=
  let notes := (if i.optional then ["optional"] else []) ++ note.toList
  if notes.isEmpty then "" else "  # " ++ ", ".intercalate notes

/-- the label, or nothing -/
def lead (indent level : Nat) (i : Introduction) : String :=
  pad indent level ++ (match i.label with | some l => l ++ ": " | none => "")

theorem line_eq (indent level : Nat) (i : Introduction) (body : String) (note : Option String) :
    line indent level i body note = lead indent level i ++ body ++ notes i note := rfl

theorem writes_lead (indent : Nat) {i : Introduction} (hi : ∀ l ∈ i.label, isIdentifier l = true) (level : Nat) :
    Writes (lead indent level i).toList (introTokens i) := by
  obtain ⟨label, optional⟩ := i
  cases label with
  | none =>
    have hpad : Writes (pad indent level).toList [] := Writes.pad (indent + level)
    simpa [lead, introTokens] using hpad
  | some l =>
    have hkey := Writes.key (indent + level) (hi l rfl)
    simpa [lead, pad, introTokens, String.append_assoc] using hkey

theorem writes_notes (i : Introduction) {note : Option String}
    (hnote : ∀ n ∈ note, '\n' ∉ n.toList) :
    Writes ((notes i note).toList ++ ['\n']) [] ∧ Closes ((notes i note).toList ++ ['\n']) := by
  have bare : Writes ['\n'] [] ∧ Closes ['\n'] := ⟨.blank rfl, '\n', [], rfl, rfl⟩
  obtain ⟨label, optional⟩ := i
  cases optional with
  | false =>
    cases note with
    | none => exact bare
    | some n => exact Writes.trailingComment (hnote n rfl)
  | true =>
    cases note with
    | none => exact Writes.trailingComment (show '\n' ∉ "optional".toList by decide)
    | some n =>
      have hn := hnote n rfl
      have hall : '\n' ∉ ("optional" ++ ", " ++ n).toList := by
        simp [hn]
      exact Writes.trailingComment hall

/-- a line has the tokens of its label and of its body; a separator is not for a line with notes -/
theorem writes_line (indent : Nat) {i : Introduction} (hi : ∀ l ∈ i.label, isIdentifier l = true) (level : Nat)
    {body : String} {us : List Token} (hbody : WritesOpen body.toList us) {note : Option String}
    (hnote : ∀ n ∈ note, '\n' ∉ n.toList) {trail : String} {ts : List Token}
    (ht : Trails trail ts) (hplain : trail = "" ∨ i.optional = false ∧ note = none) :
    Writes (ofLines [line indent level i body note ++ trail]).toList
      (introTokens i ++ (us ++ ts)) := by
  have hlead : Writes (lead indent level i).toList (introTokens i) := writes_lead indent hi level
  cases ht with
  | nothing =>
    obtain ⟨hend, hclose⟩ := writes_notes i hnote
    have hall := hlead.append (hbody.closed hend hclose)
    simpa [toList_ofLines, line_eq] using hall
  | comma =>
    obtain ⟨hopt, rfl⟩ := hplain.resolve_left (by decide)
    have hnotes : notes i none = "" := by
      rw [notes, hopt]
      rfl
    have hend : Writes [',', '\n'] [.comma] := (Writes.punctuation rfl).append (.blank rfl)
    have hall := hlead.append (hbody.closed hend ⟨',', ['\n'], rfl, rfl⟩)
    simpa [toList_ofLines, line_eq, hnotes] using hall

/-- a bracket that closes, on a line of its own -/
theorem writes_closing (indent level : Nat) {bracket : String} {us : List Token}
    (hbracket : Writes bracket.toList us) {trail : String} {ts : List Token}
    (ht : Trails trail ts) :
    Writes (ofLines [pad indent level ++ bracket ++ trail]).toList (us ++ ts) := by
  have hpad : Writes (pad indent level).toList [] := Writes.pad (indent + level)
  obtain ⟨hend, _⟩ := Writes.lineEnd .raw ht Origin.onLine_none
  have hall := hpad.append (hbracket.append hend)
  simpa [toList_ofLines, PrintMode.note] using hall

end Reference

/-! ## specimens -/

namespace Descriptor

/-- the declared default -/
def default? : Descriptor → Option Bound
  | .atom _ _ x => x.map .scalar
  | .sequence _ _ _ x => x
  | .tuple _ _ x => x
  | .table _ _ => none
  | .optional _ => none

/-- what stands for the value of an atom -/
def placeholder (t : ScalarType) : Value := .atom none ("<" ++ t.name ++ ">")

mutual

/-- the value that the reference shows -/
def specimen : Descriptor → Value
  | .atom _ t x => match x with
    | some s => (Bound.scalar s).toValue
    | none => placeholder t
  | .sequence _ e _ x => match x with
    | some b => b.toValue
    | none => .sequence none [e.specimen, .atom none "..."]
  | .tuple _ es x => match x with
    | some b => b.toValue
    | none => .sequence none (specimens es)
  | .table _ ms => .table none (memberSpecimens ms)
  | .optional d => d.specimen

def specimens : List Descriptor → List Value
  | [] => []
  | e :: es => e.specimen :: specimens es

def memberSpecimens : List Descriptor → List (String × Value)
  | [] => []
  | d :: ds => (d.name, d.specimen) :: memberSpecimens ds

end

theorem specimens_eq_map (es : List Descriptor) : specimens es = es.map specimen := by
  induction es with
  | nil => rfl
  | cons e es ih => rw [specimens, ih, List.map_cons]

theorem memberSpecimens_eq_map (ms : List Descriptor) :
    memberSpecimens ms = ms.map fun d => (d.name, d.specimen) := by
  induction ms with
  | nil => rfl
  | cons d ds ih => rw [memberSpecimens, ih, List.map_cons]

theorem keys_memberSpecimens (ms : List Descriptor) :
    Entries.keys (memberSpecimens ms) = ms.map name := by
  rw [memberSpecimens_eq_map, Entries.keys, List.map_map]
  rfl

theorem isWord_placeholder (t : ScalarType) : IsWord ("<" ++ t.name ++ ">").toList := by
  have hall : ∀ t ∈ ScalarType.all, ("<" ++ t.name ++ ">").toList ≠ []
      ∧ ("<" ++ t.name ++ ">").toList.head? ≠ some '@'
      ∧ takeWord ("<" ++ t.name ++ ">").toList = (("<" ++ t.name ++ ">").toList, []) := by
    decide
  exact hall t (ScalarType.mem_all t)

theorem isWord_ellipsis : IsWord "...".toList := by
  refine ⟨by decide, by decide, by decide⟩

/-- what is bound to a parameter that is left out can be written into a document -/
theorem WellFormed.legible_default {d : Descriptor} {b : Bound} (h : d.WellFormed) (key : String)
    (habsent : d.mayBeAbsent = true) (hbind : d.bindAbsent key = .ok (some b)) : b.toValue.Legible := by
  have hclean : d.entryFaults [] key none = [] := entryFaults_none_eq_nil.2 habsent
  exact (h.settling hclean hbind).legible b rfl

theorem WellFormed.legible_specimen {d : Descriptor} (h : d.WellFormed) : d.specimen.Legible := by
  induction d with
  | atom hd t x =>
    cases x with
    | none => exact .atom Origin.onLine_none (.inl (isWord_placeholder t))
    | some s => exact .atom Origin.onLine_none (isLiteral_literal s)
  | sequence hd e bd x ih =>
    cases x with
    | some b => exact h.legible_default "" rfl rfl
    | none =>
      cases h with
      | sequence he _ _ _ =>
        refine .sequence Origin.onLine_none (List.forall_mem_cons.2 ⟨ih he, ?_⟩)
        exact List.forall_mem_singleton.2 (.atom Origin.onLine_none (.inl isWord_ellipsis))
  | tuple hd es x ih =>
    cases x with
    | some b => exact h.legible_default "" rfl rfl
    | none =>
      cases h with
      | tuple _ hes _ _ =>
        rw [specimen, specimens_eq_map]
        refine .sequence Origin.onLine_none ?_
        rw [List.forall_mem_map]
        exact fun e he => ih e he (hes e he)
  | table hd ms ih =>
    cases h with
    | table hnames hnodup hms =>
      rw [specimen]
      refine .table Origin.onLine_none ?_ ?_ ?_
      · rw [keys_memberSpecimens]
        exact hnodup
      · rw [memberSpecimens_eq_map, List.forall_mem_map]
        exact hnames
      · rw [memberSpecimens_eq_map, List.forall_mem_map]
        exact fun d hd => ih d hd (hms d hd)
  | optional d ih =>
    cases h with
    | optional hd _ => exact ih hd

end Descriptor

namespace Reference

open Descriptor

variable {indent : Nat}

/-! ## what is described -/

theorem forall_mem_none {p : String → Prop} : ∀ s ∈ (none : Option String), p s := by
  intro s hs
  cases hs

theorem newline_not_mem_note (bd : LengthBound) : ∀ n ∈ bd.note?, '\n' ∉ n.toList := by
  intro n hn
  cases bd with
  | any => cases hn
  | exactly k =>
    obtain rfl := Option.some.inj hn
    simp only [LengthBound.text, String.toList_append, List.mem_append, not_or]
    exact ⟨by decide, by decide, newline_not_mem_toString k⟩
  | between j k =>
    obtain rfl := Option.some.inj hn
    simp only [LengthBound.text, String.toList_append, List.mem_append, not_or]
    exact ⟨by decide, ⟨⟨by decide, newline_not_mem_toString j⟩, by decide⟩,
      newline_not_mem_toString k⟩

section
variable (indent) {i : Introduction} (hi : ∀ l ∈ i.label, isIdentifier l = true) (level : Nat)
  {trail : String} {ts : List Token}

/-- comments on lines of their own are no tokens -/
theorem writes_commented {us : List Token} (comment : String) {ls : List String} (hne : ls ≠ [])
    (hls : Writes (ofLines (endWith trail ls)).toList us) :
    Writes (ofLines (endWith trail (commentLines indent level comment ++ ls))).toList us := by
  rw [endWith_append trail _ hne, toList_ofLines_append]
  exact (writes_commentLines indent level comment).append hls

include hi

/-- a default on one line, with a note behind it -/
theorem writes_default {b : Bound} (hb : b.toValue.Legible) {note : String}
    (hnote : '\n' ∉ note.toList) (ht : Trails trail ts) (htrail : trail = "") :
    Writes (ofLines (endWith trail [line indent level i b.literal (some note)])).toList
      (introTokens i ++ (b.toValue.tokens ++ ts)) := by
  have hnotes : ∀ n ∈ some note, '\n' ∉ n.toList := by
    intro n hn
    obtain rfl := Option.some.inj hn
    exact hnote
  exact writes_line indent hi level (Bound.writesOpen_literal hb) hnotes ht (.inl htrail)

/-- lines between a bracket at the end of the first and one on the last -/
theorem writes_bracketed (opening closing : String) {op cl : Token}
    (hop : Writes opening.toList [op]) (hcl : Writes closing.toList [cl]) {note : Option String}
    (hnote : ∀ n ∈ note, '\n' ∉ n.toList) {inner : List String} {us : List Token}
    (hinner : Writes (ofLines inner).toList us) (ht : Trails trail ts) :
    Writes (ofLines (endWith trail (line indent level i opening note ::
        (inner ++ [pad indent level ++ closing])))).toList
      (introTokens i ++ (op :: (us ++ [cl]) ++ ts)) := by
  have hlines : endWith trail (line indent level i opening note ::
        (inner ++ [pad indent level ++ closing]))
      = [line indent level i opening note ++ ""] ++ (inner
        ++ [pad indent level ++ closing ++ trail]) := by
    have hend := endWith_append trail (line indent level i opening note :: inner)
      (List.cons_ne_nil (pad indent level ++ closing) [])
    simpa [endWith] using hend
  have hfirst := writes_line indent hi level (.of_writes hop) hnote .nothing (.inl rfl)
  have hlast := writes_closing indent level hcl ht
  rw [hlines, toList_ofLines_append, toList_ofLines_append]
  simpa using hfirst.append (hinner.append hlast)

end

/-- the elements of a tuple, with a comma after each but the last -/
theorem writes_describeElements {level : Nat} {es : List Descriptor}
    (h : ∀ e ∈ es, ∀ {trail ts}, Trails trail ts →
      Writes (ofLines (endWith trail (describe indent level element e))).toList
        (e.specimen.tokens ++ ts)) :
    Writes (ofLines (describeElements indent level es)).toList
      (elementTokens (specimens es)) := by
  induction es with
  | nil => exact .nil
  | cons e es ih =>
    obtain ⟨he, hes⟩ := List.forall_mem_cons.1 h
    have hempty : (specimens es).isEmpty = es.isEmpty := by
      cases es <;> rfl
    have hlines : (if es.isEmpty then describe indent level element e
          else separate (describe indent level element e))
        = endWith (if es.isEmpty then "" else ",") (describe indent level element e) := by
      cases es.isEmpty with
      | true => exact (endWith_nothing _).symm
      | false => exact separate_eq_endWith _
    rw [describeElements, hlines, toList_ofLines_append, specimens, elementTokens, hempty]
    exact (he (trails_separator es.isEmpty)).append (ih hes)

theorem writes_describeMembers {level : Nat} {ms : List Descriptor}
    (h : ∀ d ∈ ms, Writes (ofLines (describe indent level (named d.name) d)).toList
      (.word d.name :: .colon :: d.specimen.tokens)) :
    Writes (ofLines (describeMembers indent level ms)).toList
      (entryTokens (memberSpecimens ms)) := by
  induction ms with
  | nil => exact .nil
  | cons d ds ih =>
    obtain ⟨hd, hds⟩ := List.forall_mem_cons.1 h
    rw [describeMembers, toList_ofLines_append, memberSpecimens, entryTokens]
    exact hd.append (ih hds)

/-- the lines of the descriptor have the tokens of what introduces it and of its specimen; a
separator may follow on the last line if no note can stand there -/
def Describes (indent : Nat) (d : Descriptor) : Prop :=
  ∀ i : Introduction, (∀ l ∈ i.label, isIdentifier l = true) → ∀ level trail ts,
    Trails trail ts → (trail = "" ∨ i.optional = false ∧ d.IsBare) →
      Writes (ofLines (endWith trail (describe indent level i d))).toList
        (introTokens i ++ (d.specimen.tokens ++ ts))

/-- an element is followed by nothing, or by a comma -/
theorem Describes.element {e : Descriptor} (he : Describes indent e) (hbare : e.IsBare)
    (level : Nat) {trail : String} {ts : List Token} (ht : Trails trail ts) :
    Writes (ofLines (endWith trail (describe indent level Reference.element e))).toList
      (e.specimen.tokens ++ ts) := by
  exact he Reference.element forall_mem_none level trail ts ht (.inr ⟨rfl, hbare⟩)

section
variable {hd : Heading} {d e : Descriptor} {es ms : List Descriptor} {bd : LengthBound}
  {x : Option Bound}

theorem describes_atom {t : ScalarType} {s? : Option Scalar} :
    Describes indent (.atom hd t s?) := by
  intro i hi level trail ts ht hplain
  cases s? with
  | some s =>
    have hlegible : (Bound.scalar s).toValue.Legible :=
      .atom Origin.onLine_none (isLiteral_literal s)
    have htrail : trail = "" := hplain.resolve_right fun h => by cases h.2.2
    rw [describe]
    refine writes_commented indent level hd.comment (List.cons_ne_nil _ _) ?_
    exact writes_default indent hi level hlegible (by decide) ht htrail
  | none =>
    have hbody : WritesOpen ("<" ++ t.name ++ ">").toList (placeholder t).tokens :=
      .literal (.inl (isWord_placeholder t))
    rw [describe]
    refine writes_commented indent level hd.comment (List.cons_ne_nil _ _) ?_
    exact writes_line indent hi level hbody forall_mem_none ht (hplain.imp_right fun h => ⟨h.1, rfl⟩)

theorem describes_sequence (hwf : (Descriptor.sequence hd e bd x).WellFormed) (hbare : e.IsBare)
    (he : Describes indent e) : Describes indent (.sequence hd e bd x) := by
  intro i hi level trail ts ht hplain
  cases x with
  | some b =>
    have hlegible : b.toValue.Legible := hwf.legible_default "" rfl rfl
    have htrail : trail = "" := hplain.resolve_right fun h => by cases h.2.2
    rw [describe]
    refine writes_commented indent level hd.comment (List.cons_ne_nil _ _) ?_
    cases hnote : bd.note? with
    | none => exact writes_default indent hi level hlegible (by decide) ht htrail
    | some n =>
      have hn : '\n' ∉ ("default, " ++ n).toList := by
        have hn := newline_not_mem_note bd n hnote
        simp [hn]
      exact writes_default indent hi level hlegible hn ht htrail
  | none =>
    have helement : Writes (ofLines (separate (describe indent (level + 1) element e))).toList
        (e.specimen.tokens ++ [.comma]) := by
      rw [separate_eq_endWith]
      exact he.element hbare (level + 1) .comma
    have hmore : Writes (ofLines [line indent (level + 1) element "..." none]).toList
        (Value.atom none "...").tokens := by
      have hbody : WritesOpen "...".toList (Value.atom none "...").tokens :=
        .literal (.inl isWord_ellipsis)
      have hline := writes_line indent (i := element) forall_mem_none (level + 1) hbody
        forall_mem_none .nothing (.inl rfl)
      simpa [introTokens, element] using hline
    have hinner : Writes (ofLines (separate (describe indent (level + 1) element e)
          ++ [line indent (level + 1) element "..." none])).toList
        (elementTokens [e.specimen, .atom none "..."]) := by
      rw [toList_ofLines_append, elementTokens_cons_cons, elementTokens_singleton]
      simpa using helement.append hmore
    have hall := writes_bracketed indent hi level "[" "]"
      (.punctuation rfl) (.punctuation rfl) (newline_not_mem_note bd) hinner ht
    rw [describe]
    refine writes_commented indent level hd.comment (List.cons_ne_nil _ _) ?_
    simpa [specimen, Value.tokens] using hall

theorem describes_tuple (hwf : (Descriptor.tuple hd es x).WellFormed) (hbare : ∀ e ∈ es, e.IsBare)
    (hes : ∀ e ∈ es, Describes indent e) : Describes indent (.tuple hd es x) := by
  intro i hi level trail ts ht hplain
  cases x with
  | some b =>
    have hlegible : b.toValue.Legible := hwf.legible_default "" rfl rfl
    have htrail : trail = "" := hplain.resolve_right fun h => by cases h.2.2
    rw [describe]
    refine writes_commented indent level hd.comment (List.cons_ne_nil _ _) ?_
    exact writes_default indent hi level hlegible (by decide) ht htrail
  | none =>
    have hinner : Writes (ofLines (describeElements indent (level + 1) es)).toList
        (elementTokens (specimens es)) :=
      writes_describeElements fun e he _ _ ht => (hes e he).element (hbare e he) (level + 1) ht
    have hall := writes_bracketed indent hi level "[" "]"
      (.punctuation rfl) (.punctuation rfl) forall_mem_none hinner ht
    rw [describe]
    refine writes_commented indent level hd.comment (List.cons_ne_nil _ _) ?_
    simpa [specimen, Value.tokens] using hall

theorem describes_table (hnames : ∀ d ∈ ms, isIdentifier d.name = true)
    (hms : ∀ d ∈ ms, Describes indent d) : Describes indent (.table hd ms) := by
  intro i hi level trail ts ht hplain
  rw [describe]
  split
  · rename_i hempty
    obtain rfl := List.isEmpty_iff.1 hempty
    have hbraces : Writes "\x7b\x7d".toList [.openBrace, .closeBrace] :=
      (Writes.punctuation (c := '\x7b') rfl).append (.punctuation rfl)
    refine writes_commented indent level hd.comment (List.cons_ne_nil _ _) ?_
    exact writes_line indent hi level (.of_writes hbraces) forall_mem_none ht
      (hplain.imp_right fun h => ⟨h.1, rfl⟩)
  · have hinner : Writes (ofLines (describeMembers indent (level + 1) ms)).toList
        (entryTokens (memberSpecimens ms)) := by
      refine writes_describeMembers fun d hd => ?_
      have hlabel : ∀ l ∈ (named d.name).label, isIdentifier l = true := by
        intro l hl
        obtain rfl := Option.some.inj hl
        exact hnames d hd
      have hlines := hms d hd (named d.name) hlabel (level + 1) "" [] .nothing (.inl rfl)
      rw [endWith_nothing] at hlines
      simpa [introTokens, named] using hlines
    have hall := writes_bracketed indent hi level "\x7b" "\x7d"
      (.punctuation rfl) (.punctuation rfl) forall_mem_none hinner ht
    refine writes_commented indent level hd.comment (List.cons_ne_nil _ _) ?_
    simpa [specimen, Value.tokens] using hall

theorem describes_optional (hd : Describes indent d) : Describes indent (.optional d) := by
  intro i hi level trail ts ht hplain
  have htrail : trail = "" := hplain.resolve_right fun h => by cases h.2.1
  rw [describe]
  exact hd { i with optional := true } hi level trail ts ht (.inl htrail)

end

theorem describes_of_wellFormed (indent : Nat) {d : Descriptor} (h : d.WellFormed) : Describes indent d := by
  induction d with
  | atom hd t x => exact describes_atom
  | sequence hd e bd x ih =>
    have hwf := h
    cases h with
    | sequence he hbare _ _ => exact describes_sequence hwf hbare (ih he)
  | tuple hd es x ih =>
    have hwf := h
    cases h with
    | tuple _ hes hbare _ => exact describes_tuple hwf hbare fun e he => ih e he (hes e he)
  | table hd ms ih =>
    cases h with
    | table hnames _ hms => exact describes_table hnames fun d hd => ih d hd (hms d hd)
  | optional d ih =>
    cases h with
    | optional hd _ => exact describes_optional (ih hd)

end Reference
end ParamSchema
