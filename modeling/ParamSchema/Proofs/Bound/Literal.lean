import ParamSchema.Bound.Value
import ParamSchema.Proofs.Param.Layout

/-!
# The text of a bound value on one line

A default is documented on the line of its parameter.  However deep it is nested, the text has the
tokens of the value and no others (`Bound.writesOpen_literal`).

* `WritesOpen`                        a piece that has its tokens in front of whatever ends a word;
* `writes_sequence`, `writes_table`   a value in brackets has them in front of anything.
-/

namespace ParamSchema

/-! ## pieces that something has to end -/

/-- a piece that puts its tokens in front of those of a piece that ends words -/
def WritesOpen (text : List Char) (us : List Token) : Prop :=
  ∀ bs vs, Writes bs vs → Closes bs → Writes (text ++ bs) (us ++ vs)

namespace WritesOpen

variable {as bs : List Char} {us vs : List Token}

theorem of_writes (h : Writes as us) : WritesOpen as us := fun _ _ hbs _ => h.append hbs

theorem literal {s : String} (hs : IsLiteral s.toList) : WritesOpen s.toList [literalToken s] :=
  fun _ _ hbs hclose => Writes.literal hs hbs hclose

/-- the second piece ends the first -/
theorem append (ha : WritesOpen as us) (hb : WritesOpen bs vs) (hclose : Closes bs) :
    WritesOpen (as ++ bs) (us ++ vs) := by
  intro cs ts hcs hcsclose
  have hall := ha _ _ (hb _ _ hcs hcsclose) <| by
    obtain ⟨d, rest, rfl, hd⟩ := hclose
    exact ⟨d, rest ++ cs, rfl, hd⟩
  rwa [List.append_assoc, List.append_assoc]

/-- nothing of the first piece is left open -/
theorem after (ha : Writes as us) (hb : WritesOpen bs vs) : WritesOpen (as ++ bs) (us ++ vs) := by
  intro cs ts hcs hclose
  have hall := ha.append (hb _ _ hcs hclose)
  rwa [List.append_assoc, List.append_assoc]

theorem closed (ha : WritesOpen as us) (hb : Writes bs vs) (hclose : Closes bs) :
    Writes (as ++ bs) (us ++ vs) :=
  ha _ _ hb hclose

end WritesOpen

namespace Bound

/-! ## members -/

theorem writesOpen_literals {xs : List Bound}
    (h : ∀ x ∈ xs, WritesOpen x.literal.toList x.toValue.tokens) :
    WritesOpen (", ".intercalate (literals xs)).toList (elementTokens (toValues xs)) := by
  induction xs with
  | nil => exact .of_writes .nil
  | cons x xs ih =>
    obtain ⟨hx, hxs⟩ := List.forall_mem_cons.1 h
    cases xs with
    | nil =>
      rw [literals, literals, toValues, toValues, elementTokens_singleton]
      simpa using hx
    | cons y ys =>
      have hcomma : Writes [',', ' '] [.comma] :=
        (Writes.punctuation (c := ',') rfl).append (.blank rfl)
      have hall := hx.append (.after hcomma (ih hxs)) ⟨',', _, rfl, rfl⟩
      rw [toValues, toValues, elementTokens_cons_cons, literals, literals,
        String.intercalate_cons_cons]
      rw [literals, toValues] at hall
      simpa using hall

theorem writesOpen_entry {k : String} {b : Bound} (hk : isIdentifier k = true)
    (hb : WritesOpen b.literal.toList b.toValue.tokens) :
    WritesOpen (k ++ ": " ++ b.literal).toList (.word k :: .colon :: b.toValue.tokens) := by
  have hall := WritesOpen.after (Writes.key 0 hk) hb
  simpa [PrintMode.pad] using hall

theorem writesOpen_entryLiterals {es : List (String × Bound)}
    (hnames : ∀ e ∈ es, isIdentifier e.1 = true)
    (h : ∀ e ∈ es, WritesOpen e.2.literal.toList e.2.toValue.tokens) :
    WritesOpen (" ".intercalate (entryLiterals es)).toList (entryTokens (toEntries es)) := by
  induction es with
  | nil => exact .of_writes .nil
  | cons e es ih =>
    obtain ⟨k, b⟩ := e
    obtain ⟨hk, hnames⟩ := List.forall_mem_cons.1 hnames
    obtain ⟨hb, hes⟩ := List.forall_mem_cons.1 h
    have hentry := writesOpen_entry hk hb
    cases es with
    | nil =>
      rw [entryLiterals, entryLiterals, toEntries, toEntries, entryTokens, entryTokens]
      simpa using hentry
    | cons f fs =>
      have hblank : Writes [' '] [] := .blank rfl
      have hall := hentry.append (.after hblank (ih hnames hes)) ⟨' ', _, rfl, rfl⟩
      rw [toEntries, entryTokens, entryLiterals, entryLiterals, String.intercalate_cons_cons]
      rw [entryLiterals] at hall
      simpa using hall

/-! ## values -/

theorem keys_toEntries (es : BoundTable) : Entries.keys (toEntries es) = Entries.keys es := by
  rw [toEntries_eq_map, Entries.keys_map]

theorem legible_sequence {xs : List Bound} (h : ∀ x ∈ xs, x.toValue.Legible) :
    (sequence xs).toValue.Legible := by
  rw [toValue, toValues_eq_map]
  refine .sequence Origin.onLine_none fun v hv => ?_
  obtain ⟨x, hx, rfl⟩ := List.mem_map.1 hv
  exact h x hx

theorem legible_table {es : BoundTable} (hkeys : (Entries.keys es).Nodup)
    (hnames : ∀ e ∈ es, isIdentifier e.1 = true) (hes : ∀ e ∈ es, e.2.toValue.Legible) :
    (table es).toValue.Legible := by
  rw [← keys_toEntries, toEntries_eq_map] at hkeys
  rw [toValue, toEntries_eq_map]
  refine .table Origin.onLine_none hkeys ?_ ?_
  · intro v hv
    obtain ⟨e, he, rfl⟩ := List.mem_map.1 hv
    exact hnames e he
  · intro v hv
    obtain ⟨e, he, rfl⟩ := List.mem_map.1 hv
    exact hes e he

/-- a text in brackets leaves nothing open -/
theorem writes_sequence {xs : List Bound}
    (h : ∀ x ∈ xs, WritesOpen x.literal.toList x.toValue.tokens) :
    Writes (sequence xs).literal.toList (sequence xs).toValue.tokens := by
  have hclose : Writes [']'] [.closeBracket] := .punctuation rfl
  have hopen : Writes ['['] [.openBracket] := .punctuation rfl
  have hall := hopen.append ((writesOpen_literals h).closed hclose ⟨']', [], rfl, rfl⟩)
  rw [literal, toValue, Value.tokens]
  simpa using hall

theorem writes_table {es : List (String × Bound)} (hnames : ∀ e ∈ es, isIdentifier e.1 = true)
    (h : ∀ e ∈ es, WritesOpen e.2.literal.toList e.2.toValue.tokens) :
    Writes (table es).literal.toList (table es).toValue.tokens := by
  have hopen : Writes ['\x7b'] [.openBrace] := .punctuation rfl
  have hclose : Writes ['\x7d'] [.closeBrace] := .punctuation rfl
  rw [literal, toValue, Value.tokens]
  split
  · rename_i hempty
    obtain rfl := List.isEmpty_iff.1 hempty
    exact hopen.append hclose
  · have hend : Writes [' ', '\x7d'] [.closeBrace] := (Writes.blank (c := ' ') rfl).append hclose
    have hstart : Writes ['\x7b', ' '] [.openBrace] := hopen.append (.blank rfl)
    have hentries := writesOpen_entryLiterals hnames h
    have hall := hstart.append (hentries.closed hend ⟨' ', _, rfl, rfl⟩)
    simpa using hall

/-- the text of a bound value on one line has the tokens of the value -/
theorem writesOpen_literal {b : Bound} (h : b.toValue.Legible) :
    WritesOpen b.literal.toList b.toValue.tokens := by
  induction b with
  | scalar s =>
    cases h with
    | atom _ hlit => exact .literal hlit
  | sequence xs ih =>
    rw [toValue] at h
    cases h with
    | sequence _ hxs =>
      rw [toValues_eq_map, List.forall_mem_map] at hxs
      exact .of_writes (writes_sequence fun x hx => ih x hx (hxs x hx))
  | table es ih =>
    rw [toValue] at h
    cases h with
    | table _ _ hnames hes =>
      rw [toEntries_eq_map] at hnames hes
      rw [List.forall_mem_map] at hnames hes
      exact .of_writes (writes_table hnames fun e he => ih e he (hes e he))

end Bound
end ParamSchema
