import ParamSchema.Proofs.Bound.Literal
import ParamSchema.Proofs.Param.PrintRead
import ParamSchema.Proofs.Scalar.Literal

/-!
# One line, or many

A bound value has two texts.  `Bound.literal` joins its members on one line, and the printer lays out
`Bound.toValue` over as many lines as it takes.  Behind a key both have the tokens of one entry, so
both are read as the same tree (`Bound.readDocument_literal`).

* `Bound.KeyedByNames`       the keys of every table are distinct names;
* `Bound.legible_toValue`    such a value can be the value of an assignment;
* `Bound.lexes_entry`        the text on one line may be the last of the document.
-/

namespace ParamSchema
namespace Bound

/-- the keys of every table in the bound value are distinct names -/
inductive KeyedByNames : Bound → Prop
  | scalar {s : Scalar} : KeyedByNames (.scalar s)
  | sequence {xs : List Bound} : (∀ x ∈ xs, x.KeyedByNames) → KeyedByNames (.sequence xs)
  | table {es : BoundTable} :
      (Entries.keys es).Nodup → (∀ e ∈ es, isIdentifier e.1 = true) →
        (∀ e ∈ es, e.2.KeyedByNames) → KeyedByNames (.table es)

variable {k : String} {b : Bound}

theorem legible_toValue (h : b.KeyedByNames) : b.toValue.Legible := by
  induction b with
  | scalar s => exact .atom Origin.onLine_none (isLiteral_literal s)
  | sequence xs ih =>
    cases h with
    | sequence hxs => exact legible_sequence fun x hx => ih x hx (hxs x hx)
  | table es ih =>
    cases h with
    | table hdistinct hnames hes =>
      exact legible_table hdistinct hnames fun e he => ih e he (hes e he)

theorem erase_toValue (b : Bound) : b.toValue.erase = b.toValue := by
  induction b with
  | scalar s => rfl
  | sequence xs ih =>
    rw [toValue, toValues_eq_map, Value.erase, Value.eraseAll_eq_map, List.map_map]
    exact congrArg (Value.sequence none) (List.map_congr_left ih)
  | table es ih =>
    rw [toValue, toEntries_eq_map, Value.erase, Value.eraseEntries_eq_map, List.map_map]
    refine congrArg (Value.table none) (List.map_congr_left fun e he => ?_)
    exact congrArg (Prod.mk e.1) (ih e he)

/-- nothing has to follow the text of a bound value -/
theorem lexes_literal (h : b.KeyedByNames) : Lexes b.literal.toList b.toValue.tokens := by
  cases h with
  | scalar => exact .literal (isLiteral_literal _)
  | sequence hxs =>
    exact (writes_sequence fun x hx => writesOpen_literal (legible_toValue (hxs x hx))).lexes
  | table _ hnames hes =>
    refine (writes_table hnames fun e he => ?_).lexes
    exact writesOpen_literal (legible_toValue (hes e he))

theorem lexes_entry (hk : isIdentifier k = true) (h : b.KeyedByNames) :
    Lexes (k ++ ": " ++ b.literal).toList (entryTokens [(k, b.toValue)]) := by
  have hall := Writes.key 0 hk _ _ (lexes_literal h)
  simpa [PrintMode.pad, entryTokens] using hall

/-- **The text of a bound value on one line is read as its value.**  Behind an identifier and a
colon, and under any name, it is a document of that one entry.  Up to origins the entry is the value
that the printer lays out, and so is what is read from the print, at every level and in every
mode. -/
theorem readDocument_literal (hk : isIdentifier k = true) (h : b.KeyedByNames) (source : String) :
    ∃ v, readDocument (k ++ ": " ++ b.literal) source = .ok [(k, v)] ∧ v.erase = b.toValue
      ∧ ∀ (level : Nat) (mode : PrintMode) (name : String), ∃ w,
          readDocument (ParamSet.print [(k, b.toValue)] level mode) name = .ok [(k, w)]
            ∧ w.erase = v.erase := by
  have hlegible := legible_toValue h
  obtain ⟨v, hread, hv⟩ := hlegible.exists_readDocument hk (lexes_entry hk h) source
  refine ⟨v, hread, hv.trans (erase_toValue b), fun level mode name => ?_⟩
  have hprint := (ParamSet.Legible.nil.insert hk hlegible).lexes level mode
  obtain ⟨w, hreadw, hw⟩ := hlegible.exists_readDocument hk hprint name
  exact ⟨w, hreadw, hw.trans hv.symm⟩

/-- a string with quotes and a line feed, an empty table and an empty sequence -/
theorem readDocument_literal_nested :
    let b : Bound := .table [("name", .scalar (.string "a \"#\n: \x7b")),
      ("more", .sequence [.table [], .sequence [], .scalar (.int (-1))])]
    isIdentifier "k" = true ∧ b.KeyedByNames
      ∧ ∃ v, readDocument ("k: " ++ b.literal) "in" = .ok [("k", v)] ∧ v.erase = b.toValue := by
  intro b
  have hname : isIdentifier "k" = true := by decide
  have helements : (Bound.sequence [.table [], .sequence [], .scalar (.int (-1))]).KeyedByNames := by
    refine .sequence fun x hx => ?_
    simp only [List.mem_cons, List.not_mem_nil, or_false] at hx
    rcases hx with rfl | rfl | rfl
    · exact .table List.nodup_nil (List.forall_mem_nil _) (List.forall_mem_nil _)
    · exact .sequence (List.forall_mem_nil _)
    · exact .scalar
  have hkeyed : b.KeyedByNames := by
    refine .table (by decide) (by decide) ?_
    exact List.forall_mem_cons.2 ⟨.scalar, List.forall_mem_singleton.2 helements⟩
  obtain ⟨v, hread, hv, _⟩ := readDocument_literal hname hkeyed "in"
  exact ⟨hname, hkeyed, v, hread, hv⟩

end Bound
end ParamSchema
