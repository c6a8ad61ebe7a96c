import ParamSchema.Proofs.Param.Language
import ParamSchema.Proofs.Param.Layout

/-!
# Reading the tokens of a value

A legible value has a form that the grammar derives its tokens from, and that denotes the value up
to origins.  Keys of a legible table are plain names, all different, so each assignment adds one
entry at the end.

* `Value.Legible.isValue_form`   the tokens of a value are derived from its form;
* `Value.Legible.fits_form`      the form fits and denotes the value;
* `readTokens_entries`           a document with the tokens of some entries has these inserted;
* `readTokens_entryTokens`       so one with the tokens of a parameter set is that parameter set.
-/

namespace ParamSchema

mutual
/-- how a document writes the value down: one assignment for each entry -/
def Value.form : Value → Form
  | .atom _ t => .atom t
  | .sequence _ xs => .sequence (elementForms xs)
  | .table _ es => .table (entryForms es)
def elementForms : List Value → List Form
  | [] => []
  | x :: xs => x.form :: elementForms xs
def entryForms : List (String × Value) → List (List String × Form)
  | [] => []
  | (k, v) :: es => ([k], v.form) :: entryForms es
end

/-! ## its tokens -/

theorem isElements_elementForms {xs : List Value} (h : ∀ x ∈ xs, IsValue x.form x.tokens) :
    IsElements (elementForms xs) (elementTokens xs) := by
  induction xs with
  | nil => exact .nil
  | cons x xs ih =>
    obtain ⟨hx, hxs⟩ := List.forall_mem_cons.1 h
    cases xs with
    | nil =>
      rw [elementTokens_singleton]
      exact .last hx
    | cons y ys =>
      rw [elementTokens_cons_cons]
      exact .cons hx (ih hxs)

theorem isAssignments_entryForms {es : List (String × Value)}
    (hnames : ∀ e ∈ es, isIdentifier e.1 = true) (h : ∀ e ∈ es, IsValue e.2.form e.2.tokens) :
    IsAssignments (entryForms es) (entryTokens es) := by
  induction es with
  | nil => exact .nil
  | cons e es ih =>
    obtain ⟨hname, hnames⟩ := List.forall_mem_cons.1 hnames
    obtain ⟨he, hes⟩ := List.forall_mem_cons.1 h
    exact .cons (isKeyPath_singleton hname) he (ih hnames hes)

theorem Value.Legible.isValue_form {v : Value} (h : v.Legible) : IsValue v.form v.tokens := by
  induction v with
  | atom o t =>
    rw [form, tokens, literalToken]
    split
    · exact .quoted
    · exact .word
  | sequence o xs ih =>
    cases h with
    | sequence _ hxs => exact .sequence (isElements_elementForms fun x hx => ih x hx (hxs x hx))
  | table o es ih =>
    cases h with
    | table _ _ hnames hes =>
      exact .table (isAssignments_entryForms hnames fun e he => ih e he (hes e he))

/-! ## its value -/

theorem fits_elementForms {xs : List Value}
    (h : ∀ x ∈ xs, x.form.Fits ∧ x.form.value = x.erase) :
    AllFit (elementForms xs) ∧ formValues (elementForms xs) = Value.eraseAll xs := by
  induction xs with
  | nil => exact ⟨trivial, rfl⟩
  | cons x xs ih =>
    obtain ⟨⟨hfits, hvalue⟩, hxs⟩ := List.forall_mem_cons.1 h
    obtain ⟨hallfit, hvalues⟩ := ih hxs
    refine ⟨⟨hfits, hallfit⟩, ?_⟩
    rw [elementForms, formValues, Value.eraseAll, hvalue, hvalues]

/-- entries are inserted one by one -/
theorem fits_entryForms {es : List (String × Value)} (p : ParamSet)
    (h : ∀ e ∈ es, e.2.form.Fits ∧ e.2.form.value = e.2.erase) :
    AssignmentsFit p (entryForms es)
      ∧ build p (entryForms es) = Entries.insertAll p (Value.eraseEntries es) := by
  induction es generalizing p with
  | nil => exact ⟨trivial, rfl⟩
  | cons e es ih =>
    obtain ⟨k, v⟩ := e
    obtain ⟨⟨hfits, hvalue⟩, hes⟩ := List.forall_mem_cons.1 h
    have hput : p.put [k] v.form.value = Entries.insert p k v.erase := by
      rw [ParamSet.put, hvalue]
    obtain ⟨hrestfit, hrest⟩ := ih (Entries.insert p k v.erase) hes
    rw [entryForms, AssignmentsFit, build, hput, hrest]
    exact ⟨⟨hfits, ParamSet.passable_singleton, hrestfit⟩, rfl⟩

theorem Value.Legible.fits_form {v : Value} (h : v.Legible) :
    v.form.Fits ∧ v.form.value = v.erase := by
  induction v with
  | atom o t => exact ⟨trivial, rfl⟩
  | sequence o xs ih =>
    cases h with
    | sequence _ hxs =>
      obtain ⟨hfit, hvalues⟩ := fits_elementForms fun x hx => ih x hx (hxs x hx)
      refine ⟨hfit, ?_⟩
      rw [form, Form.value, erase, hvalues]
  | table o es ih =>
    cases h with
    | table _ hnodup _ hes =>
      obtain ⟨hfit, hbuild⟩ := fits_entryForms [] fun e he => ih e he (hes e he)
      refine ⟨hfit, ?_⟩
      have hkeys : (Entries.keys (eraseEntries es)).Nodup := by
        rw [keys_eraseEntries]
        exact hnodup
      rw [form, Form.value, erase, hbuild, ← Entries.ofList_eq, Entries.ofList_of_nodup hkeys]

/-! ## documents -/

theorem erase_ofList (es : List (String × Value)) :
    ParamSet.erase (Entries.ofList es) = Entries.ofList (Value.eraseEntries es) := by
  rw [ParamSet.erase, Value.eraseEntries_eq_map, Value.eraseEntries_eq_map]
  exact (Entries.insertAll_map Value.erase [] es).symm

/-- a document with the tokens of some entries has these, inserted one by one -/
theorem readTokens_entries (source : String) (stop : Position) {es : List (String × Value)}
    (hnames : ∀ e ∈ es, isIdentifier e.1 = true) (hes : ∀ e ∈ es, e.2.Legible)
    {sp : List Spanned} (hsp : sp.map Spanned.token = entryTokens es) :
    ∃ q, readTokens source sp stop = .ok q
      ∧ ParamSet.erase q = ParamSet.erase (Entries.ofList es) := by
  have has := isAssignments_entryForms hnames fun e he => (hes e he).isValue_form
  obtain ⟨hfit, hbuild⟩ := fits_entryForms [] fun e he => (hes e he).fits_form
  obtain ⟨q, hq, herase⟩ := has.readTokens hfit source stop hsp
  rw [erase_ofList]
  exact ⟨q, hq, herase.trans hbuild⟩

/-- a document with the tokens of a legible parameter set is that parameter set -/
theorem readTokens_entryTokens (source : String) (stop : Position) {p : ParamSet} (h : p.Legible)
    {sp : List Spanned} (hsp : sp.map Spanned.token = entryTokens p) :
    ∃ q, readTokens source sp stop = .ok q ∧ ParamSet.erase q = ParamSet.erase p := by
  obtain ⟨q, hq, herase⟩ := readTokens_entries source stop h.names h.values hsp
  rw [Entries.ofList_of_nodup h.distinct] at herase
  exact ⟨q, hq, herase⟩

end ParamSchema
