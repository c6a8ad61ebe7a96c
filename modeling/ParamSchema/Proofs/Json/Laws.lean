import ParamSchema.Extract.Shape
import ParamSchema.Proofs.Outcome
import ParamSchema.Proofs.Scalar.Literal

/-!
# What is asked of JSON

Two jobs are those of a library for JSON: to fill a record from a value, and to write the text of a
float.  `Shape.fill` and `Json.floatText` do them as one such library does, and obey the laws here;
what is proved of extraction, export and import is proved from the laws.

* `Shape.FillsByPart`    a scalar that fits is taken as it is, and a whole is filled part by part;
* `Json.SpellsFloats`    the text of a float is one word, and a finite float is read back from it.

Nothing is asked of a reader of JSON texts: what it makes of a text is a premise where it matters.
-/

namespace ParamSchema

/-! ## the laws -/

namespace Shape

/-- What becomes of a field, given the members of an object: the member of its name fills it, or it
is `null` if it is an option. -/
def FillsField (fill : Shape → Json → Filling Json) (ms : List (String × Json))
    (f : String × Shape) (j : Json) : Prop :=
  match Entries.get? ms f.1 with
  | some x => fill f.2 x = .ok j
  | none => f.2.isOption = true ∧ j = .null

/-- Records are filled field by field, lists and tuples place by place, and options and scalars from
the value itself; a float has no `null`. -/
structure FillsByPart (fill : Shape → Json → Filling Json) : Prop where
  bool (b : Bool) : fill .bool (.bool b) = .ok (.bool b)
  signed {w : Width} {i : Int} :
    w.holdsSigned i = true → fill (.signed w) (.int i) = .ok (.int i)
  unsigned {w : Width} {i : Int} :
    w.holdsUnsigned i = true → fill (.unsigned w) (.int i) = .ok (.int i)
  float (x : Binary64) : fill .float (.float x) = .ok (.float x)
  float_null (j : Json) : fill .float .null ≠ .ok j
  string (t : String) : fill .string (.string t) = .ok (.string t)
  absent (s : Shape) : fill (.option s) .null = .ok .null
  present {s : Shape} {j : Json} : j ≠ .null → fill (.option s) j = fill s j
  list {e : Shape} {xs js : List Json} :
    fill (.list e) (.array xs) = .ok (.array js)
      ↔ List.Forall₂ (fun x j => fill e x = .ok j) xs js
  tuple {es : List Shape} {xs js : List Json} : xs.length = es.length →
    (fill (.tuple es) (.array xs) = .ok (.array js)
      ↔ List.Forall₂ (fun p j => fill p.1 p.2 = .ok j) (es.zip xs) js)
  record {name : String} {fields : List (String × Shape)} {ms js : List (String × Json)} :
    fill (.record name fields) (.object ms) = .ok (.object js)
      ↔ List.Forall₂ (fun f m => f.1 = m.1 ∧ FillsField fill ms f m.2) fields js

end Shape

/-- the text of a float is a word of a document, and keeps a finite float -/
structure Json.SpellsFloats (floatText : Binary64 → String) : Prop where
  word (x : Binary64) : IsWord (floatText x).toList
  reads_back {x : Binary64} :
    x.isFinite = true → Binary64.read? (floatText x).toList = some x

namespace Shape

/-! ## filling, place by place -/

theorem under_eq_ok {α : Type} {s : Segment} {r : Filling α} {a : α} :
    under s r = .ok a ↔ r = .ok a := by
  cases r with
  | error m => exact ⟨nofun, nofun⟩
  | ok b => exact Iff.rfl

theorem fill_list_eq_ok {e : Shape} {xs js : List Json} :
    (Shape.list e).fill (.array xs) = .ok (.array js)
      ↔ List.Forall₂ (fun x j => e.fill x = .ok j) xs js := by
  have hindexed : List.Forall₂ (fun x j => e.fill x = .ok j) xs js
      ↔ List.Forall₂ (fun p j => e.fill p.1 = .ok j) xs.zipIdx js := by
    rw [← List.zipIdx_map_fst 0 xs, List.forall₂_map_left_iff, List.zipIdx_map_fst]
  rw [fill, map_eq_ok, hindexed]
  simp only [Json.array.injEq, exists_eq_right, mapM_eq_ok, under_eq_ok]

theorem fillPlaces_eq_ok {whole : String} {i : Nat} {es : List Shape} {xs js : List Json}
    (hlen : xs.length = es.length) :
    fillPlaces whole i es xs = .ok js
      ↔ List.Forall₂ (fun p j => p.1.fill p.2 = .ok j) (es.zip xs) js := by
  induction es generalizing i xs js with
  | nil =>
    rw [fillPlaces, List.zip_nil_left, List.forall₂_nil_left_iff]
    exact ⟨fun h => (Except.ok.inj h).symm, fun h => h ▸ rfl⟩
  | cons e es ih =>
    cases xs with
    | nil => cases hlen
    | cons x xs =>
      rw [fillPlaces, List.zip_cons_cons, List.forall₂_cons_left_iff]
      simp only [bind_eq_ok, under_eq_ok, ih (Nat.succ.inj hlen)]
      constructor
      · intro h
        obtain ⟨y, hy, ys, hys, h⟩ := h
        exact ⟨y, ys, hy, hys, (Except.ok.inj h).symm⟩
      · intro h
        obtain ⟨y, ys, hy, hys, rfl⟩ := h
        exact ⟨y, hy, ys, hys, rfl⟩

theorem checkLength_of_eq {α : Type} {n : Nat} {r : Filling α} : checkLength n n r = r := by
  cases r with
  | error m => rfl
  | ok a =>
    show (if n < n then misfit (.tooLong n) else .ok a) = Except.ok a
    rw [if_neg (Nat.lt_irrefl n)]

theorem fill_tuple_eq_ok {es : List Shape} {xs js : List Json} (hlen : xs.length = es.length) :
    (Shape.tuple es).fill (.array xs) = .ok (.array js)
      ↔ List.Forall₂ (fun p j => p.1.fill p.2 = .ok j) (es.zip xs) js := by
  rw [fill, hlen, checkLength_of_eq, map_eq_ok]
  simp only [Json.array.injEq, exists_eq_right, fillPlaces_eq_ok hlen]

/-! ## filling, field by field -/

/-- what becomes of a field -/
def Field.value (f : Field) : Filling Json :=
  match f.filled with
  | some r => r
  | none => if f.optional then .ok .null else misfit (.missingField f.name)

theorem gather_eq_ok {fs : List Field} {ms : List (String × Json)} :
    gather fs = .ok ms ↔ List.Forall₂ (fun f m => f.name = m.1 ∧ f.value = .ok m.2) fs ms := by
  induction fs generalizing ms with
  | nil =>
    rw [gather, List.forall₂_nil_left_iff]
    exact ⟨fun h => (Except.ok.inj h).symm, fun h => h ▸ rfl⟩
  | cons f fs ih =>
    have hstep : gather (f :: fs) = .ok ms ↔
        ∃ j, f.value = .ok j ∧ ∃ js, gather fs = .ok js ∧ (f.name, j) :: js = ms := by
      obtain ⟨name, optional, filled⟩ := f
      cases filled with
      | some r => simp only [gather, Field.value, bind_eq_ok, Except.ok.injEq]
      | none =>
        cases optional with
        | false => simp [gather, Field.value, misfit]
        | true => simp [gather, Field.value, bind_eq_ok]
    simp only [hstep, List.forall₂_cons_left_iff, ih]
    constructor
    · intro h
      obtain ⟨j, hj, js, hjs, rfl⟩ := h
      exact ⟨(f.name, j), js, ⟨rfl, hj⟩, hjs, rfl⟩
    · intro h
      obtain ⟨m, js, ⟨hname, hm⟩, hjs, rfl⟩ := h
      exact ⟨m.2, hm, js, hjs, by rw [hname]⟩

/-- where every field has its value, no member is a misfit -/
theorem assemble_eq_ok {fs : List Field} {ms js : List (String × Json)} :
    assemble fs ms = .ok (.object js) ↔ gather fs = .ok js := by
  have hnone (h : gather fs = .ok js) : firstMisfit? fs ms = none := by
    rw [firstMisfit?, List.findSome?_eq_none_iff]
    intro m _
    rw [List.findSome?_eq_none_iff]
    intro f hf
    have hall := gather_eq_ok.1 h
    have hvalue : ∃ j, f.value = .ok j := by
      obtain ⟨i, hi⟩ := List.getElem?_of_mem hf
      obtain ⟨m, _, _, hm⟩ := exists_getElem?_of_forall₂ hall hi
      exact ⟨m.2, hm⟩
    obtain ⟨j, hj⟩ := hvalue
    split
    · rw [Field.value] at hj
      split
      · rename_i e he
        rw [he] at hj
        cases hj
      · rfl
    · rfl
  constructor
  · intro h
    rw [assemble] at h
    split at h
    · cases h
    · obtain ⟨ks, hks, hobj⟩ := map_eq_ok.1 h
      obtain rfl := Json.object.inj hobj
      exact hks
  · intro h
    rw [assemble, hnone h]
    exact map_eq_ok.2 ⟨js, h, rfl⟩

/-- a field of a record that is filled from the members `ms` -/
def fieldFrom (ms : List (String × Json)) (f : String × Shape) : Field :=
  ⟨f.1, f.2.isOption, (Entries.get? ms f.1).map fun x => under (.name f.1) (f.2.fill x)⟩

theorem fillFields_eq_map (fields : List (String × Shape)) (ms : List (String × Json)) :
    fillFields fields ms = fields.map (fieldFrom ms) := by
  induction fields with
  | nil => rfl
  | cons f fields ih => rw [fillFields, ih, List.map_cons, fieldFrom]

theorem fieldFrom_value_eq_ok {ms : List (String × Json)} {f : String × Shape} {j : Json} :
    (fieldFrom ms f).value = .ok j ↔ FillsField fill ms f j := by
  rw [fieldFrom, Field.value, FillsField]
  cases Entries.get? ms f.1 with
  | some x => exact under_eq_ok
  | none =>
    cases hoption : f.2.isOption with
    | true => exact ⟨fun h => ⟨rfl, (Except.ok.inj h).symm⟩, fun h => h.2 ▸ rfl⟩
    | false => exact ⟨nofun, fun h => absurd h.1 nofun⟩

theorem fill_record_eq_ok {name : String} {fields : List (String × Shape)}
    {ms js : List (String × Json)} :
    (Shape.record name fields).fill (.object ms) = .ok (.object js)
      ↔ List.Forall₂ (fun f m => f.1 = m.1 ∧ FillsField fill ms f m.2) fields js := by
  rw [fill, assemble_eq_ok, gather_eq_ok, fillFields_eq_map, List.forall₂_map_left_iff]
  simp only [fieldFrom_value_eq_ok]
  rfl

/-- shapes are filled part by part -/
theorem fillsByPart_fill : FillsByPart fill where
  bool _ := rfl
  signed hi := if_pos hi
  unsigned hi := if_pos hi
  float _ := rfl
  float_null _ := nofun
  string _ := rfl
  absent _ := rfl
  present hj := by rw [fill]; exact hj
  list := fill_list_eq_ok
  tuple := fill_tuple_eq_ok
  record := fill_record_eq_ok

end Shape

/-! ## the text of a float -/

/-- the only character of a JSON float that no literal of a float has is the plus of an exponent -/
theorem NumberStyle.plain_of_mem_magnitude {style : NumberStyle} {m : Magnitude} {c : Char}
    (h : c ∈ style.magnitude m) : endsWord c = false ∧ c ≠ '/' := by
  rcases NumberStyle.isNumeral_of_mem_decimal h with h | ⟨_, rfl⟩
  · exact endsWord_of_isPlain (isPlain_of_isNumeral h)
  · decide

theorem isWord_null : IsWord "null".toList :=
  isWord_of_isPlain (List.cons_ne_nil _ _) (isPlain_of_all rfl).2

/-- the text of a float, finite or not, is one word -/
theorem Json.isWord_floatText (x : Binary64) : IsWord (Json.floatText x).toList := by
  rw [Json.floatText]
  split
  · rename_i hx
    cases x with
    | nan => cases hx
    | signed s m =>
      obtain ⟨d, ds, hcons, hd⟩ :=
        NumberStyle.exists_decimal_eq_cons .json (m.shortest NumberStyle.json.tie)
      have hfirst : NumberStyle.json.magnitude m = d :: ds := hcons
      have hplain : ∀ c ∈ NumberStyle.json.magnitude m, endsWord c = false ∧ c ≠ '/' :=
        fun c hc => NumberStyle.plain_of_mem_magnitude hc
      rw [NumberStyle.json.toList_write _ _ s (Binary64.isFinite_signed.1 hx)]
      cases s with
      | true =>
        rw [if_pos rfl, List.singleton_append]
        refine isWord_of_forall (List.cons_ne_nil _ _) (by simp) ?_
        exact List.forall_mem_cons.2 ⟨by decide, hplain⟩
      | false =>
        rw [if_neg nofun, List.nil_append]
        rw [hfirst] at hplain ⊢
        refine isWord_of_forall (List.cons_ne_nil d ds) ?_ hplain
        intro hat
        rw [Option.some.inj hat] at hd
        exact absurd hd (by decide)
  · exact isWord_null

/-- JSON floats are spelt as numbers -/
theorem Json.spellsFloats_floatText : SpellsFloats floatText where
  word := isWord_floatText
  reads_back {x} hx := by
    rw [floatText, if_pos hx]
    exact Binary64.read?_write .json "null" "null" hx

end ParamSchema
