import Mathlib.Data.List.Nodup
import ParamSchema.Extract.Client
import ParamSchema.Proofs.Json.Laws
import ParamSchema.Proofs.Schema.Conforms

/-!
# Extraction from bound tables

A shape fits a schema if every field of its records is declared by a member of that name that binds
to such values: atoms of the same type, sequences for lists, tuples of as many places, optional
parameters for options (`Shape.Fits`).  What is then bound has a record of the shape, which holds the
bound values themselves (`Shape.Holds`): absent options are `null`, and no number is rounded or cut
off.

But a record is not filled from the bound values.  It is filled from their JSON, which has no number
for a float that is not finite.

* `FillsByPart.extracts_scalar` and its like   what filling part by part yields for each shape;
* `Fits.extracts`         what conforms has a record, and filling yields it if its floats are finite;
* `Schema.extract_holds`  so does extraction from what a schema binds.
-/

namespace ParamSchema

/-! ## finite floats -/

namespace Json

mutual
/-- every float in the value is a finite number -/
def isFinite : Json → Bool
  | .float x => x.isFinite
  | .array xs => allFinite xs
  | .object ms => membersFinite ms
  | _ => true
def allFinite : List Json → Bool
  | [] => true
  | x :: xs => x.isFinite && allFinite xs
def membersFinite : List (String × Json) → Bool
  | [] => true
  | (_, x) :: ms => x.isFinite && membersFinite ms
end

theorem allFinite_eq_all (xs : List Json) : allFinite xs = xs.all isFinite := by
  induction xs with
  | nil => rfl
  | cons x xs ih => rw [allFinite, ih, List.all_cons]

theorem membersFinite_eq_all (ms : List (String × Json)) :
    membersFinite ms = ms.all fun m => m.2.isFinite := by
  induction ms with
  | nil => rfl
  | cons m ms ih => rw [membersFinite, ih, List.all_cons]

theorem isFinite_array {xs : List Json} :
    (array xs).isFinite = true ↔ ∀ x ∈ xs, x.isFinite = true := by
  rw [isFinite, allFinite_eq_all, List.all_eq_true]

theorem isFinite_object {ms : List (String × Json)} :
    (object ms).isFinite = true ↔ ∀ m ∈ ms, m.2.isFinite = true := by
  rw [isFinite, membersFinite_eq_all, List.all_eq_true]

end Json

namespace Bound

/-- only a float becomes `null` -/
theorem toJson_eq_null {b : Bound} (h : b.toJson = .null) :
    ∃ x : Binary64, b = .scalar (.float x) ∧ x.isFinite = false := by
  cases b with
  | sequence xs => cases h
  | table es => cases h
  | scalar s =>
    cases s with
    | float x =>
      refine ⟨x, rfl, ?_⟩
      by_contra hx
      rw [toJson, scalarJson, if_pos (by simpa using hx)] at h
      cases h
    | bool _ => cases h
    | int _ => cases h
    | uint _ => cases h
    | string _ => cases h

end Bound

namespace Shape

/-! ## shapes and descriptors -/

/-- the shape of a scalar type; a float of a record is always a wide one -/
def ofType? : ScalarType → Option Shape
  | .bool => some .bool
  | .signed w => some (.signed w)
  | .unsigned w => some (.unsigned w)
  | .f32 => none
  | .f64 => some .float
  | .string => some .string

/-- the shape has room for everything that the descriptor binds, and asks for nothing else -/
inductive Fits : Shape → Descriptor → Prop
  | atom {s : Shape} {h : Heading} {t : ScalarType} {x : Option Scalar} :
      ofType? t = some s → Fits s (.atom h t x)
  | option {s : Shape} {d : Descriptor} : Fits s d → Fits (.option s) (.optional d)
  | list {e : Shape} {d : Descriptor} {h : Heading} {bd : LengthBound} {x : Option Bound} :
      Fits e d → Fits (.list e) (.sequence h d bd x)
  | tuple {es : List Shape} {ds : List Descriptor} {h : Heading} {x : Option Bound} :
      es.length = ds.length →
        (∀ (i : Nat) e d, es[i]? = some e → ds[i]? = some d → Fits e d) →
          Fits (.tuple es) (.tuple h ds x)
  | record {name : String} {fields : List (String × Shape)} {h : Heading} {ms : List Descriptor} :
      (∀ f ∈ fields, f.1 ∈ ms.map Descriptor.name) →
        (∀ f ∈ fields, ∀ d ∈ ms, d.name = f.1 → Fits f.2 d) →
          Fits (.record name fields) (.table h ms)

/-- a record fits the table of its own fields -/
theorem fits_record {name : String} {fields : List (String × Shape)} {h : Heading}
    {ms : List Descriptor} (hnodup : (ms.map Descriptor.name).Nodup)
    (hfields : List.Forall₂ (fun f d => d.name = f.1 ∧ f.2.Fits d) fields ms) :
    (record name fields).Fits (.table h ms) := by
  have hmember : ∀ f ∈ fields, ∃ d ∈ ms, d.name = f.1 ∧ f.2.Fits d := by
    intro f hf
    obtain ⟨i, hi⟩ := List.getElem?_of_mem hf
    obtain ⟨d, hd, hfd⟩ := exists_getElem?_of_forall₂ hfields hi
    exact ⟨d, List.mem_of_getElem? hd, hfd⟩
  refine .record (fun f hf => ?_) fun f hf d hd hname => ?_
  · obtain ⟨d, hd, hname, _⟩ := hmember f hf
    exact List.mem_map.2 ⟨d, hd, hname⟩
  · obtain ⟨e, he, hename, hfit⟩ := hmember f hf
    obtain rfl := List.inj_on_of_nodup_map hnodup he hd (hename.trans hname.symm)
    exact hfit

/-- the record, in JSON, that holds what is bound, if anything is -/
inductive Holds : Shape → Option Bound → Json → Prop
  | bool {b : Bool} : Holds .bool (some (.scalar (.bool b))) (.bool b)
  | signed {w : Width} {i : Int} : Holds (.signed w) (some (.scalar (.int i))) (.int i)
  | unsigned {w : Width} {n : Nat} : Holds (.unsigned w) (some (.scalar (.uint n))) (.int n)
  | float {x : Binary64} : Holds .float (some (.scalar (.float x))) (.float x)
  | string {t : String} : Holds .string (some (.scalar (.string t))) (.string t)
  | absent {s : Shape} : Holds (.option s) none .null
  | present {s : Shape} {b : Bound} {j : Json} : Holds s (some b) j → Holds (.option s) (some b) j
  | list {e : Shape} {ys : List Bound} {js : List Json} :
      js.length = ys.length →
        (∀ (i : Nat) y j, ys[i]? = some y → js[i]? = some j → Holds e (some y) j) →
          Holds (.list e) (some (.sequence ys)) (.array js)
  | tuple {es : List Shape} {ys : List Bound} {js : List Json} :
      ys.length = es.length → js.length = es.length →
        (∀ (i : Nat) e y j, es[i]? = some e → ys[i]? = some y → js[i]? = some j →
          Holds e (some y) j) →
          Holds (.tuple es) (some (.sequence ys)) (.array js)
  | record {name : String} {fields : List (String × Shape)} {b : BoundTable}
      {ms : List (String × Json)} :
      ms.map Prod.fst = fields.map Prod.fst →
        (∀ (i : Nat) f m, fields[i]? = some f → ms[i]? = some m →
          Holds f.2 (Entries.get? b f.1) m.2) →
          Holds (.record name fields) (some (.table b)) (.object ms)

/-- a bound float is held as it is -/
theorem Holds.eq_float {s : Shape} {x : Binary64} {j : Json}
    (h : s.Holds (some (.scalar (.float x))) j) : j = .float x := by
  generalize hb : some (Bound.scalar (.float x)) = b? at h
  induction h with
  | float =>
    cases hb
    rfl
  | present _ ih => exact ih hb
  | _ => cases hb

/-! ## what is held is what is filled -/

/-- the value has a record of the shape, and filling yields it exactly when it is finite -/
def Extracts (fill : Shape → Json → Filling Json) (s : Shape) (b : Bound) : Prop :=
  ∃ j, s.Holds (some b) j ∧ (fill s b.toJson = .ok j ↔ j.isFinite = true)

/-- a field has the value of the member of its name, or `null` if it may be absent -/
theorem exists_fillsField {fill : Shape → Json → Filling Json} {f : String × Shape}
    {bs : BoundTable} (habsent : Entries.get? bs f.1 = none → f.2.isOption = true)
    (hpresent : ∀ c, Entries.get? bs f.1 = some c → Extracts fill f.2 c) :
    ∃ j, f.2.Holds (Entries.get? bs f.1) j
      ∧ (FillsField fill (Bound.toMembers bs) f j ↔ j.isFinite = true) := by
  have hget : Entries.get? (Bound.toMembers bs) f.1 = (Entries.get? bs f.1).map Bound.toJson := by
    rw [Bound.toMembers_eq_map, Entries.get?_map]
  simp only [FillsField, hget]
  cases hc : Entries.get? bs f.1 with
  | some c => exact hpresent c hc
  | none =>
    have hoption := habsent hc
    refine ⟨.null, ?_, iff_of_true ⟨hoption, rfl⟩ rfl⟩
    cases hs : f.2 with
    | option s => exact .absent
    | _ =>
      rw [hs] at hoption
      cases hoption

namespace FillsByPart

variable {fill : Shape → Json → Filling Json} (hfill : FillsByPart fill)
include hfill

theorem extracts_scalar {s : Shape} {t : ScalarType} {c : Scalar} (hs : ofType? t = some s)
    (hc : t.Holds c) : Extracts fill s (.scalar c) := by
  cases t with
  | f32 => cases hs
  | bool =>
    obtain rfl := Option.some.inj hs
    cases c with
    | bool b => exact ⟨.bool b, .bool, iff_of_true (hfill.bool b) rfl⟩
    | _ => cases hc
  | signed w =>
    obtain rfl := Option.some.inj hs
    cases c with
    | int i => exact ⟨.int i, .signed, iff_of_true (hfill.signed hc) rfl⟩
    | _ => cases hc
  | unsigned w =>
    obtain rfl := Option.some.inj hs
    cases c with
    | uint n => exact ⟨.int n, .unsigned, iff_of_true (hfill.unsigned hc) rfl⟩
    | _ => cases hc
  | f64 =>
    obtain rfl := Option.some.inj hs
    cases c with
    | float x =>
      refine ⟨.float x, .float, ?_⟩
      rw [Bound.toJson, Bound.scalarJson, Json.isFinite]
      by_cases hx : x.isFinite = true
      · rw [if_pos hx]
        exact iff_of_true (hfill.float x) hx
      · rw [if_neg hx]
        exact iff_of_false (hfill.float_null _) hx
    | _ => cases hc
  | string =>
    obtain rfl := Option.some.inj hs
    cases c with
    | string t => exact ⟨.string t, .string, iff_of_true (hfill.string t) rfl⟩
    | _ => cases hc

/-- a float that is not finite would be taken for an absent option, which it is not -/
theorem extracts_option {s : Shape} {b : Bound} (h : Extracts fill s b) :
    Extracts fill (.option s) b := by
  obtain ⟨j, hholds, hfinite⟩ := h
  refine ⟨j, .present hholds, ?_⟩
  by_cases hnull : b.toJson = .null
  · obtain ⟨x, rfl, hx⟩ := Bound.toJson_eq_null hnull
    obtain rfl := hholds.eq_float
    rw [hnull, hfill.absent, Json.isFinite]
    exact iff_of_false nofun (Bool.eq_false_iff.1 hx)
  · rw [hfill.present hnull, hfinite]

theorem extracts_list {e : Shape} {ys : List Bound} (h : ∀ y ∈ ys, Extracts fill e y) :
    Extracts fill (.list e) (.sequence ys) := by
  obtain ⟨js, hjs⟩ := exists_forall₂ h
  have hholds := hjs.imp fun y j hyj => hyj.1
  have hfinite := hjs.imp fun y j hyj => hyj.2
  refine ⟨.array js, .list hjs.length_eq.symm fun i y j => of_forall₂_of_getElem? hholds, ?_⟩
  rw [Bound.toJson, Bound.toJsons_eq_map, hfill.list, List.forall₂_map_left_iff,
    forall₂_iff_forall_mem hfinite, Json.isFinite_array]

theorem extracts_tuple {es : List Shape} {ys : List Bound} (hlen : ys.length = es.length)
    (h : ∀ (i : Nat) e y, es[i]? = some e → ys[i]? = some y → Extracts fill e y) :
    Extracts fill (.tuple es) (.sequence ys) := by
  have hpairs : ∀ p ∈ es.zip ys, Extracts fill p.1 p.2 := by
    intro p hp
    obtain ⟨i, hi⟩ := List.getElem?_of_mem hp
    obtain ⟨he, hy⟩ := List.getElem?_zip_eq_some.1 hi
    exact h i p.1 p.2 he hy
  obtain ⟨js, hjs⟩ := exists_forall₂ hpairs
  have hholds := hjs.imp fun p j hpj => hpj.1
  have hfinite := hjs.imp fun p j hpj => hpj.2
  have hcount : js.length = es.length := by
    rw [← hjs.length_eq, List.length_zip, hlen, Nat.min_self]
  refine ⟨.array js, .tuple hlen hcount fun i e y j he hy hj => ?_, ?_⟩
  · have hpair : (es.zip ys)[i]? = some (e, y) := List.getElem?_zip_eq_some.2 ⟨he, hy⟩
    exact of_forall₂_of_getElem? hholds hpair hj
  · rw [Bound.toJson, Bound.toJsons_eq_map, hfill.tuple (by rw [List.length_map, hlen]),
      List.zip_map_right, List.forall₂_map_left_iff, Json.isFinite_array]
    exact forall₂_iff_forall_mem hfinite

theorem extracts_record {name : String} {fields : List (String × Shape)} {bs : BoundTable}
    (h : ∀ f ∈ fields, (Entries.get? bs f.1 = none → f.2.isOption = true)
      ∧ ∀ c, Entries.get? bs f.1 = some c → Extracts fill f.2 c) :
    Extracts fill (.record name fields) (.table bs) := by
  have hfields : ∀ f ∈ fields, ∃ m : String × Json, f.1 = m.1
      ∧ f.2.Holds (Entries.get? bs f.1) m.2
      ∧ (FillsField fill (Bound.toMembers bs) f m.2 ↔ m.2.isFinite = true) := by
    intro f hf
    obtain ⟨habsent, hpresent⟩ := h f hf
    obtain ⟨j, hj, hvalue⟩ := exists_fillsField habsent hpresent
    exact ⟨(f.1, j), rfl, hj, hvalue⟩
  obtain ⟨ms, hms⟩ := exists_forall₂ hfields
  have hnames : List.Forall₂ (fun f m => f.1 = m.1) fields ms := hms.imp fun f m hfm => hfm.1
  have hholds := hms.imp fun f m hfm => hfm.2.1
  have hfinite : List.Forall₂ (fun f m =>
      (f.1 = m.1 ∧ FillsField fill (Bound.toMembers bs) f m.2) ↔ m.2.isFinite = true)
      fields ms := hms.imp fun f m hfm => by rw [hfm.2.2, and_iff_right hfm.1]
  refine ⟨.object ms, .record ?_ fun i f m => of_forall₂_of_getElem? hholds, ?_⟩
  · rw [← List.forall₂_eq_eq_eq, List.forall₂_map_left_iff, List.forall₂_map_right_iff]
    exact (hnames.imp fun f m hfm => hfm.symm).flip
  · rw [Bound.toJson, hfill.record, forall₂_iff_forall_mem hfinite, Json.isFinite_object]

end FillsByPart

theorem Fits.isOption {s : Shape} {d : Descriptor} (h : s.Fits d) (hd : d.isOptional = true) :
    s.isOption = true := by
  cases h with
  | option _ => rfl
  | _ => cases hd

/-- whatever conforms to a descriptor that the shape fits has its record -/
theorem Fits.extracts {fill : Shape → Json → Filling Json} (hfill : FillsByPart fill) {s : Shape}
    {d : Descriptor} (h : s.Fits d) {v? : Option Value} {b : Bound} (hb : d.Conforms v? b) :
    Extracts fill s b := by
  induction h generalizing v? b with
  | atom hs =>
    obtain ⟨c, rfl, hc⟩ := hb.of_atom
    exact hfill.extracts_scalar hs hc
  | option _ ih =>
    obtain ⟨v, hv⟩ := hb.of_optional
    exact hfill.extracts_option (ih hv)
  | list _ ih =>
    obtain ⟨ys, rfl, hys⟩ := hb.of_sequence
    refine hfill.extracts_list fun y hy => ?_
    obtain ⟨v, hv⟩ := hys y hy
    exact ih hv
  | @tuple es ds _ _ hlen _ ih =>
    obtain ⟨ys, rfl, hcount, hys⟩ := hb.of_tuple
    refine hfill.extracts_tuple (hcount.trans hlen.symm) fun i e y he hy => ?_
    have hi : i < ds.length := hlen ▸ (List.getElem?_eq_some_iff.1 he).1
    have hd : ds[i]? = some ds[i] := List.getElem?_eq_getElem hi
    obtain ⟨v, hv⟩ := hys i ds[i] y hd hy
    exact ih i e ds[i] he hd hv
  | record hdeclared hfits ih =>
    obtain ⟨bs, rfl, hbs⟩ := hb.of_table
    refine hfill.extracts_record fun f hf => ?_
    obtain ⟨d, hd, hname⟩ := List.mem_map.1 (hdeclared f hf)
    obtain ⟨habsent, hpresent⟩ := hbs d hd
    rw [hname] at habsent hpresent
    refine ⟨fun hnone => (hfits f hf d hd hname).isOption (habsent hnone), fun c hc => ?_⟩
    obtain ⟨w?, hw⟩ := hpresent c hc
    exact ih f hf d hd hname hw

end Shape

/-! ## extraction -/

theorem BoundTable.deserialize_eq_ok {α : Type} {b : BoundTable} {read : Json → Filling α} {x : α} :
    b.deserialize read = .ok x ↔ read b.toJson = .ok x := by
  rw [deserialize]
  cases read b.toJson with
  | ok y => exact ⟨fun h => congrArg _ (Except.ok.inj h), fun h => congrArg _ (Except.ok.inj h)⟩
  | error m => exact ⟨nofun, nofun⟩

/-- **Extraction yields what is bound, where every float in it is finite**: whatever a schema that the
shape fits binds has one record, and that is the record that extraction yields if its floats are
finite.  If one of them is not, the record is lost, for there is no JSON to fill it from. -/
theorem Schema.extract_holds {o : Outline} {s : Schema} (hs : o.schema = .ok s) {shape : Shape}
    (hfit : shape.Fits s.toDescriptor) {p : ParamSet} {ignore : List String} {b : BoundTable}
    (hb : s.bind p ignore = .ok b) :
    ∃ j, shape.Holds (some (.table b)) j ∧ (b.extract shape = .ok j ↔ j.isFinite = true) := by
  obtain ⟨hclean, hbind⟩ := bind_eq_ok.1 hb
  rw [faults_eq] at hclean
  have hwf := (o.wellFormed_of_schema hs).table s.heading
  have hconforms : s.toDescriptor.Conforms (some (.table none p)) (.table b) :=
    hwf.conforming.present hclean hbind
  obtain ⟨j, hholds, hfinite⟩ := hfit.extracts Shape.fillsByPart_fill hconforms
  exact ⟨j, hholds, BoundTable.deserialize_eq_ok.trans hfinite⟩

section
variable {h hv he hs : Heading} {bd : LengthBound} {x : Option Bound} {y z : Option Scalar}

theorem Shape.inner_fits (hvalues : hv.name = "values") (hscale : hs.name = "scale") :
    Shape.inner.Fits
      (.table h [.sequence hv (.atom he (.unsigned .w8) z) bd x, .atom hs .f64 y]) := by
  refine fits_record ?_ (.cons ⟨hvalues, .list (.atom rfl)⟩ (.cons ⟨hscale, .atom rfl⟩ .nil))
  simp [Descriptor.name, Descriptor.heading, hvalues, hscale]

end

def nestedOutline : Outline := ⟨"nested", "", Item.nested, []⟩

def nestedSchema : Schema :=
  ⟨⟨"nested", "", "nested", false⟩,
    [.table ⟨"inner", "", "inner", false⟩
        [.sequence ⟨"values", "", "inner.values", false⟩
            (.atom ⟨"[0]", "", "inner.values[0]", false⟩ (.unsigned .w8) none) (.between 1 3)
            (some (.sequence [.scalar (.uint 1), .scalar (.uint 2)])),
          .atom ⟨"scale", "Scale factor.", "inner.scale", false⟩ .f64
            (some (.float (.ofDecimal false ⟨5, -1⟩)))],
      .tuple ⟨"pair", "", "pair", false⟩
        [.atom ⟨"[0]", "", "pair[0]", false⟩ .string none,
          .atom ⟨"[1]", "", "pair[1]", false⟩ (.unsigned .w32) none]
        (some (.sequence [.scalar (.string "David"), .scalar (.uint 9)])),
      .optional (.sequence ⟨"tags", "", "tags", false⟩
        (.atom ⟨"[0]", "", "tags[0]", false⟩ .string none) .any none)]⟩

theorem Shape.nested_fits : Shape.nested.Fits nestedSchema.toDescriptor := by
  refine fits_record (by decide) (.cons ⟨rfl, inner_fits rfl rfl⟩ (.cons ⟨rfl, .tuple rfl ?_⟩
    (.cons ⟨rfl, .option (.list (.atom rfl))⟩ .nil)))
  intro i e d he hd
  match i with
  | 0 =>
    obtain rfl := Option.some.inj he
    obtain rfl := Option.some.inj hd
    exact .atom rfl
  | 1 =>
    obtain rfl := Option.some.inj he
    obtain rfl := Option.some.inj hd
    exact .atom rfl
  | i + 2 => cases he

/-- the largest byte and a negative scale; the pair and the tags are left out -/
def nestedSet : ParamSet :=
  [("inner", .table none
    [("values", .sequence none [.atom none "255"]), ("scale", .atom none "-2.5")])]

def nestedBound : BoundTable :=
  [("inner", .table [("values", .sequence [.scalar (.uint 255)]),
      ("scale", .scalar (.float (.ofDecimal true ⟨25, -1⟩)))]),
    ("pair", .sequence [.scalar (.string "David"), .scalar (.uint 9)])]

theorem Schema.extract_holds_nested :
    nestedOutline.schema = .ok nestedSchema ∧ Shape.nested.Fits nestedSchema.toDescriptor
      ∧ nestedSchema.bind nestedSet [] = .ok nestedBound
      ∧ ∃ j, Shape.nested.Holds (some (.table nestedBound)) j
        ∧ (nestedBound.extract Shape.nested = .ok j ↔ j.isFinite = true) := by
  have hs : nestedOutline.schema = .ok nestedSchema := by rfl
  have hb : nestedSchema.bind nestedSet [] = .ok nestedBound := by rfl
  exact ⟨hs, Shape.nested_fits, hb, Schema.extract_holds hs Shape.nested_fits hb⟩

def innerOutline : Outline :=
  ⟨"inner", "", [.add (.sequence "values" "" (.atom "e" "" (.unsigned .w8) none) .any none),
    .add (.atom "scale" "" .f64 none)], []⟩

def innerSchema : Schema :=
  ⟨⟨"inner", "", "inner", false⟩,
    [.sequence ⟨"values", "", "values", false⟩
        (.atom ⟨"[0]", "", "values[0]", false⟩ (.unsigned .w8) none) .any none,
      .atom ⟨"scale", "", "scale", false⟩ .f64 none]⟩

def innerSet : ParamSet :=
  [("values", .sequence none [.atom none "1"]), ("scale", .atom none "infinity")]

def innerBound : BoundTable :=
  [("values", .sequence [.scalar (.uint 1)]), ("scale", .scalar (.float (.infinity false)))]

/-- a scale may be infinite, and is bound, but no record can be filled with it -/
theorem Schema.extract_infinity :
    innerOutline.schema = .ok innerSchema ∧ Shape.inner.Fits innerSchema.toDescriptor
      ∧ innerSchema.bind innerSet [] = .ok innerBound
      ∧ innerBound.extract Shape.inner
        = .error (.extract "at key scale → invalid type: null, expected f64") := by
  have hs : innerOutline.schema = .ok innerSchema := by rfl
  have hb : innerSchema.bind innerSet [] = .ok innerBound := by rfl
  exact ⟨hs, Shape.inner_fits rfl rfl, hb, by rfl⟩

end ParamSchema
