import ParamSchema.Param.Import
import ParamSchema.Proofs.Json.Laws
import ParamSchema.Proofs.Param.PrintRead

/-!
# Imported JSON can be printed and read back

What is no container in JSON becomes an atom whose text is one literal: a word, or for a string the
string in quotes.  With names for keys, an imported object is therefore a parameter set that a
document can spell (`Value.legible_ofJson`), and its strings stay strings: whatever they look like,
nothing but a string is decoded from them.

* `Json.KeyedByNames`        the keys of every object are distinct names;
* `Value.follow?_ofJson`     a path leads to the same place before and after the import;
* `ParamSet.readDocument_imported`   an imported object survives printing and reading.
-/

namespace ParamSchema

/-! ## objects and their keys -/

/-- The keys of every object in the value are names; as keys of an object they are distinct. -/
inductive Json.KeyedByNames : Json → Prop where
  | null : KeyedByNames .null
  | bool (b : Bool) : KeyedByNames (.bool b)
  | int (i : Int) : KeyedByNames (.int i)
  | float (x : Binary64) : KeyedByNames (.float x)
  | string (s : String) : KeyedByNames (.string s)
  | array {xs : List Json} (elements : ∀ x ∈ xs, x.KeyedByNames) : KeyedByNames (.array xs)
  | object {ms : List (String × Json)} (distinct : (Entries.keys ms).Nodup)
    (names : ∀ m ∈ ms, isIdentifier m.1 = true) (members : ∀ m ∈ ms, m.2.KeyedByNames) :
    KeyedByNames (.object ms)

namespace Json

def step? (j : Json) (s : Segment) : Option Json :=
  match s, j with
  | .name k, .object ms => Entries.get? ms k
  | .index i, .array xs => xs[i]?
  | _, _ => none

def follow? (j : Json) : List Segment → Option Json
  | [] => some j
  | s :: ss => (j.step? s).bind fun k => k.follow? ss

end Json

/-! ## imported values -/

namespace Value

theorem ofJsons_eq_map (xs : List Json) : ofJsons xs = xs.map ofJson := by
  induction xs with
  | nil => rfl
  | cons x xs ih => rw [ofJsons, ih, List.map_cons]

theorem ofMembers_eq_map (ms : List (String × Json)) :
    ofMembers ms = ms.map fun m => (m.1, ofJson m.2) := by
  induction ms with
  | nil => rfl
  | cons m ms ih => rw [ofMembers, ih, List.map_cons]

/-- an imported value has no origins -/
theorem erase_ofJson (j : Json) : (ofJson j).erase = ofJson j := by
  induction j with
  | array xs ih =>
    rw [ofJson, erase, eraseAll_eq_map, ofJsons_eq_map, List.map_map]
    exact congrArg _ (List.map_congr_left ih)
  | object ms ih =>
    rw [ofJson, erase, eraseEntries_eq_map, ofMembers_eq_map, List.map_map]
    exact congrArg _ (List.map_congr_left fun m hm => congrArg (Prod.mk m.1) (ih m hm))
  | _ => rfl

/-- what is imported with names for keys can stand in a document -/
theorem legible_ofJson {j : Json} (h : j.KeyedByNames) : (ofJson j).Legible := by
  induction j with
  | null =>
    exact .atom Origin.onLine_none
      (.inl (isWord_of_isPlain (List.cons_ne_nil _ _) (isPlain_of_all rfl).2))
  | bool b => exact .atom Origin.onLine_none (isLiteral_literal (.bool b))
  | int i => exact .atom Origin.onLine_none (isLiteral_literal (.int i))
  | float x => exact .atom Origin.onLine_none (.inl (Json.spellsFloats_floatText.word x))
  | string s => exact .atom Origin.onLine_none (isLiteral_literal (.string s))
  | array xs ih =>
    cases h with
    | array hxs =>
      rw [ofJson, ofJsons_eq_map]
      exact .sequence Origin.onLine_none
        (List.forall_mem_map.2 fun x hx => ih x hx (hxs x hx))
  | object ms ih =>
    cases h with
    | object hdistinct hnames hms =>
      rw [ofJson, ofMembers_eq_map]
      refine .table Origin.onLine_none ?_ (List.forall_mem_map.2 hnames)
        (List.forall_mem_map.2 fun m hm => ih m hm (hms m hm))
      rw [Entries.keys_map]
      exact hdistinct

/-! ## paths -/

theorem step?_ofJson (j : Json) (s : Segment) :
    (ofJson j).step? s = (j.step? s).map ofJson := by
  cases s with
  | name k =>
    cases j with
    | object ms => rw [ofJson, step?, Json.step?, ofMembers_eq_map, Entries.get?_map]
    | _ => rfl
  | index i =>
    cases j with
    | array xs => rw [ofJson, step?, Json.step?, ofJsons_eq_map, List.getElem?_map]
    | _ => rfl

/-- a path leads to what it led to before the import -/
theorem follow?_ofJson (j : Json) (path : List Segment) :
    (ofJson j).follow? path = (j.follow? path).map ofJson := by
  induction path generalizing j with
  | nil => rfl
  | cons s ss ih =>
    rw [follow?, Json.follow?, step?_ofJson]
    cases j.step? s with
    | none => rfl
    | some k => exact ih k

end Value

/-! ## imported parameter sets -/

namespace ParamSet

/-- below the root, a parameter set is followed as a table is -/
theorem follow?_eq_table {p : ParamSet} {path : List Segment} (h : path ≠ []) :
    p.follow? path = (Value.table none p).follow? path := by
  cases path with
  | nil => exact absurd rfl h
  | cons s ss => cases s <;> rfl

/-- **An imported JSON object survives printing and reading, and its strings stay strings.**  If
the keys of its objects are names, it is a parameter set; the print of that is a document, in every
mode, at every level and under every name, and reads as the same tree.  Wherever the JSON holds a
string, decoding the atom as a string gives this string, and decoding it as any other type fails. -/
theorem readDocument_imported {ms : List (String × Json)} (h : (Json.object ms).KeyedByNames) :
    ∃ p, ParamSet.ofJson? (.object ms) = .ok p
      ∧ (∀ level mode source, ∃ q, readDocument (p.print level mode) source = .ok q
        ∧ ParamSet.erase q = p)
      ∧ ∀ path s, (Json.object ms).follow? path = some (.string s) →
        ∃ text, p.follow? path = some (.atom none text)
          ∧ ScalarType.string.decode text = .ok (.string s)
          ∧ ∀ t : ScalarType, t ≠ .string → ∃ e, t.decode text = .error e := by
  have hlegible : ParamSet.Legible (Value.ofMembers ms) := .ofTable (Value.legible_ofJson h)
  have herase : ParamSet.erase (Value.ofMembers ms) = Value.ofMembers ms :=
    (Value.table.inj (Value.erase_ofJson (.object ms))).2
  refine ⟨Value.ofMembers ms, rfl, ?_, ?_⟩
  · intro level mode source
    obtain ⟨q, hq, hqp⟩ := hlegible.exists_readDocument level mode source
    exact ⟨q, hq, hqp.trans herase⟩
  · intro path s hpath
    have hne : path ≠ [] := by
      intro hnil
      rw [hnil] at hpath
      cases hpath
    have hfollow := Value.follow?_ofJson (.object ms) path
    rw [hpath, Value.ofJson, ← follow?_eq_table hne] at hfollow
    exact ⟨quote s, hfollow, decode_quote s, fun t ht => decode_quote_of_ne_string ht s⟩

/-- strings that look like other values, in objects in an array -/
def lookalikes : List (String × Json) :=
  [("all", .array [.object [("text", .string "nil")], .string "1e5", .null]),
    ("rate", .float (.ofDecimal false ⟨1, 20⟩))]

theorem readDocument_imported_lookalikes :
    (Json.object lookalikes).KeyedByNames
      ∧ (Json.object lookalikes).follow? [.name "all", .index 1] = some (.string "1e5")
      ∧ ∃ p, ParamSet.ofJson? (.object lookalikes) = .ok p
        ∧ (∃ q, readDocument (p.print 1 .annotated) "out" = .ok q ∧ ParamSet.erase q = p)
        ∧ ∃ text, p.follow? [.name "all", .index 1] = some (.atom none text)
          ∧ ScalarType.string.decode text = .ok (.string "1e5")
          ∧ ∃ e, ScalarType.f64.decode text = .error e := by
  have hinner : (Json.object [("text", .string "nil")]).KeyedByNames :=
    .object (by decide) (List.forall_mem_singleton.2 (by decide))
      (List.forall_mem_singleton.2 (.string "nil"))
  have hall : (Json.array [.object [("text", .string "nil")], .string "1e5", .null]).KeyedByNames :=
    .array (List.forall_mem_cons.2 ⟨hinner,
      List.forall_mem_cons.2 ⟨.string "1e5", List.forall_mem_singleton.2 .null⟩⟩)
  have hkeys : (Json.object lookalikes).KeyedByNames :=
    .object (by decide)
      (List.forall_mem_cons.2 ⟨by decide, List.forall_mem_singleton.2 (by decide)⟩)
      (List.forall_mem_cons.2 ⟨hall, List.forall_mem_singleton.2 (.float _)⟩)
  have hpath : (Json.object lookalikes).follow? [.name "all", .index 1] = some (.string "1e5") := by
    rfl
  obtain ⟨p, hp, hread, hstrings⟩ := readDocument_imported hkeys
  obtain ⟨text, hatom, hdecode, hother⟩ := hstrings _ _ hpath
  exact ⟨hkeys, hpath, p, hp, hread 1 .annotated "out", text, hatom, hdecode,
    hother .f64 (by decide)⟩

end ParamSet
end ParamSchema
