import ParamSchema.Proofs.Key.Slices
import ParamSchema.Proofs.Schema.Addressed

/-!
# Looking up a path

What is found at the key of a path is what the path leads to, step by step: a name leads to the
entry of a table, an index to an element of a sequence (`Value.Reaches`).  A key that is found
spells such a path, and a malformed one is not found.

The names in the path have to be such that they stay one segment in a key (`IsPathName`).  A path
through a table has none but these where the table is keyed by such names; a path to nowhere may
have others, and its key can lead elsewhere (`dotted_path_found_elsewhere`).

* `Value.KeyedByPathNames`   the keys of every table stay one segment;
* `reaches_iff_follow?`      the steps are those of the look-up;
* `at?_iff_reaches`          the look-up of a key, a path, a malformed key.
-/

namespace ParamSchema

/-! ## steps -/

/-- the keys of every table in the value stay one segment in a key -/
inductive Value.KeyedByPathNames : Value → Prop
  | atom {o : Option Origin} {text : String} : KeyedByPathNames (.atom o text)
  | sequence {o : Option Origin} {xs : List Value} :
      (∀ x ∈ xs, x.KeyedByPathNames) → KeyedByPathNames (.sequence o xs)
  | table {o : Option Origin} {es : List (String × Value)} :
      (∀ e ∈ es, IsPathName e.1) → (∀ e ∈ es, e.2.KeyedByPathNames) → KeyedByPathNames (.table o es)

def ParamSet.KeyedByPathNames (p : ParamSet) : Prop := (Value.table none p).KeyedByPathNames

/-- where a path leads, through tables by name and through sequences by index -/
inductive Value.Reaches : Value → List Segment → Value → Prop
  | here {v : Value} : Reaches v [] v
  | entry {o : Option Origin} {es : List (String × Value)} {k : String} {ss : List Segment}
      {v w : Value} :
      Entries.get? es k = some v → Reaches v ss w → Reaches (.table o es) (.name k :: ss) w
  | element {o : Option Origin} {xs : List Value} {i : Nat} {ss : List Segment} {v w : Value} :
      xs[i]? = some v → Reaches v ss w → Reaches (.sequence o xs) (.index i :: ss) w

namespace Value

variable {u v w : Value} {s : Segment} {path : List Segment}

theorem step?_reaches (h : u.step? s = some v) (hpath : v.Reaches path w) :
    u.Reaches (s :: path) w := by
  cases s with
  | name k =>
    cases u with
    | table o es => exact .entry h hpath
    | atom o t => cases h
    | sequence o xs => cases h
  | index i =>
    cases u with
    | sequence o xs => exact .element h hpath
    | atom o t => cases h
    | table o es => cases h

theorem reaches_iff_follow? : v.Reaches path w ↔ v.follow? path = some w := by
  constructor
  · intro h
    induction h with
    | here => rfl
    | entry hget _ ih => rw [follow?, step?, hget, Option.bind_some, ih]
    | element hget _ ih => rw [follow?, step?, hget, Option.bind_some, ih]
  · intro h
    induction path generalizing v with
    | nil =>
      obtain rfl := Option.some.inj h
      exact .here
    | cons s ss ih =>
      obtain ⟨x, hx, hss⟩ := Option.bind_eq_some_iff.1 h
      exact step?_reaches hx (ih hss)

/-- the names on a path through the value are keys of its tables -/
theorem Reaches.isPathName (h : v.Reaches path w) (hkeys : v.KeyedByPathNames) :
    ∀ k, .name k ∈ path → IsPathName k := by
  induction h with
  | here => exact nofun
  | @entry o es j ss x w hget _ ih =>
    cases hkeys with
    | table hnames hes =>
      have hmem : (j, x) ∈ es := Entries.mem_of_get? hget
      intro k hk
      rcases List.mem_cons.1 hk with hk | hk
      · obtain rfl := Segment.name.inj hk
        exact hnames _ hmem
      · exact ih (hes _ hmem) k hk
  | element hget _ ih =>
    cases hkeys with
    | sequence hxs =>
      intro k hk
      rcases List.mem_cons.1 hk with hk | hk
      · cases hk
      · exact ih (hxs _ (List.mem_of_getElem? hget)) k hk

end Value

/-! ## look-up -/

section
variable {p : ParamSet} {key : String} {path : List Segment} {v : Value}

/-- what is found at a key is at the end of the path that the key spells -/
theorem at?_eq_some_iff :
    p.at? key = some v ↔ ∃ path, Spells key path ∧ (∀ i, .index i ∈ path → i < Nat.pow 2 64)
      ∧ (Value.table none p).Reaches path v := by
  rw [ParamSet.at?_eq_bind, Option.bind_eq_some_iff]
  constructor
  · rintro ⟨path, hpath, hfollow⟩
    obtain ⟨hspells, hlt⟩ := pathOf?_eq_some_iff.1 hpath
    exact ⟨path, hspells, hlt, Value.reaches_iff_follow?.2 hfollow⟩
  · rintro ⟨path, hspells, hlt, hreaches⟩
    exact ⟨path, pathOf?_eq_some_iff.2 ⟨hspells, hlt⟩, Value.reaches_iff_follow?.1 hreaches⟩

theorem at?_keyOf_iff (hlen : p.Indexable) (h : IsKey path) :
    p.at? (keyOf path) = some v ↔ (Value.table none p).Reaches path v := by
  rw [at?_eq_some_iff]
  constructor
  · rintro ⟨other, hspells, _, hreaches⟩
    rw [(spells_keyOf h).2.unique hspells.2]
    exact hreaches
  · intro hreaches
    exact ⟨path, spells_keyOf h, hlen.index_lt (Value.reaches_iff_follow?.1 hreaches), hreaches⟩

theorem at?_of_malformed (h : Malformed key) : p.at? key = none := by
  rw [ParamSet.at?_eq_bind, pathOf?_eq_none_of_malformed h, Option.bind_none]

end

/-- **Look-up of paths.**  In a parameter set whose keys are non-empty and hold neither a dot nor an
opening bracket, what is found at the key of a path whose names are of this kind is exactly what the
path leads to, and all that a path leads to is found at its key.  A key that is found spells a path
to what is found there, up to a plus and zeros in front of an index; a malformed key is not found.
The scanner takes no bad slice on any key. -/
theorem at?_iff_reaches {p : ParamSet} (hkeys : p.KeyedByPathNames) (hlen : p.Indexable) :
    (∀ path v, IsKey path →
        (p.at? (keyOf path) = some v ↔ (Value.table none p).Reaches path v))
      ∧ (∀ k ss v, (Value.table none p).Reaches (.name k :: ss) v →
          p.at? (keyOf (.name k :: ss)) = some v)
      ∧ (∀ key v, p.at? key = some v →
          ∃ path, Spells key path ∧ (Value.table none p).Reaches path v)
      ∧ (∀ key, Malformed key → p.at? key = none)
      ∧ ∀ key, scanKey key = .ok (pathOf? key) := by
  refine ⟨fun path v h => at?_keyOf_iff hlen h, fun k ss v h => ?_, fun key v h => ?_,
    fun key h => at?_of_malformed h, scanKey_eq⟩
  · have hnames : ∀ j, .name j ∈ Segment.name k :: ss → IsPathName j := h.isPathName hkeys
    exact (at?_keyOf_iff hlen ⟨⟨k, ss, rfl⟩, hnames⟩).2 h
  · obtain ⟨path, hspells, _, hreaches⟩ := at?_eq_some_iff.1 h
    exact ⟨path, hspells, hreaches⟩

/-- a table below a sequence, and a key with an index left open -/
theorem at?_iff_reaches_sample :
    let p : ParamSet := [("ä", .table none [("b", .sequence none
      [.atom none "1", .table none [("c", .atom none "2")]])])]
    p.KeyedByPathNames ∧ p.Indexable
      ∧ p.at? (keyOf [.name "ä", .name "b", .index 1, .name "c"]) = some (.atom none "2")
      ∧ p.at? "ä.b[1" = none := by
  intro p
  have hname : ∀ {k : String}, k ≠ "" ∧ '.' ∉ k.toList ∧ '[' ∉ k.toList → IsPathName k :=
    fun h => ⟨h.1, h.2.1, h.2.2⟩
  have hkeys : p.KeyedByPathNames := by
    refine .table (List.forall_mem_singleton.2 (hname (by decide)))
      (List.forall_mem_singleton.2 (.table (List.forall_mem_singleton.2 (hname (by decide)))
        (List.forall_mem_singleton.2 (.sequence fun x hx => ?_))))
    rcases List.mem_pair.1 hx with rfl | rfl
    · exact .atom
    · exact .table (List.forall_mem_singleton.2 (hname (by decide)))
        (List.forall_mem_singleton.2 .atom)
  have hlen : p.Indexable := by
    refine .table (List.forall_mem_singleton.2 (.table (List.forall_mem_singleton.2
      (.sequence (by decide) fun x hx => ?_))))
    rcases List.mem_pair.1 hx with rfl | rfl
    · exact .atom
    · exact .table (List.forall_mem_singleton.2 .atom)
  obtain ⟨_, hfound, _, hmalformed, _⟩ := at?_iff_reaches hkeys hlen
  refine ⟨hkeys, hlen, hfound _ _ _ ?_, hmalformed _ ?_⟩
  · exact .entry rfl (.entry rfl (.element rfl (.entry rfl .here)))
  · refine ⟨"b[1".toList, by decide, ?_⟩
    show MalformedPart (['b'] ++ '[' :: ['1'])
    exact .unclosed (by decide)

/-- The key of a path with a dot in a name is that of another path: the one leads nowhere, and
something is found for the other. -/
theorem dotted_path_found_elsewhere :
    let p : ParamSet := [("a", .table none [("b", .atom none "1")])]
    p.KeyedByPathNames ∧ p.Indexable ∧ p.at? (keyOf [.name "a.b"]) = some (.atom none "1")
      ∧ ∀ v, ¬ (Value.table none p).Reaches [.name "a.b"] v := by
  intro p
  have hname : ∀ {k : String}, k ≠ "" ∧ '.' ∉ k.toList ∧ '[' ∉ k.toList → IsPathName k :=
    fun h => ⟨h.1, h.2.1, h.2.2⟩
  refine ⟨?_, ?_, rfl, fun v h => ?_⟩
  · exact .table (List.forall_mem_singleton.2 (hname (by decide)))
      (List.forall_mem_singleton.2 (.table (List.forall_mem_singleton.2 (hname (by decide)))
        (List.forall_mem_singleton.2 .atom)))
  · exact .table (List.forall_mem_singleton.2 (.table (List.forall_mem_singleton.2 .atom)))
  · cases Value.reaches_iff_follow?.1 h

end ParamSchema
