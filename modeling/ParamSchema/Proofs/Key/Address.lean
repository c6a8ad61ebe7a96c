import ParamSchema.Proofs.Key.Spelling
import ParamSchema.Proofs.Schema.Violation

/-!
# The key of a path

`keyOf` writes a path as a key: names with dots between them, indices in brackets.  Where a path
starts with a name and no name in it holds a dot or a bracket (`IsKey`), its key spells the path
(`spells_keyOf`), and no other.

* `joinKey_keyOf`, `indexKey_keyOf`   the walks write the keys of the paths they take;
* `pathOf?_keyOf`                     the path is read back from its key;
* `covers_keyOf`                      a key covers the keys of the paths below its own, no others;
* `keyOf_injective`                   different paths have different keys.
-/

namespace ParamSchema

/-! ## writing a path -/

/-- a segment behind another -/
def Segment.suffix : Segment → String
  | .name k => "." ++ k
  | .index i => elementMarker i

def keyOf : List Segment → String
  | .name k :: ss => k ++ String.join (ss.map Segment.suffix)
  | ss => String.join (ss.map Segment.suffix)

/-- a path that its key can be taken apart into -/
structure IsKey (path : List Segment) : Prop where
  first : ∃ k ss, path = .name k :: ss
  names : ∀ k, .name k ∈ path → IsPathName k

theorem isPathName_of_isIdentifier {k : String} (h : isIdentifier k = true) : IsPathName k := by
  refine ⟨?_, not_dot_mem_of_isIdentifierChars h, ?_⟩
  · rintro rfl
    cases h
  · intro hmem
    rw [isIdentifier] at h
    generalize k.toList = cs at h hmem
    cases cs with
    | nil => cases hmem
    | cons c cs =>
      simp only [isIdentifierChars, Bool.and_eq_true, List.all_eq_true] at h
      rcases List.mem_cons.1 hmem with rfl | hmem
      · exact absurd h.1 (by decide)
      · exact absurd (h.2 '[' hmem) (by decide)

section
variable {path above : List Segment} {k : String} {i : Nat}

theorem IsKey.ne_nil (h : IsKey path) : path ≠ [] := by
  obtain ⟨k, ss, rfl⟩ := h.first
  exact List.cons_ne_nil _ _

theorem IsKey.append_name (h : path = [] ∨ IsKey path) (hk : IsPathName k) :
    IsKey (path ++ [.name k]) := by
  rcases h with rfl | h
  · refine ⟨⟨k, [], rfl⟩, fun j hj => ?_⟩
    obtain rfl := Segment.name.inj (List.mem_singleton.1 hj)
    exact hk
  · obtain ⟨⟨j, ss, rfl⟩, hnames⟩ := h
    refine ⟨⟨j, ss ++ [.name k], rfl⟩, fun l hl => ?_⟩
    rcases List.mem_append.1 hl with hl | hl
    · exact hnames l hl
    · obtain rfl := Segment.name.inj (List.mem_singleton.1 hl)
      exact hk

theorem IsKey.append_index (h : IsKey path) (i : Nat) : IsKey (path ++ [.index i]) := by
  obtain ⟨⟨j, ss, rfl⟩, hnames⟩ := h
  refine ⟨⟨j, ss ++ [.index i], rfl⟩, fun l hl => ?_⟩
  rcases List.mem_append.1 hl with hl | hl
  · exact hnames l hl
  · cases List.mem_singleton.1 hl

/-- the front of a path that has a key has one as well -/
theorem IsKey.of_append {ss : List Segment} (h : IsKey (path ++ ss)) : path = [] ∨ IsKey path := by
  cases path with
  | nil => exact .inl rfl
  | cons s path =>
    obtain ⟨⟨k, below, hfirst⟩, hnames⟩ := h
    exact .inr ⟨⟨k, path, by rw [(List.cons.inj hfirst).1]⟩,
      fun j hj => hnames j (List.mem_append_left ss hj)⟩

theorem keyOf_append (h : path ≠ []) (ss : List Segment) :
    keyOf (path ++ ss) = keyOf path ++ String.join (ss.map Segment.suffix) := by
  cases path with
  | nil => exact absurd rfl h
  | cons s path =>
    cases s with
    | name k =>
      rw [List.cons_append, keyOf, keyOf, List.map_append, String.join_append, String.append_assoc]
    | index i => simp [keyOf, String.append_assoc]

theorem keyOf_ne_empty (h : IsKey path) : keyOf path ≠ "" := by
  obtain ⟨⟨k, ss, rfl⟩, hnames⟩ := h
  have hk := (hnames k List.mem_cons_self).nonempty
  rw [keyOf]
  simp [hk]

/-- the key of a member is that of the path with its name -/
theorem joinKey_keyOf (h : path = [] ∨ IsKey path) (hk : IsPathName k) :
    joinKey (keyOf path) k = keyOf (path ++ [.name k]) := by
  have hhead : k.toList.head? ≠ some '[' := by
    intro hhead
    obtain ⟨cs, hcs⟩ := List.head?_eq_some_iff.1 hhead
    exact hk.unindexed (hcs ▸ List.mem_cons_self)
  rcases h with rfl | h
  · simp [joinKey, keyOf]
  · rw [joinKey, keyOf_append h.ne_nil]
    simp [hhead, keyOf_ne_empty h, Segment.suffix, String.append_assoc]

theorem indexKey_keyOf (h : IsKey path) (i : Nat) :
    indexKey (keyOf path) i = keyOf (path ++ [.index i]) := by
  rw [indexKey, keyOf_append h.ne_nil]
  simp [Segment.suffix]

end

/-! ## taking a key apart -/

/-- the text of a path, with a dot before the first name as well -/
def suffixChars (ss : List Segment) : List Char := ss.flatMap fun s => s.suffix.toList

theorem suffixChars_cons (s : Segment) (ss : List Segment) :
    suffixChars (s :: ss) = s.suffix.toList ++ suffixChars ss := rfl

theorem toList_suffix_name (k : String) : (Segment.name k).suffix.toList = '.' :: k.toList := by
  simp [Segment.suffix]

theorem toList_suffix_index (i : Nat) :
    (Segment.index i).suffix.toList = '[' :: (Nat.toDigits 10 i ++ [']']) := by
  simp [Segment.suffix, elementMarker]

/-- the number of an index is written without zeros or a plus before it -/
theorem spelled_suffix {s : Segment} (h : ∀ k, s = .name k → IsPathName k) :
    s.Spelled s.suffix.toList := by
  cases s with
  | name k =>
    rw [toList_suffix_name]
    exact .name (h k rfl)
  | index i =>
    rw [toList_suffix_index]
    exact .index (.toDigits i)

theorem spelledOut_suffixChars {ss : List Segment} (h : ∀ k, .name k ∈ ss → IsPathName k) :
    SpelledOut ss (suffixChars ss) := by
  induction ss with
  | nil => exact .nil
  | cons s ss ih =>
    have hs : s.Spelled s.suffix.toList := spelled_suffix fun k hk => h k (hk ▸ List.mem_cons_self)
    have hss : SpelledOut ss (suffixChars ss) := ih fun k hk => h k (List.mem_cons_of_mem s hk)
    exact spelledOut_cons.2 ⟨_, _, hs, hss, suffixChars_cons s ss⟩

/-- a key behind a dot is the text of its path -/
theorem cons_keyOf {path : List Segment} (h : IsKey path) :
    '.' :: (keyOf path).toList = suffixChars path := by
  obtain ⟨⟨k, ss, rfl⟩, _⟩ := h
  rw [suffixChars_cons, toList_suffix_name, keyOf, String.toList_append, String.toList_join,
    List.flatMap_map]
  rfl

theorem coversChars_iff_append {as cs : List Char} :
    coversChars as cs = true ↔ ∃ rest, StartsSegment rest ∧ cs = as ++ rest := by
  rw [coversChars_iff]
  constructor
  · intro h
    rcases h with rfl | ⟨c, rest, hc, rfl⟩
    · exact ⟨[], by rintro _ ⟨⟩, (List.append_nil _).symm⟩
    · refine ⟨c :: rest, fun d hd => ?_, rfl⟩
      obtain rfl := Option.some.inj hd
      exact hc
  · intro h
    obtain ⟨rest, hrest, rfl⟩ := h
    cases rest with
    | nil => exact .inl (List.append_nil as)
    | cons c rest => exact .inr ⟨c, rest, hrest c rfl, rfl⟩

/-- a key covers the keys of the paths that go through its own, and no others -/
theorem covers_keyOf {above path : List Segment} (ha : IsKey above) (hp : IsKey path) :
    covers (keyOf above) (keyOf path) = true ↔ above <+: path := by
  rw [covers, coversChars_iff_append]
  constructor
  · intro h
    obtain ⟨rest, hrest, hkey⟩ := h
    refine (spelledOut_suffixChars ha.names).isPrefix hrest ?_
    rw [← cons_keyOf ha, List.cons_append, ← hkey, cons_keyOf hp]
    exact spelledOut_suffixChars hp.names
  · intro h
    obtain ⟨below, rfl⟩ := h
    have hbelow : SpelledOut below (suffixChars below) :=
      spelledOut_suffixChars fun k hk => hp.names k (List.mem_append_right above hk)
    refine ⟨suffixChars below, hbelow.startsSegment, ?_⟩
    rw [keyOf_append ha.ne_nil, String.toList_append, String.toList_join, List.flatMap_map]
    rfl

/-! ## reading a key -/

/-- the key of a path spells it -/
theorem spells_keyOf {path : List Segment} (h : IsKey path) : Spells (keyOf path) path := by
  refine ⟨h.first, ?_⟩
  rw [cons_keyOf h]
  exact spelledOut_suffixChars h.names

theorem keyOf_injective {ss ts : List Segment} (hs : IsKey ss) (ht : IsKey ts)
    (h : keyOf ss = keyOf ts) : ss = ts :=
  (spells_keyOf hs).2.unique (h ▸ (spells_keyOf ht).2)

/-- a path is read back from its key -/
theorem pathOf?_keyOf {path : List Segment} (h : IsKey path)
    (hindex : ∀ i, .index i ∈ path → i < Nat.pow 2 64) : pathOf? (keyOf path) = some path :=
  pathOf?_eq_some_iff.2 ⟨spells_keyOf h, hindex⟩

end ParamSchema
