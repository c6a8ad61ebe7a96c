import ParamSchema.Bound.ReadType
import ParamSchema.Proofs.Key.Address
import ParamSchema.Proofs.Schema.Lookup

/-!
# Collections, whole and by index

A bound table is read at a key, and the key of an element is the key of its sequence with an index
behind it (`indexKey`).  So a sequence can be read at once, as a list or a tuple, or element by
element, and both give the same values (`BoundTable.value_collection`).

* `pathOf?_indexKey`             an index behind a key is a step behind its path;
* `readTuple?_eq_some_iff`       a tuple is read place by place, and a list is a tuple of one type;
* `Bound.follow?_toValue`        the parameter value of a bound value has the same paths.
-/

namespace ParamSchema

/-! ## the key of an element -/

section
variable {key : String} {path : List Segment} {i : Nat}

theorem pathOf?_indexKey (h : pathOf? key = some path) (hi : i < Nat.pow 2 64) :
    pathOf? (indexKey key i) = some (path ++ [.index i]) := by
  obtain ⟨⟨⟨k, ss, rfl⟩, hspelled⟩, hlt⟩ := pathOf?_eq_some_iff.1 h
  have hmarker : SpelledOut [.index i] (elementMarker i).toList :=
    spelledOut_cons.2 ⟨_, [], spelled_suffix nofun, .nil, (List.append_nil _).symm⟩
  refine pathOf?_eq_some_iff.2 ⟨⟨⟨k, ss ++ [.index i], rfl⟩, ?_⟩, ?_⟩
  · rw [indexKey, String.toList_append, ← List.cons_append]
    exact hspelled.append hmarker
  · intro j hj
    rcases List.mem_append.1 hj with hj | hj
    · exact hlt j hj
    · obtain rfl := Segment.index.inj (List.mem_singleton.1 hj)
      exact hi

end

namespace Bound

theorem follow?_append_singleton (b : Bound) (path : List Segment) (s : Segment) :
    b.follow? (path ++ [s]) = (b.follow? path).bind fun c => c.step? s := by
  induction path generalizing b with
  | nil =>
    rw [List.nil_append, follow?, follow?, Option.bind_some]
    cases b.step? s <;> rfl
  | cons r path ih =>
    rw [List.cons_append, follow?, follow?]
    cases b.step? r with
    | none => rfl
    | some c => exact ih c

end Bound

theorem BoundTable.at?_indexKey {b : BoundTable} {key : String} {v : Bound} {i : Nat}
    (h : b.at? key = some v) (hi : i < Nat.pow 2 64) :
    b.at? (indexKey key i) = v.step? (.index i) := by
  rw [at?_eq_bind] at h
  obtain ⟨path, hpath, hfollow⟩ := Option.bind_eq_some_iff.1 h
  rw [at?_eq_bind, pathOf?_indexKey hpath hi, Option.bind_some, Bound.follow?_append_singleton,
    hfollow, Option.bind_some]

/-! ## reading place by place -/

namespace ReadType

theorem readTuple?_cons_eq_some {t : ReadType} {ts : List ReadType} {x : Bound}
    {xs zs : List Bound} :
    readTuple? (t :: ts) (x :: xs) = some zs ↔
      ∃ y ys, t.read? x = some y ∧ readTuple? ts xs = some ys ∧ zs = y :: ys := by
  rw [readTuple?]
  cases t.read? x with
  | none => simp
  | some y => cases readTuple? ts xs <;> simp [eq_comm]

theorem length_of_readTuple? {ts : List ReadType} {xs ys : List Bound}
    (h : readTuple? ts xs = some ys) : xs.length = ts.length ∧ ys.length = ts.length := by
  induction ts generalizing xs ys with
  | nil =>
    cases xs with
    | nil =>
      obtain rfl := Option.some.inj h
      exact ⟨rfl, rfl⟩
    | cons x xs => cases h
  | cons t ts ih =>
    cases xs with
    | nil => cases h
    | cons x xs =>
      obtain ⟨y, zs, _, hzs, rfl⟩ := readTuple?_cons_eq_some.1 h
      obtain ⟨hxs, hys⟩ := ih hzs
      exact ⟨congrArg (· + 1) hxs, congrArg (· + 1) hys⟩

/-- as many values as types, and what is read of each is in its place -/
theorem readTuple?_eq_some_iff {ts : List ReadType} {xs ys : List Bound} :
    readTuple? ts xs = some ys ↔ xs.length = ts.length ∧ ys.length = ts.length
      ∧ ∀ (i : Nat) (t : ReadType) (y : Bound), ts[i]? = some t → ys[i]? = some y →
          ∃ x, xs[i]? = some x ∧ t.read? x = some y := by
  constructor
  · intro h
    obtain ⟨hxs, hys⟩ := length_of_readTuple? h
    refine ⟨hxs, hys, ?_⟩
    induction ts generalizing xs ys with
    | nil => exact nofun
    | cons t ts ih =>
      obtain ⟨x, xs, rfl⟩ := List.exists_cons_of_length_eq_add_one hxs
      obtain ⟨y, zs, hy, hzs, rfl⟩ := readTuple?_cons_eq_some.1 h
      intro i u z hu hz
      cases i with
      | zero =>
        obtain rfl := Option.some.inj hu
        obtain rfl := Option.some.inj hz
        exact ⟨x, rfl, hy⟩
      | succ i => exact ih hzs (Nat.succ.inj hxs) (Nat.succ.inj hys) i u z hu hz
  · rintro ⟨hxs, hys, hall⟩
    induction ts generalizing xs ys with
    | nil =>
      obtain rfl := List.eq_nil_of_length_eq_zero hxs
      obtain rfl := List.eq_nil_of_length_eq_zero hys
      rfl
    | cons t ts ih =>
      obtain ⟨x, xs, rfl⟩ := List.exists_cons_of_length_eq_add_one hxs
      obtain ⟨y, ys, rfl⟩ := List.exists_cons_of_length_eq_add_one hys
      obtain ⟨z, hz, hy⟩ := hall 0 t y rfl rfl
      obtain rfl := Option.some.inj hz
      have hrest := ih (Nat.succ.inj hxs) (Nat.succ.inj hys) fun i => hall (i + 1)
      exact readTuple?_cons_eq_some.2 ⟨y, ys, hy, hrest, rfl⟩

/-- a list is a tuple of one type in all places -/
theorem readTuple?_replicate (t : ReadType) (xs : List Bound) :
    readTuple? (List.replicate xs.length t) xs = xs.mapM t.read? := by
  induction xs with
  | nil => rfl
  | cons x xs ih =>
    rw [List.length_cons, List.replicate_succ, readTuple?, ih, List.mapM_cons]
    cases t.read? x with
    | none => rfl
    | some y => cases xs.mapM t.read? <;> rfl

theorem read?_tuple_eq_some {ts : List ReadType} {v w : Bound} :
    (tuple ts).read? v = some w ↔
      ∃ xs ys, v = .sequence xs ∧ readTuple? ts xs = some ys ∧ w = .sequence ys := by
  cases v with
  | scalar s => simp [read?]
  | sequence xs => simp [read?, eq_comm]
  | table es => simp [read?]

theorem read?_list_eq_some {t : ReadType} {v w : Bound} :
    (list t).read? v = some w ↔ ∃ xs ys, v = .sequence xs
      ∧ readTuple? (List.replicate xs.length t) xs = some ys ∧ w = .sequence ys := by
  cases v with
  | scalar s => simp [read?]
  | sequence xs => simp [read?, readTuple?_replicate, eq_comm]
  | table es => simp [read?]

end ReadType

/-! ## reading at a key -/

namespace BoundTable

variable {b : BoundTable} {key : String} {v w : Bound} {t : ReadType}

theorem value_eq_ok (h : b.at? key = some v) : b.value t key = .ok w ↔ t.read? v = some w := by
  unfold value
  rw [h]
  cases hread : t.read? v with
  | none => simp [hread]
  | some u => simp [hread]

theorem value_eq_error (h : b.at? key = some v) {e : LookupError} :
    b.value t key = .error e ↔ t.read? v = none ∧ e = .wrongType key t.fullName := by
  unfold value
  rw [h]
  cases hread : t.read? v with
  | none => simp [hread, eq_comm]
  | some u => simp [hread]

/-- what is read at the key of an element is that element, read as the type -/
theorem value_indexKey_eq_ok {xs : List Bound} (h : b.at? key = some (.sequence xs)) {i : Nat}
    (hi : i < xs.length) (hlen : xs.length ≤ Nat.pow 2 64) :
    b.value t (indexKey key i) = .ok w ↔ ∃ x, xs[i]? = some x ∧ t.read? x = some w := by
  have helement : b.at? (indexKey key i) = some xs[i] :=
    (at?_indexKey h (Nat.lt_of_lt_of_le hi hlen)).trans (List.getElem?_eq_getElem hi)
  rw [value_eq_ok helement, List.getElem?_eq_getElem hi]
  simp

end BoundTable

/-! ## the same look-up in the parameter set -/

namespace Bound

theorem step?_toValue (b : Bound) (s : Segment) :
    b.toValue.step? s = (b.step? s).map toValue := by
  cases b with
  | scalar c => cases s <;> rfl
  | sequence xs =>
    cases s with
    | name k => rfl
    | index i =>
      rw [toValue, toValues_eq_map]
      exact List.getElem?_map
  | table es =>
    cases s with
    | name k =>
      rw [toValue, toEntries_eq_map]
      exact Entries.get?_map toValue es k
    | index i => rfl

theorem follow?_toValue (b : Bound) (path : List Segment) :
    b.toValue.follow? path = (b.follow? path).map toValue := by
  induction path generalizing b with
  | nil => rfl
  | cons s path ih =>
    rw [Value.follow?, follow?, step?_toValue]
    cases b.step? s with
    | none => rfl
    | some c => exact ih c

end Bound

theorem BoundTable.at?_toParamSet (b : BoundTable) (key : String) :
    b.toParamSet.at? key = (b.at? key).map Bound.toValue := by
  rw [ParamSet.at?_eq_bind, BoundTable.at?_eq_bind]
  cases pathOf? key with
  | none => rfl
  | some path => exact Bound.follow?_toValue (.table b) path

/-! ## whole and by index -/

namespace BoundTable

variable {b : BoundTable} {key : String} {v : Bound} {ys : List Bound}

theorem value_tuple_eq_ok (h : b.at? key = some v)
    (hlen : ∀ xs, v = .sequence xs → xs.length ≤ Nat.pow 2 64) {ts : List ReadType} :
    b.value (.tuple ts) key = .ok (.sequence ys) ↔
      (∃ xs, v = .sequence xs ∧ xs.length = ts.length) ∧ ys.length = ts.length
        ∧ ∀ (i : Nat) (t : ReadType) (y : Bound), ts[i]? = some t → ys[i]? = some y →
            b.value t (indexKey key i) = .ok y := by
  rw [value_eq_ok h, ReadType.read?_tuple_eq_some]
  constructor
  · rintro ⟨xs, zs, rfl, hread, hys⟩
    obtain rfl := Bound.sequence.inj hys
    obtain ⟨hxs, hcount, hall⟩ := ReadType.readTuple?_eq_some_iff.1 hread
    refine ⟨⟨xs, rfl, hxs⟩, hcount, fun i t y ht hy => ?_⟩
    have hi : i < xs.length := hxs ▸ (List.getElem?_eq_some_iff.1 ht).1
    exact (value_indexKey_eq_ok h hi (hlen xs rfl)).2 (hall i t y ht hy)
  · rintro ⟨⟨xs, rfl, hxs⟩, hcount, hall⟩
    refine ⟨xs, ys, rfl, ReadType.readTuple?_eq_some_iff.2 ⟨hxs, hcount, ?_⟩, rfl⟩
    intro i t y ht hy
    have hi : i < xs.length := hxs ▸ (List.getElem?_eq_some_iff.1 ht).1
    exact (value_indexKey_eq_ok h hi (hlen xs rfl)).1 (hall i t y ht hy)

/-- a sequence is read as a list as it is read as a tuple of its length -/
theorem value_list_eq_ok_iff_tuple (h : b.at? key = some v) {t : ReadType} :
    b.value (.list t) key = .ok (.sequence ys)
      ↔ b.value (.tuple (List.replicate ys.length t)) key = .ok (.sequence ys) := by
  rw [value_eq_ok h, value_eq_ok h, ReadType.read?_list_eq_some, ReadType.read?_tuple_eq_some]
  constructor
  · rintro ⟨xs, zs, rfl, hread, hys⟩
    obtain rfl := Bound.sequence.inj hys
    have hcount := (ReadType.length_of_readTuple? hread).2
    rw [List.length_replicate] at hcount
    exact ⟨xs, ys, rfl, hcount ▸ hread, rfl⟩
  · rintro ⟨xs, zs, rfl, hread, hys⟩
    obtain rfl := Bound.sequence.inj hys
    have hcount := (ReadType.length_of_readTuple? hread).1
    rw [List.length_replicate] at hcount
    exact ⟨xs, ys, rfl, hcount ▸ hread, rfl⟩

theorem value_list_eq_ok (h : b.at? key = some v)
    (hlen : ∀ xs, v = .sequence xs → xs.length ≤ Nat.pow 2 64) {t : ReadType} :
    b.value (.list t) key = .ok (.sequence ys) ↔
      (∃ xs, v = .sequence xs ∧ xs.length = ys.length)
        ∧ ∀ (i : Nat) (y : Bound), ys[i]? = some y → b.value t (indexKey key i) = .ok y := by
  rw [value_list_eq_ok_iff_tuple h, value_tuple_eq_ok h hlen, List.length_replicate]
  constructor
  · rintro ⟨hseq, _, hall⟩
    refine ⟨hseq, fun i y hy => hall i t y ?_ hy⟩
    exact List.getElem?_replicate_of_lt (List.getElem?_eq_some_iff.1 hy).1
  · rintro ⟨hseq, hall⟩
    refine ⟨hseq, rfl, fun i u y hu hy => ?_⟩
    obtain rfl := List.eq_of_mem_replicate (List.mem_of_getElem? hu)
    exact hall i y hy

/-- a collection is read whole or not at all -/
theorem value_collection_cases (h : b.at? key = some v) {c : ReadType}
    (hc : ∀ w, c.read? v = some w → ∃ ys, w = .sequence ys) :
    (∃ ys, b.value c key = .ok (.sequence ys))
      ∨ b.value c key = .error (.wrongType key c.fullName) := by
  cases hread : c.read? v with
  | none => exact .inr ((value_eq_error h).2 ⟨hread, rfl⟩)
  | some w =>
    obtain ⟨ys, rfl⟩ := hc w hread
    exact .inl ⟨ys, (value_eq_ok h).2 hread⟩

/-- **A collection is read whole as it is read by index.**  At a key where something is found, a
list is read exactly if a sequence of its length is there, whose elements are read as those of the
list at the keys with their indices behind; a tuple likewise, of exactly as many elements as it has
types.
In every other case the collection is of the wrong type.  And whatever the key, what the parameter
set of the table has there is the parameter value of what the table has. -/
theorem value_collection (b : BoundTable) :
    (∀ key v, b.at? key = some v → (∀ xs, v = .sequence xs → xs.length ≤ Nat.pow 2 64) →
        (∀ t ys, b.value (.list t) key = .ok (.sequence ys) ↔
            (∃ xs, v = .sequence xs ∧ xs.length = ys.length)
              ∧ ∀ (i : Nat) (y : Bound), ys[i]? = some y → b.value t (indexKey key i) = .ok y)
          ∧ (∀ ts ys, b.value (.tuple ts) key = .ok (.sequence ys) ↔
              (∃ xs, v = .sequence xs ∧ xs.length = ts.length) ∧ ys.length = ts.length
                ∧ ∀ (i : Nat) (t : ReadType) (y : Bound), ts[i]? = some t → ys[i]? = some y →
                    b.value t (indexKey key i) = .ok y)
          ∧ (∀ t, (∃ ys, b.value (.list t) key = .ok (.sequence ys))
              ∨ b.value (.list t) key = .error (.wrongType key (ReadType.list t).fullName))
          ∧ (∀ ts, (∃ ys, b.value (.tuple ts) key = .ok (.sequence ys))
              ∨ b.value (.tuple ts) key = .error (.wrongType key (ReadType.tuple ts).fullName)))
      ∧ ∀ key, b.toParamSet.at? key = (b.at? key).map Bound.toValue := by
  refine ⟨fun key v h hlen => ⟨fun t ys => value_list_eq_ok h hlen,
    fun ts ys => value_tuple_eq_ok h hlen, fun t => value_collection_cases h fun w hw => ?_,
    fun ts => value_collection_cases h fun w hw => ?_⟩, b.at?_toParamSet⟩
  · obtain ⟨_, ys, _, _, rfl⟩ := ReadType.read?_list_eq_some.1 hw
    exact ⟨ys, rfl⟩
  · obtain ⟨_, ys, _, _, rfl⟩ := ReadType.read?_tuple_eq_some.1 hw
    exact ⟨ys, rfl⟩

/-- pairs in a list below a table: the second of them is read by index, and the list is no triple -/
theorem value_collection_pairs :
    let pair (s : String) (n : Nat) : Bound := .sequence [.scalar (.string s), .scalar (.uint n)]
    let v : Bound := .sequence [pair "David" 9, pair "Ann" 300]
    let b : BoundTable := [("ages", .table [("known", v)])]
    let pairType : ReadType := .tuple [.scalar .string, .scalar (.unsigned .w16)]
    b.at? "ages.known" = some v ∧ (∀ xs, v = .sequence xs → xs.length ≤ Nat.pow 2 64)
      ∧ b.value (.list pairType) "ages.known" = .ok v
      ∧ b.value pairType (indexKey "ages.known" 1) = .ok (pair "Ann" 300)
      ∧ b.value (.tuple [.value, .value, .value]) "ages.known"
        = .error (.wrongType "ages.known" (ReadType.tuple [.value, .value, .value]).fullName) := by
  intro pair v b pairType
  have hpath : pathOf? "ages.known" = some [.name "ages", .name "known"] := by decide +kernel
  have hfound : b.at? "ages.known" = some v := by
    rw [at?_eq_bind, hpath]
    rfl
  have hlen : ∀ xs, v = .sequence xs → xs.length ≤ Nat.pow 2 64 := by
    rintro xs hxs
    obtain rfl := Bound.sequence.inj hxs
    decide
  have hwhole : b.value (.list pairType) "ages.known" = .ok v := (value_eq_ok hfound).2 (by rfl)
  obtain ⟨hlist, htuple, _, hcases⟩ := (value_collection b).1 _ v hfound hlen
  refine ⟨hfound, hlen, hwhole, ((hlist _ _).1 hwhole).2 1 _ rfl, (hcases _).resolve_left ?_⟩
  rintro ⟨ys, hys⟩
  obtain ⟨⟨xs, hxs, hcount⟩, _⟩ := (htuple _ _).1 hys
  obtain rfl := Bound.sequence.inj hxs
  cases hcount

end BoundTable
end ParamSchema
