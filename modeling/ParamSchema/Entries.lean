/-!
# Tables in insertion order

`Entries α` is a list of named values; where it stands for a table its keys are distinct.  A name
that is inserted again keeps its place and takes the new value, so that the order of the keys is
the order of their first insertion.
-/

namespace ParamSchema

abbrev Entries (α : Type) := List (String × α)

namespace Entries

variable {α : Type}

def keys (es : Entries α) : List String := es.map Prod.fst

def get? : Entries α → String → Option α
  | [], _ => none
  | (k, v) :: es, name => if k = name then some v else get? es name

def insert : Entries α → String → α → Entries α
  | [], name, value => [(name, value)]
  | (k, v) :: es, name, value =>
    if k = name then (k, value) :: es else (k, v) :: insert es name value

def ofList (ps : List (String × α)) : Entries α :=
  ps.foldl (fun es p => insert es p.1 p.2) []

/-! ## laws -/

theorem keys_nil : keys ([] : Entries α) = [] := rfl
theorem keys_cons (e : String × α) (es : Entries α) : keys (e :: es) = e.1 :: keys es := rfl
theorem keys_append (as bs : Entries α) : keys (as ++ bs) = keys as ++ keys bs := List.map_append

theorem get?_insert_self (es : Entries α) (name : String) (value : α) :
    (es.insert name value).get? name = some value := by
  induction es with
  | nil => simp [insert, get?]
  | cons e es ih => rw [insert]; split <;> simp_all [get?]

theorem get?_insert_of_ne (es : Entries α) {name other : String} (value : α) (h : other ≠ name) :
    (es.insert name value).get? other = es.get? other := by
  induction es with
  | nil => simp [insert, get?, h.symm]
  | cons e es ih =>
    rw [insert]
    split
    · rename_i he
      subst he
      simp [get?, h.symm]
    · simp [get?, ih]

theorem insert_insert (es : Entries α) (name : String) (first second : α) :
    (es.insert name first).insert name second = es.insert name second := by
  induction es with
  | nil => simp [insert]
  | cons e es ih =>
    by_cases he : e.1 = name
    · simp [insert, he]
    · simp [insert, he, ih]

theorem insert_of_get? {es : Entries α} {name : String} {value : α}
    (h : es.get? name = some value) : es.insert name value = es := by
  induction es with
  | nil => cases h
  | cons e es ih =>
    obtain ⟨k, v⟩ := e
    rw [get?] at h
    rw [insert]
    split at h
    · obtain rfl := Option.some.inj h
      rename_i he
      rw [if_pos he]
    · rename_i he
      rw [if_neg he, ih h]

theorem keys_map {β : Type} (f : α → β) (es : Entries α) :
    keys (es.map fun e => (e.1, f e.2)) = es.keys := by
  rw [keys, List.map_map]
  rfl

theorem get?_map {β : Type} (f : α → β) (es : Entries α) (name : String) :
    get? (es.map fun e => (e.1, f e.2)) name = (es.get? name).map f := by
  induction es with
  | nil => rfl
  | cons e es ih =>
    rw [List.map_cons, get?, get?, ih]
    split <;> rfl

theorem get?_eq_none {es : Entries α} {name : String} : es.get? name = none ↔ name ∉ es.keys := by
  induction es with
  | nil => simp [get?, keys_nil]
  | cons e es ih =>
    rw [keys_cons, List.mem_cons, get?]
    by_cases he : e.1 = name
    · simp [he]
    · simp [he, Ne.symm he, ih]

theorem keys_insert_of_mem {es : Entries α} {name : String} (value : α) (h : name ∈ es.keys) :
    (es.insert name value).keys = es.keys := by
  induction es with
  | nil => simp [keys_nil] at h
  | cons e es ih =>
    rw [keys_cons, List.mem_cons] at h
    rw [insert, keys_cons]
    split
    · rw [keys_cons]
    · rename_i he
      rw [keys_cons, ih (h.resolve_left (Ne.symm he))]

theorem keys_insert_of_not_mem {es : Entries α} {name : String} (value : α) (h : name ∉ es.keys) :
    (es.insert name value).keys = es.keys ++ [name] := by
  induction es with
  | nil => rfl
  | cons e es ih =>
    rw [keys_cons, List.mem_cons, not_or] at h
    rw [insert, if_neg (Ne.symm h.1), keys_cons, keys_cons, ih h.2, List.cons_append]

theorem keys_insert (es : Entries α) (name : String) (value : α) :
    (es.insert name value).keys = if name ∈ es.keys then es.keys else es.keys ++ [name] := by
  split
  · rename_i h
    exact keys_insert_of_mem value h
  · rename_i h
    exact keys_insert_of_not_mem value h

theorem insert_of_not_mem {es : Entries α} {name : String} (value : α) (h : name ∉ es.keys) :
    es.insert name value = es ++ [(name, value)] := by
  induction es with
  | nil => rfl
  | cons e es ih =>
    rw [keys_cons, List.mem_cons, not_or] at h
    rw [insert, if_neg (Ne.symm h.1), ih h.2, List.cons_append]

theorem eq_or_mem_of_mem_insert {es : Entries α} {name : String} {value : α} {e : String × α}
    (h : e ∈ es.insert name value) : e = (name, value) ∨ e ∈ es := by
  induction es with
  | nil => exact .inl (List.mem_singleton.1 h)
  | cons d es ih =>
    rw [insert] at h
    split at h
    · rename_i hd
      rcases List.mem_cons.1 h with rfl | h
      · exact .inl (by rw [hd])
      · exact .inr (List.mem_cons_of_mem d h)
    · rcases List.mem_cons.1 h with rfl | h
      · exact .inr List.mem_cons_self
      · exact (ih h).imp_right (List.mem_cons_of_mem d)

theorem mem_of_get? {es : Entries α} {name : String} {value : α}
    (h : es.get? name = some value) : (name, value) ∈ es := by
  induction es with
  | nil => cases h
  | cons e es ih =>
    rw [get?] at h
    split at h
    · rename_i he
      obtain rfl := Option.some.inj h
      rw [← he]
      exact List.mem_cons_self
    · exact List.mem_cons_of_mem e (ih h)

theorem get?_of_mem {es : Entries α} {e : String × α} (h : es.keys.Nodup) (he : e ∈ es) :
    es.get? e.1 = some e.2 := by
  induction es with
  | nil => cases he
  | cons d es ih =>
    rw [keys_cons, List.nodup_cons] at h
    rcases List.mem_cons.1 he with rfl | he
    · rw [get?, if_pos rfl]
    · have hne : d.1 ≠ e.1 := fun heq => h.1 (heq ▸ List.mem_map_of_mem he)
      rw [get?, if_neg hne, ih h.2 he]

theorem nodup_keys_insert {es : Entries α} (name : String) (value : α) (h : es.keys.Nodup) :
    (es.insert name value).keys.Nodup := by
  by_cases hm : name ∈ es.keys
  · rw [keys_insert_of_mem value hm]
    exact h
  · rw [keys_insert_of_not_mem value hm, List.nodup_append]
    refine ⟨h, by simp, ?_⟩
    rintro a ha b hb rfl
    exact hm (by simpa using List.mem_singleton.1 hb ▸ ha)

/-! ## one entry after another -/

/-- what the entries `ps`, inserted in their order, make of `es` -/
def insertAll (es : Entries α) (ps : List (String × α)) : Entries α :=
  ps.foldl (fun es p => insert es p.1 p.2) es

theorem ofList_eq (ps : List (String × α)) : ofList ps = insertAll [] ps := rfl

theorem insertAll_cons (es : Entries α) (p : String × α) (ps : List (String × α)) :
    insertAll es (p :: ps) = insertAll (es.insert p.1 p.2) ps := rfl

/-- entries with new names are added at the end -/
theorem insertAll_of_nodup {es : Entries α} {ps : List (String × α)}
    (h : (es.keys ++ keys ps).Nodup) : insertAll es ps = es ++ ps := by
  induction ps generalizing es with
  | nil => rw [List.append_nil]; rfl
  | cons p ps ih =>
    have hnew : p.1 ∉ es.keys := fun hp =>
      (List.nodup_append.1 h).2.2 p.1 hp p.1 List.mem_cons_self rfl
    have hput : es.insert p.1 p.2 = es ++ [p] := insert_of_not_mem p.2 hnew
    have hnodup : (keys (es ++ [p]) ++ keys ps).Nodup := by
      rw [keys_append, List.append_assoc]
      exact h
    rw [insertAll_cons, hput, ih hnodup, List.append_assoc, List.singleton_append]

theorem ofList_of_nodup {ps : List (String × α)} (h : (keys ps).Nodup) : ofList ps = ps :=
  insertAll_of_nodup h

theorem insert_map {β : Type} (f : α → β) (es : Entries α) (name : String) (value : α) :
    insert (es.map fun e => (e.1, f e.2)) name (f value)
      = (es.insert name value).map fun e => (e.1, f e.2) := by
  induction es with
  | nil => rfl
  | cons e es ih =>
    rw [List.map_cons, insert, insert]
    split
    · rw [List.map_cons]
    · rw [List.map_cons, ih]

theorem insertAll_map {β : Type} (f : α → β) (es : Entries α) (ps : List (String × α)) :
    insertAll (es.map fun e => (e.1, f e.2)) (ps.map fun e => (e.1, f e.2))
      = (insertAll es ps).map fun e => (e.1, f e.2) := by
  induction ps generalizing es with
  | nil => rfl
  | cons p ps ih => rw [List.map_cons, insertAll_cons, insert_map, ih, insertAll_cons]

theorem get?_append (as bs : Entries α) (name : String) :
    get? (as ++ bs) name = (as.get? name).or (bs.get? name) := by
  induction as with
  | nil => rfl
  | cons a as ih =>
    rw [List.cons_append, get?, get?, ih]
    split <;> rfl

theorem get?_insert (es : Entries α) (e : String × α) (name : String) :
    (es.insert e.1 e.2).get? name = (get? [e] name).or (es.get? name) := by
  rw [get?]
  split
  · rename_i h
    rw [← h, get?_insert_self]
    rfl
  · rename_i h
    rw [get?_insert_of_ne es e.2 (Ne.symm h)]
    rfl

/-- the entry inserted last counts -/
theorem get?_insertAll (es : Entries α) (ps : List (String × α)) (name : String) :
    (insertAll es ps).get? name = (get? ps.reverse name).or (es.get? name) := by
  induction ps generalizing es with
  | nil => rfl
  | cons p ps ih =>
    rw [insertAll_cons, ih, List.reverse_cons, get?_append, get?_insert, Option.or_assoc]

theorem get?_ofList (ps : List (String × α)) (name : String) :
    (ofList ps).get? name = get? ps.reverse name := by
  rw [ofList_eq, get?_insertAll]
  exact Option.or_none

/-- the place where a name is inserted first counts -/
theorem keys_insertAll (es : Entries α) (ps : List (String × α)) :
    (insertAll es ps).keys = es.keys ++ ((keys ps).filter (· ∉ es.keys)).eraseDups := by
  induction ps generalizing es with
  | nil => exact (List.append_nil _).symm
  | cons p ps ih =>
    rw [insertAll_cons, ih, keys_insert, keys_cons, List.filter_cons]
    by_cases hp : p.1 ∈ es.keys
    · rw [if_pos hp, if_neg (by simpa using hp)]
    · have hrest : (keys ps).filter (· ∉ es.keys ++ [p.1])
          = ((keys ps).filter (· ∉ es.keys)).filter fun k => !k == p.1 := by
        rw [List.filter_filter]
        refine List.filter_congr fun k _ => ?_
        by_cases hk : k = p.1 <;> simp [hk]
      rw [if_neg hp, if_pos (by simpa using hp), hrest, List.eraseDups_cons, List.append_assoc]
      rfl

theorem keys_ofList (ps : List (String × α)) : (ofList ps).keys = (keys ps).eraseDups := by
  have hall : (keys ps).filter (· ∉ keys ([] : Entries α)) = keys ps :=
    List.filter_eq_self.2 fun k _ => decide_eq_true List.not_mem_nil
  rw [ofList_eq, keys_insertAll, hall]
  rfl

end Entries
end ParamSchema
