import ParamSchema.Proofs.Key.PathLookup

/-!
# Assignments, one by one and in a row

`ParamSet.store` works in place and opens tables before it knows whether the path can be followed.
What it opens is empty, so nothing in it is in the way: an assignment that fails has changed nothing
(`store_eq`).  One that succeeds changes what is at its path and below, and makes room for it in the
tables on the way (`Value.Updates`).

* `of_assign`             what an assignment does at the first name of its path;
* `updates_of_assign`     one assignment, by induction on its path;
* `grows_of_assignAll`    what a run of assignments makes of a value that none of them replaces;
* `assignments_in_place`  both, by keys.
-/

namespace ParamSchema

variable {p q es : ParamSet} {key name : String} {path rest : List String} {u v w : Value}
  {a o : Option Origin} {ss : List Segment}

/-! ## one assignment -/

/-- at a name on the way of a path there is a table, or the assignment opens one -/
def Opens (v : Value) (u? : Option Value) (o : Option Origin) (es : ParamSet) : Prop :=
  u? = some (.table o es) ∨ u? = none ∧ o = v.origin ∧ es = []

theorem assign_of_opens (h : Opens v (Entries.get? p name) o es) (hne : rest ≠ []) :
    p.assign (name :: rest) v
      = (es.assign rest v).map fun fs => Entries.insert p name (.table o fs) := by
  obtain ⟨next, rest, rfl⟩ := List.exists_cons_of_ne_nil hne
  rw [ParamSet.assign_cons_cons]
  rcases h with hget | ⟨hget, rfl, rfl⟩ <;> rw [hget]

theorem of_assign (h : p.assign (name :: rest) v = .ok q) (hne : rest ≠ []) :
    ∃ o es fs, Opens v (Entries.get? p name) o es ∧ es.assign rest v = .ok fs
      ∧ q = Entries.insert p name (.table o fs) := by
  obtain ⟨next, rest, rfl⟩ := List.exists_cons_of_ne_nil hne
  rw [ParamSet.assign_cons_cons] at h
  cases hget : Entries.get? p name with
  | none =>
    rw [hget] at h
    obtain ⟨fs, hfs, rfl⟩ := map_eq_ok.1 h
    exact ⟨_, _, fs, .inr ⟨rfl, rfl, rfl⟩, hfs, rfl⟩
  | some w =>
    rw [hget] at h
    cases w with
    | atom a t => cases h
    | sequence a xs => cases h
    | table a es =>
      obtain ⟨fs, hfs, rfl⟩ := map_eq_ok.1 h
      exact ⟨a, es, fs, .inl rfl, hfs, rfl⟩

/-- it fails where something else than a table is on the way -/
theorem exists_assign_iff : (∃ q, p.assign path v = .ok q) ↔ p.Passable path := by
  induction path generalizing p with
  | nil =>
    refine ⟨fun _ front back hpath hfront => ?_, fun _ => ⟨p, p.assign_nil v⟩⟩
    exact absurd (List.append_eq_nil_iff.1 hpath.symm).1 hfront
  | cons name path ih =>
    cases path with
    | nil => exact ⟨fun _ => ParamSet.passable_singleton, fun _ => ⟨_, p.assign_singleton v name⟩⟩
    | cons next rest =>
      have hne : next :: rest ≠ [] := List.cons_ne_nil next rest
      rw [ParamSet.passable_cons]
      constructor
      · rintro ⟨q, hq⟩ w hw
        obtain ⟨o, es, fs, hopens, hfs, rfl⟩ := of_assign hq hne
        rcases hopens with hget | ⟨hget, _⟩
        · obtain rfl := Option.some.inj (hw.symm.trans hget)
          exact ⟨o, es, rfl, ih.1 ⟨fs, hfs⟩⟩
        · rw [hget] at hw
          cases hw
      · intro h
        have hopens : ∃ o es, Opens v (Entries.get? p name) o es
            ∧ ParamSet.Passable es (next :: rest) := by
          cases hget : Entries.get? p name with
          | none => exact ⟨_, _, .inr ⟨rfl, rfl, rfl⟩, ParamSet.passable_empty⟩
          | some w =>
            obtain ⟨o, es, rfl, hes⟩ := h w hget
            exact ⟨o, es, .inl rfl, hes⟩
        obtain ⟨o, es, hopens, hes⟩ := hopens
        obtain ⟨fs, hfs⟩ := ih.2 hes
        rw [assign_of_opens hopens hne, hfs]
        exact ⟨_, rfl⟩

/-- where it fails, the fault is this one -/
theorem exists_eq_notATable {f : ReadFault} (h : p.assign path v = .error f) :
    ∃ name rest, f = .notATable name rest := by
  induction path generalizing p with
  | nil =>
    rw [ParamSet.assign_nil] at h
    cases h
  | cons name path ih =>
    cases path with
    | nil =>
      rw [ParamSet.assign_singleton] at h
      cases h
    | cons next rest =>
      rw [ParamSet.assign_cons_cons] at h
      split at h
      · exact ih (map_eq_error.1 h)
      · exact ih (map_eq_error.1 h)
      · exact ⟨_, _, (Except.error.inj h).symm⟩

theorem not_passable_iff (p : ParamSet) (path : List String) :
    ¬ p.Passable path ↔ ∃ front back w, path = front ++ back ∧ front ≠ [] ∧ back ≠ []
      ∧ p.follow? (front.map .name) = some w ∧ w.asTable? = none := by
  constructor
  · intro h
    by_contra hnone
    refine h fun front back hpath hfront hback w hw => ?_
    by_contra hplain
    rw [Option.not_isSome_iff_eq_none] at hplain
    exact hnone ⟨front, back, w, hpath, hfront, hback, hw, hplain⟩
  · rintro ⟨front, back, w, hpath, hfront, hback, hw, hplain⟩ h
    have htable := h front back hpath hfront hback w hw
    rw [hplain] at htable
    cases htable

/-- in place or not, an assignment does the same; where it fails, the set is left as it was -/
theorem store_eq (p : ParamSet) (path : List String) (v : Value) :
    p.store path v = match p.assign path v with
      | .ok q => (.ok (), q)
      | .error f => (.error f, p) := by
  induction path generalizing p with
  | nil => rw [ParamSet.assign_nil, ParamSet.store]
  | cons name path ih =>
    cases path with
    | nil => rw [ParamSet.assign_singleton, ParamSet.store]
    | cons next rest =>
      rw [ParamSet.assign_cons_cons, ParamSet.store]
      cases hget : Entries.get? p name with
      | none =>
        -- nothing is in the way inside a table that has just been opened
        have hopen : ∃ fs, ParamSet.assign [] (next :: rest) v = .ok fs :=
          exists_assign_iff.2 ParamSet.passable_empty
        obtain ⟨fs, hfs⟩ := hopen
        simp [Entries.get?_insert_self, Entries.insert_insert, ih, hfs, Except.map]
      | some w =>
        cases w with
        | atom a t => simp [hget]
        | sequence a xs => simp [hget]
        | table a es =>
          cases hfs : ParamSet.assign es (next :: rest) v with
          | ok fs => simp [hget, ih, hfs, Except.map]
          | error f => simp [hget, ih, hfs, Except.map, Entries.insert_of_get? hget]

/-! ## what it changes -/

/-- In `w` the value `v` is under the path, and everything else is as in `u`.  The tables on the way
keep their origins and their keys in order; a key that is new goes last, a table that was missing
has the origin of `v`. -/
structure Value.Updates (u : Value) (path : List String) (v w : Value) : Prop where
  stored : w.follow? (path.map .name) = some v
  along : ∀ front name back, path = front ++ name :: back → ∃ o es fs,
    Opens v (u.follow? (front.map .name)) o es ∧ w.follow? (front.map .name) = some (.table o fs)
      ∧ Entries.keys fs
        = if name ∈ Entries.keys es then Entries.keys es else Entries.keys es ++ [name]
  apart : ∀ ss, ¬ ss <+: path.map .name → ¬ path.map .name <+: ss → w.follow? ss = u.follow? ss

namespace Value

theorem follow?_insert_self (p : ParamSet) (name : String) (w : Value) (ss : List Segment) :
    (Value.table a (Entries.insert p name w)).follow? (.name name :: ss) = w.follow? ss := by
  rw [follow?, step?, Entries.get?_insert_self, Option.bind_some]

theorem follow?_insert_of_ne {k : String} (p : ParamSet) (w : Value) (ss : List Segment)
    (h : k ≠ name) : (Value.table a (Entries.insert p name w)).follow? (.name k :: ss)
      = (Value.table a p).follow? (.name k :: ss) := by
  rw [follow?, follow?, step?, step?, Entries.get?_insert_of_ne p w h]

theorem updates_singleton (p : ParamSet) (name : String) (v : Value) :
    (Value.table a p).Updates [name] v (.table a (Entries.insert p name v)) := by
  refine ⟨follow?_insert_self p name v [], fun front j back hpath => ?_, fun ss hbelow habove => ?_⟩
  · obtain ⟨rfl, rfl⟩ : front = [] ∧ j = name := by
      cases front with
      | nil => exact ⟨rfl, (List.cons.inj hpath).1.symm⟩
      | cons k front => exact absurd (List.cons.inj hpath).2 (by simp)
    exact ⟨a, p, _, .inl rfl, rfl, Entries.keys_insert p j v⟩
  · cases ss with
    | nil => exact absurd List.nil_prefix hbelow
    | cons s ss =>
      cases s with
      | index i => rfl
      | name k =>
        refine follow?_insert_of_ne p v ss ?_
        rintro rfl
        exact habove (List.cons_prefix_cons.2 ⟨rfl, List.nil_prefix⟩)

/-- behind the name of a table that is opened is what the table holds -/
theorem follow?_of_opens (hopens : Opens v (Entries.get? p name) o es) {ss : List Segment}
    (hne : ss ≠ []) :
    (Value.table a p).follow? (.name name :: ss) = (Value.table o es).follow? ss := by
  obtain ⟨s, ss, rfl⟩ := List.exists_cons_of_ne_nil hne
  rw [follow?, step?]
  rcases hopens with hget | ⟨hget, rfl, rfl⟩
  · rw [hget, Option.bind_some]
  · rw [hget, Option.bind_none]
    cases s <;> rfl

/-- what is opened in a table that is opened -/
theorem opens_under {b : Option Origin} {gs : ParamSet} {ss : List Segment}
    (hopens : Opens v (Entries.get? p name) o es)
    (h : Opens v ((Value.table o es).follow? ss) b gs) :
    Opens v ((Value.table a p).follow? (.name name :: ss)) b gs := by
  cases ss with
  | nil =>
    have hname : (Value.table a p).follow? [.name name] = Entries.get? p name := by
      rw [follow?, step?]
      exact Option.bind_fun_some _
    rw [hname]
    rcases h with h | ⟨h, _⟩
    · obtain ⟨rfl, rfl⟩ := Value.table.inj (Option.some.inj h)
      exact hopens
    · cases h
  | cons s ss =>
    rw [follow?_of_opens hopens (List.cons_ne_nil s ss)]
    exact h

/-- an update of a table is one of the table above it -/
theorem Updates.under {fs : ParamSet} (hopens : Opens v (Entries.get? p name) o es)
    (h : (Value.table o es).Updates rest v (.table o fs)) :
    (Value.table a p).Updates (name :: rest) v
      (.table a (Entries.insert p name (.table o fs))) := by
  refine ⟨?_, fun front j back hpath => ?_, fun ss hbelow habove => ?_⟩
  · rw [List.map_cons, follow?_insert_self]
    exact h.stored
  · cases front with
    | nil =>
      obtain rfl := (List.cons.inj hpath).1
      exact ⟨a, p, _, .inl rfl, rfl, Entries.keys_insert p name _⟩
    | cons k front =>
      obtain ⟨rfl, hrest⟩ := List.cons.inj hpath
      obtain ⟨b, gs, hs, hgs, hhs, hkeys⟩ := h.along front j back hrest
      refine ⟨b, gs, hs, opens_under hopens hgs, ?_, hkeys⟩
      rw [List.map_cons, follow?_insert_self, hhs]
  · cases ss with
    | nil => exact absurd List.nil_prefix hbelow
    | cons s ss =>
      cases s with
      | index i => rfl
      | name k =>
        by_cases hk : k = name
        · subst hk
          rw [List.map_cons, List.cons_prefix_cons] at hbelow habove
          have hbelow : ¬ ss <+: rest.map .name := fun hss => hbelow ⟨rfl, hss⟩
          have hne : ss ≠ [] := fun hnil => hbelow (hnil ▸ List.nil_prefix)
          rw [follow?_insert_self, follow?_of_opens hopens hne]
          exact h.apart ss hbelow fun hss => habove ⟨rfl, hss⟩
        · exact follow?_insert_of_ne p _ ss hk

end Value

theorem updates_of_assign (hne : path ≠ []) (h : p.assign path v = .ok q) :
    (Value.table a p).Updates path v (.table a q) := by
  induction path generalizing p q a with
  | nil => exact absurd rfl hne
  | cons name path ih =>
    cases path with
    | nil =>
      rw [ParamSet.assign_singleton] at h
      obtain rfl := Except.ok.inj h
      exact Value.updates_singleton p name v
    | cons next rest =>
      obtain ⟨o, es, fs, hopens, hfs, rfl⟩ := of_assign h (List.cons_ne_nil next rest)
      exact .under hopens (ih (List.cons_ne_nil next rest) hfs)

/-- keys stay where they are -/
theorem keys_prefix_of_assign (h : p.assign path v = .ok q) :
    Entries.keys p <+: Entries.keys q := by
  have hinsert : ∀ name w, Entries.keys p <+: Entries.keys (Entries.insert p name w) := by
    intro name w
    rw [Entries.keys_insert]
    split
    · exact List.prefix_refl _
    · exact List.prefix_append _ _
  cases path with
  | nil =>
    rw [ParamSet.assign_nil] at h
    exact Except.ok.inj h ▸ List.prefix_refl _
  | cons name path =>
    cases path with
    | nil =>
      rw [ParamSet.assign_singleton] at h
      exact Except.ok.inj h ▸ hinsert name v
    | cons next rest =>
      obtain ⟨o, es, fs, _, _, rfl⟩ := of_assign h (List.cons_ne_nil next rest)
      exact hinsert name _

/-- an assignment through a table is one in the table -/
theorem follow?_assign_append (hu : (Value.table a p).follow? (path.map .name) = some (.table o es))
    (hne : rest ≠ []) (h : p.assign (path ++ rest) v = .ok q) :
    ∃ fs, es.assign rest v = .ok fs
      ∧ (Value.table a q).follow? (path.map .name) = some (.table o fs) := by
  induction path generalizing p q a with
  | nil =>
    obtain ⟨rfl, rfl⟩ := Value.table.inj (Option.some.inj hu)
    exact ⟨q, h, rfl⟩
  | cons name path ih =>
    have hrest : path ++ rest ≠ [] := fun hnil => hne (List.append_eq_nil_iff.1 hnil).2
    obtain ⟨b, ds, gs, hopens, hgs, rfl⟩ := of_assign h hrest
    obtain ⟨w, hw, hu⟩ := Option.bind_eq_some_iff.1 hu
    rcases hopens with hget | ⟨hget, _⟩
    · obtain rfl := Option.some.inj (hget.symm.trans hw)
      obtain ⟨fs, hfs, hat⟩ := ih hu hgs
      exact ⟨fs, hfs, by rw [List.map_cons, Value.follow?_insert_self, hat]⟩
    · cases hget.symm.trans hw

/-- there is none through anything else -/
theorem assign_append_ne_ok (hu : (Value.table a p).follow? (path.map .name) = some u)
    (hplain : u.asTable? = none) (hne : rest ≠ []) : p.assign (path ++ rest) v ≠ .ok q := by
  intro h
  have hpassable : p.Passable (path ++ rest) := exists_assign_iff.1 ⟨q, h⟩
  cases path with
  | nil =>
    obtain rfl := Option.some.inj hu
    cases hplain
  | cons name path =>
    have htable := hpassable _ rest rfl (List.cons_ne_nil name path) hne u hu
    rw [hplain] at htable
    cases htable

/-! ## assignments in a row -/

/-- one assignment after the other, up to the first that fails -/
def ParamSet.assignAll (p : ParamSet) : List (List String × Value) → Except ReadFault ParamSet
  | [] => .ok p
  | (path, v) :: as => do (← p.assign path v).assignAll as

theorem assignAll_cons_eq_ok {as : List (List String × Value)} :
    p.assignAll ((path, v) :: as) = .ok q
      ↔ ∃ r, p.assign path v = .ok r ∧ r.assignAll as = .ok q := by
  rw [ParamSet.assignAll, bind_eq_ok]

theorem assignAll_append_eq_ok {as bs : List (List String × Value)} :
    p.assignAll (as ++ bs) = .ok q ↔ ∃ r, p.assignAll as = .ok r ∧ r.assignAll bs = .ok q := by
  induction as generalizing p with
  | nil => simp [ParamSet.assignAll]
  | cons a as ih =>
    obtain ⟨path, v⟩ := a
    simp only [List.cons_append, assignAll_cons_eq_ok, ih]
    constructor
    · rintro ⟨r, hr, t, ht, hq⟩
      exact ⟨t, ⟨r, hr, ht⟩, hq⟩
    · rintro ⟨t, ⟨r, hr, ht⟩, hq⟩
      exact ⟨r, hr, t, ht, hq⟩

/-- the assignments through a path, as assignments in the table there -/
def below (path : List String) (as : List (List String × Value)) : List (List String × Value) :=
  as.filterMap fun a => (a.1.dropPrefix? path).map fun rest => (rest, a.2)

/-- A value after assignments in it.  There are none in an atom or a sequence; a table keeps its
origin and the keys that it had, in their places. -/
inductive Value.Grows (as : List (List String × Value)) : Value → Value → Prop
  | plain {v : Value} : v.asTable? = none → as = [] → Grows as v v
  | table {o : Option Origin} {es fs : ParamSet} :
      es.assignAll as = .ok fs → Entries.keys es <+: Entries.keys fs →
        Grows as (.table o es) (.table o fs)

theorem Value.Grows.nil (v : Value) : v.Grows [] v := by
  cases v with
  | atom o t => exact .plain rfl rfl
  | sequence o xs => exact .plain rfl rfl
  | table o es => exact .table rfl (List.prefix_refl _)

theorem Value.Grows.eq (h : u.Grows [] w) : w = u := by
  cases h with
  | plain => rfl
  | table h => rw [Except.ok.inj h]

/-- an assignment in front of others, in a table -/
theorem Value.Grows.cons {fs : ParamSet} {as : List (List String × Value)}
    (h : es.assign rest v = .ok fs) (hgrows : (Value.table o fs).Grows as w) :
    (Value.table o es).Grows ((rest, v) :: as) w := by
  cases hgrows with
  | plain htable => cases htable
  | table hgs hkeys =>
    exact .table (assignAll_cons_eq_ok.2 ⟨fs, h, hgs⟩) ((keys_prefix_of_assign h).trans hkeys)

theorem below_cons_append (path rest : List String) (v : Value) (as : List (List String × Value)) :
    below path ((path ++ rest, v) :: as) = (rest, v) :: below path as := by
  have hdrop : (path ++ rest).dropPrefix? path = some rest :=
    List.dropPrefix?_append_of_beq rest (beq_self_eq_true path)
  rw [below, List.filterMap_cons, hdrop]
  rfl

theorem dropPrefix?_apart {π : List String} (h : ¬ path <+: π) :
    π.dropPrefix? path = none := by
  rw [Option.eq_none_iff_forall_ne_some]
  intro rest hrest
  obtain ⟨front, rfl, hfront⟩ := List.dropPrefix?_eq_some_iff.1 hrest
  exact h (eq_of_beq hfront ▸ List.prefix_append front rest)

theorem below_cons_apart {π : List String} (h : ¬ path <+: π) (v : Value)
    (as : List (List String × Value)) : below path ((π, v) :: as) = below path as := by
  rw [below, List.filterMap_cons, dropPrefix?_apart h]
  rfl

theorem below_eq_nil {as : List (List String × Value)} (h : ∀ b ∈ as, ¬ path <+: b.1) :
    below path as = [] := by
  refine List.filterMap_eq_nil_iff.2 fun b hb => ?_
  rw [dropPrefix?_apart (h b hb)]
  rfl

theorem map_name_prefix_iff {π : List String} :
    path.map Segment.name <+: π.map Segment.name ↔ path <+: π :=
  List.prefix_map_iff_of_injective fun _ _ h => Segment.name.inj h

/-- A value that no assignment of a run replaces, nor anything around it, is changed by those in it
and by no others. -/
theorem grows_of_assignAll {as : List (List String × Value)}
    (hu : (Value.table a p).follow? (path.map .name) = some u) (h : p.assignAll as = .ok q)
    (hkept : ∀ b ∈ as, ¬ b.1 <+: path) :
    ∃ w, (Value.table a q).follow? (path.map .name) = some w ∧ u.Grows (below path as) w := by
  induction as generalizing p u with
  | nil =>
    obtain rfl := Except.ok.inj h
    exact ⟨u, hu, .nil u⟩
  | cons b as ih =>
    obtain ⟨π, v⟩ := b
    obtain ⟨hπ, hlater⟩ := List.forall_mem_cons.1 hkept
    obtain ⟨r, hr, hrest⟩ := assignAll_cons_eq_ok.1 h
    by_cases hbelow : path <+: π
    · obtain ⟨rest, rfl⟩ := hbelow
      have hne : rest ≠ [] := by
        rintro rfl
        rw [List.append_nil] at hπ
        exact hπ (List.prefix_refl path)
      rw [below_cons_append]
      cases u with
      | atom o t => exact absurd hr (assign_append_ne_ok hu rfl hne)
      | sequence o xs => exact absurd hr (assign_append_ne_ok hu rfl hne)
      | table o es =>
        obtain ⟨fs, hfs, hat⟩ := follow?_assign_append hu hne hr
        obtain ⟨w, hw, hgrows⟩ := ih hat hrest hlater
        exact ⟨w, hw, .cons hfs hgrows⟩
    · rw [below_cons_apart hbelow]
      have hne : π ≠ [] := by
        rintro rfl
        exact hπ List.nil_prefix
      refine ih ?_ hrest hlater
      rw [(updates_of_assign hne hr).apart _ (mt map_name_prefix_iff.1 hbelow)
        (mt map_name_prefix_iff.1 hπ)]
      exact hu

/-! ## by keys -/

theorem isKey_names (hne : path ≠ []) (h : ∀ k ∈ path, isIdentifier k = true) :
    IsKey (path.map .name) := by
  refine ⟨?_, fun k hk => ?_⟩
  · obtain ⟨k, path, rfl⟩ := List.exists_cons_of_ne_nil hne
    exact ⟨k, path.map .name, rfl⟩
  · obtain ⟨j, hj, hk⟩ := List.mem_map.1 hk
    obtain rfl := Segment.name.inj hk
    exact isPathName_of_isIdentifier (h j hj)

theorem keyOf_names (hne : path ≠ []) (h : ∀ k ∈ path, isIdentifier k = true) :
    keyOf (path.map .name) = ".".intercalate path := by
  have hkey := cons_keyOf (isKey_names hne h)
  have htext : '.' :: ['.'].intercalate (path.map String.toList)
      = (path.map String.toList).flatMap fun part => '.' :: part :=
    cons_dot_intercalate (by simpa using hne)
  rw [← String.toList_inj, String.toList_intercalate]
  refine (List.cons.inj (hkey.trans (Eq.trans ?_ htext.symm))).2
  simp [suffixChars, List.flatMap_map, Segment.suffix]

theorem at?_names (p : ParamSet) (hne : path ≠ []) (h : ∀ k ∈ path, isIdentifier k = true) :
    p.at? (".".intercalate path) = (Value.table none p).follow? (path.map .name) := by
  have hpath : pathOf? (keyOf (path.map .name)) = some (path.map .name) := by
    refine pathOf?_keyOf (isKey_names hne h) fun i hi => ?_
    obtain ⟨k, _, hk⟩ := List.mem_map.1 hi
    cases hk
  rw [ParamSet.at?_eq_bind, ← keyOf_names hne h, hpath, Option.bind_some]

/-- the key of a path finds what is at the path, or nothing at all -/
theorem at?_keyOf_congr (hss : IsKey ss)
    (h : (Value.table none q).follow? ss = (Value.table none p).follow? ss) :
    q.at? (keyOf ss) = p.at? (keyOf ss) := by
  rw [ParamSet.at?_eq_bind, ParamSet.at?_eq_bind]
  cases hpath : pathOf? (keyOf ss) with
  | none => rfl
  | some ts =>
    have hspells := (pathOf?_eq_some_iff.1 hpath).1
    obtain rfl := hspells.2.unique (spells_keyOf hss).2
    exact h

/-- **Dotted assignment changes one path.**  It fails exactly if something else than a table is on
the way of its key, and then leaves the set as it was.  If not, the key leads to the value, the
tables on the way keep their origins and the order of their keys, and no key has another value but
those along the path and below it.  So after assignments in a row a key has the last value that it
was given, changed by none but later assignments below it, and keys stay in the places they have
once been given. -/
theorem assignments_in_place (p : ParamSet) (hkey : assignmentPath? key = some path) (v : Value) :
    ((∃ f, (p.store path v).1 = .error f) ↔
        ∃ front back w, path = front ++ back ∧ front ≠ [] ∧ back ≠ []
          ∧ p.at? (".".intercalate front) = some w ∧ w.asTable? = none)
      ∧ (∀ f, (p.store path v).1 = .error f → (p.store path v).2 = p)
      ∧ (∀ q, p.store path v = (.ok (), q) →
          q.at? key = some v ∧ (Value.table none p).Updates path v (.table none q)
            ∧ ∀ ss, IsKey ss → ¬ ss <+: path.map .name → ¬ path.map .name <+: ss →
                q.at? (keyOf ss) = p.at? (keyOf ss))
      ∧ ∀ before after r q, p.assignAll (before ++ [(path, v)]) = .ok r →
          r.assignAll after = .ok q →
            ((∀ b ∈ after, ¬ b.1 <+: path) →
                ∃ w, q.at? key = some w ∧ v.Grows (below path after) w
                  ∧ ((∀ b ∈ after, ¬ path <+: b.1) → w = v))
              ∧ ∀ front o es, (∀ b ∈ after, ¬ b.1 <+: front) →
                  (Value.table none r).follow? (front.map .name) = some (.table o es) →
                    ∃ fs, (Value.table none q).follow? (front.map .name) = some (.table o fs)
                      ∧ Entries.keys es <+: Entries.keys fs := by
  obtain ⟨hne, hnames, rfl⟩ := assignmentPath?_eq_some.1 hkey
  refine ⟨?_, fun f hf => ?_, fun q hq => ?_, fun before after r q hr hq => ⟨fun hkept => ?_, ?_⟩⟩
  · have hfails : (∃ f, (p.store path v).1 = .error f) ↔ ¬ p.Passable path := by
      rw [← exists_assign_iff (v := v), store_eq]
      cases p.assign path v <;> simp
    rw [hfails, not_passable_iff]
    refine exists_congr fun front => exists_congr fun back => exists_congr fun w => ?_
    refine and_congr_right fun hpath => and_congr_right fun hfront => and_congr_right fun _ => ?_
    have hfrontnames : ∀ k ∈ front, isIdentifier k = true :=
      fun k hk => hnames k (hpath ▸ List.mem_append_left back hk)
    obtain ⟨k, front, rfl⟩ := List.exists_cons_of_ne_nil hfront
    rw [at?_names p hfront hfrontnames]
    rfl
  · rw [store_eq] at hf ⊢
    cases hassign : p.assign path v with
    | ok q =>
      rw [hassign] at hf
      cases hf
    | error g => rfl
  · have hassign : p.assign path v = .ok q := by
      rw [ParamSet.assign, hq]
    have hupdates := updates_of_assign (a := none) hne hassign
    refine ⟨?_, hupdates, fun ss hss hbelow habove => ?_⟩
    · rw [at?_names q hne hnames, hupdates.stored]
    · exact at?_keyOf_congr hss (hupdates.apart ss hbelow habove)
  · obtain ⟨s, _, hs⟩ := assignAll_append_eq_ok.1 hr
    obtain ⟨r, hassign, hr⟩ := assignAll_cons_eq_ok.1 hs
    obtain rfl := Except.ok.inj hr
    have hstored := (updates_of_assign (a := none) hne hassign).stored
    rw [at?_names q hne hnames]
    obtain ⟨w, hw, hgrows⟩ := grows_of_assignAll hstored hq hkept
    exact ⟨w, hw, hgrows, fun hnone => (below_eq_nil hnone ▸ hgrows).eq⟩
  · intro front o es hkept htable
    obtain ⟨w, hw, hgrows⟩ := grows_of_assignAll htable hq hkept
    cases hgrows with
    | plain hplain => cases hplain
    | table _ hkeys => exact ⟨_, hw, hkeys⟩

/-- a table is opened for a key beside others, and reached again -/
theorem assignments_in_place_reopened :
    let p : ParamSet := [("a", .table none [("b", .atom none "1")]), ("c", .atom none "2")]
    assignmentPath? "a.d.e" = some ["a", "d", "e"]
      ∧ ∃ q, p.store ["a", "d", "e"] (.atom none "3") = (.ok (), q)
        ∧ q.at? "a.d.e" = some (.atom none "3") ∧ q.at? "a.b" = p.at? "a.b" := by
  intro p
  have hkey : assignmentPath? "a.d.e" = some ["a", "d", "e"] := by decide
  obtain ⟨_, _, hstored, _⟩ := assignments_in_place p hkey (.atom none "3")
  obtain ⟨hvalue, _, hapart⟩ := hstored _ rfl
  have hb : IsKey (List.map .name ["a", "b"]) := isKey_names (List.cons_ne_nil _ _) (by decide)
  exact ⟨hkey, _, rfl, hvalue, hapart _ hb (by decide) (by decide)⟩

end ParamSchema
