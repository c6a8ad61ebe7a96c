import ParamSchema.Proofs.Schema.Sound

/-!
# A key leads to the same place everywhere

A path can be followed through a schema as it can through a parameter set and through a bound table
(`Descriptor.follow?`).  The three walks stay together, segment by segment: where the input has a
value, the schema has a descriptor and the bound table what the one binds to under the other, unless
the path goes through an entry that the schema does not declare (`Descriptor.Leaves`); where only
the bound table has a value, a member was left out above it (`Descriptor.FilledIn`).

* `Descriptor.BindsTo`   the value has no faults under the descriptor, and binds to this;
* `SameShape`            a scalar for an atom, as many elements, a table for a table;
* `BindsTo.step`, `BindsTo.step_back`   one segment, from the input and from the bound table.
-/

namespace ParamSchema

/-! ## keys -/

theorem partSegments?_eq_some {cs : List Char} {path : List Segment}
    (h : partSegments? cs = some path) : ∃ k is, path = .name k :: is := by
  rw [partSegments?] at h
  split at h
  · cases h
  · obtain ⟨is, _, rfl⟩ := Option.map_eq_some_iff.1 h
    exact ⟨_, _, rfl⟩

/-- a path starts with a name -/
theorem pathOf?_eq_some {key : String} {path : List Segment} (h : pathOf? key = some path) :
    ∃ k ss, path = .name k :: ss := by
  obtain ⟨part, parts, hparts⟩ := List.exists_cons_of_ne_nil (splitDots_ne_nil key.toList)
  rw [pathOf?, hparts, List.mapM_cons] at h
  obtain ⟨sss, hsss, rfl⟩ := Option.map_eq_some_iff.1 h
  obtain ⟨ss, hss, hsss⟩ := Option.bind_eq_some_iff.1 hsss
  obtain ⟨rest, _, hsss⟩ := Option.bind_eq_some_iff.1 hsss
  obtain rfl := Option.some.inj hsss
  obtain ⟨k, is, rfl⟩ := partSegments?_eq_some hss
  exact ⟨k, is ++ rest.flatten, rfl⟩

/-- to look up a key is to follow its path from the root -/
theorem ParamSet.at?_eq_bind (p : ParamSet) (key : String) :
    p.at? key = (pathOf? key).bind (Value.table none p).follow? := by
  cases hpath : pathOf? key with
  | none => rw [ParamSet.at?, hpath, Option.bind_none, Option.bind_none]
  | some path =>
    obtain ⟨k, ss, rfl⟩ := pathOf?_eq_some hpath
    rw [ParamSet.at?, hpath]
    rfl

theorem BoundTable.at?_eq_bind (b : BoundTable) (key : String) :
    b.at? key = (pathOf? key).bind (Bound.table b).follow? := by
  cases hpath : pathOf? key with
  | none => rw [BoundTable.at?, hpath, Option.bind_none, Option.bind_none]
  | some path =>
    obtain ⟨k, ss, rfl⟩ := pathOf?_eq_some hpath
    rw [BoundTable.at?, hpath]
    rfl

/-! ## shapes -/

inductive SameShape : Value → Bound → Prop
  | scalar {o : Option Origin} {text : String} {x : Scalar} : SameShape (.atom o text) (.scalar x)
  | sequence {o : Option Origin} {xs : List Value} {ys : List Bound} :
      ys.length = xs.length → SameShape (.sequence o xs) (.sequence ys)
  | table {o : Option Origin} {p : ParamSet} {es : BoundTable} :
      SameShape (.table o p) (.table es)

namespace Descriptor

/-! ## paths through a schema -/

/-- the descriptor without the mark that it is optional -/
def unwrap : Descriptor → Descriptor
  | .optional d => d.unwrap
  | d => d

def members? (d : Descriptor) : Option (List Descriptor) :=
  match d.unwrap with
  | .table _ ms => some ms
  | _ => none

def scalarType? (d : Descriptor) : Option ScalarType :=
  match d.unwrap with
  | .atom _ t _ => some t
  | _ => none

def step? (d : Descriptor) (s : Segment) : Option Descriptor :=
  match s, d.unwrap with
  | .name k, .table _ ms => ms.find? fun m => m.name == k
  | .index _, .sequence _ e _ _ => some e
  | .index i, .tuple _ es _ => es[i]?
  | _, _ => none

def follow? (d : Descriptor) : List Segment → Option Descriptor
  | [] => some d
  | s :: ss => (d.step? s).bind fun e => e.follow? ss

/-- a prefix of the path names an entry that the table at its place does not declare -/
def Leaves (d : Descriptor) (path : List Segment) : Prop :=
  ∃ front k back ms, path = front ++ .name k :: back ∧ (d.follow? front).bind members? = some ms
    ∧ isMember ms k = false

/-- the entry of a well-formed parameter, if there is one, has no faults and binds to this -/
structure Binds (d : Descriptor) (v? : Option Value) (y : Option Bound) : Prop where
  wellFormed : d.WellFormed
  walked : ∃ ignore key, d.entryFaults ignore key v? = [] ∧ d.bindEntry key v? = .ok y

/-- The member `k` of the table at `front` is not in the input; in its place there is what the
member binds to when it is left out. -/
structure FilledIn (d : Descriptor) (v : Value) (b : Bound) (front : List Segment) (k : String) :
    Prop where
  present : (v.follow? front).isSome
  absent : v.follow? (front ++ [.name k]) = none
  filled : ∃ ms m x, (d.follow? front).bind members? = some ms ∧ m ∈ ms ∧ m.name = k
    ∧ m.isOptional = false ∧ m.mayBeAbsent = true ∧ b.follow? (front ++ [.name k]) = some x
    ∧ ∀ key, m.bindAbsent key = .ok (some x)

/-! ## one level -/

/-- a descriptor, a value and what it binds to, with the same for their children -/
inductive Level : Descriptor → Value → Bound → Prop
  | atom {h : Heading} {t : ScalarType} {y : Option Scalar} {o : Option Origin} {text : String}
      {x : Scalar} : t.decode text = .ok x → Level (.atom h t y) (.atom o text) (.scalar x)
  | sequence {h : Heading} {e : Descriptor} {bd : LengthBound} {y : Option Bound}
      {o : Option Origin} {xs : List Value} {ys : List Bound} :
      List.Forall₂ (fun w c => e.Binds (some w) (some c)) xs ys →
        Level (.sequence h e bd y) (.sequence o xs) (.sequence ys)
  | tuple {h : Heading} {es : List Descriptor} {y : Option Bound} {o : Option Origin}
      {xs : List Value} {ys : List Bound} : xs.length = es.length →
      List.Forall₂ (fun ex c => ex.1.Binds (some ex.2) (some c)) (es.zip xs) ys →
        Level (.tuple h es y) (.sequence o xs) (.sequence ys)
  | table {h : Heading} {ms : List Descriptor} {o : Option Origin} {p : ParamSet}
      {es : BoundTable} : (Entries.keys es).Sublist (ms.map name) →
      (∀ m ∈ ms, m.Binds (Entries.get? p m.name) (Entries.get? es m.name)) →
        Level (.table h ms) (.table o p) (.table es)

variable {d : Descriptor} {v w : Value} {b c : Bound} {s : Segment} {path : List Segment}

theorem binds_some :
    d.Binds (some v) (some b) ↔
      d.WellFormed ∧ ∃ ignore key, d.faults ignore key v = [] ∧ d.bind key v = .ok b := by
  constructor
  · intro h
    obtain ⟨hwf, ignore, key, hclean, hentry⟩ := h
    obtain ⟨c, hc, hcb⟩ := map_eq_ok.1 hentry
    obtain rfl := Option.some.inj hcb
    exact ⟨hwf, ignore, key, hclean, hc⟩
  · intro h
    obtain ⟨hwf, ignore, key, hclean, hbind⟩ := h
    exact ⟨hwf, ignore, key, hclean, map_eq_ok.2 ⟨b, hbind, rfl⟩⟩

theorem level_places {ignore : List String} {key : String} {i : Nat} {es : List Descriptor}
    {xs : List Value} {ys : List Bound} (hwf : ∀ e ∈ es, e.WellFormed)
    (hclean : placeFaults ignore key i es xs = []) (hbind : bindPlaces key i es xs = .ok ys) :
    List.Forall₂ (fun ex c => ex.1.Binds (some ex.2) (some c)) (es.zip xs) ys := by
  rw [placeFaults_eq_flatMap, List.flatMap_eq_nil_iff] at hclean
  rw [bindPlaces_eq_mapM, mapM_eq_ok] at hbind
  rw [← List.zipIdx_map_fst i (es.zip xs), List.forall₂_map_left_iff]
  refine forall₂_imp_of_mem hbind fun exi hexi c hc => ?_
  have he : exi.1.1 ∈ es := (List.of_mem_zip (List.fst_mem_of_mem_zipIdx hexi)).1
  exact binds_some.2 ⟨hwf _ he, ignore, _, hclean exi hexi, hc⟩

/-- both walks go down to the same children -/
theorem Binds.level (h : d.Binds (some v) (some b)) : Level d.unwrap v b := by
  obtain ⟨hwf, ignore, key, hclean, hbind⟩ := binds_some.1 h
  clear h
  induction d with
  | atom g t x =>
    unfold bind at hbind
    split at hbind
    · rename_i x hx
      obtain rfl := Except.ok.inj hbind
      cases v with
      | atom o text =>
        rw [decodeAtom] at hx
        split at hx
        · rename_i y hy
          obtain rfl := Except.ok.inj hx
          exact .atom hy
        · cases hx
      | sequence o xs => cases hx
      | table o p => cases hx
    · cases hbind
  | sequence g e bd x ih =>
    cases hwf with
    | sequence he _ _ _ =>
      obtain ⟨o, xs, rfl, _, hxs⟩ := faults_sequence_eq_nil.1 hclean
      obtain ⟨ys, hys, rfl⟩ := bind_sequence_eq_ok.1 hbind
      refine .sequence ?_
      rw [← List.zipIdx_map_fst 0 xs, List.forall₂_map_left_iff]
      refine forall₂_imp_of_mem hys fun xi hxi c hc => ?_
      exact binds_some.2 ⟨he, ignore, _, hxs xi hxi, hc⟩
  | tuple g es x ih =>
    cases hwf with
    | tuple _ hes _ _ =>
      obtain ⟨o, xs, rfl, hlen, hplaces⟩ := faults_tuple_eq_nil.1 hclean
      obtain ⟨ys, hys, rfl⟩ := (bind_tuple_eq_ok hlen).1 hbind
      exact .tuple hlen (level_places hes hplaces hys)
  | table g ms ih =>
    cases hwf with
    | table _ hnodup hms =>
      obtain ⟨o, p, rfl, hmembers, _⟩ := faults_table_eq_nil.1 hclean
      obtain ⟨es, hes, rfl⟩ := bind_table_eq_ok.1 hbind
      obtain ⟨hsub, hentries⟩ := (bindMembers_eq_ok_of_nodup hnodup).1 hes
      rw [memberFaults_eq_flatMap, List.flatMap_eq_nil_iff] at hmembers
      exact .table hsub fun m hm => ⟨hms m hm, ignore, _, hmembers m hm, hentries m hm⟩
  | optional d ih =>
    cases hwf with
    | optional hd _ =>
      rw [faults] at hclean
      rw [bind] at hbind
      exact ih hd hclean hbind

theorem Level.sameShape (h : Level d v b) : SameShape v b := by
  cases h with
  | atom _ => exact .scalar
  | sequence hys => exact .sequence hys.length_eq.symm
  | tuple hlen hys =>
    refine .sequence ?_
    rw [← hys.length_eq, List.length_zip, hlen, Nat.min_self]
  | table _ _ => exact .table

/-- an atom binds to what decoding its text gives -/
theorem Binds.decode {text : String} (h : d.Binds (some v) (some b))
    (hv : v.asAtom? = some text) :
    ∃ t x, d.scalarType? = some t ∧ t.decode text = .ok x ∧ b = .scalar x := by
  have hlevel := h.level
  generalize hd : d.unwrap = u at hlevel
  cases hlevel with
  | atom hx =>
    obtain rfl := Option.some.inj hv
    exact ⟨_, _, by rw [scalarType?, hd], hx, rfl⟩
  | sequence _ => cases hv
  | tuple _ _ => cases hv
  | table _ _ => cases hv

/-- what is there is bound to something -/
theorem Binds.exists_some {y : Option Bound} (h : d.Binds (some v) y) : ∃ b, y = some b := by
  obtain ⟨_, _, _, _, hentry⟩ := h
  obtain ⟨b, _, rfl⟩ := map_eq_ok.1 hentry
  exact ⟨b, rfl⟩

/-- what stands for a parameter that is left out -/
theorem Binds.of_absent (h : d.Binds none (some b)) :
    d.isOptional = false ∧ d.mayBeAbsent = true ∧ ∀ key, d.bindAbsent key = .ok (some b) := by
  obtain ⟨_, ignore, key, hclean, hentry⟩ := h
  have hbound : ∀ key, d.bindAbsent key = .ok (some b) := fun _ => (BindsAs.refl d).absent _ hentry
  refine ⟨?_, entryFaults_none_eq_nil.1 hclean, hbound⟩
  cases d with
  | optional e => cases hbound key
  | _ => rfl

/-! ## one segment -/

theorem exists_find?_eq_some {ms : List Descriptor} {k : String} (h : isMember ms k = true) :
    ∃ m, (ms.find? fun m => m.name == k) = some m ∧ m ∈ ms ∧ m.name = k := by
  obtain ⟨m, hm⟩ := Option.isSome_iff_exists.1 (List.find?_isSome.2 (List.any_eq_true.1 h))
  have hname : (m.name == k) = true := (List.find?_eq_some_iff_append.1 hm).1
  exact ⟨m, hm, List.mem_of_find?_eq_some hm, beq_iff_eq.1 hname⟩

section
variable {h : Heading} {e : Descriptor} {es ms : List Descriptor} {bd : LengthBound}
  {x : Option Bound}

theorem step?_sequence (hd : d.unwrap = .sequence h e bd x) (i : Nat) :
    d.step? (.index i) = some e := by
  unfold step?
  rw [hd]

theorem step?_tuple (hd : d.unwrap = .tuple h es x) (i : Nat) : d.step? (.index i) = es[i]? := by
  unfold step?
  rw [hd]

theorem step?_table (hd : d.unwrap = .table h ms) (k : String) :
    d.step? (.name k) = ms.find? fun m => m.name == k := by
  unfold step?
  rw [hd]

theorem members?_table (hd : d.unwrap = .table h ms) : d.members? = some ms := by
  rw [members?, hd]

end

/-- a segment of the input is one of the bound value, unless the schema does not declare it -/
theorem Binds.step (h : d.Binds (some v) (some b)) (hw : v.step? s = some w) :
    (∃ k ms, s = .name k ∧ d.members? = some ms ∧ isMember ms k = false)
      ∨ ∃ e c, d.step? s = some e ∧ b.step? s = some c ∧ e.Binds (some w) (some c) := by
  have hlevel := h.level
  generalize hd : d.unwrap = u at hlevel
  cases hlevel with
  | atom _ => cases s <;> cases hw
  | sequence hys =>
    cases s with
    | name k => cases hw
    | index i =>
      obtain ⟨c, hc, hwc⟩ := exists_getElem?_of_forall₂ hys hw
      exact .inr ⟨_, c, step?_sequence hd i, hc, hwc⟩
  | @tuple _ es _ _ xs _ hlen hys =>
    cases s with
    | name k => cases hw
    | index i =>
      have hi : i < es.length := hlen ▸ (List.getElem?_eq_some_iff.1 hw).1
      have hzip : (es.zip xs)[i]? = some (es[i], w) :=
        List.getElem?_zip_eq_some.2 ⟨List.getElem?_eq_getElem hi, hw⟩
      obtain ⟨c, hc, hwc⟩ := exists_getElem?_of_forall₂ hys hzip
      exact .inr ⟨es[i], c, (step?_tuple hd i).trans (List.getElem?_eq_getElem hi), hc, hwc⟩
  | @table _ ms _ p es _ hms =>
    cases s with
    | index i => cases hw
    | name k =>
      cases hk : isMember ms k with
      | false => exact .inl ⟨k, ms, rfl, members?_table hd, hk⟩
      | true =>
        obtain ⟨m, hm, hmem, rfl⟩ := exists_find?_eq_some hk
        have hentry := hms m hmem
        have hget : Entries.get? p m.name = some w := hw
        rw [hget] at hentry
        obtain ⟨c, hc⟩ := hentry.exists_some
        exact .inr ⟨m, c, (step?_table hd _).trans hm, hc, hc ▸ hentry⟩

/-- a segment of the bound value is one of the input, unless it stands for a member left out -/
theorem Binds.step_back (h : d.Binds (some v) (some b)) (hc : b.step? s = some c) :
    (∃ e w, d.step? s = some e ∧ v.step? s = some w ∧ e.Binds (some w) (some c))
      ∨ ∃ ms m, s = .name m.name ∧ v.step? s = none ∧ d.members? = some ms ∧ m ∈ ms
        ∧ m.Binds none (some c) := by
  have hlevel := h.level
  generalize hd : d.unwrap = u at hlevel
  cases hlevel with
  | atom _ => cases s <;> cases hc
  | sequence hys =>
    cases s with
    | name k => cases hc
    | index i =>
      obtain ⟨w, hw, hwc⟩ := exists_getElem?_of_forall₂ hys.flip hc
      exact .inl ⟨_, w, step?_sequence hd i, hw, hwc⟩
  | tuple _ hys =>
    cases s with
    | name k => cases hc
    | index i =>
      obtain ⟨⟨e, w⟩, hew, hwc⟩ := exists_getElem?_of_forall₂ hys.flip hc
      obtain ⟨he, hw⟩ := List.getElem?_zip_eq_some.1 hew
      exact .inl ⟨e, w, (step?_tuple hd i).trans he, hw, hwc⟩
  | @table _ ms _ p es hsub hms =>
    cases s with
    | index i => cases hc
    | name k =>
      have hget : Entries.get? es k = some c := hc
      have hkey : k ∈ Entries.keys es := List.mem_map_of_mem (Entries.mem_of_get? hget)
      have hk : isMember ms k = true := by
        obtain ⟨m, hm, hname⟩ := List.mem_map.1 (hsub.subset hkey)
        exact List.any_eq_true.2 ⟨m, hm, beq_iff_eq.2 hname⟩
      obtain ⟨m, hm, hmem, rfl⟩ := exists_find?_eq_some hk
      have hentry := hms m hmem
      rw [hget] at hentry
      cases hw : Entries.get? p m.name with
      | none => exact .inr ⟨ms, m, rfl, hw, members?_table hd, hmem, hw ▸ hentry⟩
      | some w => exact .inl ⟨m, w, (step?_table hd _).trans hm, hw, hw ▸ hentry⟩

/-! ## whole paths -/

theorem Leaves.cons {e : Descriptor} (he : d.step? s = some e) (h : e.Leaves path) :
    d.Leaves (s :: path) := by
  obtain ⟨front, k, back, ms, rfl, hms, hno⟩ := h
  refine ⟨s :: front, k, back, ms, rfl, ?_, hno⟩
  rw [follow?, he]
  exact hms

theorem FilledIn.cons {e : Descriptor} {front : List Segment} {k : String}
    (he : d.step? s = some e) (hw : v.step? s = some w) (hc : b.step? s = some c)
    (h : e.FilledIn w c front k) : d.FilledIn v b (s :: front) k := by
  obtain ⟨hpresent, habsent, hfilled⟩ := h
  refine ⟨?_, ?_, ?_⟩
  · rw [Value.follow?, hw]
    exact hpresent
  · rw [List.cons_append, Value.follow?, hw]
    exact habsent
  · rw [follow?, he, List.cons_append, Bound.follow?, hc]
    exact hfilled

/-- where the input has a value, the bound value has what it binds to -/
theorem Binds.follow (h : d.Binds (some v) (some b)) (hw : v.follow? path = some w) :
    d.Leaves path
      ∨ ∃ e c, d.follow? path = some e ∧ b.follow? path = some c ∧ e.Binds (some w) (some c) := by
  induction path generalizing d v b with
  | nil =>
    obtain rfl := Option.some.inj hw
    exact .inr ⟨d, b, rfl, rfl, h⟩
  | cons s path ih =>
    obtain ⟨x, hx, hw⟩ := Option.bind_eq_some_iff.1 hw
    rcases h.step hx with ⟨k, ms, rfl, hms, hno⟩ | ⟨e, c, he, hc, hec⟩
    · exact .inl ⟨[], k, path, ms, rfl, hms, hno⟩
    · rcases ih hec hw with hleaves | ⟨f, y, hf, hy, hfy⟩
      · exact .inl (hleaves.cons he)
      · exact .inr ⟨f, y, by rw [follow?, he]; exact hf, by rw [Bound.follow?, hc]; exact hy, hfy⟩

/-- where only the bound value has something, a member above it was left out -/
theorem Binds.exists_filledIn (h : d.Binds (some v) (some b)) (hc : b.follow? path = some c)
    (hv : v.follow? path = none) :
    ∃ front k, front ++ [.name k] <+: path ∧ d.FilledIn v b front k := by
  induction path generalizing d v b with
  | nil => cases hv
  | cons s path ih =>
    obtain ⟨x, hx, hc⟩ := Option.bind_eq_some_iff.1 hc
    rcases h.step_back hx with ⟨e, w, he, hw, hex⟩ | ⟨ms, m, rfl, hw, hms, hm, hmx⟩
    · rw [Value.follow?, hw] at hv
      obtain ⟨front, k, hpath, hfilled⟩ := ih hex hc hv
      exact ⟨s :: front, k, List.cons_prefix_cons.2 ⟨rfl, hpath⟩, hfilled.cons he hw hx⟩
    · obtain ⟨hplain, habsent, hbound⟩ := hmx.of_absent
      refine ⟨[], m.name, List.cons_prefix_cons.2 ⟨rfl, List.nil_prefix⟩, rfl, ?_, ?_⟩
      · rw [List.nil_append, Value.follow?, hw, Option.bind_none]
      · refine ⟨ms, m, x, hms, hm, rfl, hplain, habsent, ?_, hbound⟩
        rw [List.nil_append, Bound.follow?, hx]
        rfl

end Descriptor

/-! ## the root -/

/-- **Binding loses nothing and alters nothing.**  A key that the parameter set has is one of the
bound table as well, unless it goes through an entry that the schema does not declare; the value
there has the shape of the input, and is for an atom what decoding its text gives.  A key that only
the bound table has goes through a member that was left out, and there the bound table holds what
such a member binds to. -/
theorem Schema.bind_lookup {o : Outline} {s : Schema} (hs : o.schema = .ok s) {p : ParamSet}
    {ignore : List String} {b : BoundTable} (hb : s.bind p ignore = .ok b) (key : String) :
    (∀ v, p.at? key = some v → ∃ path, pathOf? key = some path ∧
      (s.toDescriptor.Leaves path ∨ ∃ d c, s.toDescriptor.follow? path = some d
        ∧ b.at? key = some c ∧ SameShape v c
        ∧ ∀ text, v.asAtom? = some text → ∃ t x, d.scalarType? = some t
          ∧ t.decode text = .ok x ∧ c = .scalar x ∧ p.get t key = .ok x))
    ∧ ∀ c, b.at? key = some c → p.at? key = none → ∃ path front k, pathOf? key = some path
      ∧ front ++ [.name k] <+: path
      ∧ s.toDescriptor.FilledIn (.table none p) (.table b) front k := by
  obtain ⟨hclean, hbind⟩ := bind_eq_ok.1 hb
  rw [faults_eq] at hclean
  have hwf : s.toDescriptor.WellFormed := (o.wellFormed_of_schema hs).table s.heading
  have hroot : s.toDescriptor.Binds (some (.table none p)) (some (.table b)) :=
    Descriptor.binds_some.2 ⟨hwf, ignore, "", hclean, hbind⟩
  constructor
  · intro v hv
    have hat := hv
    rw [ParamSet.at?_eq_bind] at hat
    obtain ⟨path, hpath, hfollow⟩ := Option.bind_eq_some_iff.1 hat
    refine ⟨path, hpath, (hroot.follow hfollow).imp_right ?_⟩
    intro h
    obtain ⟨d, c, hd, hc, hdc⟩ := h
    have hbat : b.at? key = some c := by
      rw [BoundTable.at?_eq_bind, hpath]
      exact hc
    refine ⟨d, c, hd, hbat, hdc.level.sameShape, fun text htext => ?_⟩
    obtain ⟨t, x, ht, hx, rfl⟩ := hdc.decode htext
    refine ⟨t, x, ht, hx, rfl, ?_⟩
    rw [ParamSet.get, hv]
    simp only [htext, Option.map_some, hx]
  · intro c hc hnone
    rw [BoundTable.at?_eq_bind] at hc
    obtain ⟨path, hpath, hfollow⟩ := Option.bind_eq_some_iff.1 hc
    rw [ParamSet.at?_eq_bind, hpath] at hnone
    obtain ⟨front, k, hprefix, hfilled⟩ := hroot.exists_filledIn hfollow hnone
    exact ⟨path, front, k, hpath, hprefix, hfilled⟩

/-- an entry of the input, and an element of a default in a table that the input leaves out -/
theorem Schema.bind_lookup_port :
    portOutline.schema = .ok portSchema ∧ portSchema.bind portSet ["extra"] = .ok portBound
      ∧ portSet.at? "label" = some (.atom none "'a\\b'")
      ∧ (∃ path, pathOf? "label" = some path ∧ (portSchema.toDescriptor.Leaves path
        ∨ ∃ d c, portSchema.toDescriptor.follow? path = some d ∧ portBound.at? "label" = some c
          ∧ SameShape (.atom none "'a\\b'") c
          ∧ ∀ text, (Value.atom none "'a\\b'").asAtom? = some text → ∃ t x,
            d.scalarType? = some t ∧ t.decode text = .ok x ∧ c = .scalar x
              ∧ portSet.get t "label" = .ok x))
      ∧ portBound.at? "limits.bytes[0]" = some (.scalar (.uint 7))
      ∧ portSet.at? "limits.bytes[0]" = none
      ∧ ∃ path front k, pathOf? "limits.bytes[0]" = some path ∧ front ++ [.name k] <+: path
        ∧ portSchema.toDescriptor.FilledIn (.table none portSet) (.table portBound) front k := by
  have hs : portOutline.schema = .ok portSchema := by rfl
  have hb : portSchema.bind portSet ["extra"] = .ok portBound := by rfl
  have hlabel : portSet.at? "label" = some (.atom none "'a\\b'") := by
    have hpath : pathOf? "label" = some [.name "label"] := by decide +kernel
    rw [ParamSet.at?, hpath]
    rfl
  have hpath : pathOf? "limits.bytes[0]" = some [.name "limits", .name "bytes", .index 0] := by
    decide +kernel
  have hbyte : portBound.at? "limits.bytes[0]" = some (.scalar (.uint 7)) := by
    rw [BoundTable.at?, hpath]
    rfl
  have hnone : portSet.at? "limits.bytes[0]" = none := by
    rw [ParamSet.at?, hpath]
    rfl
  exact ⟨hs, hb, hlabel, (Schema.bind_lookup hs hb "label").1 _ hlabel, hbyte, hnone,
    (Schema.bind_lookup hs hb "limits.bytes[0]").2 _ hbyte hnone⟩

end ParamSchema
