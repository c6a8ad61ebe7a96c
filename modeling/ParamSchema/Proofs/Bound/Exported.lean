import ParamSchema.Proofs.Extract.Fits
import ParamSchema.Proofs.Param.Imported

/-!
# Bound values survive JSON

Exported as JSON and imported again, a bound value is the parameter value that it is printed as,
but for the spelling of its floats (`Bound.ofJson_toJson`).  The spelling of an atom does not matter
to a schema as long as the types that have the scalar decode it (`Descriptor.bind_spelt`), and JSON
floats are decoded like literals.  So what a declared schema yields binds to itself again
(`Schema.bind_exported`).

* `Bound.scalars`      the scalars in a bound value, in order;
* `Bound.spelt`        a bound value as a parameter value, with its scalars spelt in some way;
* `Scalar.exported`    how a scalar is spelt after a detour through JSON.
-/

namespace ParamSchema

namespace Bound

/-! ## scalars and their spelling -/

mutual
def scalars : Bound → List Scalar
  | .scalar s => [s]
  | .sequence xs => allScalars xs
  | .table es => entryScalars es
def allScalars : List Bound → List Scalar
  | [] => []
  | x :: xs => x.scalars ++ allScalars xs
def entryScalars : List (String × Bound) → List Scalar
  | [] => []
  | (_, v) :: es => v.scalars ++ entryScalars es
end

section
variable (f : Scalar → String)

mutual
def spelt : Bound → Value
  | .scalar s => .atom none (f s)
  | .sequence xs => .sequence none (speltAll xs)
  | .table es => .table none (speltEntries es)
def speltAll : List Bound → List Value
  | [] => []
  | x :: xs => x.spelt :: speltAll xs
def speltEntries : List (String × Bound) → List (String × Value)
  | [] => []
  | (k, v) :: es => (k, v.spelt) :: speltEntries es
end

theorem speltAll_eq_map (xs : List Bound) : speltAll f xs = xs.map (spelt f) := by
  induction xs with
  | nil => rfl
  | cons x xs ih => rw [speltAll, ih, List.map_cons]

theorem speltEntries_eq_map (es : List (String × Bound)) :
    speltEntries f es = es.map fun e => (e.1, e.2.spelt f) := by
  induction es with
  | nil => rfl
  | cons e es ih => rw [speltEntries, ih, List.map_cons]

end

theorem mem_scalars_sequence {xs : List Bound} {x : Bound} {s : Scalar} (hx : x ∈ xs)
    (hs : s ∈ x.scalars) : s ∈ (Bound.sequence xs).scalars := by
  rw [scalars]
  induction xs with
  | nil => cases hx
  | cons y xs ih =>
    rw [allScalars, List.mem_append]
    rcases List.mem_cons.1 hx with rfl | hx
    · exact .inl hs
    · exact .inr (ih hx)

theorem mem_scalars_table {es : List (String × Bound)} {e : String × Bound} {s : Scalar}
    (he : e ∈ es) (hs : s ∈ e.2.scalars) : s ∈ (Bound.table es).scalars := by
  rw [scalars]
  induction es with
  | nil => cases he
  | cons d es ih =>
    rw [entryScalars, List.mem_append]
    rcases List.mem_cons.1 he with rfl | he
    · exact .inl hs
    · exact .inr (ih he)

theorem spelt_congr {f g : Scalar → String} {b : Bound} (h : ∀ s ∈ b.scalars, f s = g s) :
    b.spelt f = b.spelt g := by
  induction b with
  | scalar s => rw [spelt, spelt, h s (List.mem_singleton_self s)]
  | sequence xs ih =>
    rw [spelt, spelt, speltAll_eq_map, speltAll_eq_map]
    exact congrArg _ (List.map_congr_left fun x hx =>
      ih x hx fun s hs => h s (mem_scalars_sequence hx hs))
  | table es ih =>
    rw [spelt, spelt, speltEntries_eq_map, speltEntries_eq_map]
    exact congrArg _ (List.map_congr_left fun e he =>
      congrArg (Prod.mk e.1) (ih e he fun s hs => h s (mem_scalars_table he hs)))

/-- a parameter value is spelt in literals -/
theorem toValue_eq_spelt (b : Bound) : b.toValue = b.spelt Scalar.literal := by
  induction b with
  | scalar s => rw [toValue, spelt]
  | sequence xs ih =>
    rw [toValue, spelt, toValues_eq_map, speltAll_eq_map]
    exact congrArg _ (List.map_congr_left ih)
  | table es ih =>
    rw [toValue, spelt, toEntries_eq_map, speltEntries_eq_map]
    exact congrArg _ (List.map_congr_left fun e he => congrArg (Prod.mk e.1) (ih e he))

end Bound

/-! ## the detour through JSON -/

/-- the text of a scalar that was exported and imported -/
def Scalar.exported : Scalar → String
  | .float x => if x.isFinite then Json.floatText x else "nil"
  | s => s.literal

theorem Scalar.exported_of_ne_float {s : Scalar} (h : ∀ x, s ≠ .float x) :
    s.exported = s.literal := by
  cases s with
  | float x => exact absurd rfl (h x)
  | _ => rfl

theorem Scalar.ofJson_scalarJson (s : Scalar) :
    Value.ofJson (Bound.scalarJson s) = .atom none s.exported := by
  cases s with
  | float x =>
    rw [Bound.scalarJson, exported]
    split <;> rfl
  | _ => rfl

theorem Bound.ofJson_toJson (b : Bound) : Value.ofJson b.toJson = b.spelt Scalar.exported := by
  induction b with
  | scalar s => rw [toJson, spelt, Scalar.ofJson_scalarJson]
  | sequence xs ih =>
    rw [toJson, spelt, Value.ofJson, Value.ofJsons_eq_map, toJsons_eq_map, speltAll_eq_map,
      List.map_map]
    exact congrArg _ (List.map_congr_left ih)
  | table es ih =>
    rw [toJson, spelt, Value.ofJson, Value.ofMembers_eq_map, toMembers_eq_map,
      speltEntries_eq_map, List.map_map]
    exact congrArg _ (List.map_congr_left fun e he => congrArg (Prod.mk e.1) (ih e he))

/-- the types that have a scalar, but for a float that is not finite, decode it after the detour -/
theorem decode_exported {t : ScalarType} {s : Scalar} (h : t.Holds s)
    (hfinite : ∀ x, s = .float x → x.isFinite = true) : t.decode s.exported = .ok s := by
  by_cases hs : ∃ x, s = .float x
  · obtain ⟨x, rfl⟩ := hs
    have hx : x.isFinite = true := hfinite x rfl
    have hword := Json.spellsFloats_floatText.word x
    rw [Scalar.exported, if_pos hx, ScalarType.decode, trimChars_of_isWord hword]
    exact decodeChars_of_read? h hword (Json.spellsFloats_floatText.reads_back hx)
  · rw [Scalar.exported_of_ne_float fun x hx => hs ⟨x, hx⟩]
    exact decode_literal h

/-! ## other spellings bind alike -/

namespace Descriptor

variable {f : Scalar → String} {e : Descriptor} {es : List Descriptor} {ys : List Bound}
  {key : String}

/-- spelt in another way, the bound value can still stand in its own place -/
def Respells (f : Scalar → String) (d : Descriptor) (b : Bound) : Prop :=
  ∀ key, d.faults [] key b.toValue = [] → d.bind key b.toValue = .ok b →
    d.faults [] key (b.spelt f) = [] ∧ d.bind key (b.spelt f) = .ok b

theorem respells_elements (h : ∀ y ∈ ys, e.Respells f y) {i : Nat}
    (hclean : ∀ xi ∈ (ys.map Bound.toValue).zipIdx i, e.faults [] (indexKey key xi.2) xi.1 = [])
    (hbind : List.Forall₂ (fun xi y => e.bind (indexKey key xi.2) xi.1 = .ok y)
      ((ys.map Bound.toValue).zipIdx i) ys) :
    (∀ xi ∈ (ys.map (Bound.spelt f)).zipIdx i, e.faults [] (indexKey key xi.2) xi.1 = [])
      ∧ List.Forall₂ (fun xi y => e.bind (indexKey key xi.2) xi.1 = .ok y)
        ((ys.map (Bound.spelt f)).zipIdx i) ys := by
  induction ys generalizing i with
  | nil => exact ⟨List.forall_mem_nil _, .nil⟩
  | cons y ys ih =>
    rw [List.map_cons, List.zipIdx_cons] at hclean hbind ⊢
    obtain ⟨hy, hys⟩ := List.forall_mem_cons.1 h
    obtain ⟨hcleany, hcleanys⟩ := List.forall_mem_cons.1 hclean
    obtain ⟨hbindy, hbindys⟩ := List.forall₂_cons.1 hbind
    obtain ⟨hfaultsy, hboundy⟩ := hy _ hcleany hbindy
    obtain ⟨hfaultsys, hboundys⟩ := ih hys hcleanys hbindys
    exact ⟨List.forall_mem_cons.2 ⟨hfaultsy, hfaultsys⟩, .cons hboundy hboundys⟩

theorem respells_places (h : ∀ e ∈ es, ∀ y ∈ ys, e.Respells f y) {i : Nat}
    (hclean : placeFaults [] key i es (ys.map Bound.toValue) = [])
    (hbind : bindPlaces key i es (ys.map Bound.toValue) = .ok ys) :
    placeFaults [] key i es (ys.map (Bound.spelt f)) = []
      ∧ bindPlaces key i es (ys.map (Bound.spelt f)) = .ok ys := by
  induction es generalizing i ys with
  | nil =>
    cases ys with
    | nil => exact ⟨rfl, hbind⟩
    | cons y ys => cases hbind
  | cons e es ih =>
    cases ys with
    | nil => exact ⟨rfl, hbind⟩
    | cons y ys =>
      rw [List.map_cons, placeFaults, List.append_eq_nil_iff] at hclean
      rw [List.map_cons, bindPlaces] at hbind
      obtain ⟨z, hz, hbind⟩ := bind_eq_ok.1 hbind
      obtain ⟨zs, hzs, heq⟩ := bind_eq_ok.1 hbind
      obtain ⟨rfl, rfl⟩ := List.cons.inj (Except.ok.inj heq)
      obtain ⟨hfaultsy, hboundy⟩ := h e List.mem_cons_self z List.mem_cons_self _ hclean.1 hz
      obtain ⟨hfaultsys, hboundys⟩ := ih (fun d hd x hx =>
        h d (List.mem_cons_of_mem e hd) x (List.mem_cons_of_mem z hx)) hclean.2 hzs
      rw [List.map_cons, placeFaults, bindPlaces, hfaultsy, hfaultsys, hboundy, hboundys]
      exact ⟨rfl, rfl⟩

/-- an entry that is there, or is not, in another spelling -/
theorem respells_entry {d : Descriptor} {y? : Option Bound} (h : ∀ y ∈ y?, d.Respells f y)
    (hclean : d.entryFaults [] key (y?.map Bound.toValue) = [])
    (hbind : d.bindEntry key (y?.map Bound.toValue) = .ok y?) :
    d.entryFaults [] key (y?.map (Bound.spelt f)) = []
      ∧ d.bindEntry key (y?.map (Bound.spelt f)) = .ok y? := by
  cases y? with
  | none => exact ⟨hclean, hbind⟩
  | some y =>
    obtain ⟨z, hz, heq⟩ := map_eq_ok.1 hbind
    obtain rfl := Option.some.inj heq
    obtain ⟨hfaults, hbound⟩ := h z rfl key hclean hz
    exact ⟨hfaults, map_eq_ok.2 ⟨z, hbound, rfl⟩⟩

section
variable {hd : Heading} {x : Option Bound}

theorem respells_atom {t : ScalarType} {x : Option Scalar} {s : Scalar}
    (h : ∀ t : ScalarType, t.Holds s → t.decode (f s) = .ok s) :
    (Descriptor.atom hd t x).Respells f (.scalar s) := by
  intro key _ hbind
  unfold bind at hbind
  split at hbind
  · rename_i r hr
    obtain rfl := Bound.scalar.inj (Except.ok.inj hbind)
    have hdecode : decodeAtom t ((Bound.scalar r).spelt f) = .ok r := by
      rw [Bound.spelt, decodeAtom, h t (holds_of_decodeAtom hr)]
    rw [faults, bind, hdecode]
    exact ⟨rfl, rfl⟩
  · cases hbind

theorem respells_sequence {bd : LengthBound} (h : ∀ y ∈ ys, e.Respells f y) :
    (Descriptor.sequence hd e bd x).Respells f (.sequence ys) := by
  intro key hclean hbind
  rw [Bound.toValue, Bound.toValues_eq_map] at hclean hbind
  obtain ⟨o, xs, hxs, hlen, hclean⟩ := faults_sequence_eq_nil.1 hclean
  obtain ⟨zs, hbind, hzs⟩ := bind_sequence_eq_ok.1 hbind
  obtain ⟨rfl, rfl⟩ := Value.sequence.inj hxs
  obtain rfl := Bound.sequence.inj hzs
  obtain ⟨hfaults, hbound⟩ := respells_elements h hclean hbind
  rw [List.length_map] at hlen
  rw [Bound.spelt, Bound.speltAll_eq_map]
  refine ⟨faults_sequence_eq_nil.2 ⟨none, _, rfl, ?_, hfaults⟩,
    bind_sequence_eq_ok.2 ⟨zs, hbound, rfl⟩⟩
  rw [List.length_map]
  exact hlen

theorem respells_tuple (h : ∀ e ∈ es, ∀ y ∈ ys, e.Respells f y) :
    (Descriptor.tuple hd es x).Respells f (.sequence ys) := by
  intro key hclean hbind
  rw [Bound.toValue, Bound.toValues_eq_map] at hclean hbind
  obtain ⟨o, xs, hxs, hlen, hclean⟩ := faults_tuple_eq_nil.1 hclean
  obtain ⟨rfl, rfl⟩ := Value.sequence.inj hxs
  obtain ⟨zs, hbind, hzs⟩ := (bind_tuple_eq_ok hlen).1 hbind
  obtain rfl := Bound.sequence.inj hzs
  obtain ⟨hfaults, hbound⟩ := respells_places h hclean hbind
  have hlength : (zs.map (Bound.spelt f)).length = es.length := by
    rw [List.length_map] at hlen ⊢
    exact hlen
  rw [Bound.spelt, Bound.speltAll_eq_map]
  exact ⟨faults_tuple_eq_nil.2 ⟨none, _, rfl, hlength, hfaults⟩,
    (bind_tuple_eq_ok hlength).2 ⟨zs, hbound, rfl⟩⟩

theorem respells_table {ms : List Descriptor} {zs : BoundTable} (hnodup : (ms.map name).Nodup)
    (h : ∀ d ∈ ms, ∀ y ∈ Entries.get? zs d.name, d.Respells f y) :
    (Descriptor.table hd ms).Respells f (.table zs) := by
  intro key hclean hbind
  rw [Bound.toValue] at hclean hbind
  obtain ⟨o, p, hp, hclean, _⟩ := faults_table_eq_nil.1 hclean
  obtain ⟨fs, hbind, hfs⟩ := bind_table_eq_ok.1 hbind
  obtain ⟨rfl, rfl⟩ := Value.table.inj hp
  obtain rfl := Bound.table.inj hfs
  rw [memberFaults_eq_flatMap, List.flatMap_eq_nil_iff] at hclean
  obtain ⟨hsub, hbind⟩ := (bindMembers_eq_ok_of_nodup hnodup).1 hbind
  have hentries : ∀ d ∈ ms,
      d.entryFaults [] (joinKey key d.name) (Entries.get? (Bound.speltEntries f fs) d.name) = []
      ∧ d.bindEntry (joinKey key d.name) (Entries.get? (Bound.speltEntries f fs) d.name)
        = .ok (Entries.get? fs d.name) := by
    intro d hd
    have hentry := hclean d hd
    have hbound := hbind d hd
    rw [get?_toEntries] at hentry hbound
    rw [Bound.speltEntries_eq_map, Entries.get?_map]
    exact respells_entry (h d hd) hentry hbound
  have hkeys : Entries.keys (Bound.speltEntries f fs) = Entries.keys (Bound.toEntries fs) := by
    rw [Bound.keys_toEntries, Bound.speltEntries_eq_map, Entries.keys_map]
  have hmembers : memberFaults [] key (Bound.speltEntries f fs) ms = [] := by
    rw [memberFaults_eq_flatMap, List.flatMap_eq_nil_iff]
    exact fun d hd => (hentries d hd).1
  have hunknown : unknownFaults [] key ms (Bound.speltEntries f fs) = [] := by
    rw [← unknownFaults_toEntries key hsub, unknownFaults, unknownFaults, hkeys]
  have hbound : bindMembers key (Bound.speltEntries f fs) ms = .ok fs :=
    (bindMembers_eq_ok_of_nodup hnodup).2 ⟨hsub, fun d hd => (hentries d hd).2⟩
  rw [Bound.spelt]
  exact ⟨faults_table_eq_nil.2 ⟨none, _, rfl, hmembers, hunknown⟩,
    bind_table_eq_ok.2 ⟨fs, hbound, rfl⟩⟩

end

/-- The spelling of atoms does not matter, as long as the types that have a scalar decode it. -/
theorem bind_spelt {d : Descriptor} (hd : d.WellFormed) {b : Bound}
    (hb : ∀ s ∈ b.scalars, ∀ t : ScalarType, t.Holds s → t.decode (f s) = .ok s) :
    d.Respells f b := by
  -- bound values of another shape than the descriptor's have faults in their own place
  induction d generalizing b with
  | atom h t x =>
    cases b with
    | scalar s => exact respells_atom (hb s (List.mem_singleton_self s))
    | sequence ys => exact nofun
    | table zs => exact nofun
  | sequence h e bd x ih =>
    cases hd with
    | sequence he _ _ _ =>
      cases b with
      | scalar s => exact nofun
      | table zs => exact nofun
      | sequence ys =>
        exact respells_sequence fun y hy =>
          ih he fun s hs => hb s (Bound.mem_scalars_sequence hy hs)
  | tuple h es x ih =>
    cases hd with
    | tuple _ hes _ _ =>
      cases b with
      | scalar s => exact nofun
      | table zs => exact nofun
      | sequence ys =>
        exact respells_tuple fun e he y hy =>
          ih e he (hes e he) fun s hs => hb s (Bound.mem_scalars_sequence hy hs)
  | table h ms ih =>
    cases hd with
    | table _ hnodup hms =>
      cases b with
      | scalar s => exact nofun
      | sequence ys => exact nofun
      | table zs =>
        refine respells_table hnodup fun d hd y hy => ih d hd (hms d hd) fun s hs => hb s ?_
        exact Bound.mem_scalars_table (Entries.mem_of_get? hy) hs
  | optional d ih =>
    cases hd with
    | optional hd _ =>
      intro key hclean hbind
      rw [faults] at hclean ⊢
      rw [bind] at hbind ⊢
      exact ih hd hb key hclean hbind

end Descriptor

/-! ## the root -/

/-- **Bound values survive being exported as JSON and imported again.**  Let a declared schema yield
a bound table, with whatever keys ignored.  If every float in it is finite, its JSON is imported,
and the schema yields the same table, in the same order, for what is imported, with no key ignored.
If there is no float in it at all, what is imported is the parameter set that the table is printed
as. -/
theorem Schema.bind_exported {o : Outline} {s : Schema} (hs : o.schema = .ok s) {p : ParamSet}
    {ignore : List String} {b : BoundTable} (hb : s.bind p ignore = .ok b) :
    ((∀ x, Scalar.float x ∈ (Bound.table b).scalars → x.isFinite = true) →
      ∃ q, ParamSet.ofJson? b.toJson = .ok q ∧ s.bind q [] = .ok b)
    ∧ ((∀ x, Scalar.float x ∉ (Bound.table b).scalars) →
      ParamSet.ofJson? b.toJson = .ok b.toParamSet) := by
  have hwf := o.wellFormed_of_schema hs
  have himport : Value.table none (Value.ofMembers (Bound.toMembers b))
      = (Bound.table b).spelt Scalar.exported := Bound.ofJson_toJson (.table b)
  constructor
  · intro hfinite
    obtain ⟨_, hclean, hbound⟩ := Descriptor.settles_some.1 (settles_of_bind hwf hb)
    have hdecode : ∀ x ∈ (Bound.table b).scalars, ∀ t : ScalarType, t.Holds x →
        t.decode x.exported = .ok x := by
      intro x hx t ht
      refine decode_exported ht fun y hy => hfinite y ?_
      rw [← hy]
      exact hx
    obtain ⟨hfaults, hbind⟩ :=
      Descriptor.bind_spelt (hwf.table s.heading) hdecode "" (hclean "") (hbound "")
    rw [← himport] at hfaults hbind
    exact ⟨Value.ofMembers (Bound.toMembers b), rfl,
      bind_eq_ok.2 ⟨(faults_eq _ _ _).trans hfaults, hbind⟩⟩
  · intro hnone
    have hliteral : (Bound.table b).spelt Scalar.exported = (Bound.table b).toValue := by
      rw [Bound.toValue_eq_spelt]
      refine Bound.spelt_congr fun x hx => Scalar.exported_of_ne_float fun y hy => hnone y ?_
      rw [← hy]
      exact hx
    exact congrArg Except.ok (Value.table.inj (himport.trans hliteral)).2

/-- a byte, a negative float and a text in one table, and a table without floats -/
theorem Schema.bind_exported_nested :
    nestedOutline.schema = .ok nestedSchema ∧ nestedSchema.bind nestedSet [] = .ok nestedBound
      ∧ (∃ q, ParamSet.ofJson? nestedBound.toJson = .ok q ∧ nestedSchema.bind q [] = .ok nestedBound)
      ∧ portOutline.schema = .ok portSchema ∧ portSchema.bind portSet ["extra"] = .ok portBound
      ∧ ParamSet.ofJson? portBound.toJson = .ok portBound.toParamSet := by
  have hnested : nestedOutline.schema = .ok nestedSchema := by rfl
  have hnestedBound : nestedSchema.bind nestedSet [] = .ok nestedBound := by rfl
  have hport : portOutline.schema = .ok portSchema := by rfl
  have hportBound : portSchema.bind portSet ["extra"] = .ok portBound := by rfl
  refine ⟨hnested, hnestedBound, (Schema.bind_exported hnested hnestedBound).1 ?_, hport,
    hportBound, (Schema.bind_exported hport hportBound).2 ?_⟩
  · intro x hx
    simp only [nestedBound, Bound.scalars, Bound.entryScalars, Bound.allScalars, List.nil_append,
      List.append_nil, List.cons_append, List.mem_cons, Scalar.float.injEq, reduceCtorEq,
      List.not_mem_nil, false_or, or_false] at hx
    rw [hx]
    decide +kernel
  · intro x hx
    simp [portBound, Bound.scalars, Bound.entryScalars, Bound.allScalars] at hx

end ParamSchema
