import ParamSchema.Proofs.Schema.Rebind

/-!
# Bound values conform to their descriptors

`Descriptor.Conforms d v? b` says that `b` fits `d`, where `v?` is the input at the place of `b`, if
there was one: scalars of the declared type, lengths that the bound admits, one value for each place
of a tuple, and in a table the members in the order of their declaration, without the optional ones
that the input does not have.

A value has come there by one of three ways: from the input, as a declared default, or in a table
that was left out.  A default stands for an input that reads as the default does.

The two walks have halves of this, lengths and unknown keys the one, scalars the other
(`WellFormed.conforms`); the declaration has the defaults (`WellFormed.settling`).
-/

namespace ParamSchema
namespace Descriptor

/-! ## what conforms -/

/-- the entries of a table that may have been left out -/
def entriesOf : Option Value → Option ParamSet
  | none => some []
  | some (.table _ p) => some p
  | some _ => none

/-- a member is bound unless it is optional and absent -/
def isBound (p : ParamSet) (d : Descriptor) : Bool :=
  !d.isOptional || (Entries.get? p d.name).isSome

inductive Conforms : Descriptor → Option Value → Bound → Prop
  | atom {h : Heading} {t : ScalarType} {x : Option Scalar} {v : Value} {s : Scalar} :
      t.Holds s → Conforms (.atom h t x) (some v) (.scalar s)
  | atomDefault {h : Heading} {t : ScalarType} {s : Scalar} :
      t.Holds s → Conforms (.atom h t (some s)) none (.scalar s)
  | sequence {h : Heading} {e : Descriptor} {bd : LengthBound} {x : Option Bound}
      {o : Option Origin} {xs : List Value} {ys : List Bound} :
      bd.admits ys.length = true → ys.length = xs.length →
        (∀ (i : Nat) v y, xs[i]? = some v → ys[i]? = some y → Conforms e (some v) y) →
          Conforms (.sequence h e bd x) (some (.sequence o xs)) (.sequence ys)
  | sequenceDefault {h : Heading} {e : Descriptor} {bd : LengthBound} {b : Bound} :
      Conforms (.sequence h e bd (some b)) (some b.toValue) b →
        Conforms (.sequence h e bd (some b)) none b
  | tuple {h : Heading} {es : List Descriptor} {x : Option Bound} {o : Option Origin}
      {xs : List Value} {ys : List Bound} :
      ys.length = es.length → ys.length = xs.length →
        (∀ (i : Nat) e v y, es[i]? = some e → xs[i]? = some v → ys[i]? = some y →
          Conforms e (some v) y) →
          Conforms (.tuple h es x) (some (.sequence o xs)) (.sequence ys)
  | tupleDefault {h : Heading} {es : List Descriptor} {b : Bound} :
      Conforms (.tuple h es (some b)) (some b.toValue) b → Conforms (.tuple h es (some b)) none b
  | table {h : Heading} {ms : List Descriptor} {v? : Option Value} {p : ParamSet}
      {es : BoundTable} :
      entriesOf v? = some p → Entries.keys es = (ms.filter (isBound p)).map name →
        (Entries.keys es).Nodup →
          (∀ d ∈ ms, ∀ b, Entries.get? es d.name = some b →
            Conforms d (Entries.get? p d.name) b) →
            Conforms (.table h ms) v? (.table es)
  | optional {d : Descriptor} {v : Value} {b : Bound} :
      Conforms d (some v) b → Conforms (.optional d) (some v) b

/-! ## by the kind of the descriptor -/

section
variable {hd : Heading} {e : Descriptor} {es ms : List Descriptor} {v? : Option Value} {b : Bound}

theorem Conforms.of_atom {t : ScalarType} {x : Option Scalar}
    (h : (Descriptor.atom hd t x).Conforms v? b) : ∃ s, b = .scalar s ∧ t.Holds s := by
  cases h with
  | atom hs => exact ⟨_, rfl, hs⟩
  | atomDefault hs => exact ⟨_, rfl, hs⟩

theorem Conforms.of_sequence {bd : LengthBound} {x : Option Bound}
    (h : (Descriptor.sequence hd e bd x).Conforms v? b) :
    ∃ ys, b = .sequence ys ∧ ∀ y ∈ ys, ∃ v, e.Conforms (some v) y := by
  have hpresent (v : Value) (h : (Descriptor.sequence hd e bd x).Conforms (some v) b) :
      ∃ ys, b = .sequence ys ∧ ∀ y ∈ ys, ∃ v, e.Conforms (some v) y := by
    cases h with
    | @sequence _ _ _ _ _ xs ys _ hlen hys =>
      refine ⟨ys, rfl, fun y hy => ?_⟩
      obtain ⟨i, hi⟩ := List.getElem?_of_mem hy
      have hix : i < xs.length := hlen ▸ (List.getElem?_eq_some_iff.1 hi).1
      exact ⟨xs[i], hys i _ y (List.getElem?_eq_getElem hix) hi⟩
  cases v? with
  | some v => exact hpresent v h
  | none =>
    cases h with
    | sequenceDefault h => exact hpresent _ h

theorem Conforms.of_tuple {x : Option Bound} (h : (Descriptor.tuple hd es x).Conforms v? b) :
    ∃ ys, b = .sequence ys ∧ ys.length = es.length
      ∧ ∀ (i : Nat) e y, es[i]? = some e → ys[i]? = some y → ∃ v, e.Conforms (some v) y := by
  have hpresent (v : Value) (h : (Descriptor.tuple hd es x).Conforms (some v) b) :
      ∃ ys, b = .sequence ys ∧ ys.length = es.length
        ∧ ∀ (i : Nat) e y, es[i]? = some e → ys[i]? = some y → ∃ v, e.Conforms (some v) y := by
    cases h with
    | @tuple _ _ _ _ xs ys hcount hlen hys =>
      refine ⟨ys, rfl, hcount, fun i e y he hy => ?_⟩
      have hix : i < xs.length := hlen ▸ (List.getElem?_eq_some_iff.1 hy).1
      exact ⟨xs[i], hys i e _ y he (List.getElem?_eq_getElem hix) hy⟩
  cases v? with
  | some v => exact hpresent v h
  | none =>
    cases h with
    | tupleDefault h => exact hpresent _ h

theorem Conforms.of_table (h : (Descriptor.table hd ms).Conforms v? b) :
    ∃ bs, b = .table bs ∧ ∀ d ∈ ms, (Entries.get? bs d.name = none → d.isOptional = true)
      ∧ ∀ c, Entries.get? bs d.name = some c → ∃ v?, d.Conforms v? c := by
  cases h with
  | @table _ _ _ p bs _ hkeys _ hms =>
    refine ⟨bs, rfl, fun d hd => ⟨fun habsent => ?_, fun c hc => ⟨_, hms d hd c hc⟩⟩⟩
    rw [Entries.get?_eq_none, hkeys] at habsent
    by_contra hopt
    have hbound : isBound p d = true := by simp [isBound, Bool.eq_false_iff.2 hopt]
    exact habsent (List.mem_map_of_mem (List.mem_filter.2 ⟨hd, hbound⟩))

theorem Conforms.of_optional (h : (Descriptor.optional e).Conforms v? b) :
    ∃ v, e.Conforms (some v) b := by
  cases h with
  | optional h => exact ⟨_, h⟩

end

/-! ## the keys of a table -/

theorem bindEntry_eq_ok_none {d : Descriptor} {key : String} {v? : Option Value} :
    d.bindEntry key v? = .ok none ↔ v? = none ∧ d.isOptional = true := by
  cases v? with
  | some v =>
    constructor
    · intro h
      obtain ⟨b, _, hb⟩ := map_eq_ok.1 h
      cases hb
    · intro h
      cases h.1
  | none =>
    show d.bindAbsent key = .ok none ↔ _
    cases d with
    | atom hd t x => cases x <;> simp [bindAbsent, isOptional]
    | sequence hd e bd x => cases x <;> simp [bindAbsent, isOptional]
    | tuple hd es x => cases x <;> simp [bindAbsent, isOptional]
    | table hd ms =>
      rw [bindAbsent, map_eq_ok]
      simp [isOptional]
    | optional d => simp [bindAbsent, isOptional]

/-- a table has the bound members for its keys, in the order of their declaration -/
theorem keys_of_bindMembers {key : String} {p : ParamSet} {ms : List Descriptor} {es : BoundTable}
    (h : bindMembers key p ms = .ok es) :
    Entries.keys es = (ms.filter (isBound p)).map name := by
  induction ms generalizing es with
  | nil =>
    rw [bindMembers_nil] at h
    obtain rfl := Except.ok.inj h
    rfl
  | cons d ds ih =>
    obtain ⟨y, ys, hy, hys, rfl⟩ := bindMembers_cons_eq_ok.1 h
    rw [Entries.keys_append, ih hys]
    by_cases hnone : y = none
    · subst hnone
      have habsent := bindEntry_eq_ok_none.1 hy
      have hd : isBound p d = false := by simp [isBound, habsent]
      rw [List.filter_cons_of_neg (by simp [hd])]
      rfl
    · obtain ⟨b, rfl⟩ := Option.ne_none_iff_exists'.1 hnone
      have hd : isBound p d = true := by
        by_contra hno
        have habsent : Entries.get? p d.name = none ∧ d.isOptional = true := by
          simp [isBound] at hno
          exact ⟨hno.2, hno.1⟩
        rw [bindEntry_eq_ok_none.2 habsent] at hy
        cases hy
      rw [List.filter_cons_of_pos hd]
      rfl

/-! ## what is bound conforms -/

/-- whatever the parameter binds to without faults conforms -/
def Conforming (d : Descriptor) : Prop :=
  ∀ ignore key v? b,
    d.entryFaults ignore key v? = [] → d.bindEntry key v? = .ok (some b) → d.Conforms v? b

variable {hd : Heading} {d e : Descriptor} {ignore : List String} {key : String} {v : Value}
  {b : Bound}

theorem Conforming.present (h : d.Conforming) (hclean : d.faults ignore key v = [])
    (hbind : d.bind key v = .ok b) : d.Conforms (some v) b := by
  have hentry : d.entryFaults ignore key (some v) = [] := hclean
  exact h _ _ _ _ hentry (map_eq_ok.2 ⟨b, hbind, rfl⟩)

/-- a parameter conforms if it does with an entry, and without one -/
theorem Conforming.intro
    (habsent : ∀ key b, d.mayBeAbsent = true → d.bindAbsent key = .ok (some b) →
      d.Conforms none b)
    (hpresent : ∀ ignore key v b, d.faults ignore key v = [] → d.bind key v = .ok b →
      d.Conforms (some v) b) : d.Conforming := by
  intro ignore key v? b hclean hbind
  cases v? with
  | none => exact habsent key b (entryFaults_none_eq_nil.1 hclean) hbind
  | some v =>
    obtain ⟨c, hc, hcb⟩ := map_eq_ok.1 hbind
    obtain rfl := Option.some.inj hcb
    exact hpresent ignore key v c hclean hc

theorem conforming_atom {t : ScalarType} {x : Option Scalar} (hx : ∀ s ∈ x, t.Holds s) :
    (Descriptor.atom hd t x).Conforming := by
  apply Conforming.intro
  · intro key b _ hbind
    cases x with
    | none => cases hbind
    | some s =>
      have hs : some (Bound.scalar s) = some b := Except.ok.inj hbind
      obtain rfl := Option.some.inj hs
      exact .atomDefault (hx s rfl)
  · intro ignore key v b _ hbind
    unfold bind at hbind
    split at hbind
    · rename_i s hs
      obtain rfl := Except.ok.inj hbind
      exact .atom (holds_of_decodeAtom hs)
    · cases hbind

theorem conforms_sequence {bd : LengthBound} {x : Option Bound} (he : e.Conforming)
    (hclean : (Descriptor.sequence hd e bd x).faults ignore key v = [])
    (hbind : (Descriptor.sequence hd e bd x).bind key v = .ok b) :
    (Descriptor.sequence hd e bd x).Conforms (some v) b := by
  obtain ⟨o, xs, rfl, hlen, hxs⟩ := faults_sequence_eq_nil.1 hclean
  obtain ⟨ys, hys, rfl⟩ := bind_sequence_eq_ok.1 hbind
  have hboth : ys.length = xs.length := by
    rw [← hys.length_eq, List.length_zipIdx]
  refine .sequence (hboth ▸ hlen) hboth fun i w y hw hy => ?_
  have hwi : xs.zipIdx[i]? = some (w, i) := by
    rw [List.getElem?_zipIdx, hw, Nat.zero_add]
    rfl
  have hbound := of_forall₂_of_getElem? hys hwi hy
  exact he.present (hxs (w, i) (List.mem_of_getElem? hwi)) hbound

theorem conforms_places {es : List Descriptor} (hes : ∀ e ∈ es, e.Conforming) {i : Nat}
    {xs : List Value} {ys : List Bound} (hlen : xs.length = es.length)
    (hclean : placeFaults ignore key i es xs = []) (hbind : bindPlaces key i es xs = .ok ys) :
    ys.length = es.length ∧ ∀ (k : Nat) e w y, es[k]? = some e → xs[k]? = some w →
      ys[k]? = some y → e.Conforms (some w) y := by
  induction es generalizing i xs ys with
  | nil =>
    obtain rfl := List.length_eq_zero_iff.1 hlen
    rw [bindPlaces.eq_def] at hbind
    obtain rfl := Except.ok.inj hbind
    exact ⟨rfl, fun k e w y he => by cases he⟩
  | cons e es ih =>
    cases xs with
    | nil => cases hlen
    | cons x xs =>
      rw [placeFaults] at hclean
      rw [bindPlaces] at hbind
      obtain ⟨hx, hxs⟩ := List.append_eq_nil_iff.1 hclean
      obtain ⟨y, hy, hbind⟩ := bind_eq_ok.1 hbind
      obtain ⟨zs, hzs, hbind⟩ := bind_eq_ok.1 hbind
      obtain rfl := Except.ok.inj hbind
      obtain ⟨he, hes⟩ := List.forall_mem_cons.1 hes
      obtain ⟨hcount, hrest⟩ := ih hes (Nat.succ.inj hlen) hxs hzs
      refine ⟨congrArg Nat.succ hcount, fun k f w z hf hw hz => ?_⟩
      cases k with
      | zero =>
        obtain rfl := Option.some.inj hf
        obtain rfl := Option.some.inj hw
        obtain rfl := Option.some.inj hz
        exact he.present hx hy
      | succ k => exact hrest k f w z hf hw hz

theorem conforms_tuple {es : List Descriptor} {x : Option Bound} (hes : ∀ e ∈ es, e.Conforming)
    (hclean : (Descriptor.tuple hd es x).faults ignore key v = [])
    (hbind : (Descriptor.tuple hd es x).bind key v = .ok b) :
    (Descriptor.tuple hd es x).Conforms (some v) b := by
  obtain ⟨o, xs, rfl, hlen, hxs⟩ := faults_tuple_eq_nil.1 hclean
  obtain ⟨ys, hys, rfl⟩ := (bind_tuple_eq_ok hlen).1 hbind
  obtain ⟨hcount, hplaces⟩ := conforms_places hes hlen hxs hys
  exact .tuple hcount (hcount.trans hlen.symm) hplaces

theorem conforming_sequence {bd : LengthBound} {x : Option Bound} (he : e.Conforming)
    (hwf : (Descriptor.sequence hd e bd x).WellFormed) :
    (Descriptor.sequence hd e bd x).Conforming := by
  apply Conforming.intro
  · intro key b habsent hbind
    obtain ⟨hclean, hbound⟩ := hwf.settled_default habsent hbind
    have hown := conforms_sequence he (hclean key) (hbound key)
    cases x with
    | none => cases hbind
    | some c =>
      have hc : some c = some b := Except.ok.inj hbind
      obtain rfl := Option.some.inj hc
      exact .sequenceDefault hown
  · intro ignore key v b hclean hbind
    exact conforms_sequence he hclean hbind

theorem conforming_tuple {es : List Descriptor} {x : Option Bound} (hes : ∀ e ∈ es, e.Conforming)
    (hwf : (Descriptor.tuple hd es x).WellFormed) : (Descriptor.tuple hd es x).Conforming := by
  apply Conforming.intro
  · intro key b habsent hbind
    obtain ⟨hclean, hbound⟩ := hwf.settled_default habsent hbind
    have hown := conforms_tuple hes (hclean key) (hbound key)
    cases x with
    | none => cases hbind
    | some c =>
      have hc : some c = some b := Except.ok.inj hbind
      obtain rfl := Option.some.inj hc
      exact .tupleDefault hown
  · intro ignore key v b hclean hbind
    exact conforms_tuple hes hclean hbind

theorem conforms_of_bindMembers {ms : List Descriptor} {v? : Option Value} {p : ParamSet}
    {es : BoundTable} (hp : entriesOf v? = some p) (hnodup : (ms.map name).Nodup)
    (hms : ∀ d ∈ ms, d.Conforming) (hclean : memberFaults ignore key p ms = [])
    (hbind : bindMembers key p ms = .ok es) : (Descriptor.table hd ms).Conforms v? (.table es) := by
  obtain ⟨hsub, hentries⟩ := (bindMembers_eq_ok_of_nodup hnodup).1 hbind
  rw [memberFaults_eq_flatMap, List.flatMap_eq_nil_iff] at hclean
  refine .table hp (keys_of_bindMembers hbind) (hsub.nodup hnodup) fun d hd b hb => ?_
  have hentry := hentries d hd
  rw [hb] at hentry
  exact hms d hd _ _ _ _ (hclean d hd) hentry

theorem conforming_table {ms : List Descriptor} (hnodup : (ms.map name).Nodup)
    (hms : ∀ d ∈ ms, d.Conforming) : (Descriptor.table hd ms).Conforming := by
  apply Conforming.intro
  · intro key b habsent hbind
    rw [mayBeAbsent] at habsent
    unfold bindAbsent at hbind
    obtain ⟨es, hes, hb⟩ := map_eq_ok.1 hbind
    obtain rfl := Option.some.inj hb
    have hempty : memberFaults [] key [] ms = [] := memberFaults_empty habsent
    exact conforms_of_bindMembers rfl hnodup hms hempty hes
  · intro ignore key v b hclean hbind
    obtain ⟨o, p, rfl, hmembers, _⟩ := faults_table_eq_nil.1 hclean
    obtain ⟨es, hes, rfl⟩ := bind_table_eq_ok.1 hbind
    exact conforms_of_bindMembers rfl hnodup hms hmembers hes

theorem conforming_optional (h : d.Conforming) : (Descriptor.optional d).Conforming := by
  apply Conforming.intro
  · intro key b _ hbind
    cases hbind
  · intro ignore key v b hclean hbind
    unfold faults at hclean
    unfold bind at hbind
    exact .optional (h.present hclean hbind)

/-- what a well-formed descriptor yields, from an entry or without one, conforms -/
theorem WellFormed.conforming {d : Descriptor} (h : d.WellFormed) : d.Conforming := by
  induction d with
  | atom hd t x =>
    cases h with
    | atom hx => exact conforming_atom hx
  | sequence hd e bd x ih =>
    have hwf := h
    cases h with
    | sequence he _ _ _ => exact conforming_sequence (ih he) hwf
  | tuple hd es x ih =>
    have hwf := h
    cases h with
    | tuple _ hes _ _ => exact conforming_tuple (fun e he => ih e he (hes e he)) hwf
  | table hd ms ih =>
    cases h with
    | table _ hnodup hms => exact conforming_table hnodup fun d hd => ih d hd (hms d hd)
  | optional d ih =>
    cases h with
    | optional hd _ => exact conforming_optional (ih hd)

end Descriptor

/-! ## the root -/

/-- **What a declared schema yields conforms to it**, at every depth: whatever the parameter set and
whatever the keys that are ignored. -/
theorem Schema.conforms_of_bind {o : Outline} {s : Schema} (hs : o.schema = .ok s) {p : ParamSet}
    {ignore : List String} {b : BoundTable} (hb : s.bind p ignore = .ok b) :
    s.toDescriptor.Conforms (some (.table none p)) (.table b) := by
  obtain ⟨hclean, hbind⟩ := bind_eq_ok.1 hb
  rw [faults_eq] at hclean
  have hwf := (o.wellFormed_of_schema hs).table s.heading
  exact hwf.conforming.present hclean hbind

theorem Schema.conforms_of_bind_port :
    portOutline.schema = .ok portSchema ∧ portSchema.bind portSet ["extra"] = .ok portBound
      ∧ portSchema.toDescriptor.Conforms (some (.table none portSet)) (.table portBound) := by
  have hs : portOutline.schema = .ok portSchema := by rfl
  have hb : portSchema.bind portSet ["extra"] = .ok portBound := by rfl
  exact ⟨hs, hb, Schema.conforms_of_bind hs hb⟩

end ParamSchema
