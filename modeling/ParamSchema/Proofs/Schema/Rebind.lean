import ParamSchema.Proofs.Bound.Literal
import ParamSchema.Proofs.Param.PrintRead
import ParamSchema.Proofs.Schema.CleanBind
import ParamSchema.Proofs.Schema.Declared
import ParamSchema.Proofs.Schema.Origins

/-!
# Bound values bind again

What a well-formed descriptor yields can be put in the place of what it was bound from: it has no
faults there, it binds to itself, and it can be printed (`WellFormed.settling`).  So what a declared
schema yields is read back from its print (`Schema.bind_read_text`).

* `Descriptor.Settles`          a bound value, or none, as an entry of its own parameter;
* `Descriptor.Settling`         all that a parameter yields settles;
* `bindMembers_eq_ok_of_nodup`  what a table binds to, by its names.
-/

namespace ParamSchema
namespace Descriptor

/-- the value is printed as an entry that has no faults and binds to the value again -/
structure Settles (d : Descriptor) (y : Option Bound) : Prop where
  legible : ∀ b ∈ y, b.toValue.Legible
  clean : ∀ key, d.entryFaults [] key (y.map Bound.toValue) = []
  bound : ∀ key, d.bindEntry key (y.map Bound.toValue) = .ok y

/-! ## tables by their names -/

theorem get?_toEntries (es : BoundTable) (k : String) :
    Entries.get? (Bound.toEntries es) k = (Entries.get? es k).map Bound.toValue := by
  rw [Bound.toEntries_eq_map, Entries.get?_map]

/-- an entry in front is found under its own name, and is not in the way of another -/
theorem get?_toList_append {y : Option Bound} {k name : String} {es : BoundTable} :
    Entries.get? ((y.map fun b => (k, b)).toList ++ es) name
      = if k = name then y.or (Entries.get? es name) else Entries.get? es name := by
  cases y with
  | none => simp
  | some b => simp [Entries.get?]

/-- where names are distinct, a table binds to what its members bind to, in their order -/
theorem bindMembers_eq_ok_of_nodup {key : String} {p : ParamSet} {ms : List Descriptor}
    {es : BoundTable} (hnodup : (ms.map name).Nodup) :
    bindMembers key p ms = .ok es ↔
      (Entries.keys es).Sublist (ms.map name) ∧
        ∀ d ∈ ms, d.bindEntry (joinKey key d.name) (Entries.get? p d.name)
          = .ok (Entries.get? es d.name) := by
  induction ms generalizing es with
  | nil =>
    rw [bindMembers_nil, List.map_nil, List.sublist_nil, Entries.keys, List.map_eq_nil_iff]
    exact ⟨fun h => ⟨(Except.ok.inj h).symm, List.forall_mem_nil _⟩, fun h => by rw [h.1]⟩
  | cons d ds ih =>
    rw [List.map_cons, List.nodup_cons] at hnodup
    obtain ⟨hnew, hds⟩ := hnodup
    rw [bindMembers_cons_eq_ok]
    constructor
    · intro h
      obtain ⟨y, ys, hy, hys, rfl⟩ := h
      obtain ⟨hsub, hrest⟩ := (ih hds).1 hys
      have habsent : Entries.get? ys d.name = none :=
        Entries.get?_eq_none.2 fun hmem => hnew (hsub.subset hmem)
      refine ⟨?_, List.forall_mem_cons.2 ⟨?_, ?_⟩⟩
      · cases y with
        | none => exact hsub.cons d.name
        | some b => exact hsub.cons_cons d.name
      · rw [get?_toList_append, if_pos rfl, habsent, Option.or_none]
        exact hy
      · intro e he
        have hne : d.name ≠ e.name := fun h => hnew (h ▸ List.mem_map_of_mem he)
        rw [get?_toList_append, if_neg hne]
        exact hrest e he
    · intro h
      obtain ⟨hsub, hall⟩ := h
      obtain ⟨hd, hall⟩ := List.forall_mem_cons.1 hall
      rcases List.sublist_cons_iff.1 hsub with hsub | ⟨ks, hkeys, hsub⟩
      · have habsent : Entries.get? es d.name = none :=
          Entries.get?_eq_none.2 fun hmem => hnew (hsub.subset hmem)
        rw [habsent] at hd
        exact ⟨none, es, hd, (ih hds).2 ⟨hsub, hall⟩, rfl⟩
      · cases es with
        | nil => cases hkeys
        | cons e es =>
          obtain ⟨k, b⟩ := e
          obtain ⟨rfl, rfl⟩ := List.cons.inj hkeys
          refine ⟨some b, es, ?_, (ih hds).2 ⟨hsub, fun e he => ?_⟩, rfl⟩
          · rw [hd, Entries.get?, if_pos rfl]
          · have hne : d.name ≠ e.name := fun h => hnew (h ▸ List.mem_map_of_mem he)
            rw [hall e he, Entries.get?, if_neg hne]

/-! ## what settles -/

variable {hd : Heading} {d e : Descriptor} {b : Bound}

theorem settles_some :
    d.Settles (some b) ↔
      b.toValue.Legible ∧ (∀ key, d.faults [] key b.toValue = [])
        ∧ ∀ key, d.bind key b.toValue = .ok b := by
  constructor
  · intro h
    refine ⟨h.legible b rfl, h.clean, fun key => ?_⟩
    obtain ⟨c, hc, heq⟩ := map_eq_ok.1 (h.bound key)
    rw [hc, Option.some.inj heq]
  · intro h
    obtain ⟨hlegible, hclean, hbound⟩ := h
    refine ⟨?_, hclean, fun key => map_eq_ok.2 ⟨b, hbound key, rfl⟩⟩
    intro c hc
    obtain rfl := Option.some.inj hc
    exact hlegible

theorem settles_scalar {t : ScalarType} {x : Option Scalar} {s : Scalar} (h : t.Holds s) :
    (Descriptor.atom hd t x).Settles (some (.scalar s)) := by
  have hdecode : decodeAtom t (Bound.scalar s).toValue = .ok s := by
    rw [Bound.toValue, decodeAtom, decode_literal h]
  refine settles_some.2 ⟨?_, ?_, ?_⟩
  · rw [Bound.toValue]
    exact .atom Origin.onLine_none (isLiteral_literal s)
  · intro key
    rw [faults, hdecode]
  · intro key
    rw [bind, hdecode]

theorem holds_of_decodeAtom {t : ScalarType} {v : Value} {s : Scalar}
    (h : decodeAtom t v = .ok s) : t.Holds s := by
  cases v with
  | atom o text =>
    rw [decodeAtom] at h
    split at h
    · rename_i r hr
      obtain rfl := Except.ok.inj h
      exact holds_of_decode hr
    · cases h
  | sequence o xs => cases h
  | table o es => cases h

theorem bindElements_toValues {ys : List Bound} (hys : ∀ y ∈ ys, e.Settles (some y))
    (key : String) (i : Nat) :
    List.Forall₂ (fun xi y => e.bind (indexKey key xi.2) xi.1 = .ok y)
      ((ys.map Bound.toValue).zipIdx i) ys := by
  induction ys generalizing i with
  | nil => exact .nil
  | cons y ys ih =>
    obtain ⟨hy, hys⟩ := List.forall_mem_cons.1 hys
    rw [List.map_cons, List.zipIdx_cons]
    exact .cons ((settles_some.1 hy).2.2 _) (ih hys (i + 1))

theorem settles_sequence {bd : LengthBound} {x : Option Bound} {ys : List Bound}
    (hlen : bd.admits ys.length = true) (hys : ∀ y ∈ ys, e.Settles (some y)) :
    (Descriptor.sequence hd e bd x).Settles (some (.sequence ys)) := by
  refine settles_some.2 ⟨Bound.legible_sequence fun y hy => (hys y hy).legible y rfl, ?_, ?_⟩
  · intro key
    rw [Bound.toValue, Bound.toValues_eq_map, faults_sequence_eq_nil]
    refine ⟨none, ys.map Bound.toValue, rfl, ?_, ?_⟩
    · rw [List.length_map]
      exact hlen
    · intro xi hxi
      obtain ⟨y, hy, hxy⟩ := List.mem_map.1 (List.fst_mem_of_mem_zipIdx hxi)
      rw [← hxy]
      exact (settles_some.1 (hys y hy)).2.1 _
  · intro key
    rw [Bound.toValue, Bound.toValues_eq_map, bind_sequence_eq_ok]
    exact ⟨ys, bindElements_toValues hys key 0, rfl⟩

theorem places_toValues {es : List Descriptor} {ys : List Bound}
    (hys : List.Forall₂ (fun e y => e.Settles (some y)) es ys) (key : String) (i : Nat) :
    placeFaults [] key i es (ys.map Bound.toValue) = []
      ∧ bindPlaces key i es (ys.map Bound.toValue) = .ok ys := by
  induction hys generalizing i with
  | nil => exact ⟨rfl, rfl⟩
  | cons hy _ ih =>
    obtain ⟨_, hclean, hbound⟩ := settles_some.1 hy
    obtain ⟨hfaults, hbind⟩ := ih (i + 1)
    rw [List.map_cons, placeFaults, bindPlaces, hclean, hfaults, hbound, hbind]
    exact ⟨rfl, rfl⟩

theorem settles_tuple {es : List Descriptor} {x : Option Bound} {ys : List Bound}
    (hys : List.Forall₂ (fun e y => e.Settles (some y)) es ys) :
    (Descriptor.tuple hd es x).Settles (some (.sequence ys)) := by
  have hlen : (ys.map Bound.toValue).length = es.length := by
    rw [List.length_map, hys.length_eq]
  refine settles_some.2 ⟨Bound.legible_sequence fun y hy => ?_, ?_, ?_⟩
  · obtain ⟨e, _, he⟩ := exists_mem_of_forall₂ hys y hy
    exact he.legible y rfl
  · intro key
    rw [Bound.toValue, Bound.toValues_eq_map, faults_tuple_eq_nil]
    exact ⟨none, _, rfl, hlen, (places_toValues hys key 0).1⟩
  · intro key
    rw [Bound.toValue, Bound.toValues_eq_map, bind_tuple_eq_ok hlen]
    exact ⟨ys, (places_toValues hys key 0).2, rfl⟩

/-- no key of a table that was bound is unknown -/
theorem unknownFaults_toEntries {ms : List Descriptor} {es : BoundTable} (key : String)
    (hsub : (Entries.keys es).Sublist (ms.map name)) :
    unknownFaults [] key ms (Bound.toEntries es) = [] := by
  have hknown : ∀ k ∈ Entries.keys es, isMember ms k = true := by
    intro k hk
    obtain ⟨d, hd, rfl⟩ := List.mem_map.1 (hsub.subset hk)
    exact List.any_eq_true.2 ⟨d, hd, beq_self_eq_true d.name⟩
  have hnone : (Entries.keys es).filter (fun k => !isMember ms k) = [] := by
    rw [List.filter_eq_nil_iff]
    intro k hk
    rw [hknown k hk]
    decide
  rw [unknownFaults, Bound.keys_toEntries, hnone]
  rfl

theorem settles_table {ms : List Descriptor} {es : BoundTable}
    (hms : WellFormedMembers ms) (hsub : (Entries.keys es).Sublist (ms.map name))
    (hes : ∀ d ∈ ms, d.Settles (Entries.get? es d.name)) :
    (Descriptor.table hd ms).Settles (some (.table es)) := by
  have hkeys : (Entries.keys es).Nodup := hsub.nodup hms.distinct
  have hmember : ∀ e ∈ es, ∃ d ∈ ms, d.name = e.1 ∧ d.Settles (some e.2) := by
    intro e he
    obtain ⟨d, hd, hname⟩ := List.mem_map.1 (hsub.subset (List.mem_map_of_mem he))
    have hget : Entries.get? es e.1 = some e.2 := Entries.get?_of_mem hkeys he
    refine ⟨d, hd, hname, ?_⟩
    rw [← hget, ← hname]
    exact hes d hd
  refine settles_some.2 ⟨?_, fun key => ?_, fun key => ?_⟩
  · refine Bound.legible_table hkeys ?_ ?_
    · intro e he
      obtain ⟨d, hd, hname, _⟩ := hmember e he
      exact hname ▸ hms.names d hd
    · intro e he
      obtain ⟨d, _, _, hsettles⟩ := hmember e he
      exact hsettles.legible e.2 rfl
  · have hclean : memberFaults [] key (Bound.toEntries es) ms = [] := by
      rw [memberFaults_eq_flatMap, List.flatMap_eq_nil_iff]
      intro d hd
      rw [get?_toEntries]
      exact (hes d hd).clean _
    rw [Bound.toValue, faults_table_eq_nil]
    exact ⟨none, _, rfl, hclean, unknownFaults_toEntries key hsub⟩
  · have hbind : bindMembers key (Bound.toEntries es) ms = .ok es := by
      refine (bindMembers_eq_ok_of_nodup hms.distinct).2 ⟨hsub, fun d hd => ?_⟩
      rw [get?_toEntries]
      exact (hes d hd).bound _
    rw [Bound.toValue, bind_table_eq_ok]
    exact ⟨es, hbind, rfl⟩

theorem settles_optional (h : d.Settles (some b)) : (Descriptor.optional d).Settles (some b) := by
  obtain ⟨hlegible, hclean, hbound⟩ := settles_some.1 h
  refine settles_some.2 ⟨hlegible, fun key => ?_, fun key => ?_⟩
  · rw [faults, hclean]
  · rw [bind, hbound]

/-! ## what is bound settles -/

/-- whatever the parameter binds to without faults settles -/
def Settling (d : Descriptor) : Prop :=
  ∀ {ignore : List String} {key : String} {v? : Option Value} {y : Option Bound},
    d.entryFaults ignore key v? = [] → d.bindEntry key v? = .ok y → d.Settles y

variable {ignore : List String} {key : String} {v : Value}

theorem Settling.present (h : d.Settling) (hclean : d.faults ignore key v = [])
    (hbind : d.bind key v = .ok b) : d.Settles (some b) := by
  have hentry : d.entryFaults ignore key (some v) = [] := hclean
  exact h hentry (map_eq_ok.2 ⟨b, hbind, rfl⟩)

/-- a parameter settles if it does with an entry, and without one -/
theorem Settling.intro
    (habsent : ∀ key y, d.mayBeAbsent = true → d.bindAbsent key = .ok y → d.Settles y)
    (hpresent : ∀ ignore key v b, d.faults ignore key v = [] → d.bind key v = .ok b →
      d.Settles (some b)) : d.Settling := by
  intro ignore key v? y hclean hbind
  cases v? with
  | none => exact habsent key y (entryFaults_none_eq_nil.1 hclean) hbind
  | some v =>
    obtain ⟨b, hb, rfl⟩ := map_eq_ok.1 hbind
    exact hpresent ignore key v b hclean hb

theorem settling_atom {t : ScalarType} {x : Option Scalar} (hx : ∀ s ∈ x, t.Holds s) :
    (Descriptor.atom hd t x).Settling := by
  apply Settling.intro
  · intro key y _ hbind
    cases x with
    | none => cases hbind
    | some s =>
      obtain rfl := Except.ok.inj hbind
      exact settles_scalar (hx s rfl)
  · intro ignore key v b _ hbind
    unfold bind at hbind
    split at hbind
    · rename_i s hs
      obtain rfl := Except.ok.inj hbind
      exact settles_scalar (holds_of_decodeAtom hs)
    · cases hbind

/-- the value of one sequence settles for every other with the same elements and bound -/
theorem Settling.sequence {bd : LengthBound} {x : Option Bound} (he : e.Settling)
    (hclean : (Descriptor.sequence hd e bd x).faults ignore key v = [])
    (hbind : (Descriptor.sequence hd e bd x).bind key v = .ok b) (g : Heading)
    (z : Option Bound) : (Descriptor.sequence g e bd z).Settles (some b) := by
  obtain ⟨o, xs, rfl, hlen, hxs⟩ := faults_sequence_eq_nil.1 hclean
  obtain ⟨ys, hys, rfl⟩ := bind_sequence_eq_ok.1 hbind
  rw [← List.length_zipIdx, hys.length_eq] at hlen
  refine settles_sequence hlen fun y hy => ?_
  obtain ⟨xi, hxi, hbound⟩ := exists_mem_of_forall₂ hys y hy
  exact he.present (hxs xi hxi) hbound

theorem settling_sequence {bd : LengthBound} {x : Option Bound} (he : e.Settling)
    (hx : ∀ c ∈ x, ∃ g, (Descriptor.sequence g e bd none).Yields c) :
    (Descriptor.sequence hd e bd x).Settling := by
  apply Settling.intro
  · intro key y _ hbind
    cases x with
    | none => cases hbind
    | some c =>
      obtain rfl := Except.ok.inj hbind
      obtain ⟨g, ignore, key, v, hclean, hbind⟩ := hx c rfl
      exact he.sequence hclean hbind hd _
  · intro ignore key v b hclean hbind
    exact he.sequence hclean hbind hd x

theorem settles_places {es : List Descriptor} (hes : ∀ e ∈ es, e.Settling) {i : Nat}
    {xs : List Value} {ys : List Bound} (hlen : xs.length = es.length)
    (hclean : placeFaults ignore key i es xs = []) (hbind : bindPlaces key i es xs = .ok ys) :
    List.Forall₂ (fun e y => e.Settles (some y)) es ys := by
  induction es generalizing i xs ys with
  | nil =>
    obtain rfl := List.length_eq_zero_iff.1 hlen
    rw [bindPlaces.eq_def] at hbind
    obtain rfl := Except.ok.inj hbind
    exact .nil
  | cons e es ih =>
    cases xs with
    | nil => cases hlen
    | cons x xs =>
      rw [placeFaults] at hclean
      rw [bindPlaces] at hbind
      obtain ⟨hx, hxs⟩ := List.append_eq_nil_iff.1 hclean
      obtain ⟨y, hy, hbind⟩ := bind_eq_ok.1 hbind
      obtain ⟨zs, hzs, hbind⟩ := bind_eq_ok.1 hbind
      obtain rfl := Except.ok.inj hbind
      obtain ⟨he, hes⟩ := List.forall_mem_cons.1 hes
      exact .cons (he.present hx hy) (ih hes (Nat.succ.inj hlen) hxs hzs)

theorem Settling.tuple {es : List Descriptor} {x : Option Bound} (hes : ∀ e ∈ es, e.Settling)
    (hclean : (Descriptor.tuple hd es x).faults ignore key v = [])
    (hbind : (Descriptor.tuple hd es x).bind key v = .ok b) (g : Heading) (z : Option Bound) :
    (Descriptor.tuple g es z).Settles (some b) := by
  obtain ⟨o, xs, rfl, hlen, hxs⟩ := faults_tuple_eq_nil.1 hclean
  obtain ⟨ys, hys, rfl⟩ := (bind_tuple_eq_ok hlen).1 hbind
  exact settles_tuple (settles_places hes hlen hxs hys)

theorem settling_tuple {es : List Descriptor} {x : Option Bound} (hes : ∀ e ∈ es, e.Settling)
    (hx : ∀ c ∈ x, ∃ g, (Descriptor.tuple g es none).Yields c) :
    (Descriptor.tuple hd es x).Settling := by
  apply Settling.intro
  · intro key y _ hbind
    cases x with
    | none => cases hbind
    | some c =>
      obtain rfl := Except.ok.inj hbind
      obtain ⟨g, ignore, key, v, hclean, hbind⟩ := hx c rfl
      exact Settling.tuple hes hclean hbind hd _
  · intro ignore key v b hclean hbind
    exact Settling.tuple hes hclean hbind hd x

section
variable {ms : List Descriptor} {p : ParamSet} {es : BoundTable}

theorem settles_of_bindMembers (hwf : WellFormedMembers ms) (hms : ∀ d ∈ ms, d.Settling)
    (hclean : memberFaults ignore key p ms = []) (hbind : bindMembers key p ms = .ok es) :
    (Descriptor.table hd ms).Settles (some (.table es)) := by
  obtain ⟨hsub, hentries⟩ := (bindMembers_eq_ok_of_nodup hwf.distinct).1 hbind
  rw [memberFaults_eq_flatMap, List.flatMap_eq_nil_iff] at hclean
  refine settles_table hwf hsub fun d hd => ?_
  exact hms d hd (hclean d hd) (hentries d hd)

/-- members that may all be left out have no faults in an empty table -/
theorem memberFaults_empty (h : allMayBeAbsent ms = true) : memberFaults ignore key [] ms = [] := by
  rw [allMayBeAbsent_eq_all, List.all_eq_true] at h
  rw [memberFaults_eq_flatMap, List.flatMap_eq_nil_iff]
  exact fun d hd => entryFaults_none_eq_nil.2 (h d hd)

theorem settling_table (hwf : WellFormedMembers ms) (hms : ∀ d ∈ ms, d.Settling) :
    (Descriptor.table hd ms).Settling := by
  apply Settling.intro
  · intro key y habsent hbind
    rw [mayBeAbsent] at habsent
    unfold bindAbsent at hbind
    obtain ⟨es, hes, rfl⟩ := map_eq_ok.1 hbind
    have hempty : memberFaults [] key [] ms = [] := memberFaults_empty habsent
    exact settles_of_bindMembers hwf hms hempty hes
  · intro ignore key v b hclean hbind
    obtain ⟨o, p, rfl, hmembers, _⟩ := faults_table_eq_nil.1 hclean
    obtain ⟨es, hes, rfl⟩ := bind_table_eq_ok.1 hbind
    exact settles_of_bindMembers hwf hms hmembers hes

end

theorem settling_optional (h : d.Settling) : (Descriptor.optional d).Settling := by
  apply Settling.intro
  · intro key y _ hbind
    obtain rfl := Except.ok.inj hbind
    refine ⟨?_, fun key => rfl, fun key => rfl⟩
    intro b hb
    cases hb
  · intro ignore key v b hclean hbind
    unfold faults at hclean
    unfold bind at hbind
    exact settles_optional (h.present hclean hbind)

/-- what a well-formed descriptor yields, from an entry or without one, settles -/
theorem WellFormed.settling {d : Descriptor} (h : d.WellFormed) : d.Settling := by
  induction d with
  | atom hd t x =>
    cases h with
    | atom hx => exact settling_atom hx
  | sequence hd e bd x ih =>
    cases h with
    | sequence he _ _ hx => exact settling_sequence (ih he) hx
  | tuple hd es x ih =>
    cases h with
    | tuple _ hes _ hx => exact settling_tuple (fun e he => ih e he (hes e he)) hx
  | table hd ms ih =>
    cases h with
    | table hnames hnodup hms =>
      exact settling_table ⟨hnames, hnodup, hms⟩ fun d hd => ih d hd (hms d hd)
  | optional d ih =>
    cases h with
    | optional hd _ => exact settling_optional (ih hd)

/-- what is bound to a parameter that is left out can stand for its own entry -/
theorem WellFormed.settled_default {d : Descriptor} (h : d.WellFormed)
    (habsent : d.mayBeAbsent = true) (hbind : d.bindAbsent key = .ok (some b)) :
    (∀ key, d.faults [] key b.toValue = []) ∧ ∀ key, d.bind key b.toValue = .ok b := by
  have hentry : d.entryFaults [] key none = [] := entryFaults_none_eq_nil.2 habsent
  exact (settles_some.1 (h.settling hentry hbind)).2

end Descriptor

/-! ## the root -/

/-- what well-formed members yield can stand in its own place -/
theorem Schema.settles_of_bind {s : Schema} (hs : WellFormedMembers s.members) {p : ParamSet}
    {ignore : List String} {b : BoundTable} (hb : s.bind p ignore = .ok b) :
    s.toDescriptor.Settles (some (.table b)) := by
  obtain ⟨hclean, hbind⟩ := bind_eq_ok.1 hb
  rw [faults_eq] at hclean
  have hsettling : s.toDescriptor.Settling := (hs.table s.heading).settling
  exact hsettling.present hclean hbind

/-- what well-formed members yield is read back from its print -/
theorem Schema.exists_readDocument {s : Schema} (hs : WellFormedMembers s.members) {p : ParamSet}
    {ignore : List String} {b : BoundTable} (hb : s.bind p ignore = .ok b) (source : String) :
    ∃ q, readDocument b.toParamSet.text source = .ok q ∧ s.bind q [] = .ok b := by
  obtain ⟨hlegible, hfaults, hbound⟩ := Descriptor.settles_some.1 (settles_of_bind hs hb)
  have hsettled : s.bind b.toParamSet [] = .ok b := by
    refine bind_eq_ok.2 ⟨?_, hbound ""⟩
    rw [faults_eq]
    exact hfaults ""
  obtain ⟨q, hq, herase⟩ := (ParamSet.Legible.ofTable hlegible).exists_readDocument 0 .raw source
  exact ⟨q, hq, bind_congr_erase herase hsettled⟩

/-- **Bound values survive printing and reading again.**  Whatever a declared schema yields for a
parameter set, with whatever keys ignored, its raw print is a document under every name, and the
schema yields the same for that document with no key ignored. -/
theorem Schema.bind_read_text {o : Outline} {s : Schema} (hs : o.schema = .ok s) {p : ParamSet}
    {ignore : List String} {b : BoundTable} (hb : s.bind p ignore = .ok b) (source : String) :
    ∃ q, readDocument b.toParamSet.text source = .ok q ∧ s.bind q [] = .ok b :=
  exists_readDocument (o.wellFormed_of_schema hs) hb source

/-- a text, and a table with a fragment and an optional parameter -/
def portOutline : Outline :=
  ⟨"port", "", [.add (.atom "label" "" .string none),
    .table "limits" [.splice "range", .add (.optional (.atom "note" "" .string none))]],
    [("range", [.add (.sequence "bytes" "" (.atom "byte" "" (.unsigned .w8) none) .any
      (some (.sequence [.scalar (.uint 7)])))])]⟩

def portSchema : Schema :=
  ⟨⟨"port", "", "port", false⟩,
    [.atom ⟨"label", "", "label", false⟩ .string none,
      .table ⟨"limits", "", "limits", false⟩
        [.sequence ⟨"bytes", "", "bytes", true⟩
            (.atom ⟨"[0]", "", "bytes[0]", false⟩ (.unsigned .w8) none) .any
            (some (.sequence [.scalar (.uint 7)])),
          .optional (.atom ⟨"note", "", "limits.note", false⟩ .string none)]]⟩

/-- a key that no parameter names, and no entry for the table -/
def portSet : ParamSet := [("label", .atom none "'a\\b'"), ("extra", .atom none "1")]

def portBound : BoundTable :=
  [("label", .scalar (.string "a\\b")),
    ("limits", .table [("bytes", .sequence [.scalar (.uint 7)])])]

theorem Schema.bind_read_text_port :
    portOutline.schema = .ok portSchema ∧ portSchema.bind portSet ["extra"] = .ok portBound
      ∧ ∃ q, readDocument portBound.toParamSet.text "out" = .ok q
        ∧ portSchema.bind q [] = .ok portBound := by
  have hs : portOutline.schema = .ok portSchema := by rfl
  have hb : portSchema.bind portSet ["extra"] = .ok portBound := by rfl
  exact ⟨hs, hb, Schema.bind_read_text hs hb "out"⟩

end ParamSchema
