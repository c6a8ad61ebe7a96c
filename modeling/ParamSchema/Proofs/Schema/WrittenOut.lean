import ParamSchema.Proofs.Schema.Ignored
import ParamSchema.Proofs.Schema.Local
import ParamSchema.Proofs.Schema.Rebind
import Mathlib.Logic.Relation

/-!
# Defaults written out

A member that the input leaves out may as well be written into it.  The value that stands for it in
the bound table has no faults as its entry and binds to itself; a table may also be written as the
empty table, which binds as a table that is left out does.  Since one entry more changes the faults
of its member only, and what binds alike below binds alike above, the whole input then binds as
before (`WritesOut.settles`).

* `Value.addEntry`           an entry added to the table at a path;
* `Descriptor.WritesOut`     one member written out;
* `Binds.member`             what a table binds for a member, given or left out;
* `bind_congr_of_differAt`   values that differ in an entry that its member binds alike.
-/

namespace ParamSchema

/-! ## adding an entry -/

def Entries.modify {α : Type} (es : Entries α) (k : String) (f : α → α) : Entries α :=
  es.map fun e => (e.1, if e.1 = k then f e.2 else e.2)

/-- the value with an entry added to the table at the path -/
def Value.addEntry (v : Value) (path : List Segment) (k : String) (x : Value) : Value :=
  match path, v with
  | [], .table o p => .table o (Entries.insert p k x)
  | .name j :: path, .table o p => .table o (Entries.modify p j fun w => w.addEntry path k x)
  | .index i :: path, .sequence o xs => .sequence o (xs.modify i fun w => w.addEntry path k x)
  | _, v => v

namespace Entries

variable {α : Type} {k : String} {f : α → α}

theorem get?_modify_self (es : Entries α) : (es.modify k f).get? k = (es.get? k).map f := by
  induction es with
  | nil => rfl
  | cons e es ih =>
    rw [modify, List.map_cons, get?, get?]
    split
    · rfl
    · exact ih

end Entries

/-- tables with an entry more, or with another value in one entry, have the other entries alike -/
theorem agreeBut_insert {p : ParamSet} {k : String} (x : Value) (h : Entries.get? p k = none) :
    Entries.AgreeBut k (Value.eraseEntries p) (Value.eraseEntries (Entries.insert p k x)) := by
  rw [Entries.insert_of_not_mem x (Entries.get?_eq_none.1 h), Value.eraseEntries_eq_map,
    Value.eraseEntries_eq_map, Entries.AgreeBut, List.map_append, List.filter_append]
  simp

theorem agreeBut_modify (p : ParamSet) (k : String) (f : Value → Value) :
    Entries.AgreeBut k (Value.eraseEntries p) (Value.eraseEntries (Entries.modify p k f)) := by
  rw [Entries.AgreeBut, Value.eraseEntries_eq_map, Value.eraseEntries_eq_map]
  induction p with
  | nil => rfl
  | cons e p ih =>
    by_cases he : e.1 = k <;> simp_all [Entries.modify]

theorem modify_append {α : Type} (xs ys : List α) (x : α) (f : α → α) :
    (xs ++ x :: ys).modify xs.length f = xs ++ f x :: ys := by
  induction xs with
  | nil => rfl
  | cons y xs ih =>
    rw [List.cons_append, List.length_cons, List.modify_succ_cons, ih, List.cons_append]

namespace Value

variable {v w : Value} {path : List Segment} {o : Option Origin} {p q : ParamSet} {k j : String}

theorem get?_modify_addEntry (h : (Value.table o q).step? (.name j) = some w) (x : Value) :
    Entries.get? (Entries.modify q j fun w => w.addEntry path k x) j
      = some (w.addEntry path k x) := by
  have hget : Entries.get? q j = some w := h
  rw [Entries.get?_modify_self, hget, Option.map_some]

theorem differAt_addEntry (x : Value) (h : v.follow? path = some (.table o p))
    (hk : Entries.get? p k = none) : DifferAt (path ++ [.name k]) v (v.addEntry path k x) := by
  induction path generalizing v with
  | nil =>
    obtain rfl := Option.some.inj h
    exact .entry (agreeBut_insert x hk)
  | cons s path ih =>
    obtain ⟨w, hw, hbelow⟩ := Option.bind_eq_some_iff.1 h
    cases s with
    | name j =>
      cases v with
      | atom o t => cases hw
      | sequence o xs => cases hw
      | table o q =>
        exact .member (agreeBut_modify q j _) hw (get?_modify_addEntry hw x) (ih hbelow)
    | index i =>
      cases v with
      | atom o t => cases hw
      | table o q => cases hw
      | sequence o xs =>
        obtain ⟨front, back, rfl, rfl⟩ := exists_append_of_getElem? hw
        rw [List.cons_append, addEntry, modify_append]
        exact .element rfl rfl (ih hbelow)

theorem follow?_addEntry (x : Value) (h : v.follow? path = some (.table o p)) :
    (v.addEntry path k x).follow? (path ++ [.name k]) = some x := by
  induction path generalizing v with
  | nil =>
    obtain rfl := Option.some.inj h
    rw [List.nil_append, follow?_singleton]
    exact Entries.get?_insert_self p k x
  | cons s path ih =>
    obtain ⟨w, hw, hbelow⟩ := Option.bind_eq_some_iff.1 h
    cases s with
    | name j =>
      cases v with
      | atom o t => cases hw
      | sequence o xs => cases hw
      | table o q =>
        rw [List.cons_append, addEntry, follow?_name (get?_modify_addEntry hw x)]
        exact ih hbelow
    | index i =>
      cases v with
      | atom o t => cases hw
      | table o q => cases hw
      | sequence o xs =>
        obtain ⟨front, back, rfl, rfl⟩ := exists_append_of_getElem? hw
        rw [List.cons_append, addEntry, modify_append, follow?_index]
        exact ih hbelow

end Value

theorem Bound.follow?_singleton (b : Bound) (s : Segment) : b.follow? [s] = b.step? s := by
  rw [follow?]
  cases b.step? s <;> rfl

namespace Descriptor

variable {ignore : List String} {key : String} {h : Heading} {d e m : Descriptor}
  {ms es fs : List Descriptor} {bd : LengthBound} {x? : Option Bound} {o : Option Origin}
  {p q : ParamSet} {v w : Value} {xs ys : List Value} {path : List Segment} {b x : Bound}
  {k : String}

/-! ## what is bound at a path -/

theorem step?_eq_none_of_isMember (hms : d.members? = some ms) (hk : isMember ms k = false) :
    d.step? (.name k) = none := by
  unfold members? at hms
  split at hms
  · rename_i hd
    obtain rfl := Option.some.inj hms
    rw [step?_table hd, List.find?_eq_none]
    intro m hm
    simpa using isMember_eq_false.1 hk m hm
  · cases hms

/-- a table that is there binds the members it has and those it leaves out -/
theorem Binds.member (h : d.Binds (some v) (some b)) (hv : v.follow? path = some (.table o p))
    (hm : d.follow? (path ++ [.name k]) = some m) :
    m.Binds (Entries.get? p k) (b.follow? (path ++ [.name k])) := by
  induction path generalizing d v b with
  | nil =>
    obtain rfl := Option.some.inj hv
    obtain ⟨e, he, hem⟩ := Option.bind_eq_some_iff.1 hm
    obtain rfl := Option.some.inj hem
    have hlevel := h.level
    generalize hd : d.unwrap = u at hlevel
    cases hlevel with
    | @table _ ms _ _ bs _ hms =>
      rw [step?_table hd] at he
      obtain rfl : e.name = k := beq_iff_eq.1 (List.find?_eq_some_iff_append.1 he).1
      rw [List.nil_append, Bound.follow?_singleton]
      exact hms e (List.mem_of_find?_eq_some he)
  | cons s path ih =>
    obtain ⟨v', hv', hbelow⟩ := Option.bind_eq_some_iff.1 hv
    obtain ⟨e, he, hem⟩ := Option.bind_eq_some_iff.1 hm
    rcases h.step hv' with ⟨j, ms, rfl, hms, hno⟩ | ⟨e', c, he', hc, hec⟩
    · rw [step?_eq_none_of_isMember hms hno] at he
      cases he
    · obtain rfl := Option.some.inj (he.symm.trans he')
      rw [List.cons_append, Bound.follow?, hc]
      exact ih hec hbelow hem

/-- a member that is not optional has a value where it is left out -/
theorem Binds.exists_of_absent {y : Option Bound} (h : m.Binds none y) (hm : m.isOptional = false) :
    ∃ x, y = some x := by
  obtain ⟨_, _, key, _, hbind⟩ := h
  cases m with
  | atom h t x =>
    cases x with
    | none => cases hbind
    | some s => exact ⟨_, (Except.ok.inj hbind).symm⟩
  | sequence h e bd x =>
    cases x with
    | none => cases hbind
    | some c => exact ⟨_, (Except.ok.inj hbind).symm⟩
  | tuple h es x =>
    cases x with
    | none => cases hbind
    | some c => exact ⟨_, (Except.ok.inj hbind).symm⟩
  | table h ms =>
    rw [bindEntry, bindAbsent, map_eq_ok] at hbind
    obtain ⟨bs, _, rfl⟩ := hbind
    exact ⟨_, rfl⟩
  | optional d => cases hm

/-! ## inputs that bind alike -/

theorem forall₂_append_cons {r : Value → Value → Prop} {xs' ys' : List Value}
    (hxs : List.Forall₂ r xs xs') (hvw : r v w) (hys : List.Forall₂ r ys ys') :
    List.Forall₂ r (xs ++ v :: ys) (xs' ++ w :: ys') :=
  List.rel_append hxs (.cons hvw hys)

theorem bindPlaces_append_congr {xs' ys' : List Value} (hlen : es.length = xs.length)
    (hxs : Value.eraseAll xs = Value.eraseAll xs') (hys : Value.eraseAll ys = Value.eraseAll ys')
    (hvw : ∀ key, e.bind key v = e.bind key w) :
    bindPlaces key 0 (es ++ e :: fs) (xs ++ v :: ys)
      = bindPlaces key 0 (es ++ e :: fs) (xs' ++ w :: ys') := by
  have hplace : xs.length = xs'.length := Value.length_of_eraseAll_eq hxs
  rw [bindPlaces_append hlen, bindPlaces_append (hlen.trans hplace), ← hplace, hvw,
    bindPlaces_of_eraseAll_eq hxs, bindPlaces_of_eraseAll_eq hys]

theorem bind_table_congr (hnodup : (ms.map name).Nodup)
    (ih : ∀ e ∈ ms, ∀ {path v w key}, e.follow? path = some m → Value.DifferAt path v w →
      (∀ key, m.bindEntry key (v.follow? path) = m.bindEntry key (w.follow? path)) →
      e.bind key v = e.bind key w)
    (hm : (Descriptor.table h ms).follow? path = some m) (hvw : Value.DifferAt path v w)
    (halike : ∀ key, m.bindEntry key (v.follow? path) = m.bindEntry key (w.follow? path)) :
    (Descriptor.table h ms).bind key v = (Descriptor.table h ms).bind key w := by
  -- the entry of the one member is bound alike; the others are the same entries
  have hmembers : ∀ {k e} {p q : ParamSet}, (ms.find? fun m => m.name == k) = some e →
      Entries.AgreeBut k (Value.eraseEntries p) (Value.eraseEntries q) →
      (∀ key, e.bindEntry key (Entries.get? p k) = e.bindEntry key (Entries.get? q k)) →
      bindMembers key p ms = bindMembers key q ms := by
    intro k e p q he hpq hentry
    obtain ⟨rfl, ds, es, rfl, hds, hes⟩ := exists_append_of_find? hnodup he
    refine bindMembers_congr fun d hd => ?_
    by_cases hname : d.name = e.name
    · rcases List.mem_append.1 hd with hd | hd
      · exact absurd hname (hds d hd)
      · rcases List.mem_cons.1 hd with rfl | hd
        · exact hentry _
        · exact absurd hname (hes d hd)
    · exact bindEntry_congr_erase (get?_erase_of_agreeBut hpq hname)
  cases hvw with
  | @entry o o' p q k hpq =>
    obtain ⟨e, he, hem⟩ := Option.bind_eq_some_iff.1 hm
    obtain rfl := Option.some.inj hem
    rw [Value.follow?_singleton, Value.follow?_singleton] at halike
    rw [bind, bind, hmembers he hpq halike]
  | @member o o' p q k v w path hpq hv hw hvw =>
    obtain ⟨e, he, hem⟩ := Option.bind_eq_some_iff.1 hm
    rw [Value.follow?_name hv, Value.follow?_name hw] at halike
    rw [bind, bind, hmembers he hpq fun key => ?_]
    rw [hv, hw, bindEntry, bindEntry, ih e (List.mem_of_find?_eq_some he) hem hvw halike]
  | element _ _ _ => cases hm

/-- values that differ in an entry that its member binds alike bind alike -/
theorem WellFormed.bind_congr_of_differAt (hd : d.WellFormed) (hm : d.follow? path = some m)
    (hvw : Value.DifferAt path v w)
    (halike : ∀ key, m.bindEntry key (v.follow? path) = m.bindEntry key (w.follow? path)) :
    d.bind key v = d.bind key w := by
  induction d generalizing path v w key with
  | atom h t x => cases hvw <;> cases hm
  | sequence h e bd x ih =>
    cases hd with
    | sequence he _ _ _ =>
      cases hvw with
      | entry _ => cases hm
      | member _ _ _ _ => cases hm
      | @element o o' xs xs' ys ys' v w path hxs hys hvw =>
        rw [Value.follow?_index, Value.length_of_eraseAll_eq hxs, Value.follow?_index] at halike
        have hsame : ∀ key, e.bind key v = e.bind key w := fun key => ih he hm hvw halike
        rw [bind, bind, bindElements_congr (forall₂_append_cons
          ((forall₂_of_eraseAll_eq hxs).imp fun _ _ h => h e) hsame
          ((forall₂_of_eraseAll_eq hys).imp fun _ _ h => h e))]
  | tuple h es x ih =>
    cases hd with
    | tuple _ hes _ _ =>
      cases hvw with
      | entry _ => cases hm
      | member _ _ _ _ => cases hm
      | @element o o' xs xs' ys ys' v w path hxs hys hvw =>
        obtain ⟨e, he, hem⟩ := Option.bind_eq_some_iff.1 hm
        have hmem := List.mem_of_getElem? he
        obtain ⟨ds, fs, rfl, hds⟩ := exists_append_of_getElem? he
        rw [Value.follow?_index, Value.length_of_eraseAll_eq hxs, Value.follow?_index] at halike
        have hsame : ∀ key, e.bind key v = e.bind key w :=
          fun key => ih e hmem (hes e hmem) hem hvw halike
        have hall := Value.length_append_cons_of_eraseAll_eq hxs hys v w
        rw [bind, bind, hall, bindPlaces_append_congr hds hxs hys hsame]
  | table h ms ih =>
    cases hd with
    | table _ hnodup hms =>
      exact bind_table_congr hnodup (fun e he => ih e he (hms e he)) hm hvw halike
  | optional d ih =>
    cases hd with
    | optional hd _ =>
      have hbelow : d.follow? path = some m := by cases hvw <;> exact hm
      rw [bind, bind]
      exact ih hd hbelow hvw halike

/-! ## members written out -/

/-- A member that a table of the input leaves out is written into it: with the value that stands for
it in `b`, or, where it is a table, as the empty table. -/
inductive WritesOut (d : Descriptor) (b : Bound) : Value → Value → Prop
  | value {v : Value} {path : List Segment} {o : Option Origin} {p : ParamSet} {k : String}
      {m : Descriptor} {x : Bound} :
      v.follow? path = some (.table o p) → Entries.get? p k = none →
        d.follow? (path ++ [.name k]) = some m → b.follow? (path ++ [.name k]) = some x →
          WritesOut d b v (v.addEntry path k x.toValue)
  | empty {v : Value} {path : List Segment} {o : Option Origin} {p : ParamSet} {k : String}
      {h : Heading} {ms : List Descriptor} :
      v.follow? path = some (.table o p) → Entries.get? p k = none →
        d.follow? (path ++ [.name k]) = some (.table h ms) →
          WritesOut d b v (v.addEntry path k (.table none []))

/-- an entry that its member walks as if it were left out can be added -/
theorem addEntry_settles {y : Value} (hd : d.WellFormed) (hclean : d.faults ignore key v = [])
    (hbind : d.bind key v = .ok b) (hv : v.follow? path = some (.table o p))
    (hk : Entries.get? p k = none) (hm : d.follow? (path ++ [.name k]) = some m)
    (hfaults : ∀ key, m.faults [] key y = [])
    (halike : ∀ key, m.bindAbsent key = m.bindEntry key (some y)) :
    d.faults ignore key (v.addEntry path k y) = [] ∧ d.bind key (v.addEntry path k y) = .ok b := by
  have hdiffer := Value.differAt_addEntry y hv hk
  have hnone : v.follow? (path ++ [.name k]) = none :=
    (Value.follow?_append_singleton hv _).trans hk
  have hsome := Value.follow?_addEntry (k := k) y hv
  constructor
  · obtain ⟨site, key', front, back, hbefore, hafter⟩ :=
      hd.splitsAlike (m := m) (v := v) (w := v.addEntry path k y) hm hdiffer key
    have hparts := hbefore.faults.symm.trans hclean
    simp only [List.append_eq_nil_iff] at hparts
    have hall := hafter.faults
    rw [hparts.1.1, hparts.2, List.nil_append, List.append_nil, hsome] at hall
    refine hall.trans ?_
    rw [Pair.faults, entryFaults, faults_eq_filter, hfaults, List.filter_nil]
  · rw [← hbind]
    refine (hd.bind_congr_of_differAt hm hdiffer fun key => ?_).symm
    rw [hnone, hsome]
    exact halike key

/-- a table may be left out if and only if the empty table has no faults -/
theorem mayBeAbsent_table_iff :
    (Descriptor.table h ms).mayBeAbsent = true
      ↔ (Descriptor.table h ms).faults ignore key (.table o []) = [] := by
  have hunknown : unknownFaults ignore key ms [] = [] := rfl
  rw [mayBeAbsent, allMayBeAbsent_eq_all, List.all_eq_true, faults, hunknown, List.append_nil,
    memberFaults_eq_flatMap, List.flatMap_eq_nil_iff]
  exact forall₂_congr fun m _ => entryFaults_none_eq_nil.symm

/-- a table that is left out binds as the empty table does -/
theorem bindAbsent_table :
    (Descriptor.table h ms).bindAbsent key
      = (Descriptor.table h ms).bindEntry key (some (.table o [])) := by
  rw [bindAbsent, bindEntry, bind]
  cases bindMembers key [] ms <;> rfl

theorem WritesOut.settles (hd : d.WellFormed) (hclean : d.faults ignore key v = [])
    (hbind : d.bind key v = .ok b) (h : d.WritesOut b v w) :
    d.faults ignore key w = [] ∧ d.bind key w = .ok b := by
  have hbinds : d.Binds (some v) (some b) := binds_some.2 ⟨hd, ignore, key, hclean, hbind⟩
  cases h with
  | @value path o p k m x hv hk hm hx =>
    have hmember := hbinds.member hv hm
    rw [hk, hx] at hmember
    obtain ⟨_, habsent, hbound⟩ := hmember.of_absent
    obtain ⟨hfaults, hsettled⟩ := hmember.wellFormed.settled_default habsent (hbound key)
    refine addEntry_settles hd hclean hbind hv hk hm hfaults fun key => ?_
    rw [hbound, bindEntry, hsettled]
    rfl
  | @empty path o p k h ms hv hk hm =>
    have hmember := hbinds.member hv hm
    rw [hk] at hmember
    obtain ⟨_, _, _, hnone, _⟩ := hmember
    have habsent := entryFaults_none_eq_nil.1 hnone
    exact addEntry_settles hd hclean hbind hv hk hm (fun key => mayBeAbsent_table_iff.1 habsent)
      fun key => bindAbsent_table

/-- any number of members written out, one after the other -/
theorem settles_of_writtenOut (hd : d.WellFormed) (hclean : d.faults ignore key v = [])
    (hbind : d.bind key v = .ok b) (h : Relation.ReflTransGen (d.WritesOut b) v w) :
    d.faults ignore key w = [] ∧ d.bind key w = .ok b := by
  induction h with
  | refl => exact ⟨hclean, hbind⟩
  | tail _ hstep ih => exact hstep.settles hd ih.1 ih.2

end Descriptor

/-! ## the root -/

/-- **Leaving a member out and writing out what stands for it are the same.**  Where a parameter set
binds, every member that is left out of a table of it, and is not optional, has a value in the bound
table.  Such values can be written into the parameter set, or the empty table for a table, any
number of them, and it binds to the same.  A table may be left out if and only if the empty table
has no faults, and then both bind to the same. -/
theorem Schema.bind_writtenOut {o : Outline} {s : Schema} (hs : o.schema = .ok s)
    (ignore : List String) :
    (∀ p b, s.bind p ignore = .ok b →
      (∀ q, Relation.ReflTransGen (s.toDescriptor.WritesOut (.table b)) (.table none p)
        (.table none q) → s.bind q ignore = .ok b)
      ∧ ∀ path origin q k m, (Value.table none p).follow? path = some (.table origin q) →
        Entries.get? q k = none → s.toDescriptor.follow? (path ++ [.name k]) = some m →
          m.isOptional = false → ∃ x, (Bound.table b).follow? (path ++ [.name k]) = some x)
    ∧ ∀ h ms origin key,
      ((Descriptor.table h ms).mayBeAbsent = true
        ↔ (Descriptor.table h ms).faults ignore key (.table origin []) = [])
      ∧ ((Descriptor.table h ms).mayBeAbsent = true →
        ∃ c, (Descriptor.table h ms).bindAbsent key = .ok (some c)
          ∧ (Descriptor.table h ms).bind key (.table origin []) = .ok c) := by
  have hwf : s.toDescriptor.WellFormed := (o.wellFormed_of_schema hs).table s.heading
  constructor
  · intro p b hb
    obtain ⟨hclean, hbind⟩ := bind_eq_ok.1 hb
    rw [faults_eq] at hclean
    constructor
    · intro q hq
      rw [bind_eq_ok, faults_eq]
      exact Descriptor.settles_of_writtenOut hwf hclean hbind hq
    · intro path origin q k m hpath hk hm hplain
      have hroot : s.toDescriptor.Binds (some (.table none p)) (some (.table b)) :=
        Descriptor.binds_some.2 ⟨hwf, ignore, "", hclean, hbind⟩
      have hmember := hroot.member hpath hm
      rw [hk] at hmember
      exact hmember.exists_of_absent hplain
  · intro h ms origin key
    have hiff : (Descriptor.table h ms).mayBeAbsent = true
        ↔ (Descriptor.table h ms).faults ignore key (.table origin []) = [] :=
      Descriptor.mayBeAbsent_table_iff
    refine ⟨hiff, fun habsent => ?_⟩
    obtain ⟨c, hc⟩ := Descriptor.exists_bind_eq_ok (hiff.1 habsent)
    refine ⟨c, ?_, hc⟩
    rw [Descriptor.bindAbsent_table (o := origin), Descriptor.bindEntry, hc]
    rfl

/-- the table is written as the empty one, and then its default into that -/
theorem Schema.bind_writtenOut_port :
    portOutline.schema = .ok portSchema ∧ portSchema.bind portSet ["extra"] = .ok portBound
      ∧ Relation.ReflTransGen (portSchema.toDescriptor.WritesOut (.table portBound))
        (.table none portSet) (.table none (portSet
          ++ [("limits", .table none [("bytes", .sequence none [.atom none "7"])])]))
      ∧ portSchema.bind (portSet
          ++ [("limits", .table none [("bytes", .sequence none [.atom none "7"])])]) ["extra"]
        = .ok portBound := by
  have hs : portOutline.schema = .ok portSchema := by rfl
  have hb : portSchema.bind portSet ["extra"] = .ok portBound := by rfl
  have hempty : portSchema.toDescriptor.WritesOut (.table portBound) (.table none portSet)
      (.table none (portSet ++ [("limits", .table none [])])) :=
    @Descriptor.WritesOut.empty _ _ (.table none portSet) [] none portSet "limits" _ _ rfl rfl rfl
  have hvalue : portSchema.toDescriptor.WritesOut (.table portBound)
      (.table none (portSet ++ [("limits", .table none [])]))
      (.table none (portSet
        ++ [("limits", .table none [("bytes", .sequence none [.atom none "7"])])])) :=
    @Descriptor.WritesOut.value _ _ (.table none (portSet ++ [("limits", .table none [])]))
      [.name "limits"] none [] "bytes" _ (.sequence [.scalar (.uint 7)]) rfl rfl rfl rfl
  have hboth := (Relation.ReflTransGen.single hempty).tail hvalue
  exact ⟨hs, hb, hboth, ((Schema.bind_writtenOut hs ["extra"]).1 _ _ hb).1 _ hboth⟩

end ParamSchema
