import ParamSchema.Proofs.Schema.Addressed
import ParamSchema.Proofs.Schema.Origins
import ParamSchema.Proofs.Schema.Split

/-!
# Faults are local

Parameter sets that differ in one entry (`Value.DifferAt`) have the same faults in the same order,
apart from those of the member that the entry is for, and these stand together at one place of the
list (`Descriptor.SplitsAlike`).  Where both are bound, the bound tables differ in that entry only
(`WellFormed.differAt_of_bind`).
-/

namespace ParamSchema

/-- what stands at a place of a list stands between two parts of it -/
theorem exists_append_of_getElem? {α : Type} {xs : List α} {i : Nat} {x : α}
    (h : xs[i]? = some x) : ∃ front back, xs = front ++ x :: back ∧ front.length = i := by
  obtain ⟨hi, rfl⟩ := List.getElem?_eq_some_iff.1 h
  refine ⟨xs.take i, xs.drop (i + 1), ?_, List.length_take_of_le hi.le⟩
  rw [← List.drop_eq_getElem_cons hi, List.take_append_drop]

/-! ## trees that differ in one entry -/

/-- the same entries in the same order, apart from the one under a name -/
def Entries.AgreeBut {α : Type} (k : String) (es fs : Entries α) : Prop :=
  es.filter (fun e => e.1 ≠ k) = fs.filter (fun e => e.1 ≠ k)

/-- Tables on the path have the same entries but one, sequences the same elements but one, up to
origins; the path ends at an entry that is in both tables, in one of them, or in none. -/
inductive Value.DifferAt : List Segment → Value → Value → Prop
  | entry {o o' : Option Origin} {p q : ParamSet} {k : String} :
      Entries.AgreeBut k (eraseEntries p) (eraseEntries q) →
        DifferAt [.name k] (.table o p) (.table o' q)
  | member {o o' : Option Origin} {p q : ParamSet} {k : String} {v w : Value}
      {path : List Segment} :
      Entries.AgreeBut k (eraseEntries p) (eraseEntries q) → Entries.get? p k = some v →
        Entries.get? q k = some w → DifferAt path v w →
          DifferAt (.name k :: path) (.table o p) (.table o' q)
  | element {o o' : Option Origin} {xs xs' ys ys' : List Value} {v w : Value}
      {path : List Segment} :
      eraseAll xs = eraseAll xs' → eraseAll ys = eraseAll ys' → DifferAt path v w →
        DifferAt (.index xs.length :: path) (.sequence o (xs ++ v :: ys))
          (.sequence o' (xs' ++ w :: ys'))

/-- the same for bound values -/
inductive Bound.DifferAt : List Segment → Bound → Bound → Prop
  | entry {es fs : BoundTable} {k : String} :
      Entries.AgreeBut k es fs → DifferAt [.name k] (.table es) (.table fs)
  | member {es fs : BoundTable} {k : String} {b c : Bound} {path : List Segment} :
      Entries.AgreeBut k es fs → Entries.get? es k = some b → Entries.get? fs k = some c →
        DifferAt path b c → DifferAt (.name k :: path) (.table es) (.table fs)
  | element {xs ys : List Bound} {b c : Bound} {path : List Segment} :
      DifferAt path b c →
        DifferAt (.index xs.length :: path) (.sequence (xs ++ b :: ys)) (.sequence (xs ++ c :: ys))

namespace Value

theorem follow?_name {p : ParamSet} {k : String} {v : Value} (h : Entries.get? p k = some v)
    (o : Option Origin) (path : List Segment) :
    (Value.table o p).follow? (.name k :: path) = v.follow? path := by
  rw [follow?, step?, h, Option.bind_some]

theorem follow?_index (o : Option Origin) (xs : List Value) (v : Value) (ys : List Value)
    (path : List Segment) :
    (Value.sequence o (xs ++ v :: ys)).follow? (.index xs.length :: path) = v.follow? path := by
  rw [follow?, step?, List.getElem?_append_right (Nat.le_refl _), Nat.sub_self,
    List.getElem?_cons_zero, Option.bind_some]

theorem length_of_eraseAll_eq {xs ys : List Value} (h : eraseAll xs = eraseAll ys) :
    xs.length = ys.length := by
  rw [eraseAll_eq_map, eraseAll_eq_map] at h
  rw [← List.length_map erase, h, List.length_map]

theorem length_append_cons_of_eraseAll_eq {xs xs' ys ys' : List Value}
    (hxs : eraseAll xs = eraseAll xs') (hys : eraseAll ys = eraseAll ys') (v w : Value) :
    (xs ++ v :: ys).length = (xs' ++ w :: ys').length := by
  rw [List.length_append, List.length_append, List.length_cons, List.length_cons,
    length_of_eraseAll_eq hxs, length_of_eraseAll_eq hys]

end Value

namespace Entries

variable {α : Type} {k name : String} {es fs : Entries α}

theorem get?_filter_ne (h : name ≠ k) (es : Entries α) :
    get? (es.filter fun e => e.1 ≠ k) name = es.get? name := by
  induction es with
  | nil => rfl
  | cons e es ih =>
    rw [List.filter_cons]
    split
    · rw [get?, get?, ih]
    · rename_i he
      have hk : e.1 = k := by simpa using he
      rw [ih, get?, if_neg (hk ▸ h.symm)]

theorem AgreeBut.get? (h : AgreeBut k es fs) (hname : name ≠ k) :
    es.get? name = fs.get? name := by
  rw [← get?_filter_ne hname es, h, get?_filter_ne hname fs]

theorem AgreeBut.keys (h : AgreeBut k es fs) :
    es.keys.filter (· ≠ k) = fs.keys.filter (· ≠ k) := by
  rw [Entries.keys, Entries.keys, List.filter_map, List.filter_map]
  exact congrArg (List.map Prod.fst) h

end Entries

/-! ## faults of two inputs -/

namespace Descriptor

variable {ignore : List String} {key : String} {h : Heading} {d e m : Descriptor}
  {ms es : List Descriptor} {bd : LengthBound} {x? : Option Bound} {o : Option Origin}
  {p q : ParamSet} {v w : Value} {xs ys xs' ys' : List Value}

theorem entryFaults_congr_erase {v? w? : Option Value}
    (hvw : v?.map Value.erase = w?.map Value.erase) :
    d.entryFaults ignore key v? = d.entryFaults ignore key w? := by
  rw [← entryFaults_erase, hvw, entryFaults_erase]

theorem elementFaults_erase (zs : List (Descriptor × Value)) (i : Nat) :
    elementFaults ignore key i (zs.map fun z => (z.1, z.2.erase))
      = elementFaults ignore key i zs := by
  rw [elementFaults, elementFaults, List.zipIdx_map, List.flatMap_map]
  exact List.flatMap_congr fun a _ => faults_erase _ a.1.1 a.1.2

theorem elementFaults_map_congr (hxs : Value.eraseAll xs = Value.eraseAll xs') (i : Nat) :
    elementFaults ignore key i (xs.map fun x => (e, x))
      = elementFaults ignore key i (xs'.map fun x => (e, x)) := by
  have herase : ∀ xs : List Value, (xs.map fun x => (e, x)).map (fun z => (z.1, z.2.erase))
      = (Value.eraseAll xs).map fun x => (e, x) := by
    intro xs
    rw [Value.eraseAll_eq_map, List.map_map, List.map_map]
    rfl
  rw [← elementFaults_erase, herase, hxs, ← herase, elementFaults_erase]

theorem elementFaults_zip_congr (hxs : Value.eraseAll xs = Value.eraseAll xs') (i : Nat) :
    elementFaults ignore key i (es.zip xs) = elementFaults ignore key i (es.zip xs') := by
  have herase : ∀ xs : List Value, (es.zip xs).map (fun z => (z.1, z.2.erase))
      = es.zip (Value.eraseAll xs) := by
    intro xs
    rw [Value.eraseAll_eq_map, List.zip_map_right]
    rfl
  rw [← elementFaults_erase, herase, hxs, ← herase, elementFaults_erase]

section
variable {k : String} (hpq : Entries.AgreeBut k (Value.eraseEntries p) (Value.eraseEntries q))
include hpq

/-- tables that differ in one entry have the same entries for the other members -/
theorem get?_erase_of_agreeBut {name : String} (hname : name ≠ k) :
    (Entries.get? p name).map Value.erase = (Entries.get? q name).map Value.erase := by
  rw [← get?_eraseEntries, ← get?_eraseEntries, hpq.get? hname]

theorem memberFaults_of_agreeBut (hms : ∀ d ∈ ms, d.name ≠ k) :
    memberFaults ignore key p ms = memberFaults ignore key q ms :=
  memberFaults_congr fun d hd => entryFaults_congr_erase (get?_erase_of_agreeBut hpq (hms d hd))

theorem unknownFaults_of_agreeBut (hk : isMember ms k = true) :
    unknownFaults ignore key ms p = unknownFaults ignore key ms q := by
  have hkeys := hpq.keys
  rw [keys_eraseEntries, keys_eraseEntries] at hkeys
  have hundeclared : ∀ names : List String, names.filter (fun name => !isMember ms name)
      = (names.filter (· ≠ k)).filter fun name => !isMember ms name := by
    intro names
    rw [List.filter_filter]
    refine List.filter_congr fun name _ => ?_
    by_cases hname : name = k
    · simp [hname, hk]
    · simp [hname]
  rw [unknownFaults, unknownFaults, hundeclared p.keys, hkeys, ← hundeclared]

end

/-- members apart from one have other names -/
theorem exists_append_of_find? {k : String} (hnodup : (ms.map name).Nodup)
    (hfind : (ms.find? fun m => m.name == k) = some m) :
    m.name = k ∧ ∃ front back, ms = front ++ m :: back ∧ (∀ d ∈ front, d.name ≠ k)
      ∧ ∀ d ∈ back, d.name ≠ k := by
  obtain ⟨hname, front, back, rfl, hfront⟩ := List.find?_eq_some_iff_append.1 hfind
  obtain rfl := beq_iff_eq.1 hname
  refine ⟨rfl, front, back, rfl, fun d hd => by simpa using hfront d hd, fun d hd heq => ?_⟩
  rw [List.map_append, List.map_cons, List.nodup_append] at hnodup
  exact (List.nodup_cons.1 hnodup.2.1).1 (heq ▸ List.mem_map_of_mem hd)

/-- both values have their faults around those of the parameter at the path, with the same faults
on either side -/
def SplitsAlike (ignore : List String) (d m : Descriptor) (path : List Segment) (v w : Value) :
    Prop :=
  ∀ key, ∃ site key' front back,
    Pair.Splits ignore ⟨key, d, some v⟩ site ⟨key', m, v.follow? path⟩ front back
      ∧ Pair.Splits ignore ⟨key, d, some w⟩ site ⟨key', m, w.follow? path⟩ front back

theorem exists_parts_member {k : String} {o' : Option Origin} (hnodup : (ms.map name).Nodup)
    (hfind : (ms.find? fun m => m.name == k) = some m)
    (hpq : Entries.AgreeBut k (Value.eraseEntries p) (Value.eraseEntries q)) (key : String) :
    ∃ st front back,
      Pair.Parts ignore ⟨key, .table h ms, some (.table o p)⟩ st
          ⟨joinKey key k, m, Entries.get? p k⟩ front back
        ∧ Pair.Parts ignore ⟨key, .table h ms, some (.table o' q)⟩ st
          ⟨joinKey key k, m, Entries.get? q k⟩ front back := by
  obtain ⟨rfl, ds, es, rfl, hds, hes⟩ := exists_append_of_find? hnodup hfind
  have hk : isMember (ds ++ m :: es) m.name = true :=
    List.any_eq_true.2 ⟨m, List.mem_append_right ds List.mem_cons_self, beq_self_eq_true _⟩
  refine ⟨_, _, _, parts_member, ?_⟩
  rw [memberFaults_of_agreeBut hpq hds, memberFaults_of_agreeBut hpq hes,
    unknownFaults_of_agreeBut hpq hk]
  exact parts_member

theorem exists_parts_element {o' : Option Origin} (hxs : Value.eraseAll xs = Value.eraseAll xs')
    (hys : Value.eraseAll ys = Value.eraseAll ys') (key : String) :
    ∃ st front back,
      Pair.Parts ignore ⟨key, .sequence h e bd x?, some (.sequence o (xs ++ v :: ys))⟩ st
          ⟨indexKey key xs.length, e, some v⟩ front back
        ∧ Pair.Parts ignore ⟨key, .sequence h e bd x?, some (.sequence o' (xs' ++ w :: ys'))⟩ st
          ⟨indexKey key xs.length, e, some w⟩ front back := by
  have hlen : xs.length = xs'.length := Value.length_of_eraseAll_eq hxs
  have hall := Value.length_append_cons_of_eraseAll_eq hxs hys v w
  refine ⟨_, _, _, parts_element, ?_⟩
  rw [elementFaults_map_congr hxs, elementFaults_map_congr hys, hall, hlen]
  exact parts_element

theorem exists_parts_place {o' : Option Origin} (hes : es[xs.length]? = some e)
    (hxs : Value.eraseAll xs = Value.eraseAll xs') (hys : Value.eraseAll ys = Value.eraseAll ys')
    (key : String) :
    ∃ st front back,
      Pair.Parts ignore ⟨key, .tuple h es x?, some (.sequence o (xs ++ v :: ys))⟩ st
          ⟨indexKey key xs.length, e, some v⟩ front back
        ∧ Pair.Parts ignore ⟨key, .tuple h es x?, some (.sequence o' (xs' ++ w :: ys'))⟩ st
          ⟨indexKey key xs.length, e, some w⟩ front back := by
  have hlen : xs.length = xs'.length := Value.length_of_eraseAll_eq hxs
  have hall := Value.length_append_cons_of_eraseAll_eq hxs hys v w
  obtain ⟨ds, fs, rfl, hds⟩ := exists_append_of_getElem? hes
  refine ⟨_, _, _, parts_place hds, ?_⟩
  rw [elementFaults_zip_congr hxs, elementFaults_zip_congr hys, hall, hlen]
  exact parts_place (hds.trans hlen)

theorem splitsAlike_sequence {path : List Segment}
    (ih : ∀ {path v w}, e.follow? path = some m → Value.DifferAt path v w →
      e.SplitsAlike ignore m path v w)
    (hm : (Descriptor.sequence h e bd x?).follow? path = some m) (hvw : Value.DifferAt path v w) :
    (Descriptor.sequence h e bd x?).SplitsAlike ignore m path v w := by
  intro key
  cases hvw with
  | entry _ => cases hm
  | member _ _ _ _ => cases hm
  | @element o o' xs xs' ys ys' v w path hxs hys hvw =>
    obtain ⟨st, front, back, hpv, hpw⟩ := exists_parts_element hxs hys key
    obtain ⟨site, key', front', back', hv, hw⟩ := ih hm hvw (indexKey key xs.length)
    rw [Value.follow?_index, Value.length_of_eraseAll_eq hxs, Value.follow?_index]
    exact ⟨_, _, _, _, .step hpv hv, .step hpw hw⟩

theorem splitsAlike_tuple {path : List Segment}
    (ih : ∀ e ∈ es, ∀ {path v w}, e.follow? path = some m → Value.DifferAt path v w →
      e.SplitsAlike ignore m path v w)
    (hm : (Descriptor.tuple h es x?).follow? path = some m) (hvw : Value.DifferAt path v w) :
    (Descriptor.tuple h es x?).SplitsAlike ignore m path v w := by
  intro key
  cases hvw with
  | entry _ => cases hm
  | member _ _ _ _ => cases hm
  | @element o o' xs xs' ys ys' v w path hxs hys hvw =>
    obtain ⟨e, he, hem⟩ := Option.bind_eq_some_iff.1 hm
    obtain ⟨st, front, back, hpv, hpw⟩ := exists_parts_place he hxs hys key
    obtain ⟨site, key', front', back', hv, hw⟩ :=
      ih e (List.mem_of_getElem? he) hem hvw (indexKey key xs.length)
    rw [Value.follow?_index, Value.length_of_eraseAll_eq hxs, Value.follow?_index]
    exact ⟨_, _, _, _, .step hpv hv, .step hpw hw⟩

theorem splitsAlike_table {path : List Segment} (hnodup : (ms.map name).Nodup)
    (ih : ∀ e ∈ ms, ∀ {path v w}, e.follow? path = some m → Value.DifferAt path v w →
      e.SplitsAlike ignore m path v w)
    (hm : (Descriptor.table h ms).follow? path = some m) (hvw : Value.DifferAt path v w) :
    (Descriptor.table h ms).SplitsAlike ignore m path v w := by
  intro key
  cases hvw with
  | @entry o o' p q k hpq =>
    obtain ⟨e, he, hem⟩ := Option.bind_eq_some_iff.1 hm
    obtain rfl := Option.some.inj hem
    obtain ⟨st, front, back, hp, hq⟩ := exists_parts_member hnodup he hpq key
    rw [Value.follow?_singleton, Value.follow?_singleton]
    exact ⟨_, _, _, _, .step hp (.here ignore _), .step hq (.here ignore _)⟩
  | @member o o' p q k v w path hpq hv hw hvw =>
    obtain ⟨e, he, hem⟩ := Option.bind_eq_some_iff.1 hm
    obtain ⟨st, front, back, hp, hq⟩ := exists_parts_member hnodup he hpq key
    obtain ⟨site, key', front', back', hv', hw'⟩ :=
      ih e (List.mem_of_find?_eq_some he) hem hvw (joinKey key k)
    rw [hv] at hp
    rw [hw] at hq
    rw [Value.follow?_name hv, Value.follow?_name hw]
    exact ⟨_, _, _, _, .step hp hv', .step hq hw'⟩
  | element _ _ _ => cases hm

/-- what two values of one parameter share of their faults -/
theorem WellFormed.splitsAlike {path : List Segment} (hd : d.WellFormed)
    (hm : d.follow? path = some m) (hvw : Value.DifferAt path v w) :
    d.SplitsAlike ignore m path v w := by
  induction d generalizing path v w with
  | atom h t x => cases hvw <;> cases hm
  | sequence h e bd x ih =>
    cases hd with
    | sequence he _ _ _ => exact splitsAlike_sequence (fun hm hvw => ih he hm hvw) hm hvw
  | tuple h es x ih =>
    cases hd with
    | tuple _ hes _ _ => exact splitsAlike_tuple (fun e he => ih e he (hes e he)) hm hvw
  | table h ms ih =>
    cases hd with
    | table _ hnodup hms => exact splitsAlike_table hnodup (fun e he => ih e he (hms e he)) hm hvw
  | optional d ih =>
    cases hd with
    | optional hd _ =>
      intro key
      -- the path goes on below, so the wrapped descriptor is the one that it is followed through
      have hbelow : d.follow? path = some m := by cases hvw <;> exact hm
      obtain ⟨site, key', front, back, hv, hw⟩ := ih hd hbelow hvw key
      exact ⟨_, _, _, _, .step parts_content hv, .step parts_content hw⟩

/-! ## bound values -/

theorem forall₂_of_eraseAll_eq (hxs : Value.eraseAll xs = Value.eraseAll xs') :
    List.Forall₂ (fun x y => ∀ (e : Descriptor) (key : String), e.bind key x = e.bind key y)
      xs xs' := by
  have herase : List.Forall₂ Eq (xs.map Value.erase) (xs'.map Value.erase) := by
    rw [← Value.eraseAll_eq_map, ← Value.eraseAll_eq_map, hxs]
    exact List.forall₂_same.2 fun _ _ => rfl
  rw [List.forall₂_map_left_iff, List.forall₂_map_right_iff] at herase
  refine herase.imp fun x y hxy e key => ?_
  rw [← bind_erase, hxy, bind_erase]

theorem bindElements_of_eraseAll_eq (hxs : Value.eraseAll xs = Value.eraseAll xs') (i : Nat) :
    ((xs.zipIdx i).mapM fun (x, i) => e.bind (indexKey key i) x)
      = (xs'.zipIdx i).mapM fun (x, i) => e.bind (indexKey key i) x :=
  bindElements_congr ((forall₂_of_eraseAll_eq hxs).imp fun _ _ h => h e) i

theorem bindPlaces_of_eraseAll_eq (hxs : Value.eraseAll xs = Value.eraseAll xs') (i : Nat) :
    bindPlaces key i es xs = bindPlaces key i es xs' :=
  bindPlaces_congr ((forall₂_of_eraseAll_eq hxs).imp fun _ _ h e _ => h e) i

theorem bindEntry_congr_erase {v? w? : Option Value}
    (hvw : v?.map Value.erase = w?.map Value.erase) :
    d.bindEntry key v? = d.bindEntry key w? := by
  rw [← bindEntry_erase, hvw, bindEntry_erase]

/-- what the other members bind to is the same -/
theorem agreeBut_of_bindMembers {k : String} {bs cs : BoundTable}
    (hpq : Entries.AgreeBut k (Value.eraseEntries p) (Value.eraseEntries q))
    (hb : bindMembers key p ms = .ok bs) (hc : bindMembers key q ms = .ok cs) :
    Entries.AgreeBut k bs cs := by
  induction ms generalizing bs cs with
  | nil =>
    rw [bindMembers_nil] at hb hc
    rw [← Except.ok.inj hb, ← Except.ok.inj hc]
    rfl
  | cons d ds ih =>
    obtain ⟨y, bs, hy, hbs, rfl⟩ := bindMembers_cons_eq_ok.1 hb
    obtain ⟨z, cs, hz, hcs, rfl⟩ := bindMembers_cons_eq_ok.1 hc
    have hrest : bs.filter (fun e => e.1 ≠ k) = cs.filter (fun e => e.1 ≠ k) := ih hbs hcs
    rw [Entries.AgreeBut, List.filter_append, List.filter_append, hrest]
    refine congrArg (· ++ _) ?_
    by_cases hname : d.name = k
    · cases y <;> cases z <;> simp [hname]
    · rw [bindEntry_congr_erase (get?_erase_of_agreeBut hpq hname), hz] at hy
      rw [Except.ok.inj hy]

theorem differAt_of_bind_table {path : List Segment} (hnodup : (ms.map name).Nodup)
    (ih : ∀ e ∈ ms, ∀ {path v w key b c}, e.follow? path = some m → Value.DifferAt path v w →
      e.bind key v = .ok b → e.bind key w = .ok c → Bound.DifferAt path b c)
    (hm : (Descriptor.table h ms).follow? path = some m) (hvw : Value.DifferAt path v w)
    {b c : Bound} (hb : (Descriptor.table h ms).bind key v = .ok b)
    (hc : (Descriptor.table h ms).bind key w = .ok c) : Bound.DifferAt path b c := by
  cases hvw with
  | @entry o o' p q k hpq =>
    obtain ⟨bs, hbs, rfl⟩ := bind_table_eq_ok.1 hb
    obtain ⟨cs, hcs, rfl⟩ := bind_table_eq_ok.1 hc
    exact .entry (agreeBut_of_bindMembers hpq hbs hcs)
  | @member o o' p q k v w path hpq hv hw hvw =>
    obtain ⟨bs, hbs, rfl⟩ := bind_table_eq_ok.1 hb
    obtain ⟨cs, hcs, rfl⟩ := bind_table_eq_ok.1 hc
    obtain ⟨e, he, hem⟩ := Option.bind_eq_some_iff.1 hm
    have hmem := List.mem_of_find?_eq_some he
    obtain ⟨rfl, _⟩ := exists_append_of_find? hnodup he
    have hentry := ((bindMembers_eq_ok_of_nodup hnodup).1 hbs).2 e hmem
    have hentry' := ((bindMembers_eq_ok_of_nodup hnodup).1 hcs).2 e hmem
    rw [hv] at hentry
    rw [hw] at hentry'
    obtain ⟨b, hb, hgetb⟩ := map_eq_ok.1 hentry
    obtain ⟨c, hc, hgetc⟩ := map_eq_ok.1 hentry'
    exact .member (agreeBut_of_bindMembers hpq hbs hcs) hgetb.symm hgetc.symm
      (ih e hmem hem hvw hb hc)
  | element _ _ _ => cases hm

theorem differAt_of_bind_sequence {path : List Segment}
    (ih : ∀ {path v w key b c}, e.follow? path = some m → Value.DifferAt path v w →
      e.bind key v = .ok b → e.bind key w = .ok c → Bound.DifferAt path b c)
    (hm : (Descriptor.sequence h e bd x?).follow? path = some m) (hvw : Value.DifferAt path v w)
    {b c : Bound} (hb : (Descriptor.sequence h e bd x?).bind key v = .ok b)
    (hc : (Descriptor.sequence h e bd x?).bind key w = .ok c) : Bound.DifferAt path b c := by
  cases hvw with
  | entry _ => cases hm
  | member _ _ _ _ => cases hm
  | @element o o' xs xs' ys ys' v w path hxs hys hvw =>
    have hlen : xs.length = xs'.length := Value.length_of_eraseAll_eq hxs
    rw [bind, map_eq_ok] at hb hc
    obtain ⟨bs, hbs, rfl⟩ := hb
    obtain ⟨cs, hcs, rfl⟩ := hc
    rw [mapM_zipIdx_append, bind_append_cons_eq_ok] at hbs
    rw [mapM_zipIdx_append, bind_append_cons_eq_ok, ← bindElements_of_eraseAll_eq hxs,
      ← bindElements_of_eraseAll_eq hys, ← hlen] at hcs
    obtain ⟨front, b, back, hfront, hb, hback, rfl⟩ := hbs
    obtain ⟨front', c, back', hfront', hc, hback', rfl⟩ := hcs
    obtain rfl := Except.ok.inj (hfront.symm.trans hfront')
    obtain rfl := Except.ok.inj (hback.symm.trans hback')
    rw [← length_of_mapM_zipIdx hfront]
    exact .element (ih hm hvw hb hc)

theorem exists_bindPlaces_of_bind {b : Bound}
    (hb : (Descriptor.tuple h es x?).bind key (.sequence o xs) = .ok b) :
    ∃ bs, bindPlaces key 0 es xs = .ok bs ∧ .sequence bs = b := by
  by_cases hlen : xs.length = es.length
  · exact (bind_tuple_eq_ok hlen).1 hb
  · rw [bind, if_neg hlen] at hb
    cases hb

theorem differAt_of_bind_tuple {path : List Segment}
    (ih : ∀ e ∈ es, ∀ {path v w key b c}, e.follow? path = some m → Value.DifferAt path v w →
      e.bind key v = .ok b → e.bind key w = .ok c → Bound.DifferAt path b c)
    (hm : (Descriptor.tuple h es x?).follow? path = some m) (hvw : Value.DifferAt path v w)
    {b c : Bound} (hb : (Descriptor.tuple h es x?).bind key v = .ok b)
    (hc : (Descriptor.tuple h es x?).bind key w = .ok c) : Bound.DifferAt path b c := by
  cases hvw with
  | entry _ => cases hm
  | member _ _ _ _ => cases hm
  | @element o o' xs xs' ys ys' v w path hxs hys hvw =>
    have hlen : xs.length = xs'.length := Value.length_of_eraseAll_eq hxs
    obtain ⟨e, he, hem⟩ := Option.bind_eq_some_iff.1 hm
    have hmem := List.mem_of_getElem? he
    obtain ⟨ds, fs, rfl, hds⟩ := exists_append_of_getElem? he
    obtain ⟨bs, hbs, rfl⟩ := exists_bindPlaces_of_bind hb
    obtain ⟨cs, hcs, rfl⟩ := exists_bindPlaces_of_bind hc
    rw [bindPlaces_append hds, bind_append_cons_eq_ok] at hbs
    rw [bindPlaces_append (hds.trans hlen), bind_append_cons_eq_ok,
      ← bindPlaces_of_eraseAll_eq hxs, ← bindPlaces_of_eraseAll_eq hys, ← hlen] at hcs
    obtain ⟨front, b, back, hfront, hbv, hback, rfl⟩ := hbs
    obtain ⟨front', c, back', hfront', hcw, hback', rfl⟩ := hcs
    obtain rfl := Except.ok.inj (hfront.symm.trans hfront')
    obtain rfl := Except.ok.inj (hback.symm.trans hback')
    rw [← length_of_bindPlaces hds hfront]
    exact .element (ih e hmem hem hvw hbv hcw)

theorem WellFormed.differAt_of_bind {path : List Segment} {b c : Bound} (hd : d.WellFormed)
    (hm : d.follow? path = some m) (hvw : Value.DifferAt path v w) (hb : d.bind key v = .ok b)
    (hc : d.bind key w = .ok c) : Bound.DifferAt path b c := by
  induction d generalizing path v w key b c with
  | atom h t x => cases hvw <;> cases hm
  | sequence h e bd x ih =>
    cases hd with
    | sequence he _ _ _ =>
      exact differAt_of_bind_sequence (fun hm hvw hb hc => ih he hm hvw hb hc) hm hvw hb hc
  | tuple h es x ih =>
    cases hd with
    | tuple _ hes _ _ =>
      exact differAt_of_bind_tuple (fun e he => ih e he (hes e he)) hm hvw hb hc
  | table h ms ih =>
    cases hd with
    | table _ hnodup hms =>
      exact differAt_of_bind_table hnodup (fun e he => ih e he (hms e he)) hm hvw hb hc
  | optional d ih =>
    cases hd with
    | optional hd _ =>
      have hbelow : d.follow? path = some m := by cases hvw <;> exact hm
      rw [bind] at hb hc
      exact ih hd hbelow hvw hb hc

end Descriptor

/-! ## the root -/

/-- **Faults are local.**  Two parameter sets that differ in the entry of one member, of the root or
of a table at any depth, have the same faults in the same order, apart from those of that member:
these are one block of the fault list, which holds what is wrong at the member or below it and
nothing else, and stands at the same place in both lists.  Where both are bound, the bound tables
differ at most in the entry of that member. -/
theorem Schema.faults_local {o : Outline} {s : Schema} (hs : o.schema = .ok s) {p q : ParamSet}
    {path : List Segment} {m : Descriptor} (hm : s.toDescriptor.follow? path = some m)
    (hpq : Value.DifferAt path (.table none p) (.table none q)) (ignore : List String) :
    (∃ site key front back, ∀ r, r = p ∨ r = q →
      s.faults r ignore
          = front ++ m.entryFaults ignore key ((Value.table none r).follow? path) ++ back
        ∧ (s.rootPair r).Splits ignore site ⟨key, m, (Value.table none r).follow? path⟩ front back)
    ∧ ∀ b c, s.bind p ignore = .ok b → s.bind q ignore = .ok c →
      Bound.DifferAt path (.table b) (.table c) := by
  have hwf : s.toDescriptor.WellFormed := (o.wellFormed_of_schema hs).table s.heading
  constructor
  · obtain ⟨site, key, front, back, hp, hq⟩ := hwf.splitsAlike hm hpq ""
    refine ⟨site, key, front, back, fun r hr => ?_⟩
    rcases hr with rfl | rfl
    · exact ⟨(faults_eq s _ ignore).trans hp.faults, hp⟩
    · exact ⟨(faults_eq s _ ignore).trans hq.faults, hq⟩
  · intro b c hb hc
    exact hwf.differAt_of_bind hm hpq (bind_eq_ok.1 hb).2 (bind_eq_ok.1 hc).2

/-- the same grid with an entry for the depth, behind the key that nobody declares -/
def deepSet : ParamSet :=
  [("rows", .sequence none [.sequence none [.atom none "1"], .atom none "2"]),
    ("area", .table none [("extra", .table none [("unit", .atom none "mm")]),
      ("depth", .sequence none [])]),
    ("rows2", .atom none "3")]

/-- the parameter that one of them misses -/
def gridDepth : Descriptor := .atom ⟨"depth", "", "area.depth", false⟩ (.unsigned .w8) none

theorem Schema.faults_local_grid :
    gridOutline.schema = .ok gridSchema
      ∧ gridSchema.toDescriptor.follow? [.name "area", .name "depth"] = some gridDepth
      ∧ Value.DifferAt [.name "area", .name "depth"] (.table none gridSet) (.table none deepSet)
      ∧ gridSchema.faults gridSet [] = gridFaults
      ∧ gridSchema.faults deepSet [] = [⟨"rows[0]", .arityMismatch 2 1⟩,
        ⟨"rows[1]", .notASequence "an atom"⟩, ⟨"area.depth", .typeMismatch "u8" "a sequence"⟩,
        ⟨"area.extra", .unknown⟩, ⟨"rows2", .unknown⟩]
      ∧ ∃ site key front back, ∀ r, r = gridSet ∨ r = deepSet →
        gridSchema.faults r [] = front
          ++ gridDepth.entryFaults [] key
            ((Value.table none r).follow? [.name "area", .name "depth"]) ++ back
        ∧ (gridSchema.rootPair r).Splits [] site
          ⟨key, gridDepth, (Value.table none r).follow? [.name "area", .name "depth"]⟩
          front back := by
  have hs : gridOutline.schema = .ok gridSchema := by rfl
  have hm : gridSchema.toDescriptor.follow? [.name "area", .name "depth"] = some gridDepth := by
    rfl
  have hdiffer : Value.DifferAt [.name "area", .name "depth"] (.table none gridSet)
      (.table none deepSet) := .member rfl rfl rfl (.entry rfl)
  exact ⟨hs, hm, hdiffer, by rfl, by rfl, (Schema.faults_local hs hm hdiffer []).1⟩

end ParamSchema
