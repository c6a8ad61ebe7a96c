import ParamSchema.Proofs.Schema.Sound

/-!
# Declaring a descriptor

Declaring accepts the sound descriptors and no others (`exists_declare_of_sound`,
`sound_of_declare`).  It changes nothing but the keys and the defaults of sequences and tuples,
which become what binding them yields (`declare_eq_under`).

* `unkeyed`   a descriptor without the keys, and without the marks of spliced members;
* `settle`    a descriptor with each default as it is bound; declared ones are settled already;
* `under`     a descriptor with the keys it has under a parent, spliced members as they are.
-/

namespace ParamSchema

def Heading.unkeyed (h : Heading) : Heading := ⟨h.name, h.comment, "", false⟩

def Heading.under (parent : String) (h : Heading) : Heading :=
  { h with key := joinKey parent h.name }

namespace Descriptor

mutual
def unkeyed : Descriptor → Descriptor
  | .atom h t x => .atom h.unkeyed t x
  | .sequence h e b x => .sequence h.unkeyed e.unkeyed b x
  | .tuple h es x => .tuple h.unkeyed (unkeyedAll es) x
  | .table h ms => .table h.unkeyed (unkeyedAll ms)
  | .optional d => .optional d.unkeyed
def unkeyedAll : List Descriptor → List Descriptor
  | [] => []
  | d :: ds => d.unkeyed :: unkeyedAll ds
end

theorem unkeyedAll_eq_map (ds : List Descriptor) : unkeyedAll ds = ds.map unkeyed := by
  induction ds with
  | nil => rfl
  | cons d ds ih => rw [unkeyedAll, ih, List.map_cons]

/-- what a default binds to; one that does not bind stays as it is -/
def settleDefault (d : Descriptor) (c : Bound) : Bound :=
  match d.bind "" c.toValue with
  | .ok b => b
  | .error _ => c

mutual
def settle : Descriptor → Descriptor
  | .atom h t x => .atom h t x
  | .sequence h e b x =>
    .sequence h e.settle b (x.map (Descriptor.sequence h e.settle b none).settleDefault)
  | .tuple h es x =>
    .tuple h (settleAll es) (x.map (Descriptor.tuple h (settleAll es) none).settleDefault)
  | .table h ms => .table h (settleAll ms)
  | .optional d => .optional d.settle
def settleAll : List Descriptor → List Descriptor
  | [] => []
  | d :: ds => d.settle :: settleAll ds
end

theorem settleAll_eq_map (ds : List Descriptor) : settleAll ds = ds.map settle := by
  induction ds with
  | nil => rfl
  | cons d ds ih => rw [settleAll, ih, List.map_cons]

mutual
def under (parent : String) (d : Descriptor) : Descriptor :=
  match d with
  | .atom h t x => .atom (h.under parent) t x
  | .sequence h e b x => .sequence (h.under parent) (e.under (joinKey parent h.name)) b x
  | .tuple h es x => .tuple (h.under parent) (underElements (joinKey parent h.name) es) x
  | .table h ms => .table (h.under parent) (underMembers (joinKey parent h.name) ms)
  | .optional d => .optional (d.under parent)
def underElements (parent : String) (es : List Descriptor) : List Descriptor :=
  match es with
  | [] => []
  | e :: es => e.under parent :: underElements parent es
/-- what was spliced in keeps the keys of its fragment -/
def underMembers (parent : String) (ms : List Descriptor) : List Descriptor :=
  match ms with
  | [] => []
  | d :: ds => (if d.heading.spliced then d else d.under parent) :: underMembers parent ds
end

def underMember (parent : String) (d : Descriptor) : Descriptor :=
  if d.heading.spliced then d else d.under parent

theorem underElements_eq_map (parent : String) (es : List Descriptor) :
    underElements parent es = es.map (under parent) := by
  induction es with
  | nil => rw [underElements, List.map_nil]
  | cons e es ih => rw [underElements, ih, List.map_cons]

theorem underMembers_eq_map (parent : String) (ms : List Descriptor) :
    underMembers parent ms = ms.map (underMember parent) := by
  induction ms with
  | nil => rw [underMembers, List.map_nil]
  | cons d ds ih => rw [underMembers, ih, List.map_cons, underMember]

/-! ## what they keep -/

theorem heading_under (parent : String) (d : Descriptor) :
    (d.under parent).heading = d.heading.under parent := by
  induction d with
  | optional d ih =>
    rw [under]
    exact ih
  | _ =>
    rw [under]
    rfl

theorem name_under (parent : String) (d : Descriptor) : (d.under parent).name = d.name := by
  rw [name, heading_under]
  rfl

theorem heading_underMember (parent : String) (d : Descriptor) :
    (d.underMember parent).heading.spliced = d.heading.spliced
      ∧ (d.underMember parent).name = d.name := by
  unfold underMember
  split
  · exact ⟨rfl, rfl⟩
  · rw [heading_under, name_under]
    exact ⟨rfl, rfl⟩

theorem unkeyed_underMember {parent : String} {d : Descriptor}
    (h : (d.under parent).unkeyed = d.unkeyed) : (d.underMember parent).unkeyed = d.unkeyed := by
  unfold underMember
  split
  · rfl
  · exact h

theorem unkeyed_under (parent : String) (d : Descriptor) :
    (d.under parent).unkeyed = d.unkeyed := by
  induction d generalizing parent with
  | atom h t x =>
    rw [under]
    rfl
  | sequence h e b x ih =>
    rw [under, unkeyed, unkeyed, ih]
    rfl
  | tuple h es x ih =>
    have hes : es.map (unkeyed ∘ under (joinKey parent h.name)) = es.map unkeyed :=
      List.map_congr_left fun e he => ih e he _
    rw [under, unkeyed, unkeyed, underElements_eq_map, unkeyedAll_eq_map, unkeyedAll_eq_map,
      List.map_map, hes]
    rfl
  | table h ms ih =>
    have hms : ms.map (unkeyed ∘ underMember (joinKey parent h.name)) = ms.map unkeyed :=
      List.map_congr_left fun d hd => unkeyed_underMember (ih d hd _)
    rw [under, unkeyed, unkeyed, underMembers_eq_map, unkeyedAll_eq_map, unkeyedAll_eq_map,
      List.map_map, hms]
    rfl
  | optional d ih => rw [under, unkeyed, unkeyed, ih]

theorem underMember_underMember {parent : String} {d : Descriptor} (other : String)
    (h : (d.under parent).under other = d.under other) :
    (d.underMember parent).underMember other = d.underMember other := by
  rw [underMember, (heading_underMember parent d).1, underMember, underMember]
  split
  · rfl
  · exact h

theorem heading_settle (d : Descriptor) : d.settle.heading = d.heading := by
  induction d with
  | optional d ih => exact ih
  | _ => rfl

/-- the last parent counts -/
theorem under_under (parent other : String) (d : Descriptor) :
    (d.under parent).under other = d.under other := by
  induction d generalizing parent other with
  | atom h t x =>
    rw [under, under, under]
    rfl
  | sequence h e b x ih =>
    rw [under, under, under, ih]
    rfl
  | tuple h es x ih =>
    have hes : es.map (under (joinKey other h.name) ∘ under (joinKey parent h.name))
        = es.map (under (joinKey other h.name)) :=
      List.map_congr_left fun e he => ih e he _ _
    rw [under, under, under, underElements_eq_map, underElements_eq_map, underElements_eq_map,
      List.map_map, ← hes]
    rfl
  | table h ms ih =>
    have hms : ms.map (underMember (joinKey other h.name) ∘ underMember (joinKey parent h.name))
        = ms.map (underMember (joinKey other h.name)) :=
      List.map_congr_left fun d hd => underMember_underMember _ (ih d hd _ _)
    rw [under, under, under, underMembers_eq_map, underMembers_eq_map, underMembers_eq_map,
      List.map_map, ← hms]
    rfl
  | optional d ih => rw [under, under, under, ih]

/-- a member that was not spliced in gets its key from the parent -/
theorem underMember_eq_under {d : Descriptor} (h : d.heading.spliced = false) (parent : String) :
    d.underMember parent = d.under parent := by
  rw [underMember, if_neg (Bool.eq_false_iff.1 h)]

theorem underMember_under {d : Descriptor} (h : d.heading.spliced = false)
    (parent other : String) : (d.under parent).underMember other = d.under other := by
  have hspliced : (d.under parent).heading.spliced = false := by
    rw [heading_under]
    exact h
  rw [underMember_eq_under hspliced, under_under]

theorem forall₂_map {r : Descriptor → Descriptor → Prop} {f : Descriptor → Descriptor}
    {ds : List Descriptor} (h : ∀ d ∈ ds, r d (f d)) : List.Forall₂ r ds (ds.map f) := by
  rw [List.forall₂_map_right_iff, List.forall₂_same]
  exact h

theorem sameFaults_unkeyed (d : Descriptor) : SameFaults d d.unkeyed := by
  induction d with
  | atom hd t x => exact .atom rfl
  | sequence hd e b x ih => exact .sequence rfl ih rfl
  | tuple hd es x ih =>
    rw [unkeyed, unkeyedAll_eq_map]
    exact .tuple rfl (forall₂_map ih) rfl
  | table hd ms ih =>
    rw [unkeyed, unkeyedAll_eq_map]
    exact .table rfl (forall₂_map ih)
  | optional d ih => exact .optional ih

theorem sameFaults_settle (d : Descriptor) : SameFaults d d.settle := by
  induction d with
  | atom hd t x => exact .atom rfl
  | sequence hd e b x ih => exact .sequence rfl ih (Option.isSome_map ..)
  | tuple hd es x ih =>
    rw [settle, settleAll_eq_map]
    exact .tuple rfl (forall₂_map ih) (Option.isSome_map ..)
  | table hd ms ih =>
    rw [settle, settleAll_eq_map]
    exact .table rfl (forall₂_map ih)
  | optional d ih => exact .optional ih

theorem bindsAs_unkeyed (d : Descriptor) : BindsAs d d.unkeyed := by
  induction d with
  | atom hd t x => exact .atom rfl
  | sequence hd e b x ih => exact .sequence rfl ih
  | tuple hd es x ih =>
    rw [unkeyed, unkeyedAll_eq_map]
    exact .tuple rfl (forall₂_map ih)
  | table hd ms ih =>
    rw [unkeyed, unkeyedAll_eq_map]
    exact .table rfl (forall₂_map ih)
  | optional d ih => exact .optional ih

theorem unkeyed_bindsAs (d : Descriptor) : BindsAs d.unkeyed d := by
  have hmap : ∀ ds : List Descriptor, (∀ d ∈ ds, BindsAs d.unkeyed d) →
      List.Forall₂ BindsAs (ds.map unkeyed) ds := by
    intro ds h
    rw [List.forall₂_map_left_iff, List.forall₂_same]
    exact h
  induction d with
  | atom hd t x => exact .atom rfl
  | sequence hd e b x ih => exact .sequence rfl ih
  | tuple hd es x ih =>
    rw [unkeyed, unkeyedAll_eq_map]
    exact .tuple rfl (hmap es ih)
  | table hd ms ih =>
    rw [unkeyed, unkeyedAll_eq_map]
    exact .table rfl (hmap ms ih)
  | optional d ih => exact .optional ih

/-- descriptors that differ in keys only bind alike -/
theorem bind_of_unkeyed_eq {d e : Descriptor} (h : d.unkeyed = e.unkeyed) {key : String}
    {v : Value} {b : Bound} (key' : String) (hb : d.bind key v = .ok b) :
    e.bind key' v = .ok b := by
  have hd := (bindsAs_unkeyed d).present key hb
  rw [h] at hd
  exact (unkeyed_bindsAs e).present key' hd

section
variable {g h : Heading} {e : Descriptor} {es : List Descriptor} {b : LengthBound}
  {x y : Option Bound} {key : String} {v : Value} {c : Bound}

/-- the default of a sequence is nothing to a value that is there -/
theorem bind_sequence_congr :
    (Descriptor.sequence g e b y).bind key v = (Descriptor.sequence h e b x).bind key v := by
  cases v <;> rfl

theorem bind_tuple_congr :
    (Descriptor.tuple g es y).bind key v = (Descriptor.tuple h es x).bind key v := by
  cases v <;> rfl

theorem settleDefault_eq {d : Descriptor} (hc : d.bind key c.toValue = .ok c) :
    d.settleDefault c = c := by
  rw [settleDefault, (BindsAs.refl d).present "" hc]

end

/-! ## defaults as they are bound -/

/-- the defaults of sequences and tuples are as they are bound -/
def StoresBound : Descriptor → Prop
  | .sequence h e b x =>
    ∀ c ∈ x, ∀ key, (Descriptor.sequence h e b x).bind key c.toValue = .ok c
  | .tuple h es x => ∀ c ∈ x, ∀ key, (Descriptor.tuple h es x).bind key c.toValue = .ok c
  | _ => True

theorem WellFormed.settled_of_absent {d : Descriptor} (hwf : d.WellFormed) {x : Option Bound}
    (habsent : ∀ c ∈ x, d.mayBeAbsent = true ∧ d.bindAbsent "" = .ok (some c)) :
    d.Admits x ∧ ∀ c ∈ x, ∀ key, d.bind key c.toValue = .ok c := by
  constructor
  · intro c hc
    exact (hwf.settled_default (habsent c hc).1 (habsent c hc).2).1
  · intro c hc
    exact (hwf.settled_default (habsent c hc).1 (habsent c hc).2).2

theorem WellFormed.settled_sequence {h : Heading} {e : Descriptor} {b : LengthBound}
    {x : Option Bound} (hwf : (Descriptor.sequence h e b x).WellFormed) :
    (Descriptor.sequence h e b x).Admits x ∧ (Descriptor.sequence h e b x).StoresBound := by
  refine hwf.settled_of_absent fun c hc => ?_
  obtain rfl : x = some c := hc
  exact ⟨rfl, rfl⟩

theorem WellFormed.settled_tuple {h : Heading} {es : List Descriptor} {x : Option Bound}
    (hwf : (Descriptor.tuple h es x).WellFormed) :
    (Descriptor.tuple h es x).Admits x ∧ (Descriptor.tuple h es x).StoresBound := by
  refine hwf.settled_of_absent fun c hc => ?_
  obtain rfl : x = some c := hc
  exact ⟨rfl, rfl⟩

theorem WellFormed.within {d e : Descriptor} (hwf : d.WellFormed) (he : e.Within d) :
    e.WellFormed := by
  induction he with
  | self => exact hwf
  | element _ ih =>
    cases hwf with
    | sequence he _ _ _ => exact ih he
  | place hmem _ ih =>
    cases hwf with
    | tuple _ hes _ _ => exact ih (hes _ hmem)
  | member hmem _ ih =>
    cases hwf with
    | table _ _ hms => exact ih (hms _ hmem)
  | inner _ ih =>
    cases hwf with
    | optional hd _ => exact ih hd

/-- a well-formed descriptor stores its defaults as they are bound, at every depth -/
theorem WellFormed.storesBound {d e : Descriptor} (hwf : d.WellFormed) (he : e.Within d) :
    e.StoresBound := by
  have hwf := hwf.within he
  cases e with
  | sequence h f b x => exact hwf.settled_sequence.2
  | tuple h es x => exact hwf.settled_tuple.2
  | atom h t x => trivial
  | table h ms => trivial
  | optional f => trivial

/-- keys do not count for what a default binds to -/
theorem settleDefault_congr {d e : Descriptor} (h : d.unkeyed = e.unkeyed) :
    d.settleDefault = e.settleDefault := by
  funext c
  unfold settleDefault
  cases hd : d.bind "" c.toValue with
  | ok b => rw [bind_of_unkeyed_eq h "" hd]
  | error f =>
    cases he : e.bind "" c.toValue with
    | error _ => rfl
    | ok b =>
      rw [bind_of_unkeyed_eq h.symm "" he] at hd
      cases hd

/-- a well-formed descriptor has its defaults as they are bound -/
theorem settle_of_wellFormed {d : Descriptor} (h : d.WellFormed) : d.settle = d := by
  have hall : ∀ ds : List Descriptor, (∀ d ∈ ds, d.settle = d) → settleAll ds = ds := by
    intro ds hds
    rw [settleAll_eq_map, List.map_congr_left hds, List.map_id']
  induction d with
  | atom hd t x => rfl
  | sequence hd e b x ih =>
    have hwf := h
    cases h with
    | sequence he _ _ _ =>
      rw [settle, ih he]
      cases x with
      | none => rfl
      | some c =>
        have hc := hwf.settled_sequence.2 c rfl ""
        rw [bind_sequence_congr (x := none) (h := hd)] at hc
        rw [Option.map_some, settleDefault_eq hc]
  | tuple hd es x ih =>
    have hwf := h
    cases h with
    | tuple _ hes _ _ =>
      rw [settle, hall es fun e he => ih e he (hes e he)]
      cases x with
      | none => rfl
      | some c =>
        have hc := hwf.settled_tuple.2 c rfl ""
        rw [bind_tuple_congr (x := none) (h := hd)] at hc
        rw [Option.map_some, settleDefault_eq hc]
  | table hd ms ih =>
    cases h with
    | table _ _ hms => rw [settle, hall ms fun d hd => ih d hd (hms d hd)]
  | optional d ih =>
    cases h with
    | optional hd _ => rw [settle, ih hd]

/-! ## declaring -/

theorem unkeyed_of_qualify {h g : Heading} {parent : String} (hg : h.qualify parent = .ok g) :
    g.unkeyed = h.unkeyed := by
  obtain ⟨_, rfl⟩ := qualify_eq_ok.1 hg
  rfl

/-- a default is accepted if it has no faults, and stored as it is bound -/
theorem conform?_eq_ok_iff {d : Descriptor} {x y : Option Bound} :
    d.conform? x = .ok y ↔ d.Admits x ∧ y = x.map d.settleDefault := by
  cases x with
  | none =>
    rw [conform?, Except.ok.injEq, eq_comm]
    exact ⟨fun h => ⟨by rintro _ ⟨⟩, h⟩, fun h => h.2⟩
  | some c =>
    have hadmits : d.Admits (some c) ↔ d.faults [] d.key c.toValue = [] := by
      constructor
      · exact fun h => h c rfl d.key
      · intro h b hb key
        obtain rfl := Option.some.inj hb
        exact faults_eq_nil_of_key key h
    rw [conform?, conform, hadmits, Option.map_some]
    simp only [List.isEmpty_iff]
    by_cases hclean : d.faults [] d.key c.toValue = []
    · obtain ⟨b, hb⟩ := exists_bind_eq_ok hclean
      have hsettle : d.settleDefault c = b := by
        rw [settleDefault, (BindsAs.refl d).present "" hb]
      rw [if_pos hclean, hb, hsettle]
      constructor
      · intro h
        exact ⟨hclean, (Except.ok.inj h).symm⟩
      · rintro ⟨-, rfl⟩
        rfl
    · rw [if_neg hclean]
      constructor
      · intro h
        cases h
      · exact fun h => absurd h.1 hclean

/-! ## what is declared -/

variable {d e : Descriptor} {parent : String}

theorem unkeyedAll_eq_of_forall₂ {ms ns : List Descriptor}
    (h : List.Forall₂ (fun m n => n.unkeyed = m.settle.unkeyed) ms ns) :
    unkeyedAll ns = unkeyedAll (settleAll ms) := by
  induction h with
  | nil => rfl
  | cons hmn _ ih => rw [settleAll, unkeyedAll, unkeyedAll, hmn, ih]

/-- a draft is declared as it settles, with the keys under the parent -/
theorem declare_eq_under (hd : d.Drafted) (h : d.declare parent = .ok e) :
    e = d.settle.under parent := by
  induction d generalizing e parent with
  | atom hd' t x =>
    obtain ⟨g, hg, rfl⟩ := declare_atom_eq_ok.1 h
    obtain ⟨_, rfl⟩ := qualify_eq_ok.1 hg
    rw [settle, under]
    rfl
  | sequence hd' f b x ih =>
    cases hd with
    | sequence hf =>
      obtain ⟨g, f', y, hg, hf', _, _, hy, rfl⟩ := declare_sequence_eq_ok.1 h
      obtain ⟨_, rfl⟩ := conform?_eq_ok_iff.1 hy
      obtain ⟨_, rfl⟩ := qualify_eq_ok.1 hg
      obtain rfl := ih hf hf'
      have hplain := unkeyed_under parent (Descriptor.sequence hd' f.settle b none)
      rw [under] at hplain
      rw [settle, under, ← settleDefault_congr hplain]
      rfl
  | tuple hd' es x ih =>
    cases hd with
    | tuple hes =>
      obtain ⟨g, fs, y, hg, _, hfs, hy, rfl⟩ := declare_tuple_eq_ok.1 h
      obtain ⟨_, rfl⟩ := conform?_eq_ok_iff.1 hy
      obtain ⟨_, rfl⟩ := qualify_eq_ok.1 hg
      have hall : fs = underElements (joinKey parent hd'.name) (settleAll es) := by
        rw [underElements_eq_map, settleAll_eq_map, List.map_map]
        exact eq_map_of_forall₂ <| forall₂_imp_of_mem hfs fun e he _ hf => ih e he (hes e he) hf.1
      have hplain := unkeyed_under parent (Descriptor.tuple hd' (settleAll es) none)
      rw [under, ← hall] at hplain
      rw [settle, under, ← settleDefault_congr hplain, ← hall]
      rfl
  | table hd' ms ih =>
    cases hd with
    | table _ _ hms =>
      obtain ⟨g, ns, hg, hns, rfl⟩ := declare_table_eq_ok.1 h
      obtain ⟨_, rfl⟩ := qualify_eq_ok.1 hg
      have hall : ns = underMembers (joinKey parent hd'.name) (settleAll ms) := by
        rw [underMembers_eq_map, settleAll_eq_map, List.map_map]
        refine eq_map_of_forall₂ <| forall₂_imp_of_mem hns fun m hm n hmn => ?_
        have hsettle := settle_of_wellFormed (hms m hm)
        show n = m.settle.underMember _
        rw [hsettle, underMember]
        unfold declareMember at hmn
        split at hmn
        · rename_i hspliced
          rw [if_pos hspliced, Except.ok.inj hmn]
        · rename_i hspliced
          rw [if_neg hspliced, ih m hm (hms m hm).drafted hmn, hsettle]
      rw [settle, under, ← hall]
      rfl
  | optional d ih =>
    cases hd with
    | optional hd =>
      obtain ⟨f, hf, _, rfl⟩ := declare_optional_eq_ok.1 h
      rw [settle, under, ih hd hf]

theorem unkeyed_of_declare (hd : d.Drafted) (h : d.declare parent = .ok e) :
    e.unkeyed = d.settle.unkeyed := by
  rw [declare_eq_under hd h, unkeyed_under]

/-- keys make no difference to the faults -/
theorem sameFaults_of_unkeyed (h : e.unkeyed = d.unkeyed) : SameFaults d e := by
  have hd : SameFaults d e.unkeyed := h ▸ sameFaults_unkeyed d
  exact hd.trans (sameFaults_unkeyed e).symm

theorem sameFaults_of_unkeyed_eq (h : e.unkeyed = d.settle.unkeyed) : SameFaults d e :=
  (sameFaults_settle d).trans (sameFaults_of_unkeyed h)

/-- a declared descriptor gives every value the faults of its draft -/
theorem sameFaults_of_declare (hd : d.Drafted) (h : d.declare parent = .ok e) : SameFaults d e :=
  sameFaults_of_unkeyed_eq (unkeyed_of_declare hd h)

/-! ## what can be declared -/

/-- the tables inside are sound -/
def TablesSound (d : Descriptor) : Prop :=
  ∀ h ms, (Descriptor.table h ms).Within d → (Descriptor.table h ms).Sound

theorem Sound.tablesSound (hs : d.Sound) : d.TablesSound :=
  fun _ _ hms => hs.within hms

theorem TablesSound.within (ht : d.TablesSound) (he : e.Within d) : e.TablesSound := by
  have htrans : ∀ {f g : Descriptor}, f.Within g → ∀ k : Descriptor, k.Within f → k.Within g := by
    intro f g hf k hk
    induction hf with
    | self => exact hk
    | element _ ih => exact .element ih
    | place hmem _ ih => exact .place hmem ih
    | member hmem _ ih => exact .member hmem ih
    | inner _ ih => exact .inner ih
  exact fun h ms hms => ht h ms (htrans he _ hms)

/-- what can be declared is sound -/
theorem sound_of_declare (hd : d.Drafted) (ht : d.TablesSound) (h : d.declare parent = .ok e) :
    d.Sound := by
  induction d generalizing e parent with
  | atom hd' t x => exact sound_atom
  | sequence hd' f b x ih =>
    cases hd with
    | sequence hf =>
      obtain ⟨g, f', y, hg, hf', hbare, hb, hy, rfl⟩ := declare_sequence_eq_ok.1 h
      obtain ⟨hx, _⟩ := conform?_eq_ok_iff.1 hy
      have hsame := sameFaults_of_declare hf hf'
      have helement : f.IsElement := ⟨(name_of_declare hf').2, hsame.isBare.1 hbare⟩
      refine sound_sequence.2 ⟨⟨helement, hb, hsame.admits_sequence.1 hx⟩, ?_⟩
      exact ih hf (ht.within (.element .self)) hf'
  | tuple hd' es x ih =>
    cases hd with
    | tuple hes =>
      obtain ⟨g, fs, y, hg, hne, hfs, hy, rfl⟩ := declare_tuple_eq_ok.1 h
      obtain ⟨hx, _⟩ := conform?_eq_ok_iff.1 hy
      have hsame : List.Forall₂ SameFaults es fs :=
        forall₂_imp_of_mem hfs fun e he _ hf => sameFaults_of_declare (hes e he) hf.1
      have hdeclared : ∀ e ∈ es, ∃ f ∈ fs, e.declare g.key = .ok f ∧ f.IsBare := by
        intro e he
        obtain ⟨f, hf, hef⟩ := exists_mem_of_forall₂ (List.Forall₂.flip hfs) e he
        exact ⟨f, hf, hef⟩
      refine sound_tuple.2 ⟨⟨hne, fun e he => ?_, (SameFaults.admits_tuple hsame).1 hx⟩,
        fun e he => ?_⟩
      · obtain ⟨f, _, hf, hbare⟩ := hdeclared e he
        exact ⟨(name_of_declare hf).2, (sameFaults_of_declare (hes e he) hf).isBare.1 hbare⟩
      · obtain ⟨f, _, hf, _⟩ := hdeclared e he
        exact ih e he (hes e he) (ht.within (.place he .self)) hf
  | table hd' ms ih =>
    cases hd with
    | table _ _ _ => exact ht hd' ms .self
  | optional d ih =>
    cases hd with
    | optional hd =>
      obtain ⟨f, hf, hbare, rfl⟩ := declare_optional_eq_ok.1 h
      refine sound_optional.2 ⟨(sameFaults_of_declare hd hf).isBare.1 hbare, ?_⟩
      exact ih hd (ht.within (.inner .self)) hf

theorem isValidName_of_isIdentifier {name : String} (h : isIdentifier name = true) :
    isValidName name = true := by
  rw [isValidName, h, Bool.or_true]

theorem exists_qualify {h : Heading} (hvalid : isValidName h.name = true) (parent : String) :
    ∃ g, h.qualify parent = .ok g :=
  ⟨_, qualify_eq_ok.2 ⟨hvalid, rfl⟩⟩

theorem exists_declare_atom {h : Heading} {t : ScalarType} {x : Option Scalar}
    (hname : isValidName h.name = true) (parent : String) :
    ∃ e, (Descriptor.atom h t x).declare parent = .ok e := by
  obtain ⟨g, hg⟩ := exists_qualify hname parent
  exact ⟨_, declare_atom_eq_ok.2 ⟨g, hg, rfl⟩⟩

section
variable {h : Heading} {f : Descriptor} {es ms : List Descriptor} {b : LengthBound}
  {x : Option Bound}

theorem exists_declare_sequence (hname : isValidName h.name = true) (hf : f.Drafted)
    (hdeclare : ∃ g, f.declare (joinKey parent h.name) = .ok g) (hbare : f.IsBare)
    (hb : b.isProper = true) (hx : (Descriptor.sequence h f b x).Admits x) :
    ∃ e, (Descriptor.sequence h f b x).declare parent = .ok e := by
  obtain ⟨f', hf'⟩ := hdeclare
  have hsame := sameFaults_of_declare hf hf'
  have hadmits : (Descriptor.sequence (h.under parent) f' b none).Admits x :=
    hsame.admits_sequence.2 hx
  exact ⟨_, declare_sequence_eq_ok.2 ⟨_, f', _, qualify_eq_ok.2 ⟨hname, rfl⟩, hf',
    hsame.isBare.2 hbare, hb, conform?_eq_ok_iff.2 ⟨hadmits, rfl⟩, rfl⟩⟩

theorem exists_declare_tuple (hname : isValidName h.name = true) (hne : es ≠ [])
    (hes : ∀ e ∈ es, e.Drafted)
    (hdeclare : ∀ e ∈ es, (∃ f, e.declare (joinKey parent h.name) = .ok f) ∧ e.IsBare)
    (hx : (Descriptor.tuple h es x).Admits x) :
    ∃ e, (Descriptor.tuple h es x).declare parent = .ok e := by
  have hall : ∃ fs, List.Forall₂
      (fun e f => e.declare (joinKey parent h.name) = .ok f ∧ f.IsBare) es fs := by
    refine exists_forall₂ fun e he => ?_
    obtain ⟨⟨f, hf⟩, hbare⟩ := hdeclare e he
    exact ⟨f, hf, (sameFaults_of_declare (hes e he) hf).isBare.2 hbare⟩
  obtain ⟨fs, hfs⟩ := hall
  have hsame : List.Forall₂ SameFaults es fs :=
    forall₂_imp_of_mem hfs fun e he _ hf => sameFaults_of_declare (hes e he) hf.1
  have hadmits : (Descriptor.tuple (h.under parent) fs none).Admits x :=
    (SameFaults.admits_tuple hsame).2 hx
  exact ⟨_, declare_tuple_eq_ok.2 ⟨_, fs, _, qualify_eq_ok.2 ⟨hname, rfl⟩, hne, hfs,
    conform?_eq_ok_iff.2 ⟨hadmits, rfl⟩, rfl⟩⟩

theorem exists_declare_table (hname : isValidName h.name = true)
    (hms : ∀ m ∈ ms, ∃ n, declareMember (joinKey parent h.name) m = .ok n) :
    ∃ e, (Descriptor.table h ms).declare parent = .ok e := by
  obtain ⟨ns, hns⟩ := exists_forall₂ hms
  exact ⟨_, declare_table_eq_ok.2 ⟨_, ns, qualify_eq_ok.2 ⟨hname, rfl⟩, hns, rfl⟩⟩

theorem exists_declare_optional (hf : f.Drafted) (hdeclare : ∃ g, f.declare parent = .ok g)
    (hbare : f.IsBare) : ∃ e, (Descriptor.optional f).declare parent = .ok e := by
  obtain ⟨f', hf'⟩ := hdeclare
  have hsame := sameFaults_of_declare hf hf'
  exact ⟨_, declare_optional_eq_ok.2 ⟨f', hf', hsame.isBare.2 hbare, rfl⟩⟩

end

/-- what is sound can be declared under its name -/
theorem exists_declare_of_sound (hd : d.Drafted) (hname : isValidName d.name = true)
    (hs : d.Sound) (parent : String) : ∃ e, d.declare parent = .ok e := by
  induction d generalizing parent with
  | atom hd' t x => exact exists_declare_atom hname parent
  | sequence hd' f b x ih =>
    cases hd with
    | sequence hf =>
      obtain ⟨⟨⟨hfname, hbare⟩, hb, hx⟩, hfs⟩ := sound_sequence.1 hs
      exact exists_declare_sequence hname hf (ih hf hfname hfs _) hbare hb hx
  | tuple hd' es x ih =>
    cases hd with
    | tuple hes =>
      obtain ⟨⟨hne, helements, hx⟩, hsound⟩ := sound_tuple.1 hs
      refine exists_declare_tuple hname hne hes (fun e he => ?_) hx
      obtain ⟨hename, hbare⟩ := helements e he
      exact ⟨ih e he (hes e he) hename (hsound e he) _, hbare⟩
  | table hd' ms ih =>
    cases hd with
    | table hnames hnodup hms =>
      obtain ⟨_, hsound⟩ := sound_table.1 hs
      refine exists_declare_table hname fun m hm => ?_
      unfold declareMember
      split
      · exact ⟨m, rfl⟩
      · exact ih m hm (hms m hm).drafted (isValidName_of_isIdentifier (hnames m hm))
          (hsound m hm) _
  | optional d ih =>
    cases hd with
    | optional hd =>
      obtain ⟨hbare, hsound⟩ := sound_optional.1 hs
      exact exists_declare_optional hd (ih hd hname hsound parent) hbare

/-- what is declared is sound, as its draft is -/
theorem sound_declared (hd : d.Drafted) (ht : d.TablesSound) (h : d.declare parent = .ok e) :
    e.Sound := by
  have hwf := wellFormed_of_declare hd h
  induction d generalizing e parent with
  | atom hd' t x =>
    obtain ⟨g, _, rfl⟩ := declare_atom_eq_ok.1 h
    exact sound_atom
  | sequence hd' f b x ih =>
    cases hd with
    | sequence hf =>
      obtain ⟨g, f', y, hg, hf', hbare, hb, _, rfl⟩ := declare_sequence_eq_ok.1 h
      obtain ⟨hname, hvalid⟩ := name_of_declare hf'
      refine sound_sequence.2 ⟨⟨⟨hname ▸ hvalid, hbare⟩, hb, hwf.settled_sequence.1⟩, ?_⟩
      exact ih hf (ht.within (.element .self)) hf' (hwf.within (.element .self))
  | tuple hd' es x ih =>
    cases hd with
    | tuple hes =>
      obtain ⟨g, fs, y, hg, hne, hfs, _, rfl⟩ := declare_tuple_eq_ok.1 h
      have hne' : fs ≠ [] := by
        rintro rfl
        exact hne (List.forall₂_nil_right_iff.1 hfs)
      refine sound_tuple.2 ⟨⟨hne', fun f hf => ?_, hwf.settled_tuple.1⟩, fun f hf => ?_⟩
      · obtain ⟨e, _, hdeclare, hbare⟩ := exists_mem_of_forall₂ hfs f hf
        obtain ⟨hname, hvalid⟩ := name_of_declare hdeclare
        exact ⟨hname ▸ hvalid, hbare⟩
      · obtain ⟨e, he, hdeclare, _⟩ := exists_mem_of_forall₂ hfs f hf
        exact ih e he (hes e he) (ht.within (.place he .self)) hdeclare
          (hwf.within (.place hf .self))
  | table hd' ms ih =>
    cases hd with
    | table hnames hnodup hms =>
      obtain ⟨g, ns, hg, hns, rfl⟩ := declare_table_eq_ok.1 h
      cases hwf with
      | table hnames' hnodup' hns' =>
        refine sound_table.2 ⟨⟨hnames', hnodup'⟩, fun n hn => ?_⟩
        obtain ⟨m, hm, hmn⟩ := exists_mem_of_forall₂ hns n hn
        unfold declareMember at hmn
        split at hmn
        · exact Except.ok.inj hmn ▸ (sound_table.1 (ht hd' ms .self)).2 m hm
        · exact ih m hm (hms m hm).drafted (ht.within (.member hm .self)) hmn (hns' n hn)
  | optional d ih =>
    cases hd with
    | optional hd =>
      obtain ⟨f, hf, hbare, rfl⟩ := declare_optional_eq_ok.1 h
      refine sound_optional.2 ⟨hbare, ?_⟩
      exact ih hd (ht.within (.inner .self)) hf (hwf.within (.inner .self))

end Descriptor
end ParamSchema
