import ParamSchema.Proofs.Schema.Rebind

/-!
# Sound descriptors

What a descriptor has to have to be declared, at every depth (`Descriptor.Sound`), and when two
descriptors are alike for the one walk or the other.

* `SameFaults`             descriptors that give every value the same faults;
* `BindsAs`                descriptors that bind alike;
* `kinds_faults`           what is wrong with a value under one key is wrong under another.
-/

namespace ParamSchema
namespace Descriptor

/-! ## at every depth -/

/-- `d` is `e`, or stands somewhere inside it -/
inductive Within (d : Descriptor) : Descriptor → Prop
  | self : Within d d
  | element {h : Heading} {e : Descriptor} {b : LengthBound} {x : Option Bound} :
      Within d e → Within d (.sequence h e b x)
  | place {h : Heading} {es : List Descriptor} {x : Option Bound} {e : Descriptor} :
      e ∈ es → Within d e → Within d (.tuple h es x)
  | member {h : Heading} {ms : List Descriptor} {m : Descriptor} :
      m ∈ ms → Within d m → Within d (.table h ms)
  | inner {e : Descriptor} : Within d e → Within d (.optional e)

/-- the default, written out, has no faults -/
def Admits (d : Descriptor) (x : Option Bound) : Prop :=
  ∀ y ∈ x, ∀ key, d.faults [] key y.toValue = []

/-- what an element of a sequence or a place of a tuple may be; the place is its name -/
def IsElement (e : Descriptor) : Prop := isValidName e.name = true ∧ e.IsBare

/-- what its kind asks of a descriptor -/
def SoundHere : Descriptor → Prop
  | .atom _ _ _ => True
  | .sequence h e b x =>
    e.IsElement ∧ b.isProper = true ∧ (Descriptor.sequence h e b x).Admits x
  | .tuple h es x => es ≠ [] ∧ (∀ e ∈ es, e.IsElement) ∧ (Descriptor.tuple h es x).Admits x
  | .table _ ms => (∀ d ∈ ms, isIdentifier d.name = true) ∧ (ms.map name).Nodup
  | .optional d => d.IsBare

def Sound (d : Descriptor) : Prop := ∀ e : Descriptor, e.Within d → e.SoundHere

section
variable {h : Heading} {t : ScalarType} {s : Option Scalar} {d e : Descriptor} {b : LengthBound}
  {x : Option Bound} {es ms : List Descriptor}

theorem sound_atom : (Descriptor.atom h t s).Sound := by
  intro e he
  cases he
  trivial

theorem sound_sequence :
    (Descriptor.sequence h e b x).Sound ↔ (Descriptor.sequence h e b x).SoundHere ∧ e.Sound := by
  constructor
  · intro hs
    exact ⟨hs _ .self, fun f hf => hs f (.element hf)⟩
  · rintro ⟨hhere, he⟩ f hf
    cases hf with
    | self => exact hhere
    | element hf => exact he f hf

theorem sound_tuple :
    (Descriptor.tuple h es x).Sound ↔
      (Descriptor.tuple h es x).SoundHere ∧ ∀ e ∈ es, e.Sound := by
  constructor
  · intro hs
    exact ⟨hs _ .self, fun e he f hf => hs f (.place he hf)⟩
  · rintro ⟨hhere, hes⟩ f hf
    cases hf with
    | self => exact hhere
    | place he hf => exact hes _ he f hf

theorem sound_table :
    (Descriptor.table h ms).Sound ↔
      (Descriptor.table h ms).SoundHere ∧ ∀ m ∈ ms, m.Sound := by
  constructor
  · intro hs
    exact ⟨hs _ .self, fun m hm f hf => hs f (.member hm hf)⟩
  · rintro ⟨hhere, hms⟩ f hf
    cases hf with
    | self => exact hhere
    | member hm hf => exact hms _ hm f hf

theorem sound_optional : (Descriptor.optional d).Sound ↔ d.IsBare ∧ d.Sound := by
  constructor
  · intro hs
    exact ⟨hs _ .self, fun f hf => hs f (.inner hf)⟩
  · rintro ⟨hhere, hd⟩ f hf
    cases hf with
    | self => exact hhere
    | inner hf => exact hd f hf

/-- what is inside a sound descriptor is sound -/
theorem Sound.within (hs : d.Sound) (he : e.Within d) : e.Sound := by
  induction he with
  | self => exact hs
  | element _ ih => exact ih (sound_sequence.1 hs).2
  | place hmem _ ih => exact ih ((sound_tuple.1 hs).2 _ hmem)
  | member hmem _ ih => exact ih ((sound_table.1 hs).2 _ hmem)
  | inner _ ih => exact ih (sound_optional.1 hs).2

end

/-! ## descriptors with the same faults -/

structure SameFaults (d e : Descriptor) : Prop where
  name : e.name = d.name
  isOptional : e.isOptional = d.isOptional
  hasDefault : e.hasDefault = d.hasDefault
  mayBeAbsent : e.mayBeAbsent = d.mayBeAbsent
  faults : ∀ ignore key v, e.faults ignore key v = d.faults ignore key v

namespace SameFaults

variable {g h : Heading} {d e f : Descriptor} {b : LengthBound} {x y : Option Bound}
  {es fs ms ns : List Descriptor}

theorem refl (d : Descriptor) : SameFaults d d := ⟨rfl, rfl, rfl, rfl, fun _ _ _ => rfl⟩

theorem symm (hde : SameFaults d e) : SameFaults e d :=
  ⟨hde.name.symm, hde.isOptional.symm, hde.hasDefault.symm, hde.mayBeAbsent.symm,
    fun ignore key v => (hde.faults ignore key v).symm⟩

theorem trans (hde : SameFaults d e) (hef : SameFaults e f) : SameFaults d f :=
  ⟨hef.name.trans hde.name, hef.isOptional.trans hde.isOptional,
    hef.hasDefault.trans hde.hasDefault, hef.mayBeAbsent.trans hde.mayBeAbsent,
    fun ignore key v => (hef.faults ignore key v).trans (hde.faults ignore key v)⟩

theorem isBare (hde : SameFaults d e) : e.IsBare ↔ d.IsBare := by
  rw [IsBare, IsBare, hde.isOptional, hde.hasDefault]

theorem isElement (hde : SameFaults d e) : e.IsElement ↔ d.IsElement := by
  rw [IsElement, IsElement, hde.name, hde.isBare]

theorem atom {t : ScalarType} {s : Option Scalar} (hname : g.name = h.name) :
    SameFaults (.atom h t s) (.atom g t s) :=
  ⟨hname, rfl, rfl, rfl, fun _ _ _ => rfl⟩

/-- neither the heading nor the default counts for the faults of a sequence -/
theorem faults_sequence (he : SameFaults e f) (ignore : List String) (key : String) (v : Value) :
    (Descriptor.sequence g f b y).faults ignore key v
      = (Descriptor.sequence h e b x).faults ignore key v := by
  cases v with
  | sequence o xs =>
    rw [Descriptor.faults, Descriptor.faults]
    simp only [he.faults]
  | atom o t => rfl
  | table o p => rfl

theorem sequence (hname : g.name = h.name) (he : SameFaults e f) (hx : y.isSome = x.isSome) :
    SameFaults (.sequence h e b x) (.sequence g f b y) :=
  ⟨hname, rfl, hx, hx, he.faults_sequence⟩

theorem admits_sequence (he : SameFaults e f) {z : Option Bound} :
    (Descriptor.sequence g f b y).Admits z ↔ (Descriptor.sequence h e b x).Admits z := by
  simp only [Admits, he.faults_sequence (g := g) (h := h) (x := x) (y := y)]

theorem placeFaults_eq (hes : List.Forall₂ SameFaults es fs) (ignore : List String) (key : String)
    (i : Nat) (xs : List Value) :
    placeFaults ignore key i fs xs = placeFaults ignore key i es xs := by
  induction hes generalizing i xs with
  | nil => rfl
  | cons he _ ih =>
    cases xs with
    | nil => rfl
    | cons x xs => rw [placeFaults, placeFaults, he.faults, ih]

theorem faults_tuple (hes : List.Forall₂ SameFaults es fs) (ignore : List String) (key : String)
    (v : Value) :
    (Descriptor.tuple g fs y).faults ignore key v
      = (Descriptor.tuple h es x).faults ignore key v := by
  cases v with
  | sequence o xs =>
    rw [Descriptor.faults, Descriptor.faults, placeFaults_eq hes, hes.length_eq]
  | atom o t => rfl
  | table o p => rfl

theorem tuple (hname : g.name = h.name) (hes : List.Forall₂ SameFaults es fs)
    (hx : y.isSome = x.isSome) : SameFaults (.tuple h es x) (.tuple g fs y) :=
  ⟨hname, rfl, hx, hx, faults_tuple hes⟩

theorem admits_tuple (hes : List.Forall₂ SameFaults es fs) {z : Option Bound} :
    (Descriptor.tuple g fs y).Admits z ↔ (Descriptor.tuple h es x).Admits z := by
  simp only [Admits, faults_tuple (g := g) (h := h) (x := x) (y := y) hes]

theorem memberFaults_eq (hms : List.Forall₂ SameFaults ms ns) (ignore : List String)
    (key : String) (p : ParamSet) :
    memberFaults ignore key p ns = memberFaults ignore key p ms := by
  induction hms with
  | nil => rfl
  | cons hd _ ih =>
    rw [memberFaults, memberFaults, ih, hd.name]
    simp only [hd.faults, absentFaults, hd.mayBeAbsent]

theorem map_name (hms : List.Forall₂ SameFaults ms ns) :
    ns.map Descriptor.name = ms.map Descriptor.name := by
  induction hms with
  | nil => rfl
  | cons hd _ ih => rw [List.map_cons, List.map_cons, ih, hd.name]

theorem isMember_eq (hnames : ns.map Descriptor.name = ms.map Descriptor.name) (k : String) :
    isMember ns k = isMember ms k := by
  have hany : ∀ ds : List Descriptor, isMember ds k = (ds.map Descriptor.name).any (· == k) := by
    intro ds
    rw [isMember, List.any_map]
    rfl
  rw [hany, hany, hnames]

theorem allMayBeAbsent_eq (hms : List.Forall₂ SameFaults ms ns) :
    allMayBeAbsent ns = allMayBeAbsent ms := by
  induction hms with
  | nil => rfl
  | cons hd _ ih => rw [allMayBeAbsent, allMayBeAbsent, ih, hd.mayBeAbsent]

theorem table (hname : g.name = h.name) (hms : List.Forall₂ SameFaults ms ns) :
    SameFaults (.table h ms) (.table g ns) := by
  refine ⟨hname, rfl, rfl, ?_, fun ignore key v => ?_⟩
  · rw [Descriptor.mayBeAbsent, Descriptor.mayBeAbsent, allMayBeAbsent_eq hms]
  · cases v with
    | table o p =>
      have hunknown : unknownFaults ignore key ns p = unknownFaults ignore key ms p := by
        rw [unknownFaults, unknownFaults]
        simp only [isMember_eq (map_name hms)]
      rw [Descriptor.faults, Descriptor.faults, memberFaults_eq hms, hunknown]
    | atom o t => rfl
    | sequence o xs => rfl

theorem optional (hd : SameFaults d e) : SameFaults (.optional d) (.optional e) := by
  refine ⟨hd.name, rfl, rfl, rfl, fun ignore key v => ?_⟩
  rw [Descriptor.faults, Descriptor.faults, hd.faults]

end SameFaults

/-! ## other keys -/

section
variable {d : Descriptor} {key : String} {v : Value}

theorem kinds_unknownFaults (key key' : String) (ms : List Descriptor) (p : ParamSet) :
    (unknownFaults [] key ms p).map Fault.kind = (unknownFaults [] key' ms p).map Fault.kind := by
  rw [unknownFaults, unknownFaults, List.map_filterMap, List.map_filterMap, List.filterMap_map,
    List.filterMap_map]
  rfl

/-- what is wrong with a value does not depend on where it is -/
theorem kinds_faults (key key' : String) (d : Descriptor) (v : Value) :
    (d.faults [] key v).map Fault.kind = (d.faults [] key' v).map Fault.kind := by
  induction d generalizing key key' v with
  | atom hd t x =>
    rw [faults, faults]
    cases decodeAtom t v <;> rfl
  | sequence hd e b x ih =>
    cases v with
    | atom o t => rfl
    | table o p => rfl
    | sequence o xs =>
      have hxs := List.flatMap_congr fun (xi : Value × Nat) (_ : xi ∈ xs.zipIdx) =>
        ih (indexKey key xi.2) (indexKey key' xi.2) xi.1
      rw [faults, faults, List.map_append, List.map_append, ← List.flatMap_def, ← List.flatMap_def,
        List.map_flatMap, List.map_flatMap, hxs]
      split <;> rfl
  | tuple hd es x ih =>
    cases v with
    | atom o t => rfl
    | table o p => rfl
    | sequence o xs =>
      have hxs := List.flatMap_congr fun (exi : (Descriptor × Value) × Nat)
          (hexi : exi ∈ (es.zip xs).zipIdx 0) =>
        ih exi.1.1 (List.of_mem_zip (List.fst_mem_of_mem_zipIdx hexi)).1 (indexKey key exi.2)
          (indexKey key' exi.2) exi.1.2
      rw [faults, faults, List.map_append, List.map_append, placeFaults_eq_flatMap,
        placeFaults_eq_flatMap, List.map_flatMap, List.map_flatMap, hxs]
      split <;> rfl
  | table hd ms ih =>
    cases v with
    | atom o t => rfl
    | sequence o xs => rfl
    | table o p =>
      have hms : ∀ d ∈ ms,
          (d.entryFaults [] (joinKey key d.name) (Entries.get? p d.name)).map Fault.kind
            = (d.entryFaults [] (joinKey key' d.name) (Entries.get? p d.name)).map Fault.kind := by
        intro d hd
        cases Entries.get? p d.name with
        | some v => exact ih d hd _ _ v
        | none =>
          show (absentFaults _ d).map _ = (absentFaults _ d).map _
          rw [absentFaults, absentFaults]
          split <;> rfl
      rw [faults, faults, List.map_append, List.map_append, kinds_unknownFaults key key',
        memberFaults_eq_flatMap, memberFaults_eq_flatMap, List.map_flatMap, List.map_flatMap,
        List.flatMap_congr hms]
  | optional d ih =>
    rw [faults, faults]
    exact ih key key' v

/-- a value without faults has none under another key -/
theorem faults_eq_nil_of_key (key' : String) (h : d.faults [] key v = []) :
    d.faults [] key' v = [] := by
  have hkinds := kinds_faults key' key d v
  rw [h] at hkinds
  exact List.map_eq_nil_iff.1 hkinds

end

/-! ## descriptors that bind alike -/

/-- what `d` binds an entry to, `e` binds it to as well, whatever the keys -/
structure BindsAs (d e : Descriptor) : Prop where
  name : e.name = d.name
  present : ∀ {key v b} key', d.bind key v = .ok b → e.bind key' v = .ok b
  absent : ∀ {key y} key', d.bindAbsent key = .ok y → e.bindAbsent key' = .ok y

namespace BindsAs

variable {g h : Heading} {d e f : Descriptor} {b : LengthBound} {x : Option Bound}
  {es fs ms ns : List Descriptor}

theorem entry (hde : BindsAs d e) {key : String} {v? : Option Value} {y : Option Bound}
    (key' : String) (hy : d.bindEntry key v? = .ok y) : e.bindEntry key' v? = .ok y := by
  cases v? with
  | none => exact hde.absent key' hy
  | some v =>
    obtain ⟨b, hb, rfl⟩ := map_eq_ok.1 hy
    exact map_eq_ok.2 ⟨b, hde.present key' hb, rfl⟩

theorem atom {t : ScalarType} {s : Option Scalar} (hname : g.name = h.name) :
    BindsAs (.atom h t s) (.atom g t s) := by
  refine ⟨hname, ?_, ?_⟩
  · intro key v b key' hb
    unfold bind at hb ⊢
    split at hb
    · exact hb
    · cases hb
  · intro key y key' hy
    cases s with
    | none => cases hy
    | some s => exact hy

theorem sequence (hname : g.name = h.name) (he : BindsAs e f) :
    BindsAs (.sequence h e b x) (.sequence g f b x) := by
  refine ⟨hname, ?_, ?_⟩
  · intro key v c key' hc
    cases v with
    | sequence o xs =>
      obtain ⟨ys, hys, rfl⟩ := bind_sequence_eq_ok.1 hc
      exact bind_sequence_eq_ok.2 ⟨ys, hys.imp fun _ _ hy => he.present _ hy, rfl⟩
    | atom o t => cases hc
    | table o p => cases hc
  · intro key y key' hy
    cases x with
    | none => cases hy
    | some c => exact hy

theorem places (hes : List.Forall₂ BindsAs es fs) {key : String} (key' : String) {i : Nat}
    {xs : List Value} {ys : List Bound} (hys : bindPlaces key i es xs = .ok ys) :
    bindPlaces key' i fs xs = .ok ys := by
  induction hes generalizing i xs ys with
  | nil =>
    rw [bindPlaces.eq_def] at hys ⊢
    exact hys
  | cons he _ ih =>
    cases xs with
    | nil => exact hys
    | cons x xs =>
      rw [bindPlaces] at hys ⊢
      obtain ⟨y, hy, hys⟩ := bind_eq_ok.1 hys
      obtain ⟨zs, hzs, hys⟩ := bind_eq_ok.1 hys
      exact bind_eq_ok.2 ⟨y, he.present _ hy, bind_eq_ok.2 ⟨zs, ih hzs, hys⟩⟩

theorem tuple (hname : g.name = h.name) (hes : List.Forall₂ BindsAs es fs) :
    BindsAs (.tuple h es x) (.tuple g fs x) := by
  refine ⟨hname, ?_, ?_⟩
  · intro key v c key' hc
    cases v with
    | sequence o xs =>
      by_cases hlen : xs.length = es.length
      · obtain ⟨ys, hys, rfl⟩ := (bind_tuple_eq_ok hlen).1 hc
        exact (bind_tuple_eq_ok (hlen.trans hes.length_eq)).2 ⟨ys, places hes key' hys, rfl⟩
      · rw [bind, if_neg hlen] at hc
        cases hc
    | atom o t => cases hc
    | table o p => cases hc
  · intro key y key' hy
    cases x with
    | none => cases hy
    | some c => exact hy

theorem members (hms : List.Forall₂ BindsAs ms ns) {key : String} (key' : String) {p : ParamSet}
    {es : BoundTable} (hes : bindMembers key p ms = .ok es) : bindMembers key' p ns = .ok es := by
  induction hms generalizing es with
  | nil =>
    rw [bindMembers_nil] at hes ⊢
    exact hes
  | cons hd _ ih =>
    obtain ⟨y, ys, hy, hys, rfl⟩ := bindMembers_cons_eq_ok.1 hes
    refine bindMembers_cons_eq_ok.2 ⟨y, ys, ?_, ih hys, by rw [hd.name]⟩
    rw [hd.name]
    exact hd.entry _ hy

theorem table (hname : g.name = h.name) (hms : List.Forall₂ BindsAs ms ns) :
    BindsAs (.table h ms) (.table g ns) := by
  refine ⟨hname, ?_, ?_⟩
  · intro key v c key' hc
    cases v with
    | table o p =>
      obtain ⟨es, hes, rfl⟩ := bind_table_eq_ok.1 hc
      exact bind_table_eq_ok.2 ⟨es, members hms key' hes, rfl⟩
    | atom o t => cases hc
    | sequence o xs => cases hc
  · intro key y key' hy
    unfold bindAbsent at hy ⊢
    obtain ⟨es, hes, rfl⟩ := map_eq_ok.1 hy
    exact map_eq_ok.2 ⟨es, members hms key' hes, rfl⟩

theorem optional (hd : BindsAs d e) : BindsAs (.optional d) (.optional e) := by
  refine ⟨hd.name, ?_, ?_⟩
  · intro key v c key' hc
    unfold bind at hc ⊢
    exact hd.present key' hc
  · intro key y key' hy
    exact hy

theorem refl (d : Descriptor) : BindsAs d d := by
  induction d with
  | atom hd t x => exact .atom rfl
  | sequence hd e b x ih => exact .sequence rfl ih
  | tuple hd es x ih => exact .tuple rfl (List.forall₂_same.2 ih)
  | table hd ms ih => exact .table rfl (List.forall₂_same.2 ih)
  | optional d ih => exact .optional ih

end BindsAs

end Descriptor
end ParamSchema
