import ParamSchema.Proofs.Scalar.Literal
import ParamSchema.Proofs.Schema.Walk
import ParamSchema.Schema.Declare

/-!
# Well-formed descriptors

What declaring a descriptor makes sure of, at every depth (`Descriptor.WellFormed`): defaults are
what binding yields, bounds can be met, elements and wrapped descriptors have no default and are not
optional, tuples have elements, and the names in a table are identifiers, each of them once.

* `Descriptor.Yields`      what binds without faults to a value;
* `Descriptor.Drafted`     what is known before a descriptor is declared;
* `declare_sequence_eq_ok` and the like say what declaring does to each kind of descriptor;
* `wellFormed_of_declare`  declaring a draft gives a well-formed descriptor.
-/

namespace ParamSchema
namespace Descriptor

/-! ## what is well formed -/

/-- `b` is what some value without faults binds to -/
def Yields (d : Descriptor) (b : Bound) : Prop :=
  ∃ ignore key v, d.faults ignore key v = [] ∧ d.bind key v = .ok b

/-- neither optional nor with a default of its own -/
def IsBare (d : Descriptor) : Prop := d.isOptional = false ∧ d.hasDefault = false

inductive WellFormed : Descriptor → Prop
  | atom {h : Heading} {t : ScalarType} {x : Option Scalar} :
      (∀ s ∈ x, t.Holds s) → WellFormed (.atom h t x)
  | sequence {h : Heading} {e : Descriptor} {b : LengthBound} {x : Option Bound} :
      e.WellFormed → e.IsBare → b.isProper = true →
        (∀ y ∈ x, ∃ g, (Descriptor.sequence g e b none).Yields y) →
          WellFormed (.sequence h e b x)
  | tuple {h : Heading} {es : List Descriptor} {x : Option Bound} :
      es ≠ [] → (∀ e ∈ es, e.WellFormed) → (∀ e ∈ es, e.IsBare) →
        (∀ y ∈ x, ∃ g, (Descriptor.tuple g es none).Yields y) → WellFormed (.tuple h es x)
  | table {h : Heading} {ms : List Descriptor} :
      (∀ d ∈ ms, isIdentifier d.name = true) → (ms.map name).Nodup → (∀ d ∈ ms, d.WellFormed) →
        WellFormed (.table h ms)
  | optional {d : Descriptor} : d.WellFormed → d.IsBare → WellFormed (.optional d)

/-- the same before the descriptor is declared: only tables have been looked at -/
inductive Drafted : Descriptor → Prop
  | atom {h : Heading} {t : ScalarType} {x : Option Scalar} :
      (∀ s ∈ x, t.Holds s) → Drafted (.atom h t x)
  | sequence {h : Heading} {e : Descriptor} {b : LengthBound} {x : Option Bound} :
      e.Drafted → Drafted (.sequence h e b x)
  | tuple {h : Heading} {es : List Descriptor} {x : Option Bound} :
      (∀ e ∈ es, e.Drafted) → Drafted (.tuple h es x)
  | table {h : Heading} {ms : List Descriptor} :
      (∀ d ∈ ms, isIdentifier d.name = true) → (ms.map name).Nodup → (∀ d ∈ ms, d.WellFormed) →
        Drafted (.table h ms)
  | optional {d : Descriptor} : d.Drafted → Drafted (.optional d)

theorem WellFormed.drafted {d : Descriptor} (h : d.WellFormed) : d.Drafted := by
  induction d with
  | atom hd t x =>
    cases h with
    | atom hx => exact .atom hx
  | sequence hd e b x ih =>
    cases h with
    | sequence he _ _ _ => exact .sequence (ih he)
  | tuple hd es x ih =>
    cases h with
    | tuple _ hes _ _ => exact .tuple fun e he => ih e he (hes e he)
  | table hd ms ih =>
    cases h with
    | table hnames hnodup hms => exact .table hnames hnodup hms
  | optional d ih =>
    cases h with
    | optional hd _ => exact .optional (ih hd)

/-! ## headings -/

variable {f : Heading → Heading} {d : Descriptor}

theorem isOptional_mapHeading (f : Heading → Heading) (d : Descriptor) :
    (d.mapHeading f).isOptional = d.isOptional := by
  cases d <;> rfl

theorem hasDefault_mapHeading (f : Heading → Heading) (d : Descriptor) :
    (d.mapHeading f).hasDefault = d.hasDefault := by
  cases d <;> rfl

theorem IsBare.mapHeading (h : d.IsBare) : (d.mapHeading f).IsBare := by
  rw [IsBare, isOptional_mapHeading, hasDefault_mapHeading]
  exact h

theorem WellFormed.mapHeading (h : d.WellFormed) : (d.mapHeading f).WellFormed := by
  induction d with
  | atom hd t x =>
    cases h with
    | atom hx => exact .atom hx
  | sequence hd e b x ih =>
    cases h with
    | sequence he hbare hb hx => exact .sequence he hbare hb hx
  | tuple hd es x ih =>
    cases h with
    | tuple hne hes hbare hx => exact .tuple hne hes hbare hx
  | table hd ms ih =>
    cases h with
    | table hnames hnodup hms => exact .table hnames hnodup hms
  | optional d ih =>
    cases h with
    | optional hd hbare => exact .optional (ih hd) hbare.mapHeading

theorem Drafted.mapHeading (h : d.Drafted) : (d.mapHeading f).Drafted := by
  induction d with
  | atom hd t x =>
    cases h with
    | atom hx => exact .atom hx
  | sequence hd e b x ih =>
    cases h with
    | sequence he => exact .sequence he
  | tuple hd es x ih =>
    cases h with
    | tuple hes => exact .tuple hes
  | table hd ms ih =>
    cases h with
    | table hnames hnodup hms => exact .table hnames hnodup hms
  | optional d ih =>
    cases h with
    | optional hd => exact .optional (ih hd)

/-! ## the checks of a declaration -/

theorem checkElement_eq_ok {e : Descriptor} : e.checkElement = .ok () ↔ e.IsBare := by
  rw [checkElement, IsBare]
  cases e.isOptional <;> cases e.hasDefault <;> simp

theorem checkInner_eq_ok {d : Descriptor} : d.checkInner = .ok () ↔ d.IsBare := by
  rw [checkInner, IsBare]
  cases d.isOptional <;> cases d.hasDefault <;> simp

theorem checkBound_eq_ok {key : String} {b : LengthBound} :
    checkBound key b = .ok () ↔ b.isProper = true := by
  cases b with
  | any => exact ⟨fun _ => rfl, fun _ => rfl⟩
  | exactly n => exact ⟨fun _ => rfl, fun _ => rfl⟩
  | between least greatest =>
    rw [checkBound, LengthBound.isProper, decide_eq_true_eq]
    split <;> simp <;> omega

/-- a default that is accepted is stored as binding it yields it -/
theorem yields_of_conform {d : Descriptor} {default b : Bound} (h : d.conform default = .ok b) :
    d.Yields b := by
  rw [conform] at h
  split at h
  · rename_i hclean
    refine ⟨[], d.key, default.toValue, List.isEmpty_iff.1 hclean, ?_⟩
    split at h
    · rename_i c hc
      obtain rfl := Except.ok.inj h
      exact hc
    · cases h
  · cases h

theorem yields_of_conform? {d : Descriptor} {default x : Option Bound}
    (h : d.conform? default = .ok x) : ∀ y ∈ x, d.Yields y := by
  intro y hy
  cases default with
  | none =>
    obtain rfl := Except.ok.inj h
    cases hy
  | some b =>
    obtain ⟨c, hc, rfl⟩ := map_eq_ok.1 h
    obtain rfl := Option.some.inj hy
    exact yields_of_conform hc

theorem qualify_eq_ok {h g : Heading} {parent : String} :
    h.qualify parent = .ok g ↔
      isValidName h.name = true ∧ g = { h with key := joinKey parent h.name } := by
  unfold Heading.qualify
  split
  · rename_i hvalid
    simp [hvalid, eq_comm]
  · rename_i hvalid
    simp [hvalid]

theorem declareElements_eq_ok {parent : String} {es fs : List Descriptor} :
    declareElements parent es = .ok fs ↔
      List.Forall₂ (fun e f => e.declare parent = .ok f ∧ f.IsBare) es fs := by
  induction es generalizing fs with
  | nil =>
    rw [declareElements, List.forall₂_nil_left_iff]
    exact ⟨fun h => (Except.ok.inj h).symm, fun h => h ▸ rfl⟩
  | cons e es ih =>
    rw [declareElements]
    simp only [bind_eq_ok, List.forall₂_cons_left_iff, ih]
    constructor
    · intro h
      obtain ⟨f, hf, _, hbare, gs, hgs, h⟩ := h
      exact ⟨f, gs, ⟨hf, checkElement_eq_ok.1 hbare⟩, hgs, (Except.ok.inj h).symm⟩
    · intro h
      obtain ⟨f, gs, ⟨hf, hbare⟩, hgs, rfl⟩ := h
      exact ⟨f, hf, (), checkElement_eq_ok.2 hbare, gs, hgs, rfl⟩

/-- what declaring a table makes of a member: one that was spliced in stays as it is -/
def declareMember (parent : String) (d : Descriptor) : Except DeclarationError Descriptor :=
  if d.heading.spliced then .ok d else d.declare parent

theorem declareMembers_eq_mapM (parent : String) (ms : List Descriptor) :
    declareMembers parent ms = ms.mapM (declareMember parent) := by
  induction ms with
  | nil =>
    rw [declareMembers]
    rfl
  | cons d ds ih =>
    rw [declareMembers, List.mapM_cons, ih, declareMember]
    split <;> rfl

/-! ## declaring, one kind at a time -/

section
variable {h : Heading} {d e : Descriptor} {es ms : List Descriptor} {b : LengthBound}
  {x : Option Bound} {parent : String}

theorem declare_atom_eq_ok {t : ScalarType} {s : Option Scalar} :
    (Descriptor.atom h t s).declare parent = .ok d ↔
      ∃ g, h.qualify parent = .ok g ∧ d = .atom g t s := by
  rw [declare, bind_eq_ok]
  exact exists_congr fun g => and_congr_right fun _ => by rw [Except.ok.injEq, eq_comm]

theorem declare_sequence_eq_ok :
    (Descriptor.sequence h e b x).declare parent = .ok d ↔
      ∃ g f y, h.qualify parent = .ok g ∧ e.declare g.key = .ok f ∧ f.IsBare
        ∧ b.isProper = true ∧ (Descriptor.sequence g f b none).conform? x = .ok y
        ∧ d = .sequence g f b y := by
  rw [declare]
  simp only [bind_eq_ok, Except.ok.injEq]
  constructor
  · rintro ⟨g, hg, f, hf, _, hbare, _, hb, y, hy, rfl⟩
    exact ⟨g, f, y, hg, hf, checkElement_eq_ok.1 hbare, checkBound_eq_ok.1 hb, hy, rfl⟩
  · rintro ⟨g, f, y, hg, hf, hbare, hb, hy, rfl⟩
    exact ⟨g, hg, f, hf, (), checkElement_eq_ok.2 hbare, (), checkBound_eq_ok.2 hb, y, hy, rfl⟩

theorem declare_tuple_eq_ok :
    (Descriptor.tuple h es x).declare parent = .ok d ↔
      ∃ g fs y, h.qualify parent = .ok g ∧ es ≠ []
        ∧ List.Forall₂ (fun e f => e.declare g.key = .ok f ∧ f.IsBare) es fs
        ∧ (Descriptor.tuple g fs none).conform? x = .ok y ∧ d = .tuple g fs y := by
  rw [declare]
  simp only [bind_eq_ok]
  by_cases hes : es = []
  · subst hes
    simp
  · have hempty : ¬es.isEmpty = true := by simpa using hes
    simp only [if_neg hempty, bind_eq_ok, declareElements_eq_ok, Except.ok.injEq]
    constructor
    · rintro ⟨g, hg, fs, hfs, y, hy, rfl⟩
      exact ⟨g, fs, y, hg, hes, hfs, hy, rfl⟩
    · rintro ⟨g, fs, y, hg, -, hfs, hy, rfl⟩
      exact ⟨g, hg, fs, hfs, y, hy, rfl⟩

theorem declare_table_eq_ok :
    (Descriptor.table h ms).declare parent = .ok d ↔
      ∃ g ns, h.qualify parent = .ok g
        ∧ List.Forall₂ (fun m n => declareMember g.key m = .ok n) ms ns ∧ d = .table g ns := by
  rw [declare]
  simp only [bind_eq_ok, declareMembers_eq_mapM, mapM_eq_ok, Except.ok.injEq]
  constructor
  · rintro ⟨g, hg, ns, hns, rfl⟩
    exact ⟨g, ns, hg, hns, rfl⟩
  · rintro ⟨g, ns, hg, hns, rfl⟩
    exact ⟨g, hg, ns, hns, rfl⟩

theorem declare_optional_eq_ok :
    (Descriptor.optional e).declare parent = .ok d ↔
      ∃ f, e.declare parent = .ok f ∧ f.IsBare ∧ d = .optional f := by
  rw [declare]
  simp only [bind_eq_ok, Except.ok.injEq]
  constructor
  · rintro ⟨f, hf, _, hbare, rfl⟩
    exact ⟨f, hf, checkInner_eq_ok.1 hbare, rfl⟩
  · rintro ⟨f, hf, hbare, rfl⟩
    exact ⟨f, hf, (), checkInner_eq_ok.2 hbare, rfl⟩

end

/-! ## what is declared -/

theorem name_of_qualify {h g : Heading} {parent : String} (hq : h.qualify parent = .ok g) :
    g.name = h.name ∧ isValidName h.name = true := by
  obtain ⟨hvalid, rfl⟩ := qualify_eq_ok.1 hq
  exact ⟨rfl, hvalid⟩

/-- a declaration keeps the name, and accepts no name that is not one -/
theorem name_of_declare {d e : Descriptor} {parent : String} (h : d.declare parent = .ok e) :
    e.name = d.name ∧ isValidName d.name = true := by
  induction d generalizing e with
  | atom hd t x =>
    obtain ⟨g, hg, rfl⟩ := declare_atom_eq_ok.1 h
    exact name_of_qualify hg
  | sequence hd f b x ih =>
    obtain ⟨g, _, _, hg, _, _, _, _, rfl⟩ := declare_sequence_eq_ok.1 h
    exact name_of_qualify hg
  | tuple hd es x ih =>
    obtain ⟨g, _, _, hg, _, _, _, rfl⟩ := declare_tuple_eq_ok.1 h
    exact name_of_qualify hg
  | table hd ms ih =>
    obtain ⟨g, _, hg, _, rfl⟩ := declare_table_eq_ok.1 h
    exact name_of_qualify hg
  | optional d ih =>
    obtain ⟨f, hf, _, rfl⟩ := declare_optional_eq_ok.1 h
    have hname : f.name = d.name ∧ isValidName d.name = true := ih hf
    exact hname

theorem name_of_declareMember {d e : Descriptor} {parent : String}
    (h : declareMember parent d = .ok e) : e.name = d.name := by
  unfold declareMember at h
  split at h
  · rw [Except.ok.inj h]
  · exact (name_of_declare h).1

theorem names_of_forall₂ {parent : String} {ms ns : List Descriptor}
    (h : List.Forall₂ (fun d e => declareMember parent d = .ok e) ms ns) :
    ns.map name = ms.map name := by
  induction h with
  | nil => rfl
  | cons hde _ ih => rw [List.map_cons, List.map_cons, ih, name_of_declareMember hde]

/-- what is declared from a draft is well formed -/
theorem wellFormed_of_declare {d e : Descriptor} {parent : String} (hd : d.Drafted)
    (h : d.declare parent = .ok e) : e.WellFormed := by
  induction d generalizing e parent with
  | atom hd' t x =>
    cases hd with
    | atom hx =>
      obtain ⟨g, _, rfl⟩ := declare_atom_eq_ok.1 h
      exact .atom hx
  | sequence hd' f b x ih =>
    cases hd with
    | sequence hf =>
      obtain ⟨g, f', y, _, hf', hbare, hb, hy, rfl⟩ := declare_sequence_eq_ok.1 h
      exact .sequence (ih hf hf') hbare hb fun c hc => ⟨g, yields_of_conform? hy c hc⟩
  | tuple hd' es x ih =>
    cases hd with
    | tuple hes =>
      obtain ⟨g, fs, y, _, hne, hfs, hy, rfl⟩ := declare_tuple_eq_ok.1 h
      have hfs_ne : fs ≠ [] := by
        rintro rfl
        exact hne (List.forall₂_nil_right_iff.1 hfs)
      refine .tuple hfs_ne ?_ ?_ fun c hc => ⟨g, yields_of_conform? hy c hc⟩
      · intro f hf
        obtain ⟨e, he, hdeclare, _⟩ := exists_mem_of_forall₂ hfs f hf
        exact ih e he (hes e he) hdeclare
      · intro f hf
        obtain ⟨e, _, _, hbare⟩ := exists_mem_of_forall₂ hfs f hf
        exact hbare
  | table hd' ms ih =>
    cases hd with
    | table hnames hnodup hms =>
      obtain ⟨g, ns, _, hns, rfl⟩ := declare_table_eq_ok.1 h
      refine .table ?_ (names_of_forall₂ hns ▸ hnodup) ?_
      · intro e he
        obtain ⟨d, hd, hde⟩ := exists_mem_of_forall₂ hns e he
        rw [name_of_declareMember hde]
        exact hnames d hd
      · intro e he
        obtain ⟨d, hd, hde⟩ := exists_mem_of_forall₂ hns e he
        unfold declareMember at hde
        split at hde
        · exact Except.ok.inj hde ▸ hms d hd
        · exact ih d hd (hms d hd).drafted hde
  | optional d ih =>
    cases hd with
    | optional hd =>
      obtain ⟨f, hf, hbare, rfl⟩ := declare_optional_eq_ok.1 h
      exact .optional (ih hd hf) hbare

end Descriptor
end ParamSchema
