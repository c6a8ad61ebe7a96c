import ParamSchema.Proofs.Schema.Settled
import ParamSchema.Proofs.Schema.Declared

/-!
# Outlines as one table

`Outline.flat` is the table that an outline writes down, before anything is checked or bound: the
members of a fragment stand where it is included.  An outline is `Proper` if this table and those of
the fragments are sound and its tables have valid names.

* `SoundMembers`     what the members of a sound table are;
* `Elaborates m d`   running a draft that writes `m` down gives `d`: its tables are declared;
* `Declares ms ns`   declaring the members `ms` gives `ns`.
-/

namespace ParamSchema

/-- no identifier is an element marker -/
theorem isIdentifier_iff {name : String} :
    isIdentifier name = true ↔ isElementMarker name = false ∧ isValidName name = true := by
  constructor
  · intro h
    refine ⟨?_, Descriptor.isValidName_of_isIdentifier h⟩
    rw [isIdentifier] at h
    rw [isElementMarker]
    split
    · rename_i cs hcs
      rw [hcs, isIdentifierChars] at h
      exact absurd (Bool.and_eq_true_iff.1 h).1 (by decide)
    · rfl
  · rintro ⟨hmarker, hvalid⟩
    exact Declaring.isIdentifier_of_isValidName hvalid hmarker

namespace Descriptor

variable {f : Heading → Heading} {d e : Descriptor}

/-! ## headings -/

theorem settle_mapHeading (f : Heading → Heading) (d : Descriptor) :
    (d.mapHeading f).settle = d.settle.mapHeading f := by
  induction d with
  | atom h t x => rfl
  | sequence h e b x ih =>
    have hdefault : (Descriptor.sequence (f h) e.settle b none).settleDefault
        = (Descriptor.sequence h e.settle b none).settleDefault := by
      funext c
      rw [settleDefault, settleDefault, bind_sequence_congr]
    rw [mapHeading, settle, settle, mapHeading, hdefault]
  | tuple h es x ih =>
    have hdefault : (Descriptor.tuple (f h) (settleAll es) none).settleDefault
        = (Descriptor.tuple h (settleAll es) none).settleDefault := by
      funext c
      rw [settleDefault, settleDefault, bind_tuple_congr]
    rw [mapHeading, settle, settle, mapHeading, hdefault]
  | table h ms ih => rfl
  | optional d ih => rw [mapHeading, settle, settle, mapHeading, ih]

theorem unkeyed_mapHeading {g : Heading → Heading} (hfg : ∀ h, (f h).unkeyed = g h.unkeyed) :
    (d.mapHeading f).unkeyed = d.unkeyed.mapHeading g := by
  induction d with
  | atom h t x => rw [mapHeading, unkeyed, unkeyed, mapHeading, hfg]
  | sequence h e b x ih => rw [mapHeading, unkeyed, unkeyed, mapHeading, hfg]
  | tuple h es x ih => rw [mapHeading, unkeyed, unkeyed, mapHeading, hfg]
  | table h ms ih => rw [mapHeading, unkeyed, unkeyed, mapHeading, hfg]
  | optional d ih => rw [mapHeading, unkeyed, unkeyed, mapHeading, ih]

theorem unkeyed_splice (d : Descriptor) : d.splice.unkeyed = d.unkeyed := by
  unfold splice
  induction d with
  | atom h t x => rfl
  | sequence h e b x ih => rfl
  | tuple h es x ih => rfl
  | table h ms ih => rfl
  | optional d ih => rw [mapHeading, unkeyed, unkeyed, ih]

/-- an element has the name of its place, whatever its own -/
theorem unkeyed_asElement (i : Nat) (d : Descriptor) :
    (d.asElement i).settle.unkeyed
      = d.settle.unkeyed.mapHeading fun h => { h with name := elementMarker i } := by
  rw [asElement, settle_mapHeading]
  exact unkeyed_mapHeading fun _ => rfl

theorem name_asElement (i : Nat) (d : Descriptor) : (d.asElement i).name = elementMarker i := by
  rw [asElement, name, heading_mapHeading]

theorem isBare_mapHeading : (d.mapHeading f).IsBare ↔ d.IsBare := by
  rw [IsBare, IsBare, isOptional_mapHeading, hasDefault_mapHeading]

/-- a descriptor is sound under any heading -/
theorem sound_mapHeading : (d.mapHeading f).Sound ↔ d.Sound := by
  induction d with
  | atom h t x => exact ⟨fun _ => sound_atom, fun _ => sound_atom⟩
  | sequence h e b x ih =>
    rw [mapHeading, sound_sequence, sound_sequence, SoundHere, SoundHere]
    rw [(SameFaults.refl e).admits_sequence (g := f h) (h := h) (x := x) (y := x)]
  | tuple h es x ih =>
    have hsame : List.Forall₂ SameFaults es es := List.forall₂_same.2 fun e _ => .refl e
    rw [mapHeading, sound_tuple, sound_tuple, SoundHere, SoundHere]
    rw [SameFaults.admits_tuple (g := f h) (h := h) (x := x) (y := x) hsame]
  | table h ms ih => rw [mapHeading, sound_table, sound_table, SoundHere, SoundHere]
  | optional d ih => rw [mapHeading, sound_optional, sound_optional, isBare_mapHeading, ih]

namespace TablesSound

variable {h : Heading} {b : LengthBound} {x : Option Bound} {es ms : List Descriptor}

theorem atom {t : ScalarType} {s : Option Scalar} : (Descriptor.atom h t s).TablesSound := by
  intro g ns hns
  cases hns

theorem sequence : (Descriptor.sequence h e b x).TablesSound ↔ e.TablesSound := by
  refine ⟨fun ht => ht.within (.element .self), fun he g ns hns => ?_⟩
  cases hns with
  | element hns => exact he g ns hns

theorem tuple : (Descriptor.tuple h es x).TablesSound ↔ ∀ e ∈ es, e.TablesSound := by
  refine ⟨fun ht e he => ht.within (.place he .self), fun hes g ns hns => ?_⟩
  cases hns with
  | place he hns => exact hes _ he g ns hns

theorem table : (Descriptor.table h ms).TablesSound ↔ (Descriptor.table h ms).Sound :=
  ⟨fun ht => ht h ms .self, Sound.tablesSound⟩

theorem optional : (Descriptor.optional d).TablesSound ↔ d.TablesSound := by
  refine ⟨fun ht => ht.within (.inner .self), fun hd g ns hns => ?_⟩
  cases hns with
  | inner hns => exact hd g ns hns

theorem mapHeading : (d.mapHeading f).TablesSound ↔ d.TablesSound := by
  induction d with
  | atom h t x => exact ⟨fun _ => atom, fun _ => atom⟩
  | sequence h e b x ih => rw [Descriptor.mapHeading, sequence, sequence]
  | tuple h es x ih => rw [Descriptor.mapHeading, tuple, tuple]
  | table h ms ih =>
    rw [Descriptor.mapHeading, table, table, sound_table, sound_table, SoundHere, SoundHere]
  | optional d ih => rw [Descriptor.mapHeading, optional, optional, ih]

end TablesSound

/-! ## elements -/

theorem forall_mem_asElements {p q : Descriptor → Prop} (hpq : ∀ i d, p (d.asElement i) ↔ q d)
    {ds : List Descriptor} {i : Nat} : (∀ e ∈ asElements i ds, p e) ↔ ∀ d ∈ ds, q d := by
  induction ds generalizing i with
  | nil => exact ⟨fun _ => List.forall_mem_nil _, fun _ => List.forall_mem_nil _⟩
  | cons d ds ih => rw [asElements, List.forall_mem_cons, List.forall_mem_cons, hpq, ih]

theorem forall₂_asElements {r : Descriptor → Descriptor → Prop}
    (hr : ∀ i d e, r d e → r (d.asElement i) (e.asElement i)) {ds es : List Descriptor}
    (h : List.Forall₂ r ds es) (i : Nat) : List.Forall₂ r (asElements i ds) (asElements i es) := by
  induction h generalizing i with
  | nil => exact .nil
  | cons hde _ ih => exact .cons (hr i _ _ hde) (ih (i + 1))

end Descriptor

/-! ## members -/

/-- what the members of a sound table are -/
structure SoundMembers (ms : List Descriptor) : Prop where
  names : ∀ d ∈ ms, isIdentifier d.name = true
  distinct : (ms.map Descriptor.name).Nodup
  sound : ∀ d ∈ ms, d.Sound

/-- `ns` is what declaring the members `ms` gives -/
structure Declares (ms ns : List Descriptor) : Prop where
  alike : List.Forall₂ (fun m n => n.unkeyed = m.settle.unkeyed) ms ns
  wellFormed : ∀ n ∈ ns, n.WellFormed
  sound : ∀ n ∈ ns, n.Sound

section
open Descriptor

variable {ms ns ms' ns' : List Descriptor} {h : Heading}

theorem sound_table_iff : (Descriptor.table h ms).Sound ↔ SoundMembers ms := by
  rw [sound_table, SoundHere]
  constructor
  · rintro ⟨⟨hnames, hdistinct⟩, hsound⟩
    exact ⟨hnames, hdistinct, hsound⟩
  · intro hms
    exact ⟨⟨hms.names, hms.distinct⟩, hms.sound⟩

namespace SoundMembers

theorem nil : SoundMembers [] :=
  ⟨List.forall_mem_nil _, List.nodup_nil, List.forall_mem_nil _⟩

theorem singleton {d : Descriptor} :
    SoundMembers [d] ↔ isIdentifier d.name = true ∧ d.Sound := by
  constructor
  · intro hd
    exact ⟨hd.names d (List.mem_singleton_self d), hd.sound d (List.mem_singleton_self d)⟩
  · rintro ⟨hname, hd⟩
    exact ⟨List.forall_mem_singleton.2 hname, List.pairwise_singleton _ _,
      List.forall_mem_singleton.2 hd⟩

theorem append :
    SoundMembers (ms ++ ns) ↔
      SoundMembers ms ∧ SoundMembers ns ∧ ∀ d ∈ ns, isMember ms d.name = false := by
  have hnew : (∀ d ∈ ns, isMember ms d.name = false) ↔
      ∀ a ∈ ms.map Descriptor.name, ∀ b ∈ ns.map Descriptor.name, a ≠ b := by
    simp only [isMember_eq_false, List.forall_mem_map]
    exact ⟨fun hne d hd e he => hne e he d hd, fun hne e he d hd => hne d hd e he⟩
  rw [hnew]
  constructor
  · rintro ⟨hnames, hdistinct, hsound⟩
    rw [List.map_append, List.nodup_append] at hdistinct
    obtain ⟨hnames, hnames'⟩ := List.forall_mem_append.1 hnames
    obtain ⟨hsound, hsound'⟩ := List.forall_mem_append.1 hsound
    exact ⟨⟨hnames, hdistinct.1, hsound⟩, ⟨hnames', hdistinct.2.1, hsound'⟩, hdistinct.2.2⟩
  · rintro ⟨hms, hns, hne⟩
    refine ⟨List.forall_mem_append.2 ⟨hms.names, hns.names⟩, ?_,
      List.forall_mem_append.2 ⟨hms.sound, hns.sound⟩⟩
    rw [List.map_append, List.nodup_append]
    exact ⟨hms.distinct, hns.distinct, hne⟩

end SoundMembers

namespace Declares

theorem nil : Declares [] [] := ⟨.nil, List.forall_mem_nil _, List.forall_mem_nil _⟩

theorem append (hms : Declares ms ns) (hms' : Declares ms' ns') :
    Declares (ms ++ ms') (ns ++ ns') :=
  ⟨List.rel_append hms.alike hms'.alike,
    List.forall_mem_append.2 ⟨hms.wellFormed, hms'.wellFormed⟩,
    List.forall_mem_append.2 ⟨hms.sound, hms'.sound⟩⟩

theorem splice (hms : Declares ms ns) : Declares ms (ns.map Descriptor.splice) := by
  refine ⟨?_, ?_, ?_⟩
  · rw [List.forall₂_map_right_iff]
    exact hms.alike.imp fun m n hn => (unkeyed_splice n).trans hn
  · rw [List.forall_mem_map]
    exact fun n hn => (hms.wellFormed n hn).mapHeading
  · rw [List.forall_mem_map]
    exact fun n hn => sound_mapHeading.2 (hms.sound n hn)

/-- declaring keeps the names -/
theorem names (hms : Declares ms ns) : ns.map Descriptor.name = ms.map Descriptor.name :=
  SameFaults.map_name (hms.alike.imp fun _ _ hn => sameFaults_of_unkeyed_eq hn)

theorem isMember_eq (hms : Declares ms ns) (name : String) : isMember ns name = isMember ms name :=
  SameFaults.isMember_eq hms.names name

theorem forall_name (hms : Declares ms ns) {p : String → Prop} :
    (∀ n ∈ ns, p n.name) ↔ ∀ m ∈ ms, p m.name := by
  rw [← List.forall_mem_map (f := Descriptor.name), hms.names, List.forall_mem_map]

theorem soundMembers (hms : Declares ms ns) (hsound : SoundMembers ms) : SoundMembers ns :=
  ⟨(hms.forall_name (p := fun k => isIdentifier k = true)).2 hsound.names,
    hms.names ▸ hsound.distinct, hms.sound⟩

theorem unkeyed_table (hms : Declares ms ns) {g : Heading} (hgh : g.unkeyed = h.unkeyed) :
    (Descriptor.table g ns).unkeyed = (Descriptor.table h ms).settle.unkeyed := by
  rw [settle, unkeyed, unkeyed, unkeyedAll_eq_of_forall₂ hms.alike, hgh]

end Declares

/-! ## drafts -/

/-- `d` is what running a draft that writes `m` down gives: the tables inside are declared -/
structure Elaborates (m d : Descriptor) : Prop where
  drafted : d.Drafted
  tablesSound : d.TablesSound
  unkeyed : d.settle.unkeyed = m.settle.unkeyed
  sound : d.Sound ↔ m.Sound

namespace Elaborates

variable {m d : Descriptor} {b : LengthBound} {x : Option Bound} {ds : List Descriptor}

theorem sameFaults (hmd : Elaborates m d) : SameFaults m d :=
  (sameFaults_of_unkeyed_eq hmd.unkeyed).trans (sameFaults_settle d).symm

theorem asElement (i : Nat) (hmd : Elaborates m d) :
    Elaborates (m.asElement i) (d.asElement i) where
  drafted := hmd.drafted.mapHeading
  tablesSound := TablesSound.mapHeading.2 hmd.tablesSound
  unkeyed := by rw [unkeyed_asElement, unkeyed_asElement, hmd.unkeyed]
  sound := by
    rw [Descriptor.asElement, Descriptor.asElement, sound_mapHeading, sound_mapHeading, hmd.sound]

theorem sequence (hmd : Elaborates m d) : Elaborates (.sequence h m b x) (.sequence h d b x) where
  drafted := .sequence hmd.drafted
  tablesSound := TablesSound.sequence.2 hmd.tablesSound
  unkeyed := by
    have hplain : (Descriptor.sequence h d.settle b none).unkeyed
        = (Descriptor.sequence h m.settle b none).unkeyed := by
      rw [Descriptor.unkeyed, Descriptor.unkeyed, hmd.unkeyed]
    rw [settle, settle, settleDefault_congr hplain]
    rw [Descriptor.unkeyed, Descriptor.unkeyed, hmd.unkeyed]
  sound := by
    rw [sound_sequence, sound_sequence, SoundHere, SoundHere, hmd.sound, hmd.sameFaults.isElement]
    rw [hmd.sameFaults.admits_sequence (g := h) (h := h) (x := x) (y := x)]

theorem tuple (hms : List.Forall₂ Elaborates ms ds) :
    Elaborates (.tuple h ms x) (.tuple h ds x) where
  drafted := by
    refine .tuple fun d hd => ?_
    obtain ⟨m, _, hmd⟩ := exists_mem_of_forall₂ hms d hd
    exact hmd.drafted
  tablesSound := by
    refine TablesSound.tuple.2 fun d hd => ?_
    obtain ⟨m, _, hmd⟩ := exists_mem_of_forall₂ hms d hd
    exact hmd.tablesSound
  unkeyed := by
    have hall : unkeyedAll (settleAll ds) = unkeyedAll (settleAll ms) := by
      rw [settleAll_eq_map ds]
      refine unkeyedAll_eq_of_forall₂ ?_
      rw [List.forall₂_map_right_iff]
      exact hms.imp fun _ _ hmd => hmd.unkeyed
    have hplain : (Descriptor.tuple h (settleAll ds) none).unkeyed
        = (Descriptor.tuple h (settleAll ms) none).unkeyed := by
      rw [Descriptor.unkeyed, Descriptor.unkeyed, hall]
    rw [settle, settle, settleDefault_congr hplain, Descriptor.unkeyed, Descriptor.unkeyed, hall]
  sound := by
    have hsame : List.Forall₂ SameFaults ms ds := hms.imp fun _ _ hmd => hmd.sameFaults
    have hne : ds ≠ [] ↔ ms ≠ [] := by
      rw [ne_eq, ne_eq, ← List.length_eq_zero_iff, ← List.length_eq_zero_iff, hms.length_eq]
    have helements : (∀ d ∈ ds, d.IsElement) ↔ ∀ m ∈ ms, m.IsElement :=
      forall_mem_congr_of_forall₂ (hsame.imp fun _ _ hmd => hmd.isElement.symm)
    have hsound : (∀ d ∈ ds, d.Sound) ↔ ∀ m ∈ ms, m.Sound :=
      forall_mem_congr_of_forall₂ (hms.imp fun _ _ hmd => hmd.sound.symm)
    rw [sound_tuple, sound_tuple, SoundHere, SoundHere, hne, helements, hsound]
    rw [SameFaults.admits_tuple (g := h) (h := h) (x := x) (y := x) hsame]

theorem optional (hmd : Elaborates m d) : Elaborates (.optional m) (.optional d) where
  drafted := .optional hmd.drafted
  tablesSound := TablesSound.optional.2 hmd.tablesSound
  unkeyed := by rw [settle, settle, Descriptor.unkeyed, Descriptor.unkeyed, hmd.unkeyed]
  sound := by rw [sound_optional, sound_optional, hmd.sound, hmd.sameFaults.isBare]

/-- the members of a table are declared before the table stands for a draft -/
theorem table (hms : Declares ms ns) (hsound : SoundMembers ms) {g : Heading}
    (hgh : g.unkeyed = h.unkeyed) : Elaborates (.table h ms) (.table g ns) := by
  have hns := hms.soundMembers hsound
  have hwf : (Descriptor.table g ns).WellFormed := .table hns.names hns.distinct hms.wellFormed
  refine ⟨hwf.drafted, TablesSound.table.2 (sound_table_iff.2 hns), ?_, ?_⟩
  · rw [settle_of_wellFormed hwf, hms.unkeyed_table hgh]
  · exact iff_of_true (sound_table_iff.2 hns) (sound_table_iff.2 hsound)

end Elaborates

end

/-! ## outlines -/

section
variable (ps : Entries (List Descriptor))

mutual

/-- the descriptor a draft writes down, with the members of the fragments `ps` -/
def Draft.flat (draft : Draft) : Descriptor :=
  match draft with
  | .atom name comment t x =>
    .atom { Heading.named name with comment } t (x.bind fun s => s.readAs? t)
  | .sequence name comment e b x => .sequenceOf name comment e.flat b x
  | .tuple name comment es x => .tupleOf name comment (flatDrafts es) x
  | .table name comment items => .table { Heading.named name with comment } (flatItems items)
  | .optional d => .optional d.flat

def flatDrafts (drafts : List Draft) : List Descriptor :=
  match drafts with
  | [] => []
  | d :: ds => d.flat :: flatDrafts ds

/-- the members a step writes down -/
def Item.flat (item : Item) : List Descriptor :=
  match item with
  | .add draft => [draft.flat]
  | .table name items => [.table (Heading.named name) (flatItems items)]
  | .splice name => (ps.get? name).getD []
  | .note => []

def flatItems (items : List Item) : List Descriptor :=
  match items with
  | [] => []
  | i :: is => i.flat ++ flatItems is

end

end

mutual

/-- the names of the tables that are declared on their own -/
def Draft.tableNames (draft : Draft) : List String :=
  match draft with
  | .atom _ _ _ _ => []
  | .sequence _ _ e _ _ => e.tableNames
  | .tuple _ _ es _ => draftTableNames es
  | .table name _ items => name :: itemTableNames items
  | .optional d => d.tableNames

def draftTableNames (drafts : List Draft) : List String :=
  match drafts with
  | [] => []
  | d :: ds => d.tableNames ++ draftTableNames ds

def Item.tableNames (item : Item) : List String :=
  match item with
  | .add draft => draft.tableNames
  | .table _ items => itemTableNames items
  | .splice _ => []
  | .note => []

def itemTableNames (items : List Item) : List String :=
  match items with
  | [] => []
  | i :: is => i.tableNames ++ itemTableNames is

end

/-- the members of the fragments, each of which may include those before it -/
def flatFragments (ps : Entries (List Descriptor)) :
    List (String × List Item) → Entries (List Descriptor)
  | [] => ps
  | (name, items) :: rest => flatFragments (ps.insert name (flatItems ps items)) rest

/-- every fragment has sound members and tables with valid names, also one that is not included -/
def ProperFragments (ps : Entries (List Descriptor)) : List (String × List Item) → Prop
  | [] => True
  | (name, items) :: rest =>
    ((∀ name ∈ itemTableNames items, isValidName name = true) ∧ SoundMembers (flatItems ps items))
      ∧ ProperFragments (ps.insert name (flatItems ps items)) rest

namespace Outline

/-- the members an outline writes down -/
def members (o : Outline) : List Descriptor := flatItems (flatFragments [] o.fragments) o.items

/-- the table an outline writes down -/
def flat (o : Outline) : Descriptor :=
  .table { Heading.named o.name with comment := o.comment } o.members

/-- what an outline has to have to be a schema -/
structure Proper (o : Outline) : Prop where
  fragments : ProperFragments [] o.fragments
  name : isValidName o.name = true
  tableNames : ∀ name ∈ itemTableNames o.items, isValidName name = true
  sound : o.flat.Sound

end Outline
end ParamSchema
