import ParamSchema.Proofs.Schema.Accepted
import ParamSchema.Proofs.Schema.Lookup
import ParamSchema.Schema.Reference

/-!
# Fragments written out

`Outline.inline` writes the steps of a fragment in the place where it is included, so that nothing
is left to include.  Members that are included keep the keys of the fragment, those written out get
the keys of their table; neither validation nor binding nor the reference looks at these, so both
schemas do the same (`Outline.inline_schema`).

* `Item.inline`                 the steps that one step stands for, with fragments written out;
* `Item.isDirect`               a step that includes no fragment, at any depth;
* `WritesOut is ps`             the steps `is` of the fragments write down the members `ps`;
* `Schema.bind_congr_unkeyed`   schemas that differ in keys only bind alike, and fail alike.
-/

namespace ParamSchema

/-! ## keys do not count -/

namespace Descriptor

/-- the names of the parameters of the table at a path -/
def namesAt? (d : Descriptor) (path : List Segment) : Option (List String) :=
  ((d.follow? path).bind members?).map fun ms => ms.map name

theorem name_unkeyed (d : Descriptor) : d.unkeyed.name = d.name := (sameFaults_unkeyed d).name

theorem unwrap_unkeyed (d : Descriptor) : d.unkeyed.unwrap = d.unwrap.unkeyed := by
  induction d with
  | optional d ih => exact ih
  | _ => rfl

theorem members?_unkeyed (d : Descriptor) :
    d.unkeyed.members? = d.members?.map fun ms => ms.map unkeyed := by
  unfold members?
  rw [unwrap_unkeyed]
  cases d.unwrap with
  | table h ms =>
    show some (unkeyedAll ms) = some (ms.map unkeyed)
    rw [unkeyedAll_eq_map]
  | _ => rfl

theorem step?_unkeyed (d : Descriptor) (s : Segment) :
    d.unkeyed.step? s = (d.step? s).map unkeyed := by
  unfold step?
  rw [unwrap_unkeyed]
  cases s with
  | name k =>
    cases d.unwrap with
    | table h ms =>
      show (unkeyedAll ms).find? (fun m => m.name == k)
        = (ms.find? fun m => m.name == k).map unkeyed
      rw [unkeyedAll_eq_map, List.find?_map]
      simp only [Function.comp_def, name_unkeyed]
    | _ => rfl
  | index i =>
    cases d.unwrap with
    | tuple h es x =>
      show (unkeyedAll es)[i]? = es[i]?.map unkeyed
      rw [unkeyedAll_eq_map, List.getElem?_map]
    | _ => rfl

theorem follow?_unkeyed (d : Descriptor) (path : List Segment) :
    d.unkeyed.follow? path = (d.follow? path).map unkeyed := by
  induction path generalizing d with
  | nil => rfl
  | cons s path ih =>
    rw [follow?, follow?, step?_unkeyed]
    cases d.step? s with
    | none => rfl
    | some e => exact ih e

theorem namesAt?_unkeyed (d : Descriptor) (path : List Segment) :
    d.unkeyed.namesAt? path = d.namesAt? path := by
  unfold namesAt?
  rw [follow?_unkeyed]
  cases d.follow? path with
  | none => rfl
  | some e =>
    rw [Option.map_some, Option.bind_some, Option.bind_some, members?_unkeyed]
    cases e.members? with
    | none => rfl
    | some ms =>
      show some ((ms.map unkeyed).map name) = some (ms.map name)
      rw [List.map_map]
      exact congrArg some (List.map_congr_left fun m _ => name_unkeyed m)

end Descriptor

namespace Reference

open Descriptor

variable {indent : Nat}

theorem describeMembers_eq_flatMap (level : Nat) (ms : List Descriptor) :
    describeMembers indent level ms
      = ms.flatMap fun d => describe indent level (named d.name) d := by
  induction ms with
  | nil => rfl
  | cons d ds ih => rw [describeMembers, ih, List.flatMap_cons]

theorem describeElements_unkeyed (level : Nat) {es : List Descriptor}
    (h : ∀ e ∈ es, ∀ level i, describe indent level i e.unkeyed = describe indent level i e) :
    describeElements indent level (unkeyedAll es) = describeElements indent level es := by
  induction es with
  | nil => rfl
  | cons e es ih =>
    obtain ⟨he, hes⟩ := List.forall_mem_cons.1 h
    have hempty : (unkeyedAll es).isEmpty = es.isEmpty := by
      cases es <;> rfl
    rw [unkeyedAll, describeElements, describeElements, ih hes, he, hempty]

/-- the reference shows no keys -/
theorem describe_unkeyed (d : Descriptor) (level : Nat) (i : Introduction) :
    describe indent level i d.unkeyed = describe indent level i d := by
  induction d generalizing level i with
  | atom h t x => rfl
  | sequence h e b x ih => simp only [unkeyed, describe, ih, Heading.unkeyed]
  | tuple h es x ih =>
    have helements := describeElements_unkeyed (level + 1) fun e he => ih e he
    simp only [unkeyed, describe, helements, Heading.unkeyed]
  | table h ms ih =>
    have hmembers : describeMembers indent (level + 1) (unkeyedAll ms)
        = describeMembers indent (level + 1) ms := by
      rw [describeMembers_eq_flatMap, describeMembers_eq_flatMap, unkeyedAll_eq_map,
        List.flatMap_map]
      refine List.flatMap_congr fun d hd => ?_
      rw [ih d hd, name_unkeyed]
    have hempty : (unkeyedAll ms).isEmpty = ms.isEmpty := by
      cases ms <;> rfl
    rw [unkeyed, describe, describe, hmembers, hempty]
    rfl
  | optional d ih => exact ih level _

end Reference

namespace Schema

variable {s t : Schema}

theorem name_of_unkeyed (h : t.toDescriptor.unkeyed = s.toDescriptor.unkeyed) :
    t.name = s.name :=
  (Descriptor.sameFaults_of_unkeyed h).name

theorem validate_congr_unkeyed (h : t.toDescriptor.unkeyed = s.toDescriptor.unkeyed)
    (p : ParamSet) (ignore : List String) : t.validate p ignore = s.validate p ignore := by
  have hfaults : t.faults p ignore = s.faults p ignore := by
    rw [faults_eq, faults_eq]
    exact (Descriptor.sameFaults_of_unkeyed h).faults ignore "" _
  rw [validate, validate, hfaults, name_of_unkeyed h]

theorem bind_congr_unkeyed (h : t.toDescriptor.unkeyed = s.toDescriptor.unkeyed) (p : ParamSet)
    (ignore : List String) : t.bind p ignore = s.bind p ignore := by
  have hvalid := validate_congr_unkeyed h p ignore
  cases hv : s.validate p ignore with
  | error e => rw [bind, bind, hvalid, hv]
  | ok u =>
    have hclean := validate_eq_ok.1 hv
    have hroot := hclean
    rw [faults_eq] at hroot
    obtain ⟨b, hb⟩ := Descriptor.exists_bind_eq_ok hroot
    obtain ⟨es, _, rfl⟩ := Descriptor.bind_table_eq_ok.1 hb
    have hs : s.bind p ignore = .ok es := bind_eq_ok.2 ⟨hclean, hb⟩
    have ht : t.bind p ignore = .ok es :=
      bind_eq_ok.2 ⟨validate_eq_ok.1 (hvalid.trans hv), Descriptor.bind_of_unkeyed_eq h.symm "" hb⟩
    rw [hs, ht]

theorem reference_congr_unkeyed (h : t.toDescriptor.unkeyed = s.toDescriptor.unkeyed)
    (indent : Nat) : t.reference indent = s.reference indent := by
  rw [reference, reference, ← Reference.describe_unkeyed t.toDescriptor, h,
    Reference.describe_unkeyed, name_of_unkeyed h]

end Schema

/-! ## writing out -/

section
variable (is : Entries (List Item))

mutual

/-- the draft with the fragments `is` written out where they are included -/
def Draft.inline (draft : Draft) : Draft :=
  match draft with
  | .atom name comment t x => .atom name comment t x
  | .sequence name comment e b x => .sequence name comment e.inline b x
  | .tuple name comment es x => .tuple name comment (inlineDrafts es) x
  | .table name comment items => .table name comment (inlineItems items)
  | .optional d => .optional d.inline

def inlineDrafts (drafts : List Draft) : List Draft :=
  match drafts with
  | [] => []
  | d :: ds => d.inline :: inlineDrafts ds

/-- the steps that one step stands for -/
def Item.inline (item : Item) : List Item :=
  match item with
  | .add draft => [.add draft.inline]
  | .table name items => [.table name (inlineItems items)]
  | .splice name => (is.get? name).getD []
  | .note => [.note]

def inlineItems (items : List Item) : List Item :=
  match items with
  | [] => []
  | i :: rest => i.inline ++ inlineItems rest

end

end

/-- the steps of the fragments, each with those before it written out -/
def inlineFragments (is : Entries (List Item)) : List (String × List Item) → Entries (List Item)
  | [] => is
  | (name, items) :: rest => inlineFragments (is.insert name (inlineItems is items)) rest

mutual

/-- no fragment is included, at any depth -/
def Draft.isDirect (draft : Draft) : Bool :=
  match draft with
  | .atom _ _ _ _ => true
  | .sequence _ _ e _ _ => e.isDirect
  | .tuple _ _ es _ => draftsAreDirect es
  | .table _ _ items => itemsAreDirect items
  | .optional d => d.isDirect

def draftsAreDirect (drafts : List Draft) : Bool :=
  match drafts with
  | [] => true
  | d :: ds => d.isDirect && draftsAreDirect ds

def Item.isDirect (item : Item) : Bool :=
  match item with
  | .add draft => draft.isDirect
  | .table _ items => itemsAreDirect items
  | .splice _ => false
  | .note => true

def itemsAreDirect (items : List Item) : Bool :=
  match items with
  | [] => true
  | i :: rest => i.isDirect && itemsAreDirect rest

end

/-- the outline with every fragment written out -/
def Outline.inline (o : Outline) : Outline :=
  ⟨o.name, o.comment, inlineItems (inlineFragments [] o.fragments) o.items, []⟩

/-! ## what is written out -/

/-- the draft includes nothing, and writes down `d` -/
structure Draft.WritesOut (draft : Draft) (d : Descriptor) : Prop where
  flat : draft.flat [] = d
  names : ∀ name ∈ draft.tableNames, isValidName name = true
  direct : draft.isDirect = true

structure DraftsWriteOut (drafts : List Draft) (ds : List Descriptor) : Prop where
  flat : flatDrafts [] drafts = ds
  names : ∀ name ∈ draftTableNames drafts, isValidName name = true
  direct : draftsAreDirect drafts = true

structure ItemsWriteOut (items : List Item) (ms : List Descriptor) : Prop where
  flat : flatItems [] items = ms
  names : ∀ name ∈ itemTableNames items, isValidName name = true
  direct : itemsAreDirect items = true

/-- the steps of the fragments, and the members they write down -/
def FragmentsWriteOut (is : Entries (List Item)) (ps : Entries (List Descriptor)) : Prop :=
  List.Forall₂ (fun i p => p.1 = i.1 ∧ ItemsWriteOut i.2 p.2) is ps

namespace ItemsWriteOut

variable {items items' : List Item} {ms ns : List Descriptor} {draft : Draft} {d : Descriptor}

theorem nil : ItemsWriteOut [] [] := ⟨rfl, List.forall_mem_nil _, rfl⟩

theorem append (h : ItemsWriteOut items ms) (h' : ItemsWriteOut items' ns) :
    ItemsWriteOut (items ++ items') (ms ++ ns) := by
  induction items generalizing ms with
  | nil =>
    obtain rfl := h.flat
    exact h'
  | cons i items ih =>
    obtain ⟨hflat, hnames, hdirect⟩ := h
    rw [flatItems] at hflat
    rw [itemTableNames, List.forall_mem_append] at hnames
    rw [itemsAreDirect, Bool.and_eq_true] at hdirect
    obtain ⟨hflat', hnames', hdirect'⟩ := ih ⟨rfl, hnames.2, hdirect.2⟩
    refine ⟨?_, ?_, ?_⟩
    · rw [List.cons_append, flatItems, hflat', ← hflat, List.append_assoc]
    · rw [List.cons_append, itemTableNames]
      exact List.forall_mem_append.2 ⟨hnames.1, hnames'⟩
    · rw [List.cons_append, itemsAreDirect, hdirect', hdirect.1]
      rfl

theorem add (h : draft.WritesOut d) : ItemsWriteOut [.add draft] [d] := by
  obtain ⟨hflat, hnames, hdirect⟩ := h
  refine ⟨?_, ?_, ?_⟩
  · rw [flatItems, flatItems, Item.flat, hflat, List.append_nil]
  · rw [itemTableNames, itemTableNames, Item.tableNames, List.append_nil]
    exact hnames
  · rw [itemsAreDirect, itemsAreDirect, Item.isDirect, hdirect]
    rfl

theorem table (name : String) (h : ItemsWriteOut items ms) :
    ItemsWriteOut [.table name items] [.table (Heading.named name) ms] := by
  obtain ⟨hflat, hnames, hdirect⟩ := h
  refine ⟨?_, ?_, ?_⟩
  · rw [flatItems, flatItems, Item.flat, hflat, List.append_nil]
  · rw [itemTableNames, itemTableNames, Item.tableNames, List.append_nil]
    exact hnames
  · rw [itemsAreDirect, itemsAreDirect, Item.isDirect, hdirect]
    rfl

theorem note : ItemsWriteOut [.note] [] := ⟨rfl, List.forall_mem_nil _, rfl⟩

end ItemsWriteOut

namespace FragmentsWriteOut

variable {is : Entries (List Item)} {ps : Entries (List Descriptor)}

/-- a fragment that is not known has no steps, and no members -/
theorem get (h : FragmentsWriteOut is ps) (name : String) :
    ItemsWriteOut ((is.get? name).getD []) ((ps.get? name).getD []) :=
  Entries.getD_of_forall₂ ItemsWriteOut h .nil name

theorem insert (h : FragmentsWriteOut is ps) {name : String} {items : List Item}
    {ms : List Descriptor} (hwrites : ItemsWriteOut items ms) :
    FragmentsWriteOut (is.insert name items) (ps.insert name ms) :=
  Entries.forall₂_insert ItemsWriteOut h hwrites name

end FragmentsWriteOut

section
variable {is : Entries (List Item)} {ps : Entries (List Descriptor)}

mutual

theorem Draft.writesOut_inline (h : FragmentsWriteOut is ps) (draft : Draft)
    (hnames : ∀ name ∈ draft.tableNames, isValidName name = true) :
    (draft.inline is).WritesOut (draft.flat ps) := by
  match draft with
  | .atom name comment t x => exact ⟨rfl, List.forall_mem_nil _, rfl⟩
  | .sequence name comment e b x =>
    obtain ⟨hflat, hvalid, hdirect⟩ := Draft.writesOut_inline h e hnames
    refine ⟨?_, hvalid, hdirect⟩
    rw [Draft.inline, Draft.flat, Draft.flat, hflat]
  | .tuple name comment es x =>
    obtain ⟨hflat, hvalid, hdirect⟩ := writeOut_inlineDrafts h es hnames
    refine ⟨?_, hvalid, hdirect⟩
    rw [Draft.inline, Draft.flat, Draft.flat, hflat]
  | .table name comment items =>
    rw [Draft.tableNames, List.forall_mem_cons] at hnames
    obtain ⟨hflat, hvalid, hdirect⟩ := writeOut_inlineItems h items hnames.2
    refine ⟨?_, List.forall_mem_cons.2 ⟨hnames.1, hvalid⟩, hdirect⟩
    rw [Draft.inline, Draft.flat, Draft.flat, hflat]
  | .optional d =>
    obtain ⟨hflat, hvalid, hdirect⟩ := Draft.writesOut_inline h d hnames
    refine ⟨?_, hvalid, hdirect⟩
    rw [Draft.inline, Draft.flat, Draft.flat, hflat]

theorem writeOut_inlineDrafts (h : FragmentsWriteOut is ps) (drafts : List Draft)
    (hnames : ∀ name ∈ draftTableNames drafts, isValidName name = true) :
    DraftsWriteOut (inlineDrafts is drafts) (flatDrafts ps drafts) := by
  match drafts with
  | [] => exact ⟨rfl, List.forall_mem_nil _, rfl⟩
  | d :: ds =>
    rw [draftTableNames, List.forall_mem_append] at hnames
    obtain ⟨hflat, hvalid, hdirect⟩ := Draft.writesOut_inline h d hnames.1
    obtain ⟨hflats, hvalids, hdirects⟩ := writeOut_inlineDrafts h ds hnames.2
    refine ⟨?_, List.forall_mem_append.2 ⟨hvalid, hvalids⟩, ?_⟩
    · rw [inlineDrafts, flatDrafts, flatDrafts, hflat, hflats]
    · rw [inlineDrafts, draftsAreDirect, hdirect, hdirects]
      rfl

theorem Item.writeOut_inline (h : FragmentsWriteOut is ps) (item : Item)
    (hnames : ∀ name ∈ item.tableNames, isValidName name = true) :
    ItemsWriteOut (item.inline is) (item.flat ps) := by
  match item with
  | .add draft => exact .add (Draft.writesOut_inline h draft hnames)
  | .table name items => exact .table name (writeOut_inlineItems h items hnames)
  | .splice name => exact h.get name
  | .note => exact .note

theorem writeOut_inlineItems (h : FragmentsWriteOut is ps) (items : List Item)
    (hnames : ∀ name ∈ itemTableNames items, isValidName name = true) :
    ItemsWriteOut (inlineItems is items) (flatItems ps items) := by
  match items with
  | [] => exact .nil
  | i :: rest =>
    rw [itemTableNames, List.forall_mem_append] at hnames
    exact (Item.writeOut_inline h i hnames.1).append (writeOut_inlineItems h rest hnames.2)

end

theorem writeOut_inlineFragments (h : FragmentsWriteOut is ps) (rest : List (String × List Item))
    (hrest : ProperFragments ps rest) :
    FragmentsWriteOut (inlineFragments is rest) (flatFragments ps rest) := by
  induction rest generalizing is ps with
  | nil => exact h
  | cons e rest ih =>
    obtain ⟨⟨hnames, _⟩, hrest⟩ := hrest
    exact ih (h.insert (writeOut_inlineItems h e.2 hnames)) hrest

end

namespace Outline

variable {o : Outline} {s : Schema}

/-- what is declared is, but for the keys, what the outline writes down -/
theorem proper_and_unkeyed_of_schema (hs : o.schema = .ok s) :
    o.Proper ∧ s.toDescriptor.unkeyed = o.flat.settle.unkeyed := by
  obtain ⟨c, hc⟩ := schema_eq_ok.1 hs
  obtain ⟨hheading, _, hdeclares⟩ := (o.gives_run.result hc).2
  exact ⟨(o.gives_run.succeeds _).1 ⟨s, c, hc⟩, hdeclares.unkeyed_table hheading⟩

theorem exists_schema_of_proper (h : o.Proper) : ∃ s, o.schema = .ok s := by
  obtain ⟨s, c, hc⟩ := (o.gives_run.succeeds (.empty [])).2 h
  exact ⟨s, schema_eq_ok.2 ⟨c, hc⟩⟩

/-- the same table is written down -/
theorem writeOut_inline (h : o.Proper) : ItemsWriteOut o.inline.items o.members :=
  writeOut_inlineItems (writeOut_inlineFragments .nil o.fragments h.fragments) o.items h.tableNames

theorem flat_inline (h : o.Proper) : o.inline.flat = o.flat := by
  have hmembers : o.inline.members = o.members := (writeOut_inline h).flat
  rw [flat, flat, hmembers]
  rfl

theorem Proper.inline (h : o.Proper) : o.inline.Proper :=
  ⟨trivial, h.name, (writeOut_inline h).names, (flat_inline h).symm ▸ h.sound⟩

/-- **To include a fragment is to write it out.**  If an outline is declared, so is the one with
every fragment written out in its place.  Its tables have the same parameters in the same order, and
it validates, binds and documents everything alike. -/
theorem inline_schema (hs : o.schema = .ok s) :
    itemsAreDirect o.inline.items = true ∧ o.inline.fragments = [] ∧
      ∃ t, o.inline.schema = .ok t
        ∧ (∀ path, t.toDescriptor.namesAt? path = s.toDescriptor.namesAt? path)
        ∧ t.toDescriptor.unkeyed = s.toDescriptor.unkeyed
        ∧ (∀ p ignore, t.validate p ignore = s.validate p ignore)
        ∧ (∀ p ignore, t.bind p ignore = s.bind p ignore)
        ∧ ∀ indent, t.reference indent = s.reference indent := by
  obtain ⟨hproper, hsflat⟩ := proper_and_unkeyed_of_schema hs
  obtain ⟨t, ht⟩ := exists_schema_of_proper hproper.inline
  obtain ⟨_, htflat⟩ := proper_and_unkeyed_of_schema ht
  have hunkeyed : t.toDescriptor.unkeyed = s.toDescriptor.unkeyed := by
    rw [htflat, hsflat, flat_inline hproper]
  refine ⟨(writeOut_inline hproper).direct, rfl, t, ht, fun path => ?_, hunkeyed, ?_, ?_, ?_⟩
  · rw [← Descriptor.namesAt?_unkeyed, hunkeyed, Descriptor.namesAt?_unkeyed]
  · exact Schema.validate_congr_unkeyed hunkeyed
  · exact Schema.bind_congr_unkeyed hunkeyed
  · exact Schema.reference_congr_unkeyed hunkeyed

/-- a fragment that includes another one, and the latter in two tables -/
def rangeOutline : Outline :=
  ⟨"range", "", [.splice "unit", .table "limits" [.splice "bounds"]],
    [("unit", [.add (.atom "unit" "" .string none)]),
      ("bounds", [.add (.atom "low" "" .f64 none), .splice "unit"])]⟩

def rangeSchema : Schema :=
  ⟨⟨"range", "", "range", false⟩,
    [.atom ⟨"unit", "", "unit", true⟩ .string none,
      .table ⟨"limits", "", "limits", false⟩
        [.atom ⟨"low", "", "low", true⟩ .f64 none, .atom ⟨"unit", "", "unit", true⟩ .string none]]⟩

theorem inline_schema_range :
    rangeOutline.schema = .ok rangeSchema
      ∧ rangeOutline.inline = ⟨"range", "", [.add (.atom "unit" "" .string none),
          .table "limits" [.add (.atom "low" "" .f64 none), .add (.atom "unit" "" .string none)]],
          []⟩
      ∧ ∃ t, rangeOutline.inline.schema = .ok t
        ∧ (∀ path, t.toDescriptor.namesAt? path = rangeSchema.toDescriptor.namesAt? path)
        ∧ t.toDescriptor.unkeyed = rangeSchema.toDescriptor.unkeyed
        ∧ (∀ p ignore, t.validate p ignore = rangeSchema.validate p ignore)
        ∧ (∀ p ignore, t.bind p ignore = rangeSchema.bind p ignore)
        ∧ ∀ indent, t.reference indent = rangeSchema.reference indent := by
  have hs : rangeOutline.schema = .ok rangeSchema := by rfl
  exact ⟨hs, rfl, (inline_schema hs).2.2⟩

end Outline
end ParamSchema
