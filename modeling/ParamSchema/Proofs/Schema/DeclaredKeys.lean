import ParamSchema.Proofs.Schema.FaultList
import ParamSchema.Proofs.Schema.Inline

/-!
# The keys of a declaration are those of the walk

Keys are made twice: while a schema is declared, from the tables that are open, and while an input
is walked, from the places that are passed.  Where no fragment is included both agree, but for the
elements of sequences, which are declared at place 0: the key of a fault is that of its descriptor
with the place of the element in every sequence around it.

* `Place`, `routeKey`       the places on the way to a descriptor, and the key they make;
* `Descriptor.route`        the places that the steps of a site lead through;
* `Descriptor.Marked`       nothing is spliced in, and elements are named by their places;
* `Descriptor.KeyedUnder`   the same, and every key is made from the parent's;
* `keyed_runItems`          what is declared without fragments is keyed under the open table.
-/

namespace ParamSchema

/-! ## places -/

inductive Place where
  | member (name : String)
  /-- an element of a sequence -/
  | element (i : Nat)
  /-- a place of a tuple -/
  | position (i : Nat)
deriving DecidableEq

namespace Place

/-- the key of what is at the place -/
def key (parent : String) : Place → String
  | .member name => joinKey parent name
  | .element i => indexKey parent i
  | .position i => indexKey parent i

/-- the place as it is declared: one element stands for all -/
def declared : Place → Place
  | .element _ => .element 0
  | p => p

end Place

def routeKey (route : List Place) : String := route.foldl Place.key ""

namespace Descriptor

/-- the place that a step goes to, if it goes to one -/
def places (d : Descriptor) (st : Step) : List Place :=
  match d, st with
  | .table _ ms, .member i => (ms[i]?.map fun m => Place.member m.name).toList
  | .sequence _ _ _ _, .element i => [.element i]
  | .tuple _ _ _, .element i => [.position i]
  | _, _ => []

/-- the descriptor that a step goes to -/
def below? (d : Descriptor) (st : Step) : Option Descriptor :=
  match d, st with
  | .table _ ms, .member i => ms[i]?
  | .sequence _ e _ _, .element _ => some e
  | .tuple _ es _, .element i => es[i]?
  | .optional d, .content => some d
  | _, _ => none

def route (d : Descriptor) : Site → List Place
  | [] => []
  | st :: site =>
    d.places st ++ match d.below? st with
      | some e => e.route site
      | none => []

/-! ## keys as they are declared -/

/-- nothing is spliced in at any depth, and elements are named by their places -/
inductive Marked : Descriptor → Prop
  | atom {h : Heading} {t : ScalarType} {x : Option Scalar} :
      h.spliced = false → Marked (.atom h t x)
  | sequence {h : Heading} {e : Descriptor} {b : LengthBound} {x : Option Bound} :
      h.spliced = false → e.name = elementMarker 0 → e.Marked → Marked (.sequence h e b x)
  | tuple {h : Heading} {es : List Descriptor} {x : Option Bound} :
      h.spliced = false → (∀ i e, es[i]? = some e → e.name = elementMarker i) →
        (∀ e ∈ es, e.Marked) → Marked (.tuple h es x)
  | table {h : Heading} {ms : List Descriptor} :
      h.spliced = false → (∀ m ∈ ms, m.Marked) → Marked (.table h ms)
  | optional {d : Descriptor} : d.Marked → Marked (.optional d)

/-- every key is that of the parent with the name, at every depth -/
inductive KeyedUnder : String → Descriptor → Prop
  | atom {parent : String} {h : Heading} {t : ScalarType} {x : Option Scalar} :
      h.key = joinKey parent h.name → KeyedUnder parent (.atom h t x)
  | sequence {parent : String} {h : Heading} {e : Descriptor} {b : LengthBound}
      {x : Option Bound} :
      h.key = joinKey parent h.name → e.name = elementMarker 0 → KeyedUnder h.key e →
        KeyedUnder parent (.sequence h e b x)
  | tuple {parent : String} {h : Heading} {es : List Descriptor} {x : Option Bound} :
      h.key = joinKey parent h.name → (∀ i e, es[i]? = some e → e.name = elementMarker i) →
        (∀ e ∈ es, KeyedUnder h.key e) → KeyedUnder parent (.tuple h es x)
  | table {parent : String} {h : Heading} {ms : List Descriptor} :
      h.key = joinKey parent h.name → (∀ m ∈ ms, KeyedUnder h.key m) →
        KeyedUnder parent (.table h ms)
  | optional {parent : String} {d : Descriptor} :
      KeyedUnder parent d → KeyedUnder parent (.optional d)

variable {d e : Descriptor} {parent : String}

theorem Marked.unspliced (h : d.Marked) : d.heading.spliced = false := by
  induction h with
  | optional _ ih => exact ih
  | atom h => exact h
  | sequence h _ _ _ => exact h
  | tuple h _ _ _ => exact h
  | table h _ _ => exact h

theorem KeyedUnder.key_eq (h : d.KeyedUnder parent) : d.key = joinKey parent d.name := by
  induction h with
  | optional _ ih => exact ih
  | atom h => exact h
  | sequence h _ _ _ => exact h
  | tuple h _ _ _ => exact h
  | table h _ _ => exact h

theorem Marked.mapHeading {f : Heading → Heading} (hf : ∀ h, (f h).spliced = h.spliced)
    (h : d.Marked) : (d.mapHeading f).Marked := by
  induction h with
  | atom h => exact .atom ((hf _).trans h)
  | sequence h hname he _ => exact .sequence ((hf _).trans h) hname he
  | tuple h hnames hes _ => exact .tuple ((hf _).trans h) hnames hes
  | table h hms _ => exact .table ((hf _).trans h) hms
  | optional _ ih => exact .optional ih

theorem Marked.asElement (h : d.Marked) (i : Nat) : (d.asElement i).Marked :=
  h.mapHeading fun _ => rfl

theorem name_settle (d : Descriptor) : d.settle.name = d.name :=
  congrArg Heading.name d.heading_settle

/-- the places of a tuple keep their names -/
theorem names_map {es : List Descriptor} {f : Descriptor → Descriptor}
    (hf : ∀ e, (f e).name = e.name)
    (h : ∀ i e, es[i]? = some e → e.name = elementMarker i) :
    ∀ i e, (es.map f)[i]? = some e → e.name = elementMarker i := by
  intro i e he
  rw [List.getElem?_map] at he
  obtain ⟨e', he', rfl⟩ := Option.map_eq_some_iff.1 he
  rw [hf, h i e' he']

theorem Marked.settle (h : d.Marked) : d.settle.Marked := by
  induction h with
  | atom h => exact .atom h
  | sequence h hname _ ih => exact .sequence h ((name_settle _).trans hname) ih
  | tuple h hnames _ ih =>
    rw [Descriptor.settle, settleAll_eq_map]
    exact .tuple h (names_map name_settle hnames) (List.forall_mem_map.2 ih)
  | table h _ ih =>
    rw [Descriptor.settle, settleAll_eq_map]
    exact .table h (List.forall_mem_map.2 ih)
  | optional _ ih => exact .optional ih

theorem Marked.under (h : d.Marked) (parent : String) : (d.under parent).Marked := by
  induction h generalizing parent with
  | atom h =>
    rw [Descriptor.under]
    exact .atom h
  | sequence h hname _ ih =>
    rw [Descriptor.under]
    exact .sequence h ((name_under _ _).trans hname) (ih _)
  | tuple h hnames _ ih =>
    rw [Descriptor.under, underElements_eq_map]
    exact .tuple h (names_map (name_under _) hnames) (List.forall_mem_map.2 fun e he => ih e he _)
  | table h hms ih =>
    rw [Descriptor.under, underMembers_eq_map]
    refine .table h (List.forall_mem_map.2 fun m hm => ?_)
    rw [underMember_eq_under (hms m hm).unspliced]
    exact ih m hm _
  | optional _ ih =>
    rw [Descriptor.under]
    exact .optional (ih parent)

theorem Marked.keyedUnder (h : d.Marked) (parent : String) :
    (d.under parent).KeyedUnder parent := by
  induction h generalizing parent with
  | atom h =>
    rw [Descriptor.under]
    exact .atom rfl
  | sequence h hname _ ih =>
    rw [Descriptor.under]
    exact .sequence rfl ((name_under _ _).trans hname) (ih _)
  | tuple h hnames _ ih =>
    rw [Descriptor.under, underElements_eq_map]
    exact .tuple rfl (names_map (name_under _) hnames)
      (List.forall_mem_map.2 fun e he => ih e he _)
  | table h hms ih =>
    rw [Descriptor.under, underMembers_eq_map]
    refine .table rfl (List.forall_mem_map.2 fun m hm => ?_)
    rw [underMember_eq_under (hms m hm).unspliced]
    exact ih m hm _
  | optional _ ih =>
    rw [Descriptor.under]
    exact .optional (ih parent)

/-- what is declared is keyed under the parent, whatever keys it had -/
theorem Marked.declare (h : d.Marked) (hd : d.Drafted) (he : d.declare parent = .ok e) :
    e.Marked ∧ e.KeyedUnder parent := by
  rw [declare_eq_under hd he]
  exact ⟨h.settle.under parent, h.settle.keyedUnder parent⟩

end Descriptor

/-! ## outlines without fragments -/

/-- members as they are declared under a parent -/
def KeyedMembers (parent : String) (ms : List Descriptor) : Prop :=
  ∀ m ∈ ms, m.Marked ∧ m.KeyedUnder parent

theorem KeyedMembers.push {b : Builder} {d : Descriptor}
    (hb : KeyedMembers b.keys.current b.members) (hd : d.Marked ∧ d.KeyedUnder b.keys.current) :
    KeyedMembers b.keys.current (b.push d).members :=
  List.forall_mem_append.2 ⟨hb, List.forall_mem_singleton.2 hd⟩

theorem asElements_marked {ds : List Descriptor} (h : ∀ d ∈ ds, d.Marked) (i : Nat) :
    (∀ e ∈ Descriptor.asElements i ds, e.Marked)
      ∧ ∀ j e, (Descriptor.asElements i ds)[j]? = some e → e.name = elementMarker (i + j) := by
  induction ds generalizing i with
  | nil => exact ⟨List.forall_mem_nil _, nofun⟩
  | cons d ds ih =>
    obtain ⟨hd, hds⟩ := List.forall_mem_cons.1 h
    obtain ⟨hmarked, hnames⟩ := ih hds (i + 1)
    rw [Descriptor.asElements]
    refine ⟨List.forall_mem_cons.2 ⟨hd.asElement i, hmarked⟩, fun j e he => ?_⟩
    cases j with
    | zero =>
      obtain rfl := Option.some.inj he
      exact Descriptor.name_asElement i d
    | succ j =>
      rw [hnames j e he, Nat.add_right_comm]
      rfl

section
variable {ps : Entries (List Descriptor)} {fs : Entries Fragment}

mutual

theorem Draft.keyed_descriptor (hfs : Includes ps fs) (draft : Draft)
    (hdirect : draft.isDirect = true) {b c : Builder} {d : Descriptor}
    (h : draft.descriptor fs b = (.ok d, c)) :
    c.keys = b.keys ∧ d.Marked := by
  match draft with
  | .atom name comment t x =>
    rw [Draft.descriptor] at h
    cases h
    exact ⟨rfl, .atom rfl⟩
  | .sequence name comment e b' x =>
    rw [Draft.descriptor] at h
    obtain ⟨d', c', hd, h⟩ := Declaring.bind_run_eq_ok.1 h
    cases h
    obtain ⟨hkeys, hmarked⟩ := Draft.keyed_descriptor hfs e hdirect hd
    exact ⟨hkeys, .sequence rfl (Descriptor.name_asElement 0 d') (hmarked.asElement 0)⟩
  | .tuple name comment es x =>
    rw [Draft.descriptor] at h
    obtain ⟨ds, c', hds, h⟩ := Declaring.bind_run_eq_ok.1 h
    cases h
    obtain ⟨hkeys, hmarked⟩ := keyed_draftDescriptors hfs es hdirect hds
    obtain ⟨helements, hnames⟩ := asElements_marked hmarked 0
    refine ⟨hkeys, .tuple rfl (fun i e he => ?_) helements⟩
    rw [hnames i e he, Nat.zero_add]
  | .table name comment items =>
    rw [Draft.descriptor] at h
    obtain ⟨s, c', hs, h⟩ := Declaring.bind_run_eq_ok.1 h
    cases h
    obtain ⟨g, c', hg, hbody, rfl, rfl⟩ := Declaring.declareSchema_eq_ok.1 hs
    obtain ⟨_, rfl⟩ := Descriptor.qualify_eq_ok.1 hg
    have hnone : KeyedMembers (Builder.empty b.noted).keys.current [] := List.forall_mem_nil _
    obtain ⟨_, hmembers⟩ := keyed_runItems hfs items hdirect hnone hbody
    exact ⟨rfl, .table rfl fun m hm => (hmembers m hm).1⟩
  | .optional d' =>
    rw [Draft.descriptor] at h
    obtain ⟨d'', c', hd, h⟩ := Declaring.bind_run_eq_ok.1 h
    cases h
    obtain ⟨hkeys, hmarked⟩ := Draft.keyed_descriptor hfs d' hdirect hd
    exact ⟨hkeys, .optional hmarked⟩

theorem keyed_draftDescriptors (hfs : Includes ps fs) (drafts : List Draft)
    (hdirect : draftsAreDirect drafts = true) {b c : Builder} {ds : List Descriptor}
    (h : draftDescriptors fs drafts b = (.ok ds, c)) :
    c.keys = b.keys ∧ ∀ d ∈ ds, d.Marked := by
  match drafts with
  | [] =>
    rw [draftDescriptors] at h
    cases h
    exact ⟨rfl, List.forall_mem_nil _⟩
  | draft :: drafts =>
    rw [draftDescriptors] at h
    rw [draftsAreDirect, Bool.and_eq_true] at hdirect
    obtain ⟨d, c', hd, h⟩ := Declaring.bind_run_eq_ok.1 h
    obtain ⟨ds', c'', hds, h⟩ := Declaring.bind_run_eq_ok.1 h
    cases h
    obtain ⟨hkeys, hmarked⟩ := Draft.keyed_descriptor hfs draft hdirect.1 hd
    obtain ⟨hkeys', hmarkeds⟩ := keyed_draftDescriptors hfs drafts hdirect.2 hds
    exact ⟨hkeys'.trans hkeys, List.forall_mem_cons.2 ⟨hmarked, hmarkeds⟩⟩

theorem Item.keyed_run (hfs : Includes ps fs) (item : Item) (hdirect : item.isDirect = true)
    {b c : Builder} (hb : KeyedMembers b.keys.current b.members) (h : item.run fs b = (.ok (), c)) :
    c.keys = b.keys ∧ KeyedMembers b.keys.current c.members := by
  match item with
  | .add draft =>
    rw [Item.run] at h
    obtain ⟨d, c', hd, h⟩ := Declaring.bind_run_eq_ok.1 h
    obtain ⟨hkeys, hmarked⟩ := Draft.keyed_descriptor hfs draft hdirect hd
    obtain ⟨hmembers, helaborates⟩ := (Draft.gives_descriptor hfs draft).result hd
    obtain ⟨e, he, rfl⟩ := Declaring.add_eq_ok.1 h
    obtain ⟨_, hdeclare, _⟩ := Declaring.declared_eq_ok.1 he
    rw [← hkeys, ← hmembers] at hb
    rw [← hkeys]
    exact ⟨rfl, hb.push (hmarked.declare helaborates.drafted hdeclare)⟩
  | .table name items =>
    rw [Item.run] at h
    obtain ⟨g, c', hopen, hbody, rfl⟩ := Declaring.table_eq_ok.1 h
    have hnone : KeyedMembers (b.inside name).keys.current [] := List.forall_mem_nil _
    obtain ⟨hkeys, hmembers⟩ := keyed_runItems hfs items hdirect hnone hbody
    obtain ⟨_, _, rfl⟩ := Declaring.opened_eq_ok.1 hopen
    have hunder : ∀ m ∈ c'.members, m.KeyedUnder (joinKey b.keys.current name) :=
      fun m hm => (hmembers m hm).2
    have htable : KeyedMembers b.keys.current
        [.table ((Heading.named name).under b.keys.current) c'.members] :=
      List.forall_mem_singleton.2 ⟨.table rfl fun m hm => (hmembers m hm).1, .table rfl hunder⟩
    have hleave : c'.keys.leave = b.keys :=
      (congrArg KeyStack.leave hkeys).trans (b.keys.leave_enter name)
    exact ⟨hleave, List.forall_mem_append.2 ⟨hb, htable⟩⟩
  | .splice name => cases hdirect
  | .note =>
    rw [Item.run] at h
    cases h
    exact ⟨rfl, hb⟩

theorem keyed_runItems (hfs : Includes ps fs) (items : List Item)
    (hdirect : itemsAreDirect items = true) {b c : Builder}
    (hb : KeyedMembers b.keys.current b.members) (h : runItems fs items b = (.ok (), c)) :
    c.keys = b.keys ∧ KeyedMembers b.keys.current c.members := by
  match items with
  | [] =>
    rw [runItems] at h
    cases h
    exact ⟨rfl, hb⟩
  | i :: is =>
    rw [runItems] at h
    rw [itemsAreDirect, Bool.and_eq_true] at hdirect
    obtain ⟨u, c', hi, h⟩ := Declaring.bind_run_eq_ok.1 h
    obtain ⟨hkeys, hmembers⟩ := Item.keyed_run hfs i hdirect.1 hb hi
    rw [← hkeys] at hmembers ⊢
    exact keyed_runItems hfs is hdirect.2 hmembers h

end

end

/-- the members of a schema that includes no fragment -/
theorem Outline.keyedMembers_of_schema {o : Outline} {s : Schema} (h : o.schema = .ok s)
    (hdirect : itemsAreDirect o.items = true) : KeyedMembers "" s.members := by
  obtain ⟨c, hrun⟩ := schema_eq_ok.1 h
  rw [Outline.run] at hrun
  obtain ⟨fs, c', hfs, hrun⟩ := Declaring.bind_run_eq_ok.1 hrun
  obtain ⟨t, c'', ht, hrun⟩ := Declaring.bind_run_eq_ok.1 hrun
  cases hrun
  have hincludes : Includes _ fs := ((gives_runFragments .nil o.fragments).result hfs).2
  obtain ⟨g, d, _, hbody, rfl, _⟩ := Declaring.declareSchema_eq_ok.1 ht
  have hnone : KeyedMembers (Builder.empty c'.noted).keys.current [] := List.forall_mem_nil _
  exact (keyed_runItems hincludes o.items hdirect hnone hbody).2

/-! ## the walk -/

namespace Pair

/-- a step of the walk goes to a place, and makes its key -/
theorem Move.places {n m : Pair} {st : Step} (h : n.Move st m) :
    n.descriptor.below? st = some m.descriptor
      ∧ m.key = (n.descriptor.places st).foldl Place.key n.key := by
  cases h with
  | member hd =>
    refine ⟨hd, ?_⟩
    simp only [Descriptor.places, hd]
    rfl
  | element _ => exact ⟨rfl, rfl⟩
  | place he _ => exact ⟨he, rfl⟩
  | content => exact ⟨rfl, rfl⟩

/-- the same step goes to the place as it is declared, and so does the key of the descriptor -/
theorem Move.declared {n m : Pair} {st : Step} {parent : String} (h : n.Move st m)
    (hkeyed : n.descriptor.KeyedUnder parent) :
    (∃ other, m.descriptor.KeyedUnder other)
      ∧ m.descriptor.key
        = ((n.descriptor.places st).map Place.declared).foldl Place.key n.descriptor.key := by
  cases h with
  | member hd =>
    cases hkeyed with
    | table hkey hms =>
      have hm := hms _ (List.mem_of_getElem? hd)
      refine ⟨⟨_, hm⟩, ?_⟩
      simp only [Descriptor.places, hd]
      exact hm.key_eq
  | element _ =>
    cases hkeyed with
    | sequence hkey hname he =>
      refine ⟨⟨_, he⟩, ?_⟩
      rw [he.key_eq, hname, joinKey_elementMarker]
      rfl
  | place hi _ =>
    cases hkeyed with
    | tuple hkey hnames hes =>
      have he := hes _ (List.mem_of_getElem? hi)
      refine ⟨⟨_, he⟩, ?_⟩
      rw [he.key_eq, hnames _ _ hi, joinKey_elementMarker]
      rfl
  | content =>
    cases hkeyed with
    | optional hd => exact ⟨⟨_, hd⟩, rfl⟩

/-- the key of a pair is made along its route, and that of its descriptor along the same route as it
is declared -/
theorem Reach.keys {n m : Pair} {site : Site} {parent : String} (h : n.Reach site m)
    (hkeyed : n.descriptor.KeyedUnder parent) :
    m.key = (n.descriptor.route site).foldl Place.key n.key
      ∧ m.descriptor.key
        = ((n.descriptor.route site).map Place.declared).foldl Place.key n.descriptor.key := by
  induction h generalizing parent with
  | here => exact ⟨rfl, rfl⟩
  | step hmove _ ih =>
    obtain ⟨hbelow, hkey⟩ := hmove.places
    obtain ⟨⟨other, hother⟩, hdeclared⟩ := hmove.declared hkeyed
    obtain ⟨hkeys, hdeclareds⟩ := ih hother
    rw [Descriptor.route, hbelow, List.map_append, List.foldl_append, List.foldl_append, ← hkey,
      ← hdeclared]
    exact ⟨hkeys, hdeclareds⟩

theorem Violates.key_eq {ignore : List String} {m : Pair} {below : Site} {f : Fault}
    (h : m.Violates ignore below f) (hkind : f.kind ≠ .unknown) : f.key = m.key := by
  cases h with
  | unknown _ _ _ => exact absurd rfl hkind
  | _ => rfl

theorem Violates.unknown_entry {ignore : List String} {m : Pair} {below : Site} {f : Fault}
    (h : m.Violates ignore below f) (hkind : f.kind = .unknown) :
    ∃ h ms o q name, m = ⟨m.key, .table h ms, some (.table o q)⟩ ∧ name ∈ Entries.keys q
      ∧ (∀ d ∈ ms, d.name ≠ name) ∧ f.key = joinKey m.key name := by
  cases h with
  | unknown hj hname _ =>
    exact ⟨_, _, _, _, _, rfl, List.mem_map_of_mem (List.mem_of_getElem? hj), hname, rfl⟩
  | _ => cases hkind

end Pair

namespace Schema

variable {s : Schema} {p : ParamSet}

/-- the root has no key, and the key of its name is not part of any other -/
theorem keys_of_reach (hms : KeyedMembers "" s.members) {above : Site} {m : Pair}
    (h : (s.rootPair p).Reach above m) :
    m.key = routeKey (s.toDescriptor.route above)
      ∧ (above = [] ∧ m = s.rootPair p
        ∨ m.descriptor.key = routeKey ((s.toDescriptor.route above).map Place.declared)) := by
  cases h with
  | here => exact ⟨rfl, .inl ⟨rfl, rfl⟩⟩
  | @step _ n _ st site hmove hrest =>
    have hroot : s.toDescriptor.below? st = some n.descriptor
        ∧ n.key = routeKey (s.toDescriptor.places st) := hmove.places
    obtain ⟨hbelow, hkey⟩ := hroot
    have hmember : n.descriptor.KeyedUnder "" ∧ n.descriptor.key
        = routeKey ((s.toDescriptor.places st).map Place.declared) := by
      cases hmove with
      | member hd =>
        have hm := (hms _ (List.mem_of_getElem? hd)).2
        refine ⟨hm, ?_⟩
        simp only [toDescriptor, Descriptor.places, hd]
        exact hm.key_eq
    obtain ⟨hkeys, hdeclared⟩ := hrest.keys hmember.1
    rw [routeKey] at hkey
    rw [Descriptor.route, hbelow, routeKey, routeKey, List.map_append, List.foldl_append,
      List.foldl_append, ← hkey]
    refine ⟨hkeys, .inr ?_⟩
    rw [hdeclared, hmember.2]
    rfl

/-- **Keys of faults.**  In a schema that includes no fragment, the key of a fault of a parameter is
the key that the parameter was declared under, with the place of the element for each sequence
around it; the key of an entry that nobody declares is made of such a key of its table, which is
empty at the root, and its name. -/
theorem faults_keyed {o : Outline} (h : o.schema = .ok s) (hdirect : itemsAreDirect o.items = true)
    (p : ParamSet) (ignore : List String) :
    (∀ f ∈ s.faults p ignore, ∃ above m below,
        (s.rootPair p).Reach above m ∧ m.Violates ignore below f)
      ∧ ∀ above m below f, (s.rootPair p).Reach above m → m.Violates ignore below f →
        (f.kind ≠ .unknown →
          m.descriptor.key = routeKey ((s.toDescriptor.route above).map Place.declared)
            ∧ f.key = routeKey (s.toDescriptor.route above))
        ∧ (f.kind = .unknown → ∃ h ms o q name,
          m = ⟨routeKey (s.toDescriptor.route above), .table h ms, some (.table o q)⟩
            ∧ (above = []
              ∨ h.key = routeKey ((s.toDescriptor.route above).map Place.declared))
            ∧ name ∈ Entries.keys q ∧ (∀ d ∈ ms, d.name ≠ name)
            ∧ f.key = joinKey (routeKey (s.toDescriptor.route above)) name) := by
  constructor
  · intro f hf
    obtain ⟨vs, hfs, _, hmem⟩ := Descriptor.listed_faults ignore "" s.toDescriptor (.table none p)
    rw [faults_eq, ← hfs] at hf
    obtain ⟨⟨site, g⟩, hv, rfl⟩ := List.mem_map.1 hf
    obtain ⟨above, m, below, hreach, hviolates, _⟩ := (hmem site g).1 hv
    exact ⟨above, m, below, hreach, hviolates⟩
  · intro above m below f hreach hviolates
    obtain ⟨hkey, hdescriptor⟩ := keys_of_reach (o.keyedMembers_of_schema h hdirect) hreach
    constructor
    · intro hkind
      refine ⟨?_, (hviolates.key_eq hkind).trans hkey⟩
      rcases hdescriptor with ⟨_, rfl⟩ | hdescriptor
      · -- at the root only an unknown entry can be wrong
        cases hviolates with
        | notATable hv => cases hv
        | unknown _ _ _ => exact absurd rfl hkind
      · exact hdescriptor
    · intro hkind
      obtain ⟨g, ms, o, q, name, hm, hname, hnew, hfault⟩ := hviolates.unknown_entry hkind
      rw [hkey] at hm hfault
      refine ⟨g, ms, o, q, name, hm, ?_, hname, hnew, hfault⟩
      rcases hdescriptor with ⟨habove, _⟩ | hdescriptor
      · exact .inl habove
      · rw [hm] at hdescriptor
        exact .inr hdescriptor

end Schema

/-- a table declared on its own, as the element of an optional sequence inside another table -/
def depotOutline : Outline :=
  ⟨"depot", "", [.table "hall" [.add (.optional (.sequence "racks" ""
    (.table "rack" "" [.add (.tuple "size" ""
        [.atom "width" "" (.unsigned .w8) none, .atom "height" "" (.unsigned .w8) none] none),
      .add (.atom "load" "" (.unsigned .w8) none)]) .any none))]], []⟩

def depotLoad : Descriptor :=
  .atom ⟨"load", "", "hall.racks[0].load", false⟩ (.unsigned .w8) none

def depotRack : Descriptor :=
  .table ⟨"[0]", "", "hall.racks[0]", false⟩
    [.tuple ⟨"size", "", "hall.racks[0].size", false⟩
      [.atom ⟨"[0]", "", "hall.racks[0].size[0]", false⟩ (.unsigned .w8) none,
        .atom ⟨"[1]", "", "hall.racks[0].size[1]", false⟩ (.unsigned .w8) none] none,
      depotLoad]

def depotSchema : Schema :=
  ⟨⟨"depot", "", "depot", false⟩, [.table ⟨"hall", "", "hall", false⟩
    [.optional (.sequence ⟨"racks", "", "hall.racks", false⟩ depotRack .any none)]]⟩

/-- the second rack has no load, and an entry that nobody declares -/
def depotSet : ParamSet :=
  [("hall", .table none [("racks", .sequence none
    [.table none [("size", .sequence none [.atom none "1", .atom none "2"]),
        ("load", .atom none "3")],
      .table none [("size", .sequence none [.atom none "4", .atom none "tall"]),
        ("kind", .atom none "5")]])])]

theorem Schema.faults_keyed_depot :
    depotOutline.schema = .ok depotSchema ∧ itemsAreDirect depotOutline.items = true
      ∧ (depotSchema.faults depotSet []).map Fault.key
        = ["hall.racks[1].size[1]", "hall.racks[1].load", "hall.racks[1].kind"]
      ∧ ∃ above, (depotSchema.rootPair depotSet).Reach above
          ⟨"hall.racks[1].load", depotLoad, none⟩
        ∧ depotSchema.toDescriptor.route above
          = [.member "hall", .member "racks", .element 1, .member "load"]
        ∧ depotLoad.key = routeKey [.member "hall", .member "racks", .element 0, .member "load"]
        ∧ "hall.racks[1].load"
          = routeKey [.member "hall", .member "racks", .element 1, .member "load"] := by
  have hs : depotOutline.schema = .ok depotSchema := by rfl
  have hreach : (depotSchema.rootPair depotSet).Reach
      [.member 0, .member 0, .content, .element 1, .member 1]
      ⟨"hall.racks[1].load", depotLoad, none⟩ :=
    .step (.member rfl) (.step (.member rfl) (.step .content (.step (.element rfl)
      (.step (.member rfl) .here))))
  have hkeys := ((faults_keyed hs rfl depotSet []).2 _ _ _ ⟨_, .missing⟩ hreach
    (.missing rfl)).1 (by decide)
  exact ⟨hs, rfl, by rfl, _, hreach, rfl, hkeys⟩

end ParamSchema
