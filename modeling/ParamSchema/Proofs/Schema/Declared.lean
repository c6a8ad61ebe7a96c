import ParamSchema.Proofs.Schema.WellFormed
import ParamSchema.Schema.Outline

/-!
# Declared schemas

Every step of a declaration keeps the members of the innermost open table well formed, also a step
that fails (`Declaring.Keeps`).  What an outline declares is therefore a table of well-formed
members (`Outline.wellFormed_of_schema`).

* `WellFormedMembers`     what a table may have for its members;
* `Declaring.Keeps`       the invariant of a step, and what its result is;
* `Draft.keeps_descriptor`, `Item.keeps_run`   the steps of an outline keep it.
-/

namespace ParamSchema

/-! ## members -/

structure WellFormedMembers (ms : List Descriptor) : Prop where
  names : ∀ d ∈ ms, isIdentifier d.name = true
  distinct : (ms.map Descriptor.name).Nodup
  wellFormed : ∀ d ∈ ms, d.WellFormed

namespace WellFormedMembers

variable {ms ns : List Descriptor}

theorem nil : WellFormedMembers [] :=
  ⟨List.forall_mem_nil _, List.nodup_nil, List.forall_mem_nil _⟩

theorem singleton {d : Descriptor} (hname : isIdentifier d.name = true) (hd : d.WellFormed) :
    WellFormedMembers [d] :=
  ⟨List.forall_mem_singleton.2 hname, List.pairwise_singleton _ _, List.forall_mem_singleton.2 hd⟩

theorem append (hms : WellFormedMembers ms) (hns : WellFormedMembers ns)
    (hnew : ∀ d ∈ ns, isMember ms d.name = false) : WellFormedMembers (ms ++ ns) := by
  refine ⟨?_, ?_, ?_⟩
  · exact List.forall_mem_append.2 ⟨hms.names, hns.names⟩
  · rw [List.map_append, List.nodup_append]
    refine ⟨hms.distinct, hns.distinct, ?_⟩
    intro a ha b hb
    obtain ⟨d, hd, rfl⟩ := List.mem_map.1 ha
    obtain ⟨e, he, rfl⟩ := List.mem_map.1 hb
    exact isMember_eq_false.1 (hnew e he) d hd
  · exact List.forall_mem_append.2 ⟨hms.wellFormed, hns.wellFormed⟩

theorem splice (hms : WellFormedMembers ms) : WellFormedMembers (ms.map Descriptor.splice) := by
  refine ⟨?_, ?_, ?_⟩
  · intro e he
    obtain ⟨d, hd, rfl⟩ := List.mem_map.1 he
    rw [Descriptor.name_splice]
    exact hms.names d hd
  · have hnames : (ms.map Descriptor.splice).map Descriptor.name = ms.map Descriptor.name := by
      rw [List.map_map]
      exact List.map_congr_left fun d _ => d.name_splice
    rw [hnames]
    exact hms.distinct
  · intro e he
    obtain ⟨d, hd, rfl⟩ := List.mem_map.1 he
    exact (hms.wellFormed d hd).mapHeading

theorem table (hms : WellFormedMembers ms) (h : Heading) : (Descriptor.table h ms).WellFormed :=
  .table hms.names hms.distinct hms.wellFormed

theorem drafted (hms : WellFormedMembers ms) (h : Heading) : (Descriptor.table h ms).Drafted :=
  .table hms.names hms.distinct hms.wellFormed

end WellFormedMembers

/-! ## steps -/

namespace Declaring

variable {α β : Type}

/-- members stay well formed, and a result has the property -/
def Keeps (m : Declaring α) (post : α → Prop) : Prop :=
  ∀ b : Builder, WellFormedMembers b.members →
    WellFormedMembers (m b).2.members ∧ ∀ x, (m b).1 = .ok x → post x

theorem Keeps.pure {x : α} {post : α → Prop} (hx : post x) :
    (Pure.pure x : Declaring α).Keeps post := by
  intro b hb
  refine ⟨hb, fun y hy => ?_⟩
  obtain rfl := Except.ok.inj hy
  exact hx

theorem run_bind (m : Declaring α) (f : α → Declaring β) (b : Builder) :
    (m >>= f) b
      = match m b with
        | (.ok x, c) => f x c
        | (.error e, c) => (.error e, c) := by
  show (match m b with | (a, c) => ExceptT.bindCont f a c) = _
  rcases m b with ⟨_ | _, c⟩ <;> rfl

theorem Keeps.bind {m : Declaring α} {f : α → Declaring β} {mid : α → Prop} {post : β → Prop}
    (hm : m.Keeps mid) (hf : ∀ x, mid x → (f x).Keeps post) : (m >>= f).Keeps post := by
  intro b hb
  obtain ⟨hc, hmid⟩ := hm b hb
  rw [run_bind]
  rcases hrun : m b with ⟨_ | x, c⟩
  · rw [hrun] at hc
    exact ⟨hc, nofun⟩
  · rw [hrun] at hc hmid
    exact hf x (hmid x rfl) c hc

theorem Keeps.fail {e : DeclarationError} {post : α → Prop} :
    (Declaring.fail e : Declaring α).Keeps post := by
  intro b hb
  exact ⟨hb, nofun⟩

theorem Keeps.note : Declaring.note.Keeps fun _ => True := by
  intro b hb
  exact ⟨hb, fun _ _ => trivial⟩

/-! ## members added -/

theorem checkName_eq_ok {name : String} :
    checkName name = .ok () ↔ isElementMarker name = false := by
  unfold checkName
  cases isElementMarker name <;> simp

theorem checkNew_eq_ok {b : Builder} {name : String} :
    checkNew b name = .ok () ↔ isMember b.members name = false := by
  unfold checkNew
  cases isMember b.members name <;> simp

theorem checkAllNew_eq_ok {b : Builder} {names : List String} :
    checkAllNew b names = .ok () ↔ ∀ name ∈ names, isMember b.members name = false := by
  induction names with
  | nil => exact ⟨fun _ => List.forall_mem_nil _, fun _ => rfl⟩
  | cons name names ih =>
    rw [checkAllNew, bind_eq_ok, List.forall_mem_cons, ← ih, ← checkNew_eq_ok]
    exact ⟨fun ⟨_, hnew, h⟩ => ⟨hnew, h⟩, fun ⟨hnew, h⟩ => ⟨(), hnew, h⟩⟩

/-- a valid name that is no element marker -/
theorem isIdentifier_of_isValidName {name : String} (h : isValidName name = true)
    (hmarker : isElementMarker name = false) : isIdentifier name = true := by
  rw [isValidName, hmarker, Bool.false_or] at h
  exact h

theorem of_declared {b : Builder} {d e : Descriptor} (hd : d.Drafted)
    (h : declared b d = .ok e) :
    isIdentifier e.name = true ∧ e.WellFormed ∧ isMember b.members e.name = false := by
  obtain ⟨_, hmarker, h⟩ := bind_eq_ok.1 h
  obtain ⟨f, hf, h⟩ := bind_eq_ok.1 h
  obtain ⟨_, hnew, h⟩ := bind_eq_ok.1 h
  obtain rfl := Except.ok.inj h
  obtain ⟨hname, hvalid⟩ := Descriptor.name_of_declare hf
  refine ⟨?_, Descriptor.wellFormed_of_declare hd hf, checkNew_eq_ok.1 hnew⟩
  rw [hname]
  exact isIdentifier_of_isValidName hvalid (checkName_eq_ok.1 hmarker)

theorem of_opened {b : Builder} {name : String} {h : Heading} (hopen : opened b name = .ok h) :
    isIdentifier h.name = true ∧ isMember b.members h.name = false := by
  obtain ⟨_, hmarker, hopen⟩ := bind_eq_ok.1 hopen
  obtain ⟨g, hg, hopen⟩ := bind_eq_ok.1 hopen
  obtain ⟨_, hnew, hopen⟩ := bind_eq_ok.1 hopen
  obtain rfl := Except.ok.inj hopen
  obtain ⟨hname, hvalid⟩ := Descriptor.name_of_qualify hg
  refine ⟨?_, checkNew_eq_ok.1 hnew⟩
  rw [hname]
  exact isIdentifier_of_isValidName hvalid (checkName_eq_ok.1 hmarker)

theorem Keeps.add {d : Descriptor} (hd : d.Drafted) : (Declaring.add d).Keeps fun _ => True := by
  intro b hb
  refine ⟨?_, fun _ _ => trivial⟩
  unfold Declaring.add
  split
  · exact hb
  · rename_i e he
    obtain ⟨hname, hwf, hnew⟩ := of_declared hd he
    exact hb.append (.singleton hname hwf) (List.forall_mem_singleton.2 hnew)

theorem Keeps.table {name : String} {body : Declaring Unit}
    (hbody : body.Keeps fun _ => True) : (Declaring.table name body).Keeps fun _ => True := by
  intro b hb
  refine ⟨?_, fun _ _ => trivial⟩
  have hinner := (hbody (b.inside name) .nil).1
  rw [Declaring.table]
  split
  · exact hb
  · rename_i h hopen
    obtain ⟨hname, hnew⟩ := of_opened hopen
    split
    · exact hb
    · rename_i c hc
      rw [hc] at hinner
      exact hb.append (.singleton hname (hinner.table h)) (List.forall_mem_singleton.2 hnew)

theorem Keeps.splice {f : Fragment} (hf : WellFormedMembers f.members) :
    (Declaring.splice f).Keeps fun _ => True := by
  intro b hb
  refine ⟨?_, fun _ _ => trivial⟩
  unfold Declaring.splice
  split
  · exact hb
  · rename_i hnew
    refine hb.append hf.splice fun e he => ?_
    obtain ⟨d, hd, rfl⟩ := List.mem_map.1 he
    rw [Descriptor.name_splice]
    exact checkAllNew_eq_ok.1 hnew d.name (List.mem_map_of_mem hd)

/-! ## tables on their own -/

theorem Keeps.apart {m : Declaring α} {post : α → Prop} (hm : m.Keeps post) :
    (Declaring.apart m).Keeps fun r => WellFormedMembers r.2 := by
  intro b hb
  have hinner := (hm (.empty b.noted) .nil).1
  unfold Declaring.apart
  split
  · exact ⟨hb, nofun⟩
  · rename_i x c hc
    rw [hc] at hinner
    refine ⟨hb, fun r hr => ?_⟩
    obtain rfl := Except.ok.inj hr
    exact hinner

theorem keeps_declareSchema {name : String} {body : Declaring Unit}
    (hbody : body.Keeps fun _ => True) :
    (Schema.declare name body).Keeps fun s => WellFormedMembers s.members := by
  unfold Schema.declare
  split
  · exact .fail
  · exact hbody.apart.bind fun r hr => .pure hr

theorem keeps_declareFragment {body : Declaring Unit} (hbody : body.Keeps fun _ => True) :
    (Fragment.declare body).Keeps fun f => WellFormedMembers f.members :=
  hbody.apart.bind fun _ hr => .pure hr

end Declaring

/-! ## outlines -/

/-- fragments that a table may include -/
def WellFormedFragments (fs : Entries Fragment) : Prop :=
  ∀ e ∈ fs, WellFormedMembers e.2.members

theorem wellFormed_fragmentNamed {fs : Entries Fragment} (hfs : WellFormedFragments fs)
    (name : String) : WellFormedMembers (fragmentNamed fs name).members := by
  unfold fragmentNamed
  cases hget : fs.get? name with
  | none => exact .nil
  | some f => exact hfs (name, f) (Entries.mem_of_get? hget)

theorem drafted_asElements {ds : List Descriptor} (h : ∀ d ∈ ds, d.Drafted) (i : Nat) :
    ∀ e ∈ Descriptor.asElements i ds, e.Drafted := by
  induction ds generalizing i with
  | nil => exact List.forall_mem_nil _
  | cons d ds ih =>
    obtain ⟨hd, hds⟩ := List.forall_mem_cons.1 h
    rw [Descriptor.asElements]
    exact List.forall_mem_cons.2 ⟨hd.mapHeading, ih hds (i + 1)⟩

section
variable {fs : Entries Fragment}

mutual

theorem Draft.keeps_descriptor (hfs : WellFormedFragments fs) (draft : Draft) :
    (draft.descriptor fs).Keeps Descriptor.Drafted := by
  match draft with
  | .atom name comment t x =>
    rw [Draft.descriptor]
    refine .pure (.atom fun s hs => ?_)
    obtain ⟨r, _, hr⟩ := Option.bind_eq_some_iff.1 hs
    exact holds_of_readAs? hr
  | .sequence name comment e b x =>
    rw [Draft.descriptor]
    exact (Draft.keeps_descriptor hfs e).bind fun e he => .pure (.sequence he.mapHeading)
  | .tuple name comment es x =>
    rw [Draft.descriptor]
    refine (keeps_draftDescriptors hfs es).bind fun ds hds => ?_
    exact .pure (.tuple (drafted_asElements hds 0))
  | .table name comment items =>
    rw [Draft.descriptor]
    exact (Declaring.keeps_declareSchema (keeps_runItems hfs items)).bind fun s hs =>
      .pure (hs.drafted _)
  | .optional d =>
    rw [Draft.descriptor]
    exact (Draft.keeps_descriptor hfs d).bind fun d hd => .pure (.optional hd)

theorem keeps_draftDescriptors (hfs : WellFormedFragments fs) (drafts : List Draft) :
    (draftDescriptors fs drafts).Keeps fun ds => ∀ d ∈ ds, d.Drafted := by
  match drafts with
  | [] =>
    rw [draftDescriptors]
    exact .pure (List.forall_mem_nil _)
  | d :: ds =>
    rw [draftDescriptors]
    refine (Draft.keeps_descriptor hfs d).bind fun d hd => ?_
    refine (keeps_draftDescriptors hfs ds).bind fun ds hds => ?_
    exact .pure (List.forall_mem_cons.2 ⟨hd, hds⟩)

theorem Item.keeps_run (hfs : WellFormedFragments fs) (item : Item) :
    (item.run fs).Keeps fun _ => True := by
  match item with
  | .add draft =>
    unfold Item.run
    exact (Draft.keeps_descriptor hfs draft).bind fun d hd => .add hd
  | .table name items =>
    unfold Item.run
    exact .table (keeps_runItems hfs items)
  | .splice name =>
    unfold Item.run
    exact .splice (wellFormed_fragmentNamed hfs name)
  | .note =>
    unfold Item.run
    exact .note

theorem keeps_runItems (hfs : WellFormedFragments fs) (items : List Item) :
    (runItems fs items).Keeps fun _ => True := by
  match items with
  | [] =>
    rw [runItems]
    exact .pure trivial
  | i :: is =>
    rw [runItems]
    exact (Item.keeps_run hfs i).bind fun _ _ => keeps_runItems hfs is

end

end

theorem keeps_runFragments {fs : Entries Fragment} (hfs : WellFormedFragments fs)
    (rest : List (String × List Item)) : (runFragments fs rest).Keeps WellFormedFragments := by
  induction rest generalizing fs with
  | nil =>
    rw [runFragments]
    exact .pure hfs
  | cons e rest ih =>
    rw [runFragments]
    refine (Declaring.keeps_declareFragment (keeps_runItems hfs e.2)).bind fun f hf => ?_
    refine ih fun d hd => ?_
    rcases Entries.eq_or_mem_of_mem_insert hd with rfl | hd
    · exact hf
    · exact hfs d hd

/-- the members of a schema that an outline declares -/
theorem Outline.wellFormed_of_schema {o : Outline} {s : Schema} (h : o.schema = .ok s) :
    WellFormedMembers s.members := by
  have hfs : (runFragments [] o.fragments).Keeps WellFormedFragments :=
    keeps_runFragments (List.forall_mem_nil _) o.fragments
  have hrun : o.run.Keeps fun s => WellFormedMembers s.members := by
    refine hfs.bind fun fs hfs => ?_
    refine (Declaring.keeps_declareSchema (keeps_runItems hfs o.items)).bind fun s hs => ?_
    exact .pure hs
  exact (hrun (.empty []) .nil).2 s h

end ParamSchema
