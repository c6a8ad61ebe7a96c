import ParamSchema.Proofs.Schema.Body
import ParamSchema.Proofs.Schema.Moved

/-!
# Tables in place and tables on their own

A nested table can be declared in place, or on its own and then be added.  In place, keys come from
the open tables while the members are declared; on its own, they start at the root, and adding the
table declares the whole tree again.  A body that is blind to keys cannot tell the one from the
other, and the two leave the same builder (`Body.table_iff_add`).

* `Body.Alike`      bodies that go on alike if they are told errors that are alike, or any prefixes;
* `Body.KeyBlind`   a body that is alike to itself;
* `Builder.Moved`   the same members, under the keys of another builder.
-/

namespace ParamSchema

open Descriptor

/-! ## bodies that are blind to keys -/

namespace Body

variable {σ : Type}

/-- The bodies do the same as long as their steps come out alike, whatever the key prefixes; `same`
relates what they share. -/
inductive Alike (same : σ → σ → Prop) : Body σ → Body σ → Prop
  | finish {s t : σ} {r r' : Except DeclarationError Unit} :
      same s t → Agree Eq r r' → Alike same (.finish s r) (.finish t r')
  | add {d : Descriptor} {next next' : Except DeclarationError Unit → Body σ} :
      (∀ r r', Agree Eq r r' → Alike same (next r) (next' r')) →
        Alike same (.add d next) (.add d next')
  | splice {f : Fragment} {next next' : Except DeclarationError Unit → Body σ} :
      (∀ r r', Agree Eq r r' → Alike same (next r) (next' r')) →
        Alike same (.splice f next) (.splice f next')
  | table {name : String} {body body' : Body σ}
      {next next' : Option σ → Except DeclarationError Unit → Body σ} :
      Alike same body body' →
        (∀ s? t? r r', Option.Rel same s? t? → Agree Eq r r' →
          Alike same (next s? r) (next' t? r')) →
          Alike same (.table name body next) (.table name body' next')
  | keyPrefix {next next' : String → Body σ} :
      (∀ p q, Alike same (next p) (next' q)) → Alike same (.keyPrefix next) (.keyPrefix next')

/-- what the body does depends neither on key prefixes nor on the keys in errors -/
def KeyBlind (f : Body σ) : Prop := ∃ same : σ → σ → Prop, Alike same f f

/-- What the body adds was put together from parts: the default of an atom is of its type, a table
was declared on its own, and the mark of a fragment's members is left to `splice`. -/
def AddsDrafts : Body σ → Prop
  | .finish _ _ => True
  | .add d next => (d.Drafted ∧ d.heading.spliced = false) ∧ ∀ r, (next r).AddsDrafts
  | .splice _ next => ∀ r, (next r).AddsDrafts
  | .table _ body next => body.AddsDrafts ∧ ∀ s r, (next s r).AddsDrafts
  | .keyPrefix next => ∀ p, (next p).AddsDrafts

end Body

/-! ## the same members under other keys -/

/-- `c` has the members of `b` with the keys that they have in `c` -/
structure Builder.Moved (b c : Builder) : Prop where
  members : c.members = b.members.map (underMember c.keys.current)
  movable : ∀ m ∈ b.members, m.Movable

namespace Builder.Moved

variable {b c : Builder}

theorem nil {k k' : KeyStack} {ns ns' : List String} :
    Moved ⟨k, [], ns⟩ ⟨k', [], ns'⟩ :=
  ⟨rfl, List.forall_mem_nil _⟩

theorem append {ms : List Descriptor} (h : b.Moved c) (hms : ∀ m ∈ ms, m.Movable) :
    Moved { b with members := b.members ++ ms }
      { c with members := c.members ++ ms.map (underMember c.keys.current) } := by
  refine ⟨?_, List.forall_mem_append.2 ⟨h.movable, hms⟩⟩
  show c.members ++ _ = _
  rw [h.members, List.map_append]

theorem push {m n : Descriptor} (h : b.Moved c) (hm : m.Movable)
    (hn : n = m.underMember c.keys.current) : (b.push m).Moved (c.push n) := by
  subst hn
  exact h.append (List.forall_mem_singleton.2 hm)

theorem isMember_eq (h : b.Moved c) (name : String) :
    isMember c.members name = isMember b.members name := by
  refine SameFaults.isMember_eq ?_ name
  rw [h.members, List.map_map]
  exact List.map_congr_left fun m _ => (heading_underMember _ m).2

end Builder.Moved

/-! ## single steps -/

namespace Declaring

variable {b c : Builder}

theorem checkNew_agree (h : b.Moved c) (name : String) :
    Agree Eq (checkNew b name) (checkNew c name) := by
  rw [checkNew, checkNew, h.isMember_eq]
  split
  · exact .error (.duplicateName _ _)
  · exact .ok rfl

theorem checkAllNew_agree (h : b.Moved c) (names : List String) :
    Agree Eq (checkAllNew b names) (checkAllNew c names) := by
  induction names with
  | nil => exact .ok rfl
  | cons name names ih =>
    rw [checkAllNew, checkAllNew]
    exact (checkNew_agree h name).bind fun _ _ _ => ih

theorem declared_agree (h : b.Moved c) (d : Descriptor) :
    Agree (fun e f => d.declare b.keys.current = .ok e ∧ d.declare c.keys.current = .ok f)
      (declared b d) (declared c d) := by
  rw [declared, declared]
  refine (Agree.refl (fun _ => rfl) (checkName d.name)).bind fun _ _ _ => ?_
  refine (declare_agree d _ _).results.bind fun e f hef => ?_
  obtain ⟨he, hf, _⟩ := hef
  rw [(name_of_declare he).1, (name_of_declare hf).1]
  exact (checkNew_agree h d.name).bind fun _ _ _ => .ok ⟨he, hf⟩

theorem opened_agree (h : b.Moved c) (name : String) :
    Agree (fun g g' => opened b name = .ok g ∧ opened c name = .ok g') (opened b name)
      (opened c name) := by
  have hopened : Agree (fun _ _ => True) (opened b name) (opened c name) := by
    rw [opened, opened]
    refine (Agree.refl (fun _ => rfl) (checkName name)).bind fun _ _ _ => ?_
    refine (qualify_agree (Heading.named name) _ _).results.bind fun g g' hg => ?_
    obtain ⟨hg, hg', _⟩ := hg
    rw [(name_of_qualify hg).1, (name_of_qualify hg').1]
    exact (checkNew_agree h _).bind fun _ _ _ => .ok trivial
  exact hopened.results.imp fun _ _ hgg' => ⟨hgg'.1, hgg'.2.1⟩

/-- outcomes that are alike, and the same members -/
structure Matches (x y : Except DeclarationError Unit × Builder) : Prop where
  outcome : Agree Eq x.1 y.1
  moved : x.2.Moved y.2

theorem matches_add {d : Descriptor} (h : b.Moved c) (hd : d.Drafted)
    (hspliced : d.heading.spliced = false) :
    Matches (Declaring.add d b) (Declaring.add d c) := by
  obtain ⟨e, e', hb, hc, he⟩ | ⟨f, g, hb, hc, hf, hg⟩ := (declared_agree h d).cases
  · rw [Declaring.add, Declaring.add, hb, hc]
    exact ⟨.error he, h⟩
  · rw [Declaring.add, Declaring.add, hb, hc]
    have hmoved : g = f.underMember c.keys.current := by
      rw [declare_eq_under hd hf, declare_eq_under hd hg,
        underMember_under (d.heading_settle ▸ hspliced)]
    exact ⟨.ok rfl, h.push (movable_declared hd hf) hmoved⟩

theorem matches_splice (h : b.Moved c) (f : Fragment) :
    Matches (Declaring.splice f b) (Declaring.splice f c) := by
  have hspliced : ∀ m ∈ f.members.map Descriptor.splice, m.heading.spliced = true := by
    intro m hm
    obtain ⟨d, _, rfl⟩ := List.mem_map.1 hm
    rw [Descriptor.splice, heading_mapHeading]
  have hstay : (f.members.map Descriptor.splice).map (underMember c.keys.current)
      = f.members.map Descriptor.splice := by
    refine (List.map_congr_left fun m hm => ?_).trans (List.map_id _)
    rw [underMember, if_pos (hspliced m hm)]
    rfl
  obtain ⟨e, e', hb, hc, he⟩ | ⟨_, _, hb, hc, _⟩ := (checkAllNew_agree h _).cases
  · rw [Declaring.splice, Declaring.splice, hb, hc]
    exact ⟨.error he, h⟩
  · rw [Declaring.splice, Declaring.splice, hb, hc]
    have happend := h.append fun m hm => movable_of_spliced (hspliced m hm)
    rw [hstay] at happend
    exact ⟨.ok rfl, happend⟩

theorem matches_table {name : String} {body body' : Declaring Unit} (h : b.Moved c)
    (hbody : ∀ b : Builder, b.Frame (body b).2) (hbody' : ∀ b : Builder, b.Frame (body' b).2)
    (hrun : Matches (body (b.inside name)) (body' (c.inside name))) :
    Matches (Declaring.table name body b) (Declaring.table name body' c) := by
  obtain ⟨e, e', hb, hc, he⟩ | ⟨_, _, _, _, hb, hc⟩ := (opened_agree h name).cases
  · rw [Declaring.table, Declaring.table, hb, hc]
    exact ⟨.error he, h⟩
  · obtain ⟨hident, _, rfl⟩ := opened_eq_ok.1 hb
    obtain ⟨_, _, rfl⟩ := opened_eq_ok.1 hc
    have hvalid : isValidName name = true := isValidName_of_isIdentifier hident
    have hkeys := (hbody' (c.inside name)).keys
    rcases hd : body (b.inside name) with ⟨r, d⟩
    rcases hd' : body' (c.inside name) with ⟨r', d'⟩
    rw [hd, hd'] at hrun
    rw [hd'] at hkeys
    obtain ⟨houtcome, hmoved⟩ := hrun
    cases houtcome with
    | error he =>
      rw [table_eq_error hb hd, table_eq_error hc hd', outside_eq hbody hd, outside_eq hbody' hd']
      exact ⟨.error he, h⟩
    | ok _ =>
      rw [table_eq_ok.2 ⟨_, d, hb, hd, rfl⟩, table_eq_ok.2 ⟨_, d', hc, hd', rfl⟩,
        outside_eq hbody hd, outside_eq hbody' hd']
      refine ⟨.ok rfl, h.push (movable_table hvalid hmoved.movable) ?_⟩
      rw [hmoved.members, hkeys, underMember, under_table]
      rfl

end Declaring

/-! ## whole bodies -/

namespace Body

variable {σ : Type}

theorem shared?_rel {same : σ → σ → Prop} {f g : Body σ} {name : String} {b c : Builder}
    (h : b.Moved c) (hsame : same (f.run (b.inside name)).1 (g.run (c.inside name)).1) :
    Option.Rel same (f.shared? name b) (g.shared? name c) := by
  unfold shared?
  obtain ⟨_, _, hb, hc, _⟩ | ⟨_, _, hb, hc, _⟩ := (Declaring.opened_agree h name).cases
  · rw [hb, hc]
    exact .none
  · rw [hb, hc]
    exact .some hsame

/-- bodies that are alike do the same under any keys -/
theorem Alike.matches {same : σ → σ → Prop} {f g : Body σ} (h : Alike same f g)
    (hf : f.AddsDrafts) {b c : Builder} (hbc : b.Moved c) :
    same (f.run b).1 (g.run c).1 ∧ Declaring.Matches (f.declaring b) (g.declaring c) := by
  induction h generalizing b c with
  | finish hsame hr => exact ⟨hsame, hr, hbc⟩
  | add _ ih =>
    obtain ⟨⟨hd, hspliced⟩, hnext⟩ := hf
    have hstep := Declaring.matches_add hbc hd hspliced
    exact ih _ _ hstep.outcome (hnext _) hstep.moved
  | @splice d next next' _ ih =>
    have hstep := Declaring.matches_splice hbc d
    exact ih _ _ hstep.outcome (hf _) hstep.moved
  | @table name body body' _ _ _ _ ihbody ih =>
    obtain ⟨hbody, hnext⟩ := hf
    obtain ⟨hsame, hrun⟩ := ihbody hbody (.nil : (b.inside name).Moved (c.inside name))
    have hstep := Declaring.matches_table hbc body.frame_declaring body'.frame_declaring hrun
    exact ih _ _ _ _ (shared?_rel hbc hsame) hstep.outcome (hnext _ _) hstep.moved
  | keyPrefix _ ih => exact ih _ _ (hf _) hbc

end Body

/-! ## tables in place and tables on their own -/

namespace Declaring

variable {b c : Builder} {name : String}

theorem table_iff {body : Declaring Unit} (hbody : ∀ b : Builder, b.Frame (body b).2) :
    Declaring.table name body b = (.ok (), c) ↔
      isIdentifier name = true ∧ isMember b.members name = false
        ∧ ∃ d, body (b.inside name) = (.ok (), d)
          ∧ c = b.push (.table ((Heading.named name).under b.keys.current) d.members) := by
  simp only [table_eq_ok, opened_eq_ok]
  constructor
  · rintro ⟨_, d, ⟨hident, hnew, rfl⟩, hrun, rfl⟩
    exact ⟨hident, hnew, d, hrun, by rw [outside_eq hbody hrun]⟩
  · rintro ⟨hident, hnew, d, hrun, rfl⟩
    exact ⟨_, d, ⟨hident, hnew, rfl⟩, hrun, by rw [outside_eq hbody hrun]⟩

theorem add_iff_of_movable {d : Descriptor} (hd : d.Movable)
    (hspliced : d.heading.spliced = false) :
    Declaring.add d b = (.ok (), c) ↔
      isElementMarker d.name = false ∧ isMember b.members d.name = false
        ∧ c = b.push (d.under b.keys.current) := by
  have hdeclare := declare_of_movable hd hspliced b.keys.current
  rw [add_eq_ok]
  simp only [declared_eq_ok, hdeclare, Except.ok.injEq]
  constructor
  · rintro ⟨e, ⟨hmarker, rfl, hnew⟩, rfl⟩
    exact ⟨hmarker, name_under _ d ▸ hnew, rfl⟩
  · rintro ⟨hmarker, hnew, rfl⟩
    exact ⟨_, ⟨hmarker, rfl, (name_under _ d).symm ▸ hnew⟩, rfl⟩

end Declaring

theorem Schema.build_eq_ok {name : String} {body : Declaring Unit} {s : Schema} :
    Schema.build name body = .ok s ↔
      isValidName name = true ∧ ∃ d, body (.empty []) = (.ok (), d)
        ∧ s = ⟨(Heading.named name).under "", d.members⟩ := by
  have hbuild : Schema.build name body = .ok s ↔
      ∃ c, Schema.declare name body (.empty []) = (.ok s, c) := by
    rw [Schema.build]
    exact ⟨fun h => ⟨_, Prod.ext h rfl⟩, fun ⟨c, h⟩ => by rw [h]⟩
  simp only [hbuild, Declaring.declareSchema_eq_ok, qualify_eq_ok]
  constructor
  · rintro ⟨_, _, d, ⟨hvalid, rfl⟩, hrun, rfl, rfl⟩
    exact ⟨hvalid, d, hrun, rfl⟩
  · rintro ⟨hvalid, d, hrun, rfl⟩
    exact ⟨_, _, d, ⟨hvalid, rfl⟩, hrun, rfl, rfl⟩

namespace Body

variable {σ : Type} {f : Body σ} {same : σ → σ → Prop} {name : String}

/-- a table that was declared on its own can be added anywhere -/
theorem Alike.movable (h : Alike same f f) (hadds : f.AddsDrafts) {s : Schema}
    (hs : Schema.build name f.declaring = .ok s) :
    s.toDescriptor.Movable ∧ s.toDescriptor.heading.spliced = false := by
  obtain ⟨hvalid, d, hrun, rfl⟩ := Schema.build_eq_ok.1 hs
  have hmoved : Builder.Moved (f.declaring (.empty [])).2 (f.declaring (.empty [])).2 :=
    (h.matches hadds .nil).2.moved
  rw [hrun] at hmoved
  exact ⟨movable_table hvalid hmoved.movable, rfl⟩

/-- on its own the body does what it does inside a table -/
theorem Alike.matches_inside (h : Alike same f f) (hadds : f.AddsDrafts) (b : Builder)
    (name : String) :
    Declaring.Matches (f.declaring (.empty [])) (f.declaring (b.inside name)) :=
  (h.matches hadds .nil).2

/-- adding the table moves its members to the keys that they have when it is declared in place -/
theorem Alike.under_eq (h : Alike same f f) (hadds : f.AddsDrafts) {b c d : Builder}
    (hc : f.declaring (.empty []) = (.ok (), c)) (hd : f.declaring (b.inside name) = (.ok (), d)) :
    (Descriptor.table ((Heading.named name).under "") c.members).under b.keys.current
      = .table ((Heading.named name).under b.keys.current) d.members := by
  have hmoved := (h.matches_inside hadds b name).moved
  have hkeys := (f.frame_declaring (b.inside name)).keys
  rw [hc, hd] at hmoved
  rw [hd] at hkeys
  rw [under_table, hmoved.members, hkeys]
  rfl

theorem Alike.succeeds (h : Alike same f f) (hadds : f.AddsDrafts) (b : Builder) (name : String) :
    (∃ c, f.declaring (.empty []) = (.ok (), c))
      ↔ ∃ d, f.declaring (b.inside name) = (.ok (), d) := by
  have hagree := (h.matches_inside hadds b name).outcome
  rcases hc : f.declaring (.empty []) with ⟨r, c⟩
  rcases hd : f.declaring (b.inside name) with ⟨r', d⟩
  rw [hc, hd] at hagree
  cases hagree with
  | ok _ => exact iff_of_true ⟨c, rfl⟩ ⟨d, rfl⟩
  | error _ => exact iff_of_false nofun nofun

end Body

/-- **In place or on its own.**  A table whose body is blind to keys is declared in place exactly
if it can be declared on its own and then be added, and the builder is the same then: the table has
the keys below the open tables at every depth, but for what it has from fragments, which is as it
was in the fragment. -/
theorem Body.table_iff_add {σ : Type} {f : Body σ} (hblind : f.KeyBlind) (hadds : f.AddsDrafts)
    (b : Builder) (name : String) :
    (∀ c, Declaring.table name f.declaring b = (.ok (), c) ↔
        ∃ s, Schema.build name f.declaring = .ok s
          ∧ Declaring.add s.toDescriptor b = (.ok (), c))
      ∧ ∀ s c, Schema.build name f.declaring = .ok s →
        Declaring.add s.toDescriptor b = (.ok (), c) →
          c = b.push (s.toDescriptor.under b.keys.current)
            ∧ ∀ m : Descriptor, m.SplicedInto (s.toDescriptor.under b.keys.current)
              ↔ m.SplicedInto s.toDescriptor := by
  obtain ⟨same, halike⟩ := hblind
  refine ⟨fun c => ?_, fun s c hs hc => ?_⟩
  · rw [Declaring.table_iff f.frame_declaring]
    constructor
    · rintro ⟨hident, hnew, d, hd, rfl⟩
      obtain ⟨hmarker, hvalid⟩ := isIdentifier_iff.1 hident
      obtain ⟨c, hc⟩ := (halike.succeeds hadds b name).2 ⟨d, hd⟩
      have hs := Schema.build_eq_ok.2 ⟨hvalid, c, hc, rfl⟩
      obtain ⟨hmovable, hspliced⟩ := halike.movable hadds hs
      refine ⟨_, hs, (Declaring.add_iff_of_movable hmovable hspliced).2 ⟨hmarker, hnew, ?_⟩⟩
      rw [Schema.toDescriptor, halike.under_eq hadds hc hd]
    · rintro ⟨s, hs, hadd⟩
      obtain ⟨hmovable, hspliced⟩ := halike.movable hadds hs
      obtain ⟨hvalid, c, hc, rfl⟩ := Schema.build_eq_ok.1 hs
      obtain ⟨hmarker, hnew, rfl⟩ := (Declaring.add_iff_of_movable hmovable hspliced).1 hadd
      obtain ⟨d, hd⟩ := (halike.succeeds hadds b name).1 ⟨c, hc⟩
      refine ⟨isIdentifier_iff.2 ⟨hmarker, hvalid⟩, hnew, d, hd, ?_⟩
      rw [Schema.toDescriptor, halike.under_eq hadds hc hd]
  · obtain ⟨hmovable, hspliced⟩ := halike.movable hadds hs
    obtain ⟨_, _, rfl⟩ := (Declaring.add_iff_of_movable hmovable hspliced).1 hc
    exact ⟨rfl, fun m => splicedInto_under m _ _⟩

/-- Ports with a default to be brought into form, a table with a member of a fragment, and a name
asked for twice, which the body does not mind. -/
def Body.service : Body Unit :=
  .add (.sequence (Heading.named "ports") (.atom (Heading.named "[0]") (.signed .w32) none) .any
      (some (.sequence [.scalar (.uint 80)]))) fun _ =>
    .table "tls"
      (.splice ⟨[.atom (Heading.named "host") .string none]⟩ fun _ =>
        .add (.atom (Heading.named "cert") .string none) fun r => .finish () r)
      fun _ r => match r with
        | .error e => .finish () (.error e)
        | .ok () => .add (.atom (Heading.named "ports") .bool none) fun _ => .finish () (.ok ())

/-- inside the table `app`, which has a member already -/
def Body.serviceSite : Builder :=
  ⟨⟨["app"]⟩, [.atom ⟨"name", "", "app.name", false⟩ .string none], []⟩

def Body.serviceTable : Descriptor :=
  .table ⟨"service", "", "app.service", false⟩
    [.sequence ⟨"ports", "", "app.service.ports", false⟩
        (.atom ⟨"[0]", "", "app.service.ports[0]", false⟩ (.signed .w32) none) .any
        (some (.sequence [.scalar (.int 80)])),
      .table ⟨"tls", "", "app.service.tls", false⟩
        [.atom ⟨"host", "", "host", true⟩ .string none,
          .atom ⟨"cert", "", "app.service.tls.cert", false⟩ .string none]]

theorem Body.table_iff_add_service :
    Body.service.KeyBlind ∧ Body.service.AddsDrafts
      ∧ Declaring.table "service" Body.service.declaring Body.serviceSite
        = (.ok (), Body.serviceSite.push Body.serviceTable)
      ∧ ∃ s, Schema.build "service" Body.service.declaring = .ok s
        ∧ Declaring.add s.toDescriptor Body.serviceSite
          = (.ok (), Body.serviceSite.push Body.serviceTable) := by
  have hblind : Body.service.KeyBlind := by
    refine ⟨fun _ _ => True, .add fun _ _ _ => .table ?_ ?_⟩
    · exact .splice fun _ _ _ => .add fun _ _ hr => .finish trivial hr
    · intro _ _ r r' _ hr
      cases hr with
      | error he => exact .finish trivial (.error he)
      | ok _ => exact .add fun _ _ _ => .finish trivial (.ok rfl)
  have hatom : ∀ h t, (Descriptor.atom h t none).Drafted := fun h t => .atom nofun
  have hadds : Body.service.AddsDrafts := by
    refine ⟨⟨.sequence (hatom _ _), rfl⟩, fun _ => ⟨fun _ => ?_, fun _ r => ?_⟩⟩
    · exact ⟨⟨hatom _ _, rfl⟩, fun _ => trivial⟩
    · cases r with
      | error e => trivial
      | ok _ => exact ⟨⟨hatom _ _, rfl⟩, fun _ => trivial⟩
  have htable : Declaring.table "service" Body.service.declaring Body.serviceSite
      = (.ok (), Body.serviceSite.push Body.serviceTable) := by rfl
  exact ⟨hblind, hadds, htable,
    ((Body.table_iff_add hblind hadds Body.serviceSite "service").1 _).1 htable⟩

end ParamSchema
