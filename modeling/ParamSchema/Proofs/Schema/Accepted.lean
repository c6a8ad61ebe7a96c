import ParamSchema.Proofs.Schema.Flat

/-!
# The outlines that are declared

An outline is declared exactly if it is proper, and the schema is then what it writes down with the
defaults as they are bound (`Outline.schema_iff_proper`).

* `Declaring.Gives`   when a computation has a result, and which;
* `Declaring.Adds`    when a step succeeds, and the members it adds;
* `Includes`          fragments as they are written down, and as they are declared.
-/

namespace ParamSchema

open Descriptor

namespace Declaring

variable {α β : Type} {ok ok' : Prop} {ms ns : List Descriptor}

/-! ## what a computation gives, and what it adds -/

/-- `m` has a result exactly under `ok`; the result has the property, and the members stay -/
structure Gives (m : Declaring α) (ok : Prop) (post : α → Prop) : Prop where
  succeeds : ∀ b, (∃ x c, m b = (.ok x, c)) ↔ ok
  result : ∀ {b x c}, m b = (.ok x, c) → c.members = b.members ∧ post x

/-- `m` succeeds exactly under `ok` if the members `ms` are sound and none of them is there yet;
it then adds what they are declared as -/
structure Adds (m : Declaring Unit) (ok : Prop) (ms : List Descriptor) : Prop where
  succeeds : ∀ b, (∃ c, m b = (.ok (), c)) ↔
    ok ∧ SoundMembers ms ∧ ∀ d ∈ ms, isMember b.members d.name = false
  result : ∀ {b c}, m b = (.ok (), c) → ∃ ns, c.members = b.members ++ ns ∧ Declares ms ns

theorem bind_run_eq_ok {m : Declaring α} {f : α → Declaring β} {b d : Builder} {y : β} :
    (m >>= f) b = (.ok y, d) ↔ ∃ x c, m b = (.ok x, c) ∧ f x c = (.ok y, d) := by
  rw [run_bind]
  rcases m b with ⟨e | x, c⟩
  · constructor
    · intro h
      cases h
    · rintro ⟨x, c, h, _⟩
      cases h
  · constructor
    · exact fun h => ⟨x, c, rfl, h⟩
    · rintro ⟨x, c, h, hf⟩
      cases h
      exact hf

theorem Gives.congr {m : Declaring α} {post : α → Prop} (hm : m.Gives ok post) (h : ok ↔ ok') :
    m.Gives ok' post :=
  ⟨fun b => (hm.succeeds b).trans h, hm.result⟩

theorem Adds.congr {m : Declaring Unit} (hm : m.Adds ok ms) (h : SoundMembers ms → (ok ↔ ok')) :
    m.Adds ok' ms := by
  refine ⟨fun b => (hm.succeeds b).trans ?_, hm.result⟩
  constructor
  · rintro ⟨hok, hms, hnew⟩
    exact ⟨(h hms).1 hok, hms, hnew⟩
  · rintro ⟨hok, hms, hnew⟩
    exact ⟨(h hms).2 hok, hms, hnew⟩

theorem Gives.pure {x : α} {post : α → Prop} (hx : post x) :
    (Pure.pure x : Declaring α).Gives True post := by
  refine ⟨fun b => iff_of_true ⟨x, b, rfl⟩ trivial, fun h => ?_⟩
  cases h
  exact ⟨rfl, hx⟩

theorem Gives.fail {e : DeclarationError} {post : α → Prop} :
    (Declaring.fail e : Declaring α).Gives False post := by
  refine ⟨fun b => iff_of_false ?_ id, fun h => ?_⟩
  · rintro ⟨x, c, h⟩
    cases h
  · cases h

theorem Gives.bind {m : Declaring α} {f : α → Declaring β} {mid : α → Prop} {post : β → Prop}
    (hm : m.Gives ok mid) (hf : ∀ x, mid x → (f x).Gives ok' post) :
    (m >>= f).Gives (ok ∧ ok') post := by
  refine ⟨fun b => ⟨?_, ?_⟩, ?_⟩
  · rintro ⟨y, d, h⟩
    obtain ⟨x, c, hx, hy⟩ := bind_run_eq_ok.1 h
    exact ⟨(hm.succeeds b).1 ⟨x, c, hx⟩, ((hf x (hm.result hx).2).succeeds c).1 ⟨y, d, hy⟩⟩
  · rintro ⟨hok, hok'⟩
    obtain ⟨x, c, hx⟩ := (hm.succeeds b).2 hok
    obtain ⟨y, d, hy⟩ := ((hf x (hm.result hx).2).succeeds c).2 hok'
    exact ⟨y, d, bind_run_eq_ok.2 ⟨x, c, hx, hy⟩⟩
  · intro b y d h
    obtain ⟨x, c, hx, hy⟩ := bind_run_eq_ok.1 h
    obtain ⟨hc, hmid⟩ := hm.result hx
    obtain ⟨hd, hpost⟩ := (hf x hmid).result hy
    exact ⟨hd.trans hc, hpost⟩

theorem Gives.map {m : Declaring α} {f : α → β} {mid : α → Prop} {post : β → Prop}
    (hm : m.Gives ok mid) (hf : ∀ x, mid x → post (f x)) :
    (m >>= fun x => Pure.pure (f x)).Gives ok post :=
  (hm.bind fun x hx => .pure (hf x hx)).congr (and_iff_left trivial)

/-- a step that first computes what it adds -/
theorem Gives.bind_adds {m : Declaring α} {f : α → Declaring Unit} {mid : α → Prop}
    (hm : m.Gives ok mid) (hf : ∀ x, mid x → (f x).Adds ok' ms) : (m >>= f).Adds (ok ∧ ok') ms := by
  refine ⟨fun b => ⟨?_, ?_⟩, ?_⟩
  · rintro ⟨d, h⟩
    obtain ⟨x, c, hx, hd⟩ := bind_run_eq_ok.1 h
    obtain ⟨hc, hmid⟩ := hm.result hx
    obtain ⟨hok', hms, hnew⟩ := ((hf x hmid).succeeds c).1 ⟨d, hd⟩
    exact ⟨⟨(hm.succeeds b).1 ⟨x, c, hx⟩, hok'⟩, hms, hc ▸ hnew⟩
  · rintro ⟨⟨hok, hok'⟩, hms, hnew⟩
    obtain ⟨x, c, hx⟩ := (hm.succeeds b).2 hok
    obtain ⟨hc, hmid⟩ := hm.result hx
    obtain ⟨d, hd⟩ := ((hf x hmid).succeeds c).2 ⟨hok', hms, hc.symm ▸ hnew⟩
    exact ⟨d, bind_run_eq_ok.2 ⟨x, c, hx, hd⟩⟩
  · intro b d h
    obtain ⟨x, c, hx, hd⟩ := bind_run_eq_ok.1 h
    obtain ⟨hc, hmid⟩ := hm.result hx
    exact hc ▸ (hf x hmid).result hd

theorem Adds.pure : (Pure.pure () : Declaring Unit).Adds True [] := by
  refine ⟨fun b => iff_of_true ⟨b, rfl⟩ ⟨trivial, .nil, List.forall_mem_nil _⟩, fun h => ?_⟩
  cases h
  exact ⟨[], (List.append_nil _).symm, .nil⟩

theorem isMember_append (ds es : List Descriptor) (name : String) :
    isMember (ds ++ es) name = (isMember ds name || isMember es name) := by
  rw [isMember, List.any_append]
  rfl

theorem Adds.bind {m n : Declaring Unit} (hm : m.Adds ok ms) (hn : n.Adds ok' ns) :
    (m >>= fun _ => n).Adds (ok ∧ ok') (ms ++ ns) := by
  -- what `n` finds new is new to the members before and to those that `m` added
  have hnew : ∀ {b c : Builder}, m b = (.ok (), c) →
      ((∀ d ∈ ns, isMember c.members d.name = false) ↔
        (∀ d ∈ ns, isMember b.members d.name = false) ∧ ∀ d ∈ ns, isMember ms d.name = false) := by
    intro b c hc
    obtain ⟨es, hmembers, hes⟩ := hm.result hc
    rw [hmembers]
    simp only [isMember_append, Bool.or_eq_false_iff, hes.isMember_eq]
    exact forall₂_and
  refine ⟨fun b => ⟨?_, ?_⟩, ?_⟩
  · rintro ⟨d, h⟩
    obtain ⟨⟨⟩, c, hc, hd⟩ := bind_run_eq_ok.1 h
    obtain ⟨hok, hms, hmsnew⟩ := (hm.succeeds b).1 ⟨c, hc⟩
    obtain ⟨hok', hns, hnsnew⟩ := (hn.succeeds c).1 ⟨d, hd⟩
    obtain ⟨hbefore, hadded⟩ := (hnew hc).1 hnsnew
    exact ⟨⟨hok, hok'⟩, SoundMembers.append.2 ⟨hms, hns, hadded⟩,
      List.forall_mem_append.2 ⟨hmsnew, hbefore⟩⟩
  · rintro ⟨⟨hok, hok'⟩, hsound, hall⟩
    obtain ⟨hms, hns, hadded⟩ := SoundMembers.append.1 hsound
    obtain ⟨hmsnew, hbefore⟩ := List.forall_mem_append.1 hall
    obtain ⟨c, hc⟩ := (hm.succeeds b).2 ⟨hok, hms, hmsnew⟩
    obtain ⟨d, hd⟩ := (hn.succeeds c).2 ⟨hok', hns, (hnew hc).2 ⟨hbefore, hadded⟩⟩
    exact ⟨d, bind_run_eq_ok.2 ⟨(), c, hc, hd⟩⟩
  · intro b d h
    obtain ⟨⟨⟩, c, hc, hd⟩ := bind_run_eq_ok.1 h
    obtain ⟨es, hes, hdes⟩ := hm.result hc
    obtain ⟨fs, hfs, hdfs⟩ := hn.result hd
    exact ⟨es ++ fs, by rw [hfs, hes, List.append_assoc], hdes.append hdfs⟩

/-! ## the steps -/

theorem Adds.note : Declaring.note.Adds True [] := by
  refine ⟨fun b => iff_of_true ⟨_, rfl⟩ ⟨trivial, .nil, List.forall_mem_nil _⟩, fun h => ?_⟩
  cases h
  exact ⟨[], (List.append_nil _).symm, .nil⟩

theorem declared_eq_ok {b : Builder} {d e : Descriptor} :
    declared b d = .ok e ↔ isElementMarker d.name = false ∧ d.declare b.keys.current = .ok e
      ∧ isMember b.members e.name = false := by
  rw [declared]
  simp only [bind_eq_ok, Except.ok.injEq]
  constructor
  · rintro ⟨_, hmarker, f, hf, _, hnew, rfl⟩
    exact ⟨checkName_eq_ok.1 hmarker, hf, checkNew_eq_ok.1 hnew⟩
  · rintro ⟨hmarker, he, hnew⟩
    exact ⟨(), checkName_eq_ok.2 hmarker, e, he, (), checkNew_eq_ok.2 hnew, rfl⟩

theorem add_eq_ok {b c : Builder} {d : Descriptor} :
    add d b = (.ok (), c) ↔
      ∃ e, declared b d = .ok e ∧ c = b.push e := by
  unfold add
  cases declared b d with
  | error e =>
    constructor
    · intro h
      cases h
    · rintro ⟨e, h, _⟩
      cases h
  | ok e =>
    constructor
    · intro h
      cases h
      exact ⟨e, rfl, rfl⟩
    · rintro ⟨e, h, rfl⟩
      cases h
      rfl

theorem Adds.add {m d : Descriptor} (hmd : Elaborates m d) : (Declaring.add d).Adds True [m] := by
  have hname := hmd.sameFaults.name
  refine ⟨fun b => ⟨?_, ?_⟩, ?_⟩
  · rintro ⟨c, hc⟩
    obtain ⟨e, he, _⟩ := add_eq_ok.1 hc
    obtain ⟨hmarker, hdeclare, hnew⟩ := declared_eq_ok.1 he
    obtain ⟨hdname, hvalid⟩ := name_of_declare hdeclare
    have hsound := sound_of_declare hmd.drafted hmd.tablesSound hdeclare
    rw [hdname, hname] at hnew
    rw [hname] at hmarker hvalid
    have hident := isIdentifier_iff.2 ⟨hmarker, hvalid⟩
    exact ⟨trivial, SoundMembers.singleton.2 ⟨hident, hmd.sound.1 hsound⟩,
      List.forall_mem_singleton.2 hnew⟩
  · rintro ⟨-, hsound, hnew⟩
    obtain ⟨hident, hms⟩ := SoundMembers.singleton.1 hsound
    obtain ⟨hmarker, hvalid⟩ := isIdentifier_iff.1 hident
    rw [← hname] at hmarker hvalid
    obtain ⟨e, he⟩ := exists_declare_of_sound hmd.drafted hvalid (hmd.sound.2 hms) b.keys.current
    have henew : isMember b.members e.name = false := by
      rw [(name_of_declare he).1, hname]
      exact hnew m (List.mem_singleton_self m)
    exact ⟨_, add_eq_ok.2 ⟨e, declared_eq_ok.2 ⟨hmarker, he, henew⟩, rfl⟩⟩
  · intro b c hc
    obtain ⟨e, he, rfl⟩ := add_eq_ok.1 hc
    obtain ⟨_, hdeclare, _⟩ := declared_eq_ok.1 he
    refine ⟨[e], rfl, .cons ?_ .nil, ?_, ?_⟩
    · rw [unkeyed_of_declare hmd.drafted hdeclare, hmd.unkeyed]
    · exact List.forall_mem_singleton.2 (wellFormed_of_declare hmd.drafted hdeclare)
    · exact List.forall_mem_singleton.2 (sound_declared hmd.drafted hmd.tablesSound hdeclare)

/-- a table is opened under a new identifier, with the key it has below the open tables -/
theorem opened_eq_ok {b : Builder} {name : String} {h : Heading} :
    opened b name = .ok h ↔ isIdentifier name = true ∧ isMember b.members name = false
      ∧ h = (Heading.named name).under b.keys.current := by
  rw [opened, isIdentifier_iff]
  simp only [bind_eq_ok, Except.ok.injEq]
  constructor
  · rintro ⟨_, hmarker, g, hg, _, hnew, rfl⟩
    obtain ⟨hvalid, rfl⟩ := qualify_eq_ok.1 hg
    exact ⟨⟨checkName_eq_ok.1 hmarker, hvalid⟩, checkNew_eq_ok.1 hnew, rfl⟩
  · rintro ⟨⟨hmarker, hvalid⟩, hnew, rfl⟩
    exact ⟨(), checkName_eq_ok.2 hmarker, _, qualify_eq_ok.2 ⟨hvalid, rfl⟩, (),
      checkNew_eq_ok.2 hnew, rfl⟩

theorem table_eq_ok {b c : Builder} {name : String} {body : Declaring Unit} :
    table name body b = (.ok (), c) ↔
      ∃ h d, opened b name = .ok h ∧ body (b.inside name) = (.ok (), d)
        ∧ c = (b.outside d).push (.table h d.members) := by
  unfold table
  cases opened b name with
  | error e =>
    constructor
    · intro h
      cases h
    · rintro ⟨h, d, hopen, _⟩
      cases hopen
  | ok h =>
    rcases body (b.inside name) with ⟨e | ⟨⟩, d⟩
    · constructor
      · intro hc
        cases hc
      · rintro ⟨h, d, _, hd, _⟩
        cases hd
    · constructor
      · intro hc
        cases hc
        exact ⟨h, d, rfl, rfl, rfl⟩
      · rintro ⟨h, d, hopen, hd, rfl⟩
        cases hopen
        cases hd
        rfl

theorem Adds.table {name : String} {body : Declaring Unit} (hbody : body.Adds ok ms) :
    (Declaring.table name body).Adds ok [.table (Heading.named name) ms] := by
  refine ⟨fun b => ⟨?_, ?_⟩, ?_⟩
  · rintro ⟨c, hc⟩
    obtain ⟨h, d, hopen, hd, _⟩ := table_eq_ok.1 hc
    obtain ⟨hident, hnew, _⟩ := opened_eq_ok.1 hopen
    obtain ⟨hok, hms, _⟩ := (hbody.succeeds _).1 ⟨d, hd⟩
    exact ⟨hok, SoundMembers.singleton.2 ⟨hident, sound_table_iff.2 hms⟩,
      List.forall_mem_singleton.2 hnew⟩
  · rintro ⟨hok, hsound, hnew⟩
    obtain ⟨hident, htable⟩ := SoundMembers.singleton.1 hsound
    have hopen := opened_eq_ok.2 ⟨hident, hnew _ (List.mem_singleton_self _), rfl⟩
    obtain ⟨d, hd⟩ := (hbody.succeeds (b.inside name)).2
      ⟨hok, sound_table_iff.1 htable, fun _ _ => rfl⟩
    exact ⟨_, table_eq_ok.2 ⟨_, d, hopen, hd, rfl⟩⟩
  · intro b c hc
    obtain ⟨h, d, hopen, hd, rfl⟩ := table_eq_ok.1 hc
    obtain ⟨_, _, rfl⟩ := opened_eq_ok.1 hopen
    obtain ⟨es, hes, hdes⟩ := hbody.result hd
    have hes : d.members = es := hes.trans (List.nil_append es)
    have hns := hdes.soundMembers ((hbody.succeeds _).1 ⟨d, hd⟩).2.1
    have hwf : (Descriptor.table ((Heading.named name).under b.keys.current)
        d.members).WellFormed :=
      hes ▸ .table hns.names hns.distinct hdes.wellFormed
    refine ⟨[.table _ d.members], rfl, .cons ?_ .nil, List.forall_mem_singleton.2 hwf, ?_⟩
    · rw [hes]
      exact hdes.unkeyed_table rfl
    · rw [List.forall_mem_singleton, hes]
      exact sound_table_iff.2 hns

theorem splice_eq_ok {b c : Builder} {f : Fragment} :
    splice f b = (.ok (), c) ↔ (∀ d ∈ f.members, isMember b.members d.name = false)
      ∧ c = { b with members := b.members ++ f.members.map Descriptor.splice } := by
  have hcheck : checkAllNew b (f.members.map Descriptor.name) = .ok () ↔
      ∀ d ∈ f.members, isMember b.members d.name = false := by
    rw [checkAllNew_eq_ok, List.forall_mem_map]
  rw [← hcheck]
  unfold splice
  cases checkAllNew b (f.members.map Descriptor.name) with
  | error e =>
    constructor
    · intro h
      cases h
    · rintro ⟨h, _⟩
      cases h
  | ok u =>
    constructor
    · intro h
      cases h
      exact ⟨rfl, rfl⟩
    · rintro ⟨_, rfl⟩
      rfl

theorem Adds.splice {f : Fragment} (hf : Declares ms f.members) (hms : SoundMembers ms) :
    (Declaring.splice f).Adds True ms := by
  refine ⟨fun b => ?_, fun {b c} hc => ?_⟩
  · simp only [splice_eq_ok, exists_and_left, exists_eq, and_true, true_and]
    rw [hf.forall_name (p := fun name => isMember b.members name = false)]
    exact (and_iff_right hms).symm
  · obtain ⟨_, rfl⟩ := splice_eq_ok.1 hc
    exact ⟨_, rfl, hf.splice⟩

/-! ## tables on their own -/

theorem apart_eq_ok {body : Declaring α} {b c : Builder} {r : α × List Descriptor} :
    apart body b = (.ok r, c) ↔ ∃ d, body (.empty b.noted) = (.ok r.1, d) ∧ d.members = r.2
      ∧ c = { b with noted := d.noted } := by
  obtain ⟨x, es⟩ := r
  unfold apart
  rcases body (.empty b.noted) with ⟨e | y, d⟩
  · constructor
    · intro h
      cases h
    · rintro ⟨d, h, _⟩
      cases h
  · constructor
    · intro h
      cases h
      exact ⟨d, rfl, rfl, rfl⟩
    · rintro ⟨d, h, rfl, rfl⟩
      cases h
      rfl

/-- a table declared on its own starts without open tables -/
theorem declareSchema_eq_ok {name : String} {body : Declaring Unit} {b c : Builder} {s : Schema} :
    Schema.declare name body b = (.ok s, c) ↔
      ∃ h d, (Heading.named name).qualify "" = .ok h ∧ body (.empty b.noted) = (.ok (), d)
        ∧ s = ⟨h, d.members⟩ ∧ c = { b with noted := d.noted } := by
  unfold Schema.declare
  cases hg : (Heading.named name).qualify "" with
  | error e =>
    constructor
    · intro h
      cases h
    · rintro ⟨_, _, h, _⟩
      cases h
  | ok g =>
    rw [bind_run_eq_ok]
    constructor
    · rintro ⟨r, c', hr, h⟩
      obtain ⟨d, hd, hmembers, rfl⟩ := apart_eq_ok.1 hr
      cases h
      exact ⟨g, d, rfl, hd, by rw [hmembers], rfl⟩
    · rintro ⟨_, d, hg', hd, rfl, rfl⟩
      obtain rfl := Except.ok.inj hg'
      exact ⟨((), d.members), _, apart_eq_ok.2 ⟨d, hd, rfl, rfl⟩, rfl⟩

theorem Gives.apart {body : Declaring Unit} (hbody : body.Adds ok ms) :
    (Declaring.apart body).Gives (ok ∧ SoundMembers ms)
      fun r => SoundMembers ms ∧ Declares ms r.2 := by
  refine ⟨fun b => ⟨?_, ?_⟩, ?_⟩
  · rintro ⟨r, c, hr⟩
    obtain ⟨d, hd, _⟩ := apart_eq_ok.1 hr
    obtain ⟨hok, hms, _⟩ := (hbody.succeeds _).1 ⟨d, hd⟩
    exact ⟨hok, hms⟩
  · rintro ⟨hok, hms⟩
    obtain ⟨d, hd⟩ := (hbody.succeeds (.empty b.noted)).2 ⟨hok, hms, fun _ _ => rfl⟩
    exact ⟨((), d.members), _, apart_eq_ok.2 ⟨d, hd, rfl, rfl⟩⟩
  · intro b r c hr
    obtain ⟨d, hd, hmembers, rfl⟩ := apart_eq_ok.1 hr
    obtain ⟨es, hes, hdes⟩ := hbody.result hd
    refine ⟨rfl, ((hbody.succeeds _).1 ⟨d, hd⟩).2.1, ?_⟩
    rw [← hmembers, hes]
    exact hdes

theorem Gives.declareSchema (name : String) {body : Declaring Unit} (hbody : body.Adds ok ms) :
    (Schema.declare name body).Gives (isValidName name = true ∧ ok ∧ SoundMembers ms)
      fun s => s.heading.unkeyed = (Heading.named name).unkeyed ∧ SoundMembers ms
        ∧ Declares ms s.members := by
  unfold Schema.declare
  cases hg : (Heading.named name).qualify "" with
  | error e =>
    refine Gives.fail.congr (iff_of_false id ?_)
    rintro ⟨hvalid, _⟩
    obtain ⟨g, hg'⟩ := exists_qualify (h := Heading.named name) hvalid ""
    rw [hg] at hg'
    cases hg'
  | ok g =>
    have hvalid : isValidName name = true := (qualify_eq_ok.1 hg).1
    refine ((Gives.apart hbody).map fun r hr => ?_).congr (and_iff_right hvalid).symm
    exact ⟨unkeyed_of_qualify hg, hr⟩

theorem Gives.declareFragment {body : Declaring Unit} (hbody : body.Adds ok ms) :
    (Fragment.declare body).Gives (ok ∧ SoundMembers ms)
      fun f => SoundMembers ms ∧ Declares ms f.members := by
  unfold Fragment.declare
  exact (Gives.apart hbody).map fun r hr => hr

end Declaring

/-! ## outlines -/

section
variable {α β : Type} (r : α → β → Prop) {as : Entries α} {bs : Entries β} {x : α} {y : β}

/-- what is looked up in two tables with the same keys belongs together -/
theorem Entries.getD_of_forall₂ (h : List.Forall₂ (fun a b => b.1 = a.1 ∧ r a.2 b.2) as bs)
    (hxy : r x y) (name : String) : r ((as.get? name).getD x) ((bs.get? name).getD y) := by
  induction h with
  | nil => exact hxy
  | @cons a b as bs hab _ ih =>
    obtain ⟨hname, hr⟩ := hab
    rw [Entries.get?, Entries.get?, hname]
    by_cases heq : a.1 = name
    · rw [if_pos heq, if_pos heq]
      exact hr
    · rw [if_neg heq, if_neg heq]
      exact ih

theorem Entries.forall₂_insert (h : List.Forall₂ (fun a b => b.1 = a.1 ∧ r a.2 b.2) as bs)
    (hxy : r x y) (name : String) :
    List.Forall₂ (fun a b => b.1 = a.1 ∧ r a.2 b.2) (as.insert name x) (bs.insert name y) := by
  induction h with
  | nil => exact .cons ⟨rfl, hxy⟩ .nil
  | @cons a b as bs hab hrest ih =>
    obtain ⟨hname, hr⟩ := hab
    rw [Entries.insert, Entries.insert, hname]
    by_cases heq : a.1 = name
    · rw [if_pos heq, if_pos heq]
      exact .cons ⟨rfl, hxy⟩ hrest
    · rw [if_neg heq, if_neg heq]
      exact .cons ⟨rfl, hr⟩ ih

end

/-- members as they are written down, and as they are declared in a fragment -/
def DeclaredIn (ms : List Descriptor) (f : Fragment) : Prop :=
  SoundMembers ms ∧ Declares ms f.members

/-- fragments as they are written down, and as they are declared -/
def Includes (ps : Entries (List Descriptor)) (fs : Entries Fragment) : Prop :=
  List.Forall₂ (fun p f => f.1 = p.1 ∧ SoundMembers p.2 ∧ Declares p.2 f.2.members) ps fs

namespace Includes

variable {ps : Entries (List Descriptor)} {fs : Entries Fragment}

/-- the fragment of a name; one that is not known has no members either way -/
theorem get (h : Includes ps fs) (name : String) :
    SoundMembers ((ps.get? name).getD []) ∧
      Declares ((ps.get? name).getD []) (fragmentNamed fs name).members :=
  Entries.getD_of_forall₂ DeclaredIn h ⟨.nil, .nil⟩ name

theorem insert (h : Includes ps fs) {name : String} {ms : List Descriptor} {f : Fragment}
    (hms : SoundMembers ms) (hf : Declares ms f.members) :
    Includes (ps.insert name ms) (fs.insert name f) :=
  Entries.forall₂_insert DeclaredIn h ⟨hms, hf⟩ name

end Includes

theorem unkeyed_withComment {s : Schema} {name : String}
    (h : s.heading.unkeyed = (Heading.named name).unkeyed) (comment : String) :
    (s.withComment comment).heading.unkeyed
      = Heading.unkeyed { Heading.named name with comment } := by
  have hname : s.heading.name = name := congrArg Heading.name h
  rw [Schema.withComment, Heading.unkeyed, hname]
  rfl

section
variable {ps : Entries (List Descriptor)} {fs : Entries Fragment}

mutual

theorem Draft.gives_descriptor (hfs : Includes ps fs) (draft : Draft) :
    (draft.descriptor fs).Gives
      ((∀ name ∈ draft.tableNames, isValidName name = true) ∧ (draft.flat ps).TablesSound)
      (Elaborates (draft.flat ps)) := by
  match draft with
  | .atom name comment t x =>
    rw [Draft.descriptor, Draft.flat, Draft.tableNames]
    have hdrafted : (Descriptor.atom { Heading.named name with comment } t
        (x.bind fun s => s.readAs? t)).Drafted := by
      refine .atom fun s hs => ?_
      obtain ⟨r, _, hr⟩ := Option.bind_eq_some_iff.1 hs
      exact holds_of_readAs? hr
    refine (Declaring.Gives.pure ⟨hdrafted, TablesSound.atom, rfl, Iff.rfl⟩).congr ?_
    exact iff_of_true trivial ⟨List.forall_mem_nil _, TablesSound.atom⟩
  | .sequence name comment e b x =>
    rw [Draft.descriptor, Draft.flat, Draft.tableNames, sequenceOf, TablesSound.sequence,
      Descriptor.asElement, TablesSound.mapHeading]
    exact (Draft.gives_descriptor hfs e).map fun d hd => (hd.asElement 0).sequence
  | .tuple name comment es x =>
    rw [Draft.descriptor, Draft.flat, Draft.tableNames, tupleOf, TablesSound.tuple,
      forall_mem_asElements fun _ _ => TablesSound.mapHeading]
    refine (gives_draftDescriptors hfs es).map fun ds hds => ?_
    exact .tuple (forall₂_asElements (fun i _ _ hd => hd.asElement i) hds 0)
  | .table name comment items =>
    rw [Draft.descriptor, Draft.flat, Draft.tableNames, TablesSound.table, sound_table_iff,
      List.forall_mem_cons, and_assoc]
    refine (Declaring.Gives.declareSchema name (adds_runItems hfs items)).map fun s hs => ?_
    obtain ⟨hheading, hms, hs⟩ := hs
    exact .table hs hms (unkeyed_withComment hheading comment)
  | .optional d =>
    rw [Draft.descriptor, Draft.flat, Draft.tableNames, TablesSound.optional]
    exact (Draft.gives_descriptor hfs d).map fun d hd => hd.optional

theorem gives_draftDescriptors (hfs : Includes ps fs) (drafts : List Draft) :
    (draftDescriptors fs drafts).Gives
      ((∀ name ∈ draftTableNames drafts, isValidName name = true)
        ∧ ∀ d ∈ flatDrafts ps drafts, d.TablesSound)
      (List.Forall₂ Elaborates (flatDrafts ps drafts)) := by
  match drafts with
  | [] =>
    rw [draftDescriptors, flatDrafts, draftTableNames]
    exact (Declaring.Gives.pure .nil).congr
      (iff_of_true trivial ⟨List.forall_mem_nil _, List.forall_mem_nil _⟩)
  | d :: ds =>
    rw [draftDescriptors, flatDrafts, draftTableNames, List.forall_mem_append, List.forall_mem_cons]
    refine ((Draft.gives_descriptor hfs d).bind fun d hd =>
      (gives_draftDescriptors hfs ds).map fun ds hds => ?_).congr and_and_and_comm
    exact .cons hd hds

theorem Item.adds_run (hfs : Includes ps fs) (item : Item) :
    (item.run fs).Adds (∀ name ∈ item.tableNames, isValidName name = true) (item.flat ps) := by
  match item with
  | .add draft =>
    rw [Item.run, Item.flat, Item.tableNames]
    refine ((Draft.gives_descriptor hfs draft).bind_adds fun d hd => .add hd).congr fun hms => ?_
    have htables := (SoundMembers.singleton.1 hms).2.tablesSound
    rw [and_true, and_iff_left htables]
  | .table name items =>
    rw [Item.run, Item.flat, Item.tableNames]
    exact (adds_runItems hfs items).table
  | .splice name =>
    rw [Item.run, Item.flat, Item.tableNames]
    obtain ⟨hms, hdeclares⟩ := hfs.get name
    exact (Declaring.Adds.splice hdeclares hms).congr fun _ =>
      iff_of_true trivial (List.forall_mem_nil _)
  | .note =>
    rw [Item.run, Item.flat, Item.tableNames]
    exact Declaring.Adds.note.congr fun _ => iff_of_true trivial (List.forall_mem_nil _)

theorem adds_runItems (hfs : Includes ps fs) (items : List Item) :
    (runItems fs items).Adds (∀ name ∈ itemTableNames items, isValidName name = true)
      (flatItems ps items) := by
  match items with
  | [] =>
    rw [runItems, flatItems, itemTableNames]
    exact Declaring.Adds.pure.congr fun _ => iff_of_true trivial (List.forall_mem_nil _)
  | i :: is =>
    rw [runItems, flatItems, itemTableNames, List.forall_mem_append]
    exact (Item.adds_run hfs i).bind (adds_runItems hfs is)

end

theorem gives_runFragments (hfs : Includes ps fs) (rest : List (String × List Item)) :
    (runFragments fs rest).Gives (ProperFragments ps rest) (Includes (flatFragments ps rest)) := by
  induction rest generalizing ps fs with
  | nil => exact .pure hfs
  | cons e rest ih =>
    rw [runFragments, ProperFragments, flatFragments]
    have hdeclare := Declaring.Gives.declareFragment (adds_runItems hfs e.2)
    exact hdeclare.bind fun f hf => ih (hfs.insert hf.1 hf.2)

end

namespace Outline

theorem gives_run (o : Outline) :
    o.run.Gives o.Proper fun s =>
      s.heading.unkeyed = Heading.unkeyed { Heading.named o.name with comment := o.comment }
        ∧ SoundMembers o.members ∧ Declares o.members s.members := by
  have hproper : o.Proper ↔ ProperFragments [] o.fragments ∧ isValidName o.name = true
      ∧ (∀ name ∈ itemTableNames o.items, isValidName name = true) ∧ SoundMembers o.members := by
    constructor
    · rintro ⟨hfragments, hname, hnames, hsound⟩
      exact ⟨hfragments, hname, hnames, sound_table_iff.1 hsound⟩
    · rintro ⟨hfragments, hname, hnames, hsound⟩
      exact ⟨hfragments, hname, hnames, sound_table_iff.2 hsound⟩
  refine ((gives_runFragments .nil o.fragments).bind fun fs hfs => ?_).congr hproper.symm
  refine (Declaring.Gives.declareSchema o.name (adds_runItems hfs o.items)).map fun s hs => ?_
  obtain ⟨hheading, hms, hs⟩ := hs
  exact ⟨unkeyed_withComment hheading o.comment, hms, hs⟩

theorem schema_eq_ok {o : Outline} {s : Schema} :
    o.schema = .ok s ↔ ∃ c, o.run (.empty []) = (.ok s, c) := by
  unfold schema
  constructor
  · intro h
    exact ⟨_, Prod.ext h rfl⟩
  · rintro ⟨c, h⟩
    rw [h]

/-- **What a declaration accepts.**  An outline is declared exactly if it is proper.  Its schema is
sound at every depth, stores each default as it is bound, and differs in nothing else but keys from
what the outline writes down. -/
theorem schema_iff_proper (o : Outline) :
    ((∃ s, o.schema = .ok s) ↔ o.Proper) ∧
      ∀ s, o.schema = .ok s →
        isValidName s.name = true ∧ s.toDescriptor.Sound
          ∧ (∀ d : Descriptor, d.Within s.toDescriptor → d.StoresBound)
          ∧ s.toDescriptor.unkeyed = o.flat.settle.unkeyed := by
  have hgives := o.gives_run
  constructor
  · rw [← hgives.succeeds (.empty [])]
    exact exists_congr fun s => schema_eq_ok
  · intro s hs
    obtain ⟨c, hc⟩ := schema_eq_ok.1 hs
    obtain ⟨hheading, hms, hdeclares⟩ := (hgives.result hc).2
    have hproper : o.Proper := (hgives.succeeds _).1 ⟨s, c, hc⟩
    have hname : s.name = o.name := congrArg Heading.name hheading
    have hns := hdeclares.soundMembers hms
    have hwf : s.toDescriptor.WellFormed := .table hns.names hns.distinct hdeclares.wellFormed
    refine ⟨hname ▸ hproper.name, sound_table_iff.2 hns, fun d hd => hwf.storesBound hd, ?_⟩
    exact hdeclares.unkeyed_table hheading

end Outline
end ParamSchema
