import ParamSchema.Proofs.Schema.Accepted

/-!
# Bodies of tables

A `Body` is what declares the members of a table: it asks for one step after the other, sees what
came of each, and goes on as it likes, also after a step that failed.  The body of a nested table is
a body again.  Whatever a body does, it changes nothing but the members of that table (`frame_run`);
a step that fails has changed nothing, and one that succeeds has added something at the end.

* `Body.run`, `Body.declaring`   what a body does to a builder;
* `Body.Visits`                  the builders that a body comes by, in all tables that it opens;
* `Declaring.Appends`            what a single step does to a builder.
-/

namespace ParamSchema

/-- `σ` is what the bodies of nested tables share. -/
inductive Body (σ : Type) where
  | finish (shared : σ) (outcome : Except DeclarationError Unit)
  | add (d : Descriptor) (next : Except DeclarationError Unit → Body σ)
  | splice (f : Fragment) (next : Except DeclarationError Unit → Body σ)
  /-- a nested table; what its body shares is not there if the table was not opened -/
  | table (name : String) (body : Body σ)
      (next : Option σ → Except DeclarationError Unit → Body σ)
  | keyPrefix (next : String → Body σ)

namespace Body

variable {σ : Type}

/-! ## running a body -/

/-- what the body shares in the end, its outcome, and the builder it leaves -/
def run : Body σ → Builder → σ × Except DeclarationError Unit × Builder
  | .finish shared r, b => (shared, r, b)
  | .add d next, b => (next (Declaring.add d b).1).run (Declaring.add d b).2
  | .splice f next, b => (next (Declaring.splice f b).1).run (Declaring.splice f b).2
  | .table name body next, b =>
    let shared? := match Declaring.opened b name with
      | .ok _ => some (body.run (b.inside name)).1
      | .error _ => none
    let step := Declaring.table name (fun c => (body.run c).2) b
    (next shared? step.1).run step.2
  | .keyPrefix next, b => (next b.keys.current).run b

def declaring (f : Body σ) : Declaring Unit := fun b => (f.run b).2

/-- what the body of a table shares, if the table is opened -/
def shared? (f : Body σ) (name : String) (b : Builder) : Option σ :=
  match Declaring.opened b name with
  | .ok _ => some (f.run (b.inside name)).1
  | .error _ => none

theorem run_table (name : String) (body : Body σ)
    (next : Option σ → Except DeclarationError Unit → Body σ) (b : Builder) :
    (Body.table name body next).run b
      = (next (body.shared? name b) (Declaring.table name body.declaring b).1).run
          (Declaring.table name body.declaring b).2 := rfl

end Body

/-! ## single steps -/

/-- `b` and `c` differ in the members of the innermost table only -/
structure Builder.Frame (b c : Builder) : Prop where
  keys : c.keys = b.keys
  noted : c.noted = b.noted

namespace Builder.Frame

variable {b c d : Builder}

theorem refl (b : Builder) : b.Frame b := ⟨rfl, rfl⟩

theorem trans (hbc : b.Frame c) (hcd : c.Frame d) : b.Frame d :=
  ⟨hcd.keys.trans hbc.keys, hcd.noted.trans hbc.noted⟩

end Builder.Frame

/-- A step that fails leaves the builder as it was; one that succeeds adds something to the members,
and that is all it does. -/
structure Declaring.Appends (m : Declaring Unit) (b : Builder) (new : List Descriptor → Prop) :
    Prop where
  failed : ∀ e, (m b).1 = .error e → (m b).2 = b
  done : (m b).1 = .ok () → ∃ ms, new ms ∧ (m b).2 = { b with members := b.members ++ ms }

namespace Declaring

variable {m : Declaring Unit} {b c : Builder} {new : List Descriptor → Prop} {σ : Type}

theorem Appends.of_error {e : DeclarationError} (h : m b = (.error e, b)) : m.Appends b new := by
  refine ⟨fun _ _ => ?_, ?_⟩
  · rw [h]
  · rw [h]
    exact nofun

theorem Appends.of_ok {ms : List Descriptor}
    (h : m b = (.ok (), { b with members := b.members ++ ms })) (hnew : new ms) :
    m.Appends b new := by
  refine ⟨?_, fun _ => ⟨ms, hnew, ?_⟩⟩
  · rw [h]
    exact nofun
  · rw [h]

/-- either way the members are all that changes -/
theorem Appends.frame (h : m.Appends b new) : b.Frame (m b).2 := by
  cases hm : (m b).1 with
  | error e =>
    rw [h.failed e hm]
    exact .refl b
  | ok u =>
    obtain ⟨ms, _, hms⟩ := h.done hm
    rw [hms]
    exact ⟨rfl, rfl⟩

theorem appends_add (d : Descriptor) (b : Builder) :
    (Declaring.add d).Appends b fun ms => ∃ e, d.declare b.keys.current = .ok e ∧ ms = [e] := by
  cases hd : declared b d with
  | error e =>
    have hfail : Declaring.add d b = (.error e, b) := by rw [Declaring.add, hd]
    exact .of_error hfail
  | ok e =>
    exact .of_ok (add_eq_ok.2 ⟨e, hd, rfl⟩) ⟨e, (declared_eq_ok.1 hd).2.1, rfl⟩

theorem appends_splice (f : Fragment) (b : Builder) :
    (Declaring.splice f).Appends b fun ms => ms = f.members.map Descriptor.splice := by
  cases hnew : checkAllNew b (f.members.map Descriptor.name) with
  | error e =>
    have hfail : Declaring.splice f b = (.error e, b) := by rw [Declaring.splice, hnew]
    exact .of_error hfail
  | ok u =>
    have hdone : Declaring.splice f b
        = (.ok (), { b with members := b.members ++ f.members.map Descriptor.splice }) := by
      rw [Declaring.splice, hnew]
    exact .of_ok hdone rfl

theorem table_eq_error {name : String} {body : Declaring Unit} {h : Heading}
    {e : DeclarationError} (hopen : opened b name = .ok h)
    (hrun : body (b.inside name) = (.error e, c)) :
    Declaring.table name body b = (.error e, b.outside c) := by
  simp only [Declaring.table, hopen, hrun]

/-- closing a table leaves the one around it as it was -/
theorem outside_eq {name : String} {body : Declaring Unit} {r : Except DeclarationError Unit}
    (hbody : ∀ b : Builder, b.Frame (body b).2) (hrun : body (b.inside name) = (r, c)) :
    b.outside c = b := by
  have hframe := hbody (b.inside name)
  rw [hrun] at hframe
  rw [Builder.outside, hframe.keys, hframe.noted]
  rfl

theorem appends_table {body : Declaring Unit} (hbody : ∀ b : Builder, b.Frame (body b).2)
    (name : String) (b : Builder) :
    (Declaring.table name body).Appends b fun ms =>
      ms = [.table ((Heading.named name).under b.keys.current)
        (body (b.inside name)).2.members] := by
  cases hopen : opened b name with
  | error e =>
    have hfail : Declaring.table name body b = (.error e, b) := by rw [Declaring.table, hopen]
    exact .of_error hfail
  | ok h =>
    obtain ⟨_, _, rfl⟩ := opened_eq_ok.1 hopen
    rcases hrun : body (b.inside name) with ⟨e | ⟨⟩, c⟩
    · have hfail := table_eq_error hopen hrun
      rw [outside_eq hbody hrun] at hfail
      exact .of_error hfail
    · have hdone := table_eq_ok.2 ⟨_, c, hopen, hrun, rfl⟩
      rw [outside_eq hbody hrun] at hdone
      exact .of_ok hdone rfl

end Declaring

/-! ## whole bodies -/

namespace Body

variable {σ : Type}

/-- a body changes nothing but the members of the innermost table -/
theorem frame_run (f : Body σ) (b : Builder) : b.Frame (f.run b).2.2 := by
  induction f generalizing b with
  | finish shared r => exact .refl b
  | add d next ih => exact (Declaring.appends_add d b).frame.trans (ih _ _)
  | splice f next ih => exact (Declaring.appends_splice f b).frame.trans (ih _ _)
  | table name body next ihbody ih =>
    rw [run_table]
    exact (Declaring.appends_table ihbody name b).frame.trans (ih _ _ _)
  | keyPrefix next ih => exact ih _ b

theorem frame_declaring (f : Body σ) (b : Builder) : b.Frame (f.declaring b).2 :=
  f.frame_run b

/-- The builders that a body comes by: those of its own table between its steps, and those of the
tables that it opens, under their names. -/
inductive Visits : Body σ → Builder → List String → Builder → Prop
  | here {f : Body σ} {b : Builder} : Visits f b [] b
  | add {d : Descriptor} {next : Except DeclarationError Unit → Body σ} {b c : Builder}
      {names : List String} :
      Visits (next (Declaring.add d b).1) (Declaring.add d b).2 names c →
        Visits (.add d next) b names c
  | splice {f : Fragment} {next : Except DeclarationError Unit → Body σ} {b c : Builder}
      {names : List String} :
      Visits (next (Declaring.splice f b).1) (Declaring.splice f b).2 names c →
        Visits (.splice f next) b names c
  | inside {name : String} {body : Body σ}
      {next : Option σ → Except DeclarationError Unit → Body σ} {b c : Builder}
      {names : List String} {h : Heading} :
      Declaring.opened b name = .ok h → Visits body (b.inside name) names c →
        Visits (.table name body next) b (name :: names) c
  | behind {name : String} {body : Body σ}
      {next : Option σ → Except DeclarationError Unit → Body σ} {b c : Builder}
      {names : List String} :
      Visits (next (body.shared? name b) (Declaring.table name body.declaring b).1)
          (Declaring.table name body.declaring b).2 names c →
        Visits (.table name body next) b names c
  | keyPrefix {next : String → Body σ} {b c : Builder} {names : List String} :
      Visits (next b.keys.current) b names c → Visits (.keyPrefix next) b names c

/-- the tables opened on the way are the innermost ones, and their names are identifiers -/
theorem Visits.current {f : Body σ} {b c : Builder} {names : List String}
    (h : f.Visits b names c) :
    c.keys.current = names.foldl joinKey b.keys.current
      ∧ ∀ name ∈ names, isIdentifier name = true := by
  induction h with
  | here => exact ⟨rfl, List.forall_mem_nil _⟩
  | @add d _ b _ _ _ ih =>
    rw [(Declaring.appends_add d b).frame.keys] at ih
    exact ih
  | @splice f _ b _ _ _ ih =>
    rw [(Declaring.appends_splice f b).frame.keys] at ih
    exact ih
  | @inside name body next b c names h hopen _ ih =>
    obtain ⟨hkey, hnames⟩ := ih
    obtain ⟨hident, _⟩ := Declaring.opened_eq_ok.1 hopen
    exact ⟨hkey, List.forall_mem_cons.2 ⟨hident, hnames⟩⟩
  | @behind name body _ b _ _ _ ih =>
    rw [(Declaring.appends_table body.frame_declaring name b).frame.keys] at ih
    exact ih
  | keyPrefix _ ih => exact ih

end Body

/-! ## key prefixes -/

theorem joinKey_of_isIdentifier {parent name : String} (hparent : parent ≠ "")
    (hname : isIdentifier name = true) : joinKey parent name = parent ++ "." ++ name := by
  have hhead : name.toList.head? ≠ some '[' := by
    intro hhead
    obtain ⟨cs, hcs⟩ := List.head?_eq_some_iff.1 hhead
    rw [isIdentifier, hcs, isIdentifierChars] at hname
    exact absurd (Bool.and_eq_true_iff.1 hname).1 (by decide)
  simp [joinKey, hhead, hparent]

theorem foldl_joinKey {parent : String} {names : List String} (hparent : parent ≠ "")
    (hnames : ∀ name ∈ names, isIdentifier name = true) :
    names.foldl joinKey parent = ".".intercalate (parent :: names) := by
  induction names generalizing parent with
  | nil => rfl
  | cons name names ih =>
    obtain ⟨hname, hnames⟩ := List.forall_mem_cons.1 hnames
    rw [List.foldl_cons, joinKey_of_isIdentifier hparent hname, ih (by simp) hnames]
    rfl

/-- the key of a table below the root has the names of the tables around it -/
theorem foldl_joinKey_root {names : List String}
    (hnames : ∀ name ∈ names, isIdentifier name = true) :
    names.foldl joinKey "" = ".".intercalate names := by
  cases names with
  | nil => rfl
  | cons name names =>
    obtain ⟨hname, hnames⟩ := List.forall_mem_cons.1 hnames
    have hne : name ≠ "" := by
      rintro rfl
      cases hname
    rw [List.foldl_cons, joinKey_root, foldl_joinKey hne hnames]

/-- **Steps that fail change nothing.**  Wherever a body is, its key prefix joins the names of all
open tables; a step that fails leaves the builder as it was there, and one that succeeds adds a
member, or the members of a fragment, at the end, and changes nothing else. -/
theorem Body.appends_of_visits {σ : Type} {f : Body σ} {noted names : List String} {b : Builder}
    (h : f.Visits (.empty noted) names b) :
    Declaring.keyPrefix b = (.ok (".".intercalate names), b)
      ∧ (∀ d, (Declaring.add d).Appends b
          fun ms => ∃ e, d.declare b.keys.current = .ok e ∧ ms = [e])
      ∧ (∀ name (body : Body σ), (Declaring.table name body.declaring).Appends b fun ms =>
          ms = [.table ((Heading.named name).under b.keys.current)
            (body.declaring (b.inside name)).2.members])
      ∧ ∀ f : Fragment, (Declaring.splice f).Appends b
          fun ms => ms = f.members.map Descriptor.splice := by
  obtain ⟨hcurrent, hnames⟩ := h.current
  refine ⟨?_, fun d => Declaring.appends_add d b,
    fun name body => Declaring.appends_table body.frame_declaring name b,
    fun f => Declaring.appends_splice f b⟩
  have hkey : b.keys.current = ".".intercalate names :=
    hcurrent.trans (foldl_joinKey_root hnames)
  rw [Declaring.keyPrefix, hkey]

/-- a member asked for twice, and a table given up inside another -/
def Body.twice : Body Unit :=
  .add (.atom (Heading.named "x") .bool none) fun _ =>
    .table "t"
      (.add (.atom (Heading.named "y") .bool none) fun _ =>
        .add (.atom (Heading.named "y") .bool none) fun r =>
          .table "u" (.add (.atom (Heading.named "z") .bool none) fun _ => .finish () r) fun _ _ =>
            .finish () (.ok ()))
      fun _ r => .finish () r

/-- inside the inner table, and after it was given up -/
theorem Body.appends_of_visits_twice :
    (∃ b, Body.twice.Visits (.empty []) ["t", "u"] b
        ∧ Declaring.keyPrefix b = (.ok "t.u", b) ∧ b.members.map Descriptor.key = ["t.u.z"])
      ∧ ∃ b, Body.twice.Visits (.empty []) ["t"] b
        ∧ Declaring.keyPrefix b = (.ok "t", b) ∧ b.members.map Descriptor.key = ["t.y"] := by
  have hinner : Body.twice.Visits (.empty []) ["t", "u"] _ :=
    .add (.inside rfl (.add (.add (.inside rfl (.add .here)))))
  have houter : Body.twice.Visits (.empty []) ["t"] _ :=
    .add (.inside rfl (.add (.add (.behind .here))))
  exact ⟨⟨_, hinner, (Body.appends_of_visits hinner).1, rfl⟩,
    ⟨_, houter, (Body.appends_of_visits houter).1, rfl⟩⟩

end ParamSchema
