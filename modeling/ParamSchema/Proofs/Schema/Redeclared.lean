import ParamSchema.Proofs.Schema.Body
import ParamSchema.Proofs.Schema.Declared
import ParamSchema.Proofs.Schema.Moved
import ParamSchema.Proofs.Schema.Rebind

/-!
# Declaring again

A table is declared when it is built, and again under every parent that it is given to: as a member,
as the element of a sequence, as a place of a tuple.  Each time the defaults in it are taken out,
checked and put back.  From the second time on nothing comes of that but other keys
(`Descriptor.declare_again`), whatever the descriptor was assembled from.

* `Descriptor.Assembled`   what can be put together from atoms and from tables that were built;
* `Body.Assembles`         the bodies of such tables;
* `assembled_drafted`      all that is assembled is a draft.
-/

namespace ParamSchema

/-! ## what can be assembled -/

mutual

/-- Put together from parts.  Names, comments, bounds and the defaults of sequences and tuples may
be anything; the default of an atom is of its type, and the members of a table come from a body. -/
inductive Descriptor.Assembled : Descriptor → Prop
  | atom {h : Heading} {t : ScalarType} {x : Option Scalar} :
      (∀ s ∈ x, t.Holds s) → Descriptor.Assembled (.atom h t x)
  | sequence {h : Heading} {e : Descriptor} {b : LengthBound} {x : Option Bound} :
      e.Assembled → Descriptor.Assembled (.sequence h e b x)
  | tuple {h : Heading} {es : List Descriptor} {x : Option Bound} :
      (∀ e ∈ es, e.Assembled) → Descriptor.Assembled (.tuple h es x)
  | optional {d : Descriptor} : d.Assembled → Descriptor.Assembled (.optional d)
  /-- a table that was built, under any name and with any comment -/
  | table {σ : Type} {body : Body σ} {name : String} {s : Schema} (h : Heading) :
      body.Assembles → Schema.build name body.declaring = .ok s →
        Descriptor.Assembled (.table h s.members)
  /-- a member of a fragment, taken out of it -/
  | shared {σ : Type} {body : Body σ} {f : Fragment} {d : Descriptor} :
      body.Assembles → Fragment.build body.declaring = .ok f → d ∈ f.members → d.Assembled
  /-- a part of a descriptor, taken out of it -/
  | part {d e : Descriptor} : d.Assembled → e.Within d → e.Assembled

/-- adds what is assembled and includes fragments that were built, whatever the answers are -/
inductive Body.Assembles : {σ : Type} → Body σ → Prop
  | finish {σ : Type} {shared : σ} {r : Except DeclarationError Unit} :
      Body.Assembles (.finish shared r)
  | add {σ : Type} {d : Descriptor} {next : Except DeclarationError Unit → Body σ} :
      d.Assembled → (∀ r, (next r).Assembles) → Body.Assembles (.add d next)
  | splice {σ τ : Type} {body : Body τ} {f : Fragment}
      {next : Except DeclarationError Unit → Body σ} :
      body.Assembles → Fragment.build body.declaring = .ok f → (∀ r, (next r).Assembles) →
        Body.Assembles (.splice f next)
  | table {σ : Type} {name : String} {body : Body σ}
      {next : Option σ → Except DeclarationError Unit → Body σ} :
      body.Assembles → (∀ s r, (next s r).Assembles) → Body.Assembles (.table name body next)
  | keyPrefix {σ : Type} {next : String → Body σ} :
      (∀ p, (next p).Assembles) → Body.Assembles (.keyPrefix next)

end

/-! ## what is assembled is a draft -/

theorem Descriptor.Drafted.within {d e : Descriptor} (hd : d.Drafted) (he : e.Within d) :
    e.Drafted := by
  induction he with
  | self => exact hd
  | element _ ih =>
    cases hd with
    | sequence hf => exact ih hf
  | place hmem _ ih =>
    cases hd with
    | tuple hes => exact ih (hes _ hmem)
  | member hmem _ ih =>
    cases hd with
    | table _ _ hms => exact ih (hms _ hmem).drafted
  | inner _ ih =>
    cases hd with
    | optional hf => exact ih hf

namespace Declaring

variable {body : Declaring Unit}

theorem Keeps.schema {name : String} {s : Schema} (hbody : body.Keeps fun _ => True)
    (h : Schema.build name body = .ok s) : WellFormedMembers s.members :=
  (keeps_declareSchema hbody (.empty []) .nil).2 s h

theorem Keeps.fragment {f : Fragment} (hbody : body.Keeps fun _ => True)
    (h : Fragment.build body = .ok f) : WellFormedMembers f.members :=
  (keeps_declareFragment hbody (.empty []) .nil).2 f h

end Declaring

-- by induction on how the descriptor was assembled: a table is a draft since its body keeps the
-- members well formed, and a body does that since what it adds is a draft
mutual

theorem assembled_drafted {d : Descriptor} (h : d.Assembled) : d.Drafted := by
  match h with
  | .atom hx => exact .atom hx
  | .sequence he => exact .sequence (assembled_drafted he)
  | .tuple hes => exact .tuple fun e he => assembled_drafted (hes e he)
  | .optional hd => exact .optional (assembled_drafted hd)
  | .table h hbody hs => exact ((assembles_keeps hbody).schema hs).drafted h
  | .shared hbody hf hd => exact (((assembles_keeps hbody).fragment hf).wellFormed _ hd).drafted
  | .part hd he => exact (assembled_drafted hd).within he

theorem assembles_keeps {σ : Type} {f : Body σ} (h : f.Assembles) :
    f.declaring.Keeps fun _ => True := by
  intro b hb
  refine ⟨?_, fun _ _ => trivial⟩
  match h with
  | .finish => exact hb
  | .add hd hnext =>
    refine (assembles_keeps (hnext _) _ ?_).1
    exact (Declaring.Keeps.add (assembled_drafted hd) b hb).1
  | .splice hbody hf hnext =>
    refine (assembles_keeps (hnext _) _ ?_).1
    exact (Declaring.Keeps.splice ((assembles_keeps hbody).fragment hf) b hb).1
  | .table hbody hnext =>
    refine (assembles_keeps (hnext _ _) _ ?_).1
    exact (Declaring.Keeps.table (assembles_keeps hbody) b hb).1
  | .keyPrefix hnext => exact (assembles_keeps (hnext _) b hb).1

end

namespace Descriptor

/-! ## defaults in their form -/

/-- a default that was brought into form is in its form -/
theorem WellFormed.conform_again {d : Descriptor} (hd : d.WellFormed) {x y : Bound}
    (h : d.conform x = .ok y) : d.conform y = .ok y := by
  obtain ⟨ignore, key, v, hclean, hbind⟩ := yields_of_conform h
  obtain ⟨_, hclean, hbound⟩ := settles_some.1 (Settling.present hd.settling hclean hbind)
  rw [conform, hclean, hbound]
  rfl

/-- **Declared again.**  What was declared under one prefix can be declared under any other.  That
gives what the descriptor itself would have been there: the same tree with the same defaults, its
keys below the new prefix at every depth, and the members of fragments with the keys that they had.
A default that was brought into its form stays as it is. -/
theorem declare_again {d e : Descriptor} {p : String} (hd : d.Assembled)
    (h : d.declare p = .ok e) :
    (∀ q, e.declare q = .ok (e.under q) ∧ d.declare q = .ok (e.under q)
        ∧ (e.under q).unkeyed = e.unkeyed
        ∧ ∀ m : Descriptor, m.SplicedInto (e.under q) ↔ m.SplicedInto e)
      ∧ ∀ x y, e.conform x = .ok y → e.conform y = .ok y := by
  have hdraft := assembled_drafted hd
  have hwf := wellFormed_of_declare hdraft h
  refine ⟨fun q => ?_, fun x y hy => hwf.conform_again hy⟩
  have hother : d.declare q = .ok (e.under q) := by
    have hagree := declare_agree d p q
    rw [h] at hagree
    cases hf : d.declare q with
    | error _ =>
      rw [hf] at hagree
      cases hagree
    | ok f => rw [declare_eq_under hdraft hf, declare_eq_under hdraft h, under_under]
  exact ⟨declare_declared hdraft h q, hother, unkeyed_under q e, fun m => splicedInto_under m e q⟩

/-- a weight, and a unit that need not be given -/
def rowBody : Body Unit :=
  .add (.atom (Heading.named "weight") (.unsigned .w8) none) fun _ =>
    .add (.atom (Heading.named "unit") .string (some (.string "kg"))) fun r => .finish () r

def row : Schema :=
  ⟨Heading.named "row",
    [.atom (Heading.named "weight") (.unsigned .w8) none,
      .atom (Heading.named "unit") .string (some (.string "kg"))]⟩

/-- rows, whose default names a weight only, and that as a signed number -/
def rows : Descriptor :=
  sequenceOf "rows" "what was weighed" row.toDescriptor .any
    (some (.sequence [.table [("weight", .scalar (.int 3))]]))

def rowsIn (parent : String) : Descriptor :=
  .sequence ⟨"rows", "what was weighed", parent ++ ".rows", false⟩
    (.table ⟨"[0]", "", parent ++ ".rows[0]", false⟩
      [.atom ⟨"weight", "", parent ++ ".rows[0].weight", false⟩ (.unsigned .w8) none,
        .atom ⟨"unit", "", parent ++ ".rows[0].unit", false⟩ .string (some (.string "kg"))])
    .any
    (some (.sequence [.table [("weight", .scalar (.uint 3)), ("unit", .scalar (.string "kg"))]]))

theorem declare_again_rows :
    rows.Assembled ∧ rows.declare "store" = .ok (rowsIn "store")
      ∧ (rowsIn "store").declare "shop" = .ok (rowsIn "shop") := by
  have hbody : rowBody.Assembles := by
    refine .add (.atom nofun) fun _ => .add (.atom ?_) fun _ => .finish
    rintro s ⟨⟩
    exact trivial
  have hrow : Schema.build "row" rowBody.declaring = .ok row := by rfl
  have hrows : rows.Assembled := .sequence (.table _ hbody hrow)
  have hstore : rows.declare "store" = .ok (rowsIn "store") := by rfl
  exact ⟨hrows, hstore, ((declare_again hrows hstore).1 "shop").1⟩

end Descriptor
end ParamSchema
