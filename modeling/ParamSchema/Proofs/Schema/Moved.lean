import ParamSchema.Proofs.Schema.Settled

/-!
# Declaring under another key

Under another parent a descriptor is declared just as it is under the first, or refused for the same
mistake (`declare_agree`).  Once it is declared, declaring it again moves its keys, and nothing else
about it changes (`movable_declared`): this is what happens to the members of a table that is
declared on its own and then added to another.

* `DeclarationError.Alike`   errors that differ in the keys that they name;
* `Agree`                    outcomes that are alike, with results that belong together;
* `Descriptor.Movable`       a member that can be declared again anywhere;
* `Descriptor.SplicedInto`   the members of fragments, which keep the keys of their fragment.
-/

namespace ParamSchema

open Descriptor

/-! ## outcomes that differ in keys -/

/-- the same mistake, whatever the keys that are named -/
inductive DeclarationError.Alike : DeclarationError → DeclarationError → Prop
  | refl (e : DeclarationError) : Alike e e
  | duplicateName (k k' : String) : Alike (.duplicateName k) (.duplicateName k')
  | nestedOptional (k k' : String) : Alike (.nestedOptional k) (.nestedOptional k')
  | optionalWithDefault (k k' : String) : Alike (.optionalWithDefault k) (.optionalWithDefault k')
  | optionalElement (k k' : String) : Alike (.optionalElement k) (.optionalElement k')
  | defaultedElement (k k' : String) : Alike (.defaultedElement k) (.defaultedElement k')
  | emptyTuple (k k' : String) : Alike (.emptyTuple k) (.emptyTuple k')
  | invalidBounds (k k' : String) (least greatest : Nat) :
      Alike (.invalidBounds k least greatest) (.invalidBounds k' least greatest)
  /-- the reason lists the faults of the default, each at its key -/
  | invalidDefault (k k' : String) {fs gs : List Fault} :
      fs.map Fault.kind = gs.map Fault.kind →
        Alike (.invalidDefault k ("; ".intercalate (fs.map Fault.text)))
          (.invalidDefault k' ("; ".intercalate (gs.map Fault.text)))

/-- both fail, with errors that are alike, or both have results, which belong together -/
inductive Agree {α β : Type} (r : α → β → Prop) :
    Except DeclarationError α → Except DeclarationError β → Prop
  | ok {a : α} {b : β} : r a b → Agree r (.ok a) (.ok b)
  | error {e e' : DeclarationError} : e.Alike e' → Agree r (.error e) (.error e')

namespace Agree

variable {α β γ δ : Type} {r : α → β → Prop} {s : γ → δ → Prop}
  {x : Except DeclarationError α} {y : Except DeclarationError β}

theorem refl {r : α → α → Prop} (h : ∀ a, r a a) (x : Except DeclarationError α) :
    Agree r x x := by
  cases x with
  | error e => exact .error (.refl e)
  | ok a => exact .ok (h a)

theorem cases (h : Agree r x y) :
    (∃ e e', x = .error e ∧ y = .error e' ∧ e.Alike e') ∨ ∃ a b, x = .ok a ∧ y = .ok b ∧ r a b := by
  cases h with
  | ok hab => exact .inr ⟨_, _, rfl, rfl, hab⟩
  | error he => exact .inl ⟨_, _, rfl, rfl, he⟩

theorem imp {s : α → β → Prop} (h : Agree r x y) (hrs : ∀ a b, r a b → s a b) : Agree s x y := by
  cases h with
  | ok hab => exact .ok (hrs _ _ hab)
  | error he => exact .error he

/-- the results may be known to be those -/
theorem results (h : Agree r x y) : Agree (fun a b => x = .ok a ∧ y = .ok b ∧ r a b) x y := by
  cases h with
  | ok hab => exact .ok ⟨rfl, rfl, hab⟩
  | error he => exact .error he

theorem bind {f : α → Except DeclarationError γ} {g : β → Except DeclarationError δ}
    (h : Agree r x y) (hfg : ∀ a b, r a b → Agree s (f a) (g b)) :
    Agree s (x >>= f) (y >>= g) := by
  cases h with
  | ok hab => exact hfg _ _ hab
  | error he => exact .error he

theorem map {f : α → γ} {g : β → δ} (h : Agree r x y) (hfg : ∀ a b, r a b → s (f a) (g b)) :
    Agree s (x.map f) (y.map g) := by
  cases h with
  | ok hab => exact .ok (hfg _ _ hab)
  | error he => exact .error he

theorem mapM {ι : Type} {f : ι → Except DeclarationError α} {g : ι → Except DeclarationError β}
    {is : List ι} (h : ∀ i ∈ is, Agree r (f i) (g i)) :
    Agree (List.Forall₂ r) (is.mapM f) (is.mapM g) := by
  induction is with
  | nil => exact .ok .nil
  | cons i is ih =>
    obtain ⟨hi, his⟩ := List.forall_mem_cons.1 h
    rw [List.mapM_cons, List.mapM_cons]
    exact hi.bind fun a b hab => (ih his).bind fun as bs habs => .ok (.cons hab habs)

end Agree

namespace Descriptor

/-! ## declaring under two parents -/

/-- nothing but keys and marks tells them apart -/
def KeysAside (d e : Descriptor) : Prop := d.unkeyed = e.unkeyed

theorem KeysAside.sameFaults {d e : Descriptor} (h : KeysAside d e) : SameFaults d e :=
  sameFaults_of_unkeyed h.symm

theorem unkeyedAll_congr {ds es : List Descriptor} (h : List.Forall₂ KeysAside ds es) :
    unkeyedAll ds = unkeyedAll es := by
  induction h with
  | nil => rfl
  | cons hde _ ih => rw [unkeyedAll, unkeyedAll, ih, hde]

theorem qualify_agree (h : Heading) (p q : String) :
    Agree (fun g g' => g.unkeyed = g'.unkeyed) (h.qualify p) (h.qualify q) := by
  unfold Heading.qualify
  split
  · exact .ok rfl
  · exact .error (.refl _)

theorem checkElement_agree {d e : Descriptor} (h : KeysAside d e) :
    Agree Eq d.checkElement e.checkElement := by
  rw [checkElement, checkElement, h.sameFaults.isOptional, h.sameFaults.hasDefault]
  split
  · exact .error (.optionalElement _ _)
  · split
    · exact .error (.defaultedElement _ _)
    · exact .ok rfl

theorem checkInner_agree {d e : Descriptor} (h : KeysAside d e) :
    Agree Eq d.checkInner e.checkInner := by
  rw [checkInner, checkInner, h.sameFaults.isOptional, h.sameFaults.hasDefault]
  split
  · exact .error (.nestedOptional _ _)
  · split
    · exact .error (.optionalWithDefault _ _)
    · exact .ok rfl

theorem checkBound_agree (k k' : String) (b : LengthBound) :
    Agree Eq (checkBound k b) (checkBound k' b) := by
  cases b with
  | any => exact .ok rfl
  | exactly n => exact .ok rfl
  | between least greatest =>
    rw [checkBound, checkBound]
    split
    · exact .error (.invalidBounds _ _ _ _)
    · exact .ok rfl

/-- a default has the same faults under either key, and binds to the same -/
theorem conform_agree {d e : Descriptor} (h : KeysAside d e) (x : Bound) :
    Agree Eq (d.conform x) (e.conform x) := by
  have hkinds : (d.faults [] d.key x.toValue).map Fault.kind
      = (e.faults [] e.key x.toValue).map Fault.kind := by
    rw [h.sameFaults.faults]
    exact kinds_faults _ _ d _
  rw [conform, conform]
  by_cases hclean : d.faults [] d.key x.toValue = []
  · obtain ⟨b, hb⟩ := exists_bind_eq_ok hclean
    rw [hclean] at hkinds
    have hclean' : e.faults [] e.key x.toValue = [] := List.map_eq_nil_iff.1 hkinds.symm
    simp only [hclean, hclean', hb, bind_of_unkeyed_eq h e.key hb]
    exact .ok rfl
  · have hclean' : e.faults [] e.key x.toValue ≠ [] := by
      intro hnil
      rw [hnil] at hkinds
      exact hclean (List.map_eq_nil_iff.1 hkinds)
    simp only [List.isEmpty_iff, if_neg hclean, if_neg hclean']
    exact .error (.invalidDefault _ _ hkinds)

theorem conform?_agree {d e : Descriptor} (h : KeysAside d e) (x : Option Bound) :
    Agree Eq (d.conform? x) (e.conform? x) := by
  cases x with
  | none => exact .ok rfl
  | some c => exact (conform_agree h c).map fun _ _ hc => congrArg some hc

theorem declareElements_agree {es : List Descriptor} {p q : String}
    (h : ∀ e ∈ es, Agree KeysAside (e.declare p) (e.declare q)) :
    Agree (List.Forall₂ KeysAside) (declareElements p es) (declareElements q es) := by
  induction es with
  | nil =>
    rw [declareElements, declareElements]
    exact .ok .nil
  | cons e es ih =>
    obtain ⟨he, hes⟩ := List.forall_mem_cons.1 h
    rw [declareElements, declareElements]
    refine he.bind fun f g hfg => (checkElement_agree hfg).bind fun _ _ _ => ?_
    exact (ih hes).bind fun fs gs hfgs => .ok (.cons hfg hfgs)

theorem declareMember_agree {d : Descriptor} {p q : String}
    (h : Agree KeysAside (d.declare p) (d.declare q)) :
    Agree KeysAside (declareMember p d) (declareMember q d) := by
  unfold declareMember
  split
  · exact .ok rfl
  · exact h

/-- under either parent a descriptor is declared alike, or refused for the same mistake -/
theorem declare_agree (d : Descriptor) (p q : String) :
    Agree KeysAside (d.declare p) (d.declare q) := by
  induction d generalizing p q with
  | atom h t x =>
    rw [declare, declare]
    refine (qualify_agree h p q).bind fun g g' hg => .ok ?_
    rw [KeysAside, unkeyed, unkeyed, hg]
  | sequence h e b x ih =>
    rw [declare, declare]
    refine (qualify_agree h p q).bind fun g g' hg => ?_
    refine (ih g.key g'.key).bind fun f f' hf => ?_
    have hplain : KeysAside (.sequence g f b none) (.sequence g' f' b none) := by
      rw [KeysAside, unkeyed, unkeyed, hg, hf]
    refine (checkElement_agree hf).bind fun _ _ _ => ?_
    refine (checkBound_agree _ _ b).bind fun _ _ _ => ?_
    refine (conform?_agree hplain x).bind fun y _ hy => .ok ?_
    rw [KeysAside, unkeyed, unkeyed, hg, hf, hy]
  | tuple h es x ih =>
    rw [declare, declare]
    refine (qualify_agree h p q).bind fun g g' hg => ?_
    split
    · exact .error (.emptyTuple _ _)
    · refine (declareElements_agree fun e he => ih e he _ _).bind fun fs fs' hfs => ?_
      have hplain : KeysAside (.tuple g fs none) (.tuple g' fs' none) := by
        rw [KeysAside, unkeyed, unkeyed, hg, unkeyedAll_congr hfs]
      refine (conform?_agree hplain x).bind fun y _ hy => .ok ?_
      rw [KeysAside, unkeyed, unkeyed, hg, unkeyedAll_congr hfs, hy]
  | table h ms ih =>
    rw [declare, declare]
    refine (qualify_agree h p q).bind fun g g' hg => ?_
    rw [declareMembers_eq_mapM, declareMembers_eq_mapM]
    refine (Agree.mapM fun d hd => declareMember_agree (ih d hd _ _)).bind fun ns ns' hns => .ok ?_
    rw [KeysAside, unkeyed, unkeyed, hg, unkeyedAll_congr hns]
  | optional d ih =>
    rw [declare, declare]
    refine (ih p q).bind fun e f hef => (checkInner_agree hef).bind fun _ _ _ => .ok ?_
    rw [KeysAside, unkeyed, unkeyed, hef]

/-! ## declaring again -/

/-- a table may declare it again, and only its keys are moved -/
def Movable (d : Descriptor) : Prop := ∀ p, declareMember p d = .ok (d.underMember p)

theorem movable_of_spliced {d : Descriptor} (h : d.heading.spliced = true) : d.Movable := by
  intro p
  rw [declareMember, underMember, if_pos h, if_pos h]

/-- what has been declared can be declared under any other parent -/
theorem exists_declare_declared {d e : Descriptor} {p : String} (hd : d.Drafted)
    (h : d.declare p = .ok e) (q : String) : ∃ f, e.declare q = .ok f := by
  have hwf := wellFormed_of_declare hd h
  induction d generalizing e p q with
  | atom hd' t x =>
    obtain ⟨g, hg, rfl⟩ := declare_atom_eq_ok.1 h
    obtain ⟨hvalid, rfl⟩ := qualify_eq_ok.1 hg
    exact exists_declare_atom hvalid q
  | sequence hd' e' b x ih =>
    cases hd with
    | sequence he' =>
      obtain ⟨g, f, y, hg, hf, hbare, hb, _, rfl⟩ := declare_sequence_eq_ok.1 h
      obtain ⟨hvalid, rfl⟩ := qualify_eq_ok.1 hg
      have hfwf := hwf.within (.element .self)
      exact exists_declare_sequence hvalid hfwf.drafted (ih he' hf _ hfwf) hbare hb
        hwf.settled_sequence.1
  | tuple hd' es x ih =>
    cases hd with
    | tuple hes =>
      obtain ⟨g, fs, y, hg, hne, hfs, _, rfl⟩ := declare_tuple_eq_ok.1 h
      obtain ⟨hvalid, rfl⟩ := qualify_eq_ok.1 hg
      have hne' : fs ≠ [] := by
        rintro rfl
        exact hne (List.forall₂_nil_right_iff.1 hfs)
      have hfwf : ∀ f ∈ fs, f.WellFormed := fun f hf => hwf.within (.place hf .self)
      refine exists_declare_tuple hvalid hne' (fun f hf => (hfwf f hf).drafted) (fun f hf => ?_)
        hwf.settled_tuple.1
      obtain ⟨e', he', hef, hbare⟩ := exists_mem_of_forall₂ hfs f hf
      exact ⟨ih e' he' (hes e' he') hef _ (hfwf f hf), hbare⟩
  | table hd' ms ih =>
    cases hd with
    | table _ _ hms =>
      obtain ⟨g, ns, hg, hns, rfl⟩ := declare_table_eq_ok.1 h
      obtain ⟨hvalid, rfl⟩ := qualify_eq_ok.1 hg
      refine exists_declare_table hvalid fun n hn => ?_
      obtain ⟨m, hm, hmn⟩ := exists_mem_of_forall₂ hns n hn
      by_cases hspliced : n.heading.spliced = true
      · exact ⟨_, movable_of_spliced hspliced _⟩
      · rw [declareMember, if_neg hspliced]
        -- a member that is not spliced was declared before
        unfold declareMember at hmn
        split at hmn
        · rename_i hm'
          exact absurd (Except.ok.inj hmn ▸ hm') hspliced
        · exact ih m hm (hms m hm).drafted hmn _ (hwf.within (.member hn .self))
  | optional d ih =>
    cases hd with
    | optional hd =>
      obtain ⟨f, hf, hbare, rfl⟩ := declare_optional_eq_ok.1 h
      have hfwf := hwf.within (.inner .self)
      exact exists_declare_optional hfwf.drafted (ih hd hf q hfwf) hbare

/-- what has been declared has its defaults as they are bound, so they stay -/
theorem declare_declared {d e : Descriptor} {p : String} (hd : d.Drafted)
    (h : d.declare p = .ok e) (q : String) : e.declare q = .ok (e.under q) := by
  have hwf := wellFormed_of_declare hd h
  obtain ⟨f, hf⟩ := exists_declare_declared hd h q
  rw [hf, declare_eq_under hwf.drafted hf, settle_of_wellFormed hwf]

theorem movable_declared {d e : Descriptor} {p : String} (hd : d.Drafted)
    (h : d.declare p = .ok e) : e.Movable := by
  intro q
  unfold declareMember underMember
  split
  · rfl
  · exact declare_declared hd h q

theorem movable_table {h : Heading} {ms : List Descriptor} (hname : isValidName h.name = true)
    (hms : ∀ m ∈ ms, m.Movable) : (Descriptor.table h ms).Movable := by
  intro q
  have hall : List.Forall₂ (fun m n => declareMember (joinKey q h.name) m = .ok n) ms
      (underMembers (joinKey q h.name) ms) := by
    rw [underMembers_eq_map, List.forall₂_map_right_iff, List.forall₂_same]
    exact fun m hm => hms m hm _
  unfold declareMember underMember
  split
  · rfl
  · rw [under]
    exact declare_table_eq_ok.2 ⟨_, _, qualify_eq_ok.2 ⟨hname, rfl⟩, hall, rfl⟩

theorem declare_of_movable {d : Descriptor} (hd : d.Movable) (hspliced : d.heading.spliced = false)
    (p : String) : d.declare p = .ok (d.under p) := by
  have hp := hd p
  rw [declareMember, underMember, hspliced] at hp
  exact hp

/-- the members of a table are moved with it -/
theorem under_table {h : Heading} {ms : List Descriptor} (p : String) :
    (Descriptor.table h ms).under p
      = .table (h.under p) (ms.map (underMember (joinKey p h.name))) := by
  rw [under, underMembers_eq_map]

/-! ## what was spliced in -/

/-- `m` came from a fragment into one of the tables of a descriptor -/
inductive SplicedInto (m : Descriptor) : Descriptor → Prop
  | here {h : Heading} {ms : List Descriptor} :
      m ∈ ms → m.heading.spliced = true → SplicedInto m (.table h ms)
  | member {h : Heading} {ms : List Descriptor} {d : Descriptor} :
      d ∈ ms → SplicedInto m d → SplicedInto m (.table h ms)
  | element {h : Heading} {e : Descriptor} {b : LengthBound} {x : Option Bound} :
      SplicedInto m e → SplicedInto m (.sequence h e b x)
  | place {h : Heading} {es : List Descriptor} {x : Option Bound} {e : Descriptor} :
      e ∈ es → SplicedInto m e → SplicedInto m (.tuple h es x)
  | inner {d : Descriptor} : SplicedInto m d → SplicedInto m (.optional d)

theorem splicedInto_underMember {m d : Descriptor} {p : String}
    (h : m.SplicedInto (d.under p) ↔ m.SplicedInto d) :
    m.SplicedInto (d.underMember p) ↔ m.SplicedInto d := by
  unfold underMember
  split
  · rfl
  · exact h

/-- wherever a descriptor is moved, the members of fragments stay in it as they are -/
theorem splicedInto_under (m d : Descriptor) (p : String) :
    m.SplicedInto (d.under p) ↔ m.SplicedInto d := by
  induction d generalizing p with
  | atom h t x =>
    rw [under]
    constructor <;> intro hm <;> cases hm
  | sequence h e b x ih =>
    rw [under]
    constructor
    · intro hm
      cases hm with
      | element hm => exact .element ((ih _).1 hm)
    · intro hm
      cases hm with
      | element hm => exact .element ((ih _).2 hm)
  | tuple h es x ih =>
    rw [under, underElements_eq_map]
    constructor
    · intro hm
      cases hm with
      | place hmem hm =>
        obtain ⟨e, he, rfl⟩ := List.mem_map.1 hmem
        exact .place he ((ih e he _).1 hm)
    · intro hm
      cases hm with
      | place he hm => exact .place (List.mem_map_of_mem he) ((ih _ he _).2 hm)
  | table h ms ih =>
    rw [under, underMembers_eq_map]
    constructor
    · intro hm
      cases hm with
      | here hmem hspliced =>
        obtain ⟨n, hn, rfl⟩ := List.mem_map.1 hmem
        rw [(heading_underMember _ n).1] at hspliced
        rw [underMember, if_pos hspliced]
        exact .here hn hspliced
      | member hmem hm =>
        obtain ⟨d, hd, rfl⟩ := List.mem_map.1 hmem
        exact .member hd ((splicedInto_underMember (ih d hd _)).1 hm)
    · intro hm
      cases hm with
      | here hmem hspliced =>
        have hstays : m.underMember (joinKey p h.name) = m := by rw [underMember, if_pos hspliced]
        exact .here (List.mem_map.2 ⟨m, hmem, hstays⟩) hspliced
      | member hd hm =>
        exact .member (List.mem_map_of_mem hd) ((splicedInto_underMember (ih _ hd _)).2 hm)
  | optional d ih =>
    rw [under]
    constructor
    · intro hm
      cases hm with
      | inner hm => exact .inner ((ih _).1 hm)
    · intro hm
      cases hm with
      | inner hm => exact .inner ((ih _).2 hm)

end Descriptor
end ParamSchema
