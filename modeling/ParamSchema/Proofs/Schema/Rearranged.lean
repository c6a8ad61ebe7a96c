import ParamSchema.Proofs.Schema.Rebind

/-!
# Only the contents of an input count

The entries of a table may be given in any order, at any depth, and may come from anywhere
(`Value.Rearranges`).  A descriptor looks its members up by their names, so both walks take the
same way through a value and through the value rearranged.  Only the keys that no member names are
met in the order of the input.

* `Entries.get?_of_perm`     distinct keys are looked up alike in any order;
* `Reordered`                lists of faults that differ in the places of unknown keys at most;
* `faults_of_rearranges`, `bind_of_rearranges`   the two walks, by induction on the descriptor;
* `Schema.bind_rearranged`   a parameter set and its rearrangement have the same outcome.
-/

namespace ParamSchema

/-! ## rearranged values -/

/-- The same contents: atoms keep their texts and sequences their order; the entries of a table are
permuted, and what they hold is rearranged in turn. -/
inductive Value.Rearranges : Value → Value → Prop where
  | atom (o o' : Option Origin) (text : String) : Rearranges (.atom o text) (.atom o' text)
  | sequence (o o' : Option Origin) {xs ys : List Value} (elements : List.Forall₂ Rearranges xs ys) :
    Rearranges (.sequence o xs) (.sequence o' ys)
  | table (o o' : Option Origin) {es gs : List (String × Value)} (fs : List (String × Value))
    (keys : Entries.keys es = Entries.keys fs)
    (values : List.Forall₂ Rearranges (es.map Prod.snd) (fs.map Prod.snd)) (order : fs.Perm gs) :
    Rearranges (.table o es) (.table o' gs)

/-- parameter sets are rearranged as tables are -/
def ParamSet.Rearranges (p q : ParamSet) : Prop :=
  (Value.table none p).Rearranges (.table none q)

/-! ## looking up a name -/

section
variable {α β : Type} {es fs : Entries α}

theorem Entries.get?_of_perm (hdistinct : es.keys.Nodup) (h : es.Perm fs) (name : String) :
    es.get? name = fs.get? name := by
  have hkeys : es.keys.Perm fs.keys := h.map Prod.fst
  cases hv : es.get? name with
  | some v =>
    have hmem : (name, v) ∈ fs := h.subset (mem_of_get? hv)
    exact (get?_of_mem (hkeys.nodup hdistinct) hmem).symm
  | none =>
    rw [get?_eq_none] at hv
    exact (get?_eq_none.2 fun hmem => hv (hkeys.symm.subset hmem)).symm

theorem Entries.get?_of_forall₂ {r : α → β → Prop} {gs : Entries β} (hkeys : es.keys = gs.keys)
    (h : List.Forall₂ r (es.map Prod.snd) (gs.map Prod.snd)) (name : String) :
    Option.Rel r (es.get? name) (gs.get? name) := by
  induction es generalizing gs with
  | nil =>
    cases gs with
    | nil => exact .none
    | cons g gs => cases h
  | cons e es ih =>
    cases gs with
    | nil => cases h
    | cons g gs =>
      rw [keys_cons, keys_cons] at hkeys
      obtain ⟨hname, hkeys⟩ := List.cons.inj hkeys
      obtain ⟨hvalue, hvalues⟩ := List.forall₂_cons.1 h
      rw [get?, get?, hname]
      split
      · exact .some hvalue
      · exact ih hkeys hvalues

end

/-- a rearranged table holds the same names, with what they hold rearranged -/
theorem Value.Rearranges.get? {o o' : Option Origin} {p q : ParamSet}
    (h : (Value.table o p).Rearranges (.table o' q)) (hp : (Value.table o p).Distinct)
    (name : String) :
    Option.Rel (fun v w => v.Distinct ∧ v.Rearranges w) (Entries.get? p name)
      (Entries.get? q name) := by
  rw [Value.Distinct, entriesDistinct_iff] at hp
  cases h with
  | table _ _ fs hkeys hvalues horder =>
    have hrel := Entries.get?_of_forall₂ hkeys hvalues name
    rw [Entries.get?_of_perm (hkeys ▸ hp.1) horder name] at hrel
    cases hv : Entries.get? p name with
    | none =>
      rw [hv] at hrel
      generalize Entries.get? q name = w? at hrel ⊢
      cases hrel
      exact .none
    | some v =>
      rw [hv] at hrel
      generalize Entries.get? q name = w? at hrel ⊢
      cases hrel with
      | some hvw => exact .some ⟨hp.2 _ (Entries.mem_of_get? hv), hvw⟩

theorem Value.Rearranges.perm_keys {o o' : Option Origin} {p q : ParamSet}
    (h : (Value.table o p).Rearranges (.table o' q)) :
    (Entries.keys p).Perm (Entries.keys q) := by
  cases h with
  | table _ _ fs hkeys _ horder =>
    rw [hkeys]
    exact horder.map Prod.fst

theorem decodeAtom_of_rearranges {v w : Value} (t : ScalarType) (h : v.Rearranges w) :
    decodeAtom t v = decodeAtom t w := by
  cases h <;> rfl

/-! ## reordered faults -/

/-- is the fault about a parameter of the schema? -/
def Fault.isKnown (f : Fault) : Bool := f.kind ≠ .unknown

/-- the same faults; those about parameters of the schema come in the same order -/
structure Reordered (fs gs : List Fault) : Prop where
  perm : fs.Perm gs
  known : fs.filter Fault.isKnown = gs.filter Fault.isKnown

namespace Reordered

variable {fs gs fs' gs' : List Fault}

theorem refl (fs : List Fault) : Reordered fs fs := ⟨.refl fs, rfl⟩

theorem append (h : Reordered fs gs) (h' : Reordered fs' gs') :
    Reordered (fs ++ fs') (gs ++ gs') := by
  refine ⟨h.perm.append h'.perm, ?_⟩
  rw [List.filter_append, List.filter_append, h.known, h'.known]

theorem flatMap {α : Type} {f g : α → List Fault} {xs : List α}
    (h : ∀ x ∈ xs, Reordered (f x) (g x)) : Reordered (xs.flatMap f) (xs.flatMap g) := by
  induction xs with
  | nil => exact refl []
  | cons x xs ih =>
    obtain ⟨hx, hxs⟩ := List.forall_mem_cons.1 h
    exact hx.append (ih hxs)

/-- unknown keys may change their places, for none of them is known -/
theorem of_unknown (h : fs.Perm gs) (hunknown : ∀ f ∈ fs, f.kind = .unknown) : Reordered fs gs := by
  have hnone : ∀ f ∈ fs, ¬ f.isKnown = true := by
    intro f hf
    simp [Fault.isKnown, hunknown f hf]
  refine ⟨h, ?_⟩
  rw [List.filter_eq_nil_iff.2 hnone,
    List.filter_eq_nil_iff.2 fun f hf => hnone f (h.symm.subset hf)]

end Reordered

/-- keys that no member names are reported in the order of the input, and so permuted with it -/
theorem reordered_unknownFaults (ignore : List String) (key : String) (ms : List Descriptor)
    {p q : ParamSet} (h : (Entries.keys p).Perm (Entries.keys q)) :
    Reordered (unknownFaults ignore key ms p) (unknownFaults ignore key ms q) := by
  refine .of_unknown (((h.filter _).map _).filterMap _) fun f hf => ?_
  obtain ⟨k, _, hk⟩ := List.mem_filterMap.1 hf
  split at hk
  · cases hk
  · rw [← Option.some.inj hk]

/-! ## validation -/

namespace Descriptor

variable {ignore : List String} {key : String}

section
variable {e : Descriptor} {es ms : List Descriptor} {xs ys : List Value}

theorem reordered_elements
    (h : List.Forall₂ (fun x y => ∀ key, Reordered (e.faults ignore key x) (e.faults ignore key y))
      xs ys) (i : Nat) :
    Reordered ((xs.zipIdx i).map fun (x, i) => e.faults ignore (indexKey key i) x).flatten
      ((ys.zipIdx i).map fun (y, i) => e.faults ignore (indexKey key i) y).flatten := by
  induction h generalizing i with
  | nil => exact .refl []
  | cons hxy _ ih => exact (hxy (indexKey key i)).append (ih (i + 1))

theorem reordered_places
    (h : List.Forall₂ (fun x y => ∀ e ∈ es, ∀ key,
      Reordered (e.faults ignore key x) (e.faults ignore key y)) xs ys) (i : Nat) :
    Reordered (placeFaults ignore key i es xs) (placeFaults ignore key i es ys) := by
  induction es generalizing i xs ys with
  | nil => exact .refl []
  | cons e es ih =>
    cases h with
    | nil => exact .refl []
    | cons hxy hxys =>
      rw [placeFaults, placeFaults]
      refine (hxy e List.mem_cons_self _).append (ih ?_ (i + 1))
      exact hxys.imp fun x y hxy d hd => hxy d (List.mem_cons_of_mem e hd)

end

theorem reordered_entry {r : Value → Value → Prop} {d : Descriptor} {v? w? : Option Value}
    (h : Option.Rel r v? w?)
    (hd : ∀ v w, r v w → Reordered (d.faults ignore key v) (d.faults ignore key w)) :
    Reordered (d.entryFaults ignore key v?) (d.entryFaults ignore key w?) := by
  cases h with
  | none => exact .refl _
  | some hvw => exact hd _ _ hvw

/-- a rearranged value has the same faults, up to the order of its unknown keys -/
theorem faults_of_rearranges {v w : Value} (d : Descriptor) (hvw : v.Rearranges w)
    (hv : v.Distinct) (key : String) :
    Reordered (d.faults ignore key v) (d.faults ignore key w) := by
  -- the descriptor leads: members are looked up by name, so the order of the entries is never met
  induction d generalizing key v w with
  | atom h t x =>
    rw [faults, faults, decodeAtom_of_rearranges t hvw]
    exact .refl _
  | sequence h e b x ih =>
    cases hvw with
    | atom => exact .refl _
    | table => exact .refl _
    | sequence o o' hxys =>
      rw [Value.Distinct, Value.allDistinct_iff] at hv
      rw [faults, faults, hxys.length_eq]
      refine (Reordered.refl _).append (reordered_elements ?_ 0)
      exact forall₂_imp_of_mem hxys fun x hx y hxy key => ih hxy (hv x hx) key
  | tuple h es x ih =>
    cases hvw with
    | atom => exact .refl _
    | table => exact .refl _
    | sequence o o' hxys =>
      rw [Value.Distinct, Value.allDistinct_iff] at hv
      rw [faults, faults, hxys.length_eq]
      refine (Reordered.refl _).append (reordered_places ?_ 0)
      exact forall₂_imp_of_mem hxys fun x hx y hxy e he key => ih e he hxy (hv x hx) key
  | table h ms ih =>
    have htable := hvw
    cases hvw with
    | atom => exact .refl _
    | sequence => exact .refl _
    | @table o o' p q =>
      have hmembers : Reordered (memberFaults ignore key p ms) (memberFaults ignore key q ms) := by
        rw [memberFaults_eq_flatMap, memberFaults_eq_flatMap]
        refine .flatMap fun d hd => reordered_entry (htable.get? hv d.name) ?_
        intro v w hvw
        exact ih d hd hvw.2 hvw.1 _
      rw [faults, faults]
      exact hmembers.append (reordered_unknownFaults ignore key ms htable.perm_keys)
  | optional d ih =>
    rw [faults, faults]
    exact ih hvw hv key

/-! ## binding -/

/-- a rearranged value binds to the same, or fails alike -/
theorem bind_of_rearranges {v w : Value} (d : Descriptor) (hvw : v.Rearranges w)
    (hv : v.Distinct) (key : String) : d.bind key v = d.bind key w := by
  induction d generalizing key v w with
  | atom h t x => rw [bind, bind, decodeAtom_of_rearranges t hvw]
  | sequence h e b x ih =>
    cases hvw with
    | atom => rfl
    | table => rfl
    | sequence o o' hxys =>
      rw [Value.Distinct, Value.allDistinct_iff] at hv
      rw [bind, bind, bindElements_congr (forall₂_imp_of_mem hxys fun x hx y hxy key =>
        ih hxy (hv x hx) key)]
  | tuple h es x ih =>
    cases hvw with
    | atom => rfl
    | table => rfl
    | sequence o o' hxys =>
      rw [Value.Distinct, Value.allDistinct_iff] at hv
      rw [bind, bind, hxys.length_eq, bindPlaces_congr (forall₂_imp_of_mem hxys
        fun x hx y hxy e he key => ih e he hxy (hv x hx) key)]
  | table h ms ih =>
    have htable := hvw
    cases hvw with
    | atom => rfl
    | sequence => rfl
    | @table o o' p q =>
      have hmembers : bindMembers key p ms = bindMembers key q ms := by
        refine bindMembers_congr fun d hd => bindEntry_congr (htable.get? hv d.name) ?_
        intro v w hvw
        exact ih d hd hvw.2 hvw.1 _
      rw [bind, bind, hmembers]
  | optional d ih =>
    rw [bind, bind]
    exact ih hvw hv key

end Descriptor

/-! ## the root -/

namespace Schema

variable {s : Schema} {p q : ParamSet} {ignore : List String}

theorem exists_bind_eq_ok (h : s.faults p ignore = []) : ∃ b, s.bind p ignore = .ok b := by
  have hroot := h
  rw [faults_eq] at hroot
  obtain ⟨b, hb⟩ := Descriptor.exists_bind_eq_ok hroot
  have hmembers := hb
  rw [toDescriptor, Descriptor.bind, map_eq_ok] at hmembers
  obtain ⟨es, _, rfl⟩ := hmembers
  exact ⟨es, bind_eq_ok.2 ⟨h, hb⟩⟩

theorem bind_eq_invalid (h : s.faults p ignore ≠ []) :
    s.bind p ignore = .error (.invalid ⟨s.name, s.faults p ignore⟩) := by
  rw [bind, validate, if_neg (by rwa [List.isEmpty_iff])]

/-- **Only the contents of the input count.**  A parameter set, whose tables have distinct keys, and
the same with the entries of its tables permuted at any depth and with other origins or none bind to
the same value, or both are refused.  The faults are then the same; those that are no unknown keys
even come in the same order. -/
theorem bind_rearranged (s : Schema) (ignore : List String) (hp : p.Distinct)
    (hpq : p.Rearranges q) :
    (∃ b, s.bind p ignore = .ok b ∧ s.bind q ignore = .ok b)
    ∨ ∃ fs gs : List Fault,
        s.bind p ignore = .error (.invalid ⟨s.name, fs⟩)
        ∧ s.bind q ignore = .error (.invalid ⟨s.name, gs⟩)
        ∧ fs.Perm gs ∧ fs.filter Fault.isKnown = gs.filter Fault.isKnown := by
  have hdistinct : (Value.table none p).Distinct := by
    rw [Value.Distinct]
    exact hp
  have hfaults : Reordered (s.faults p ignore) (s.faults q ignore) := by
    rw [faults_eq, faults_eq]
    exact Descriptor.faults_of_rearranges s.toDescriptor hpq hdistinct ""
  have hbind := Descriptor.bind_of_rearranges s.toDescriptor hpq hdistinct ""
  by_cases hclean : s.faults p ignore = []
  · obtain ⟨b, hb⟩ := exists_bind_eq_ok hclean
    have hq : s.faults q ignore = [] := by
      rw [← List.nil_perm, ← hclean]
      exact hfaults.perm
    refine .inl ⟨b, hb, bind_eq_ok.2 ⟨hq, ?_⟩⟩
    rw [← hbind]
    exact (bind_eq_ok.1 hb).2
  · have hq : s.faults q ignore ≠ [] := by
      intro hq
      rw [← List.perm_nil, ← hq] at hclean
      exact hclean hfaults.perm
    exact .inr ⟨_, _, bind_eq_invalid hclean, bind_eq_invalid hq, hfaults.perm, hfaults.known⟩

end Schema

/-- a text is missing, and keys that no parameter names stand around a table and in it -/
def scatteredSet : ParamSet :=
  [("extra", .atom none "1"),
    ("limits", .table (some ⟨"a.par", 2⟩) [("deep", .atom none "2"), ("note", .atom none "'n'")]),
    ("more", .sequence none [])]

def gatheredSet : ParamSet :=
  [("limits", .table none [("note", .atom (some ⟨"b.par", 1⟩) "'n'"), ("deep", .atom none "2")]),
    ("more", .sequence none []), ("extra", .atom none "1")]

theorem Schema.bind_rearranged_scattered :
    scatteredSet.Distinct ∧ scatteredSet.Rearranges gatheredSet
      ∧ ((∃ b, portSchema.bind scatteredSet [] = .ok b ∧ portSchema.bind gatheredSet [] = .ok b)
        ∨ ∃ fs gs : List Fault,
          portSchema.bind scatteredSet [] = .error (.invalid ⟨"port", fs⟩)
          ∧ portSchema.bind gatheredSet [] = .error (.invalid ⟨"port", gs⟩)
          ∧ fs.Perm gs ∧ fs.filter Fault.isKnown = gs.filter Fault.isKnown) := by
  have hdistinct : scatteredSet.Distinct := by
    simp [ParamSet.Distinct, Value.EntriesDistinct, Value.Distinct, Value.AllDistinct,
      scatteredSet, Entries.keys]
  have hlimits : (Value.table (some ⟨"a.par", 2⟩)
      [("deep", .atom none "2"), ("note", .atom none "'n'")]).Rearranges (.table none
      [("note", .atom (some ⟨"b.par", 1⟩) "'n'"), ("deep", .atom none "2")]) :=
    .table _ _ [("deep", .atom none "2"), ("note", .atom (some ⟨"b.par", 1⟩) "'n'")] rfl
      (.cons (.atom _ _ _) (.cons (.atom _ _ _) .nil)) (.swap _ _ _)
  have hroot : scatteredSet.Rearranges gatheredSet :=
    .table _ _ (("extra", .atom none "1") :: gatheredSet.take 2) rfl
      (.cons (.atom _ _ _) (.cons hlimits (.cons (.sequence _ _ .nil) .nil)))
      (List.perm_append_singleton _ _).symm
  exact ⟨hdistinct, hroot, portSchema.bind_rearranged [] hdistinct hroot⟩

end ParamSchema
