import ParamSchema.Proofs.Schema.Walk

/-!
# Origins do not count

Neither walk looks at where a value comes from: a value and the same value without its origins have
the same faults and bind to the same result.  So parameter sets that agree up to origins are bound
alike (`Schema.bind_congr_erase`).
-/

namespace ParamSchema

theorem decodeAtom_erase (t : ScalarType) (v : Value) :
    decodeAtom t v.erase = decodeAtom t v := by
  cases v with
  | atom o text => rw [Value.erase, decodeAtom, decodeAtom]
  | sequence o xs => rw [Value.erase]; rfl
  | table o es => rw [Value.erase]; rfl

namespace Descriptor

variable {ignore : List String}

theorem placeFaults_erase {es : List Descriptor}
    (h : ∀ e ∈ es, ∀ key v, e.faults ignore key v.erase = e.faults ignore key v) (key : String)
    (i : Nat) (xs : List Value) :
    placeFaults ignore key i es (Value.eraseAll xs) = placeFaults ignore key i es xs := by
  rw [Value.eraseAll_eq_map, placeFaults_eq_flatMap, placeFaults_eq_flatMap, List.zip_map_right,
    List.zipIdx_map, List.flatMap_map]
  refine List.flatMap_congr fun e he => ?_
  exact h e.1.1 (List.of_mem_zip (List.fst_mem_of_mem_zipIdx he)).1 _ _

theorem bindPlaces_erase {es : List Descriptor}
    (h : ∀ e ∈ es, ∀ key v, e.bind key v.erase = e.bind key v) (key : String) (i : Nat)
    (xs : List Value) :
    bindPlaces key i es (Value.eraseAll xs) = bindPlaces key i es xs := by
  rw [Value.eraseAll_eq_map]
  refine bindPlaces_congr (List.forall₂_map_left_iff.2 (List.forall₂_same.2 ?_)) i
  exact fun x _ e he key => h e he key x

/-- a value has the faults of its tree -/
theorem faults_erase (key : String) (d : Descriptor) (v : Value) :
    d.faults ignore key v.erase = d.faults ignore key v := by
  induction d generalizing key v with
  | atom h t x => rw [faults, faults, decodeAtom_erase]
  | sequence h e b x ih =>
    cases v with
    | sequence o xs =>
      rw [Value.erase, Value.eraseAll_eq_map, faults, faults, List.length_map, List.zipIdx_map,
        List.map_map]
      simp only [Function.comp_def, Prod.map, ih, id]
    | atom o t => rw [Value.erase, faults.eq_def, faults.eq_def]; rfl
    | table o es => rw [Value.erase, faults.eq_def, faults.eq_def]; rfl
  | tuple h es x ih =>
    cases v with
    | sequence o xs =>
      rw [Value.erase, faults, faults, placeFaults_erase fun e he key v => ih e he key v,
        Value.eraseAll_eq_map, List.length_map]
    | atom o t => rw [Value.erase, faults.eq_def, faults.eq_def]; rfl
    | table o es => rw [Value.erase, faults.eq_def, faults.eq_def]; rfl
  | table h ms ih =>
    cases v with
    | table o p =>
      have hunknown : unknownFaults ignore key ms (Value.eraseEntries p)
          = unknownFaults ignore key ms p := by
        rw [unknownFaults, unknownFaults, keys_eraseEntries]
      have hmembers : memberFaults ignore key (Value.eraseEntries p) ms
          = memberFaults ignore key p ms := by
        refine memberFaults_congr fun d hd => ?_
        rw [get?_eraseEntries]
        cases Entries.get? p d.name with
        | none => rfl
        | some v => exact ih d hd _ v
      rw [Value.erase, faults, faults, hmembers, hunknown]
    | atom o t => rw [Value.erase, faults.eq_def, faults.eq_def]; rfl
    | sequence o xs => rw [Value.erase, faults.eq_def, faults.eq_def]; rfl
  | optional d ih => rw [faults, faults, ih]

/-- a value binds to what its tree binds to -/
theorem bind_erase (key : String) (d : Descriptor) (v : Value) :
    d.bind key v.erase = d.bind key v := by
  induction d generalizing key v with
  | atom h t x => rw [bind, bind, decodeAtom_erase]
  | sequence h e b x ih =>
    cases v with
    | sequence o xs =>
      rw [Value.erase, Value.eraseAll_eq_map, bind, bind, List.zipIdx_map, List.mapM_map]
      simp only [Function.comp_def, Prod.map, ih, id]
    | atom o t => rw [Value.erase, bind.eq_def, bind.eq_def]
    | table o es => rw [Value.erase, bind.eq_def, bind.eq_def]
  | tuple h es x ih =>
    cases v with
    | sequence o xs =>
      rw [Value.erase, bind, bind, bindPlaces_erase fun e he key v => ih e he key v,
        Value.eraseAll_eq_map, List.length_map]
    | atom o t => rw [Value.erase, bind.eq_def, bind.eq_def]
    | table o es => rw [Value.erase, bind.eq_def, bind.eq_def]
  | table h ms ih =>
    cases v with
    | table o p =>
      have hmembers : bindMembers key (Value.eraseEntries p) ms = bindMembers key p ms := by
        refine bindMembers_congr fun d hd => ?_
        rw [get?_eraseEntries]
        cases Entries.get? p d.name with
        | none => rfl
        | some v => exact congrArg (Except.map some) (ih d hd _ v)
      rw [Value.erase, bind, bind, hmembers]
    | atom o t => rw [Value.erase, bind.eq_def, bind.eq_def]
    | sequence o xs => rw [Value.erase, bind.eq_def, bind.eq_def]
  | optional d ih => rw [bind, bind, ih]

theorem entryFaults_erase (key : String) (d : Descriptor) (v? : Option Value) :
    d.entryFaults ignore key (v?.map Value.erase) = d.entryFaults ignore key v? := by
  cases v? with
  | none => rfl
  | some v => exact faults_erase key d v

theorem bindEntry_erase (key : String) (d : Descriptor) (v? : Option Value) :
    d.bindEntry key (v?.map Value.erase) = d.bindEntry key v? := by
  cases v? with
  | none => rfl
  | some v => exact congrArg (Except.map some) (bind_erase key d v)

end Descriptor

/-- parameter sets that agree up to origins are bound alike -/
theorem Schema.bind_congr_erase {s : Schema} {p q : ParamSet} {ignore : List String}
    {b : BoundTable} (h : ParamSet.erase q = ParamSet.erase p) (hb : s.bind p ignore = .ok b) :
    s.bind q ignore = .ok b := by
  have herase : (Value.table none q).erase = (Value.table none p).erase :=
    congrArg (Value.table none) h
  obtain ⟨hclean, hbind⟩ := bind_eq_ok.1 hb
  rw [faults_eq, ← Descriptor.faults_erase, ← herase, Descriptor.faults_erase] at hclean
  rw [← Descriptor.bind_erase, ← herase, Descriptor.bind_erase] at hbind
  exact bind_eq_ok.2 ⟨by rw [faults_eq, hclean], hbind⟩

end ParamSchema
