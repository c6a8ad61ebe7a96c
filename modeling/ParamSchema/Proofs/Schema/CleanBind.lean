import ParamSchema.Proofs.Schema.Walk

/-!
# A clean validation binds

The two walks never disagree.  Where validation finds nothing at a parameter, present or left out,
binding it gives a value or leaves it out (`exists_bindEntry_eq_ok`); so a parameter set is bound
exactly when it is valid, and a `BindFault` is never the outcome.

The induction is on the descriptor.  A table that is left out is bound with no entries at all, so
what may be absent comes first (`exists_bindAbsent_eq_ok`).
-/

namespace ParamSchema
namespace Descriptor

theorem entryFaults_none_eq_nil {ignore : List String} {key : String} {d : Descriptor} :
    d.entryFaults ignore key none = [] ↔ d.mayBeAbsent = true := by
  rw [entryFaults, absentFaults]
  split <;> simp_all

/-- what may be left out can be bound without an entry -/
theorem exists_bindAbsent_eq_ok {d : Descriptor} (key : String) (h : d.mayBeAbsent = true) :
    ∃ y, d.bindAbsent key = .ok y := by
  induction d generalizing key with
  | atom hd t x =>
    rw [mayBeAbsent] at h
    obtain ⟨s, rfl⟩ := Option.isSome_iff_exists.1 h
    exact ⟨_, by rw [bindAbsent]⟩
  | sequence hd e b x ih =>
    rw [mayBeAbsent] at h
    obtain ⟨s, rfl⟩ := Option.isSome_iff_exists.1 h
    exact ⟨_, by rw [bindAbsent]⟩
  | tuple hd es x ih =>
    rw [mayBeAbsent] at h
    obtain ⟨s, rfl⟩ := Option.isSome_iff_exists.1 h
    exact ⟨_, by rw [bindAbsent]⟩
  | table hd ms ih =>
    rw [mayBeAbsent, allMayBeAbsent_eq_all, List.all_eq_true] at h
    have hms : ∃ es, bindMembers key [] ms = .ok es :=
      exists_bindMembers_eq_ok fun d hd => ih d hd _ (h d hd)
    obtain ⟨es, hes⟩ := hms
    exact ⟨some (.table es), by rw [bindAbsent, hes]; rfl⟩
  | optional d ih => exact ⟨none, by rw [bindAbsent]⟩

/-- a value without faults can be bound -/
theorem exists_bind_eq_ok {ignore : List String} {key : String} {d : Descriptor} {v : Value}
    (h : d.faults ignore key v = []) : ∃ b, d.bind key v = .ok b := by
  induction d generalizing key v with
  | atom hd t x =>
    unfold faults at h
    unfold bind
    cases hs : decodeAtom t v with
    | ok s => exact ⟨_, rfl⟩
    | error k =>
      rw [hs] at h
      cases h
  | sequence hd e bd x ih =>
    obtain ⟨o, xs, rfl, _, hxs⟩ := faults_sequence_eq_nil.1 h
    obtain ⟨ys, hys⟩ := exists_mapM_eq_ok fun xi hxi => ih (hxs xi hxi)
    exact ⟨.sequence ys, bind_sequence_eq_ok.2 ⟨ys, mapM_eq_ok.1 hys, rfl⟩⟩
  | tuple hd es x ih =>
    obtain ⟨o, xs, rfl, hlen, hplaces⟩ := faults_tuple_eq_nil.1 h
    rw [placeFaults_eq_flatMap, List.flatMap_eq_nil_iff] at hplaces
    have hmap : ∃ ys, bindPlaces key 0 es xs = .ok ys := by
      rw [bindPlaces_eq_mapM]
      refine exists_mapM_eq_ok fun exi hexi => ih _ ?_ (hplaces _ hexi)
      exact (List.of_mem_zip (List.fst_mem_of_mem_zipIdx hexi)).1
    obtain ⟨ys, hys⟩ := hmap
    exact ⟨.sequence ys, (bind_tuple_eq_ok hlen).2 ⟨ys, hys, rfl⟩⟩
  | table hd ms ih =>
    obtain ⟨o, p, rfl, hms, _⟩ := faults_table_eq_nil.1 h
    rw [memberFaults_eq_flatMap, List.flatMap_eq_nil_iff] at hms
    have hes : ∃ es, bindMembers key p ms = .ok es := by
      refine exists_bindMembers_eq_ok fun d hd => ?_
      have hclean := hms d hd
      cases hv : Entries.get? p d.name with
      | none =>
        rw [hv] at hclean
        exact exists_bindAbsent_eq_ok _ (entryFaults_none_eq_nil.1 hclean)
      | some v =>
        rw [hv] at hclean
        obtain ⟨b, hb⟩ := ih d hd hclean
        exact ⟨some b, map_eq_ok.2 ⟨b, hb, rfl⟩⟩
    obtain ⟨es, hes⟩ := hes
    exact ⟨.table es, bind_table_eq_ok.2 ⟨es, hes, rfl⟩⟩
  | optional d ih =>
    unfold faults at h
    unfold bind
    exact ih h

/-- a parameter without faults, present or not, can be bound -/
theorem exists_bindEntry_eq_ok {ignore : List String} {key : String} {d : Descriptor}
    {v? : Option Value} (h : d.entryFaults ignore key v? = []) :
    ∃ y, d.bindEntry key v? = .ok y := by
  cases v? with
  | none => exact exists_bindAbsent_eq_ok key (entryFaults_none_eq_nil.1 h)
  | some v =>
    obtain ⟨b, hb⟩ := exists_bind_eq_ok (d := d) (v := v) h
    exact ⟨some b, map_eq_ok.2 ⟨b, hb, rfl⟩⟩

end Descriptor

/-- **Binding succeeds exactly where validation does.**  If validation fails, binding fails with the
same error and with no other; a `BindFault` is never the outcome, for no parameter that validation
passes, present or left out, runs into one. -/
theorem Schema.bind_agrees_with_validate (s : Schema) (p : ParamSet) (ignore : List String) :
    ((∃ b, s.bind p ignore = .ok b) ↔ s.validate p ignore = .ok ())
      ∧ (∀ e, s.bind p ignore = .error e ↔ ∃ ve, s.validate p ignore = .error ve ∧ e = .invalid ve)
      ∧ (∀ f, s.bind p ignore ≠ .error (.inconsistent f))
      ∧ (∀ (d : Descriptor) (key : String) (v? : Option Value),
          d.entryFaults ignore key v? = [] → ∃ y, d.bindEntry key v? = .ok y) := by
  have clean : s.validate p ignore = .ok () → ∃ b, s.bind p ignore = .ok b := by
    intro h
    rw [validate_eq_ok, faults_eq] at h
    obtain ⟨b, hb⟩ := Descriptor.exists_bind_eq_ok h
    have hroot := hb
    rw [toDescriptor, Descriptor.bind, map_eq_ok] at hroot
    obtain ⟨es, _, rfl⟩ := hroot
    exact ⟨es, bind_eq_ok.2 ⟨by rw [faults_eq, h], hb⟩⟩
  have fails : ∀ e, s.bind p ignore = .error e ↔
      ∃ ve, s.validate p ignore = .error ve ∧ e = .invalid ve := by
    intro e
    cases hv : s.validate p ignore with
    | error ve => simp [bind, hv, eq_comm]
    | ok _ =>
      obtain ⟨b, hb⟩ := clean hv
      simp [hb]
  refine ⟨⟨?_, clean⟩, fails, ?_, fun d key v? => Descriptor.exists_bindEntry_eq_ok⟩
  · intro h
    obtain ⟨b, hb⟩ := h
    exact validate_eq_ok.2 (bind_eq_ok.1 hb).1
  · intro f hf
    obtain ⟨ve, _, h⟩ := (fails _).1 hf
    cases h

end ParamSchema
