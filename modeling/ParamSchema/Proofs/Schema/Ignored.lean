import ParamSchema.Proofs.Schema.Addressed
import ParamSchema.Proofs.Schema.Rearranged

/-!
# What the ignore list hides

The ignore list takes unknown keys out of the fault list and does nothing else
(`faults_eq_filter`), and binding never looks at it.  Which keys those are is a comparison of
strings; where keys are those of paths, it hides what is below the paths of the list
(`Finding.isHidden`).
-/

namespace ParamSchema

/-- a fault that is there with nothing ignored is there with this ignored as well -/
def Fault.isReported (ignore : List String) (f : Fault) : Bool :=
  f.isKnown || !isIgnored ignore f.key

/-! ## one fault list and the other -/

section
variable {ignore : List String} {fs : List Fault}

theorem filter_isReported_of_isKnown (h : ∀ f ∈ fs, f.isKnown = true) :
    fs.filter (Fault.isReported ignore) = fs := by
  refine List.filter_eq_self.2 fun f hf => ?_
  rw [Fault.isReported, h f hf, Bool.true_or]

theorem filter_isReported_single {key : String} {k : FaultKind} (hk : k ≠ .unknown) :
    [Fault.mk key k].filter (Fault.isReported ignore) = [⟨key, k⟩] :=
  filter_isReported_of_isKnown (List.forall_mem_singleton.2 (decide_eq_true hk))

theorem filter_isReported_singleUnless {c : Prop} [Decidable c] {key : String} {k : FaultKind}
    (hk : k ≠ .unknown) :
    (if c then [] else [Fault.mk key k]).filter (Fault.isReported ignore)
      = if c then [] else [⟨key, k⟩] := by
  split
  · rfl
  · exact filter_isReported_single hk

end

theorem isIgnored_nil (key : String) : isIgnored [] key = false := rfl

theorem unknownFaults_eq_filter (ignore : List String) (key : String) (ms : List Descriptor)
    (p : ParamSet) :
    unknownFaults ignore key ms p
      = (unknownFaults [] key ms p).filter (Fault.isReported ignore) := by
  rw [unknownFaults_eq_flatMap, unknownFaults_eq_flatMap, List.filter_flatMap]
  refine List.flatMap_congr fun e _ => ?_
  rw [isIgnored_nil, Bool.or_false]
  cases isMember ms e.1 with
  | true => rfl
  | false =>
    cases hi : isIgnored ignore (joinKey key e.1) <;>
      simp [Fault.isReported, Fault.isKnown, hi]

namespace Descriptor

variable (ignore : List String)

theorem absentFaults_eq_filter (key : String) (d : Descriptor) :
    d.absentFaults key = (d.absentFaults key).filter (Fault.isReported ignore) :=
  (filter_isReported_singleUnless FaultKind.noConfusion).symm

theorem faults_atom_eq_filter {h : Heading} {t : ScalarType} {x? : Option Scalar} (key : String)
    (v : Value) :
    (Descriptor.atom h t x?).faults ignore key v
      = ((Descriptor.atom h t x?).faults [] key v).filter (Fault.isReported ignore) := by
  rw [faults, faults]
  cases hd : decodeAtom t v with
  | ok s => rfl
  | error k =>
    obtain ⟨expected, found, rfl⟩ := exists_typeMismatch_of_decodeAtom hd
    exact (filter_isReported_single FaultKind.noConfusion).symm

/-- **An ignore list only takes unknown keys away.** -/
theorem faults_eq_filter (key : String) (d : Descriptor) (v : Value) :
    d.faults ignore key v = (d.faults [] key v).filter (Fault.isReported ignore) := by
  induction d generalizing key v with
  | atom h t x => exact faults_atom_eq_filter ignore key v
  | sequence h e bd x ih =>
    cases v with
    | atom o t => exact (filter_isReported_single FaultKind.noConfusion).symm
    | table o p => exact (filter_isReported_single FaultKind.noConfusion).symm
    | sequence o xs =>
      have helements : ∀ xi : Value × Nat, e.faults ignore (indexKey key xi.2) xi.1
          = (e.faults [] (indexKey key xi.2) xi.1).filter (Fault.isReported ignore) :=
        fun xi => ih (indexKey key xi.2) xi.1
      rw [faults, faults, List.filter_append, filter_isReported_singleUnless FaultKind.noConfusion]
      refine congrArg (List.append _) ?_
      rw [← List.flatMap_def, ← List.flatMap_def, List.filter_flatMap]
      exact List.flatMap_congr fun xi _ => helements xi
  | tuple h es x ih =>
    cases v with
    | atom o t => exact (filter_isReported_single FaultKind.noConfusion).symm
    | table o p => exact (filter_isReported_single FaultKind.noConfusion).symm
    | sequence o xs =>
      rw [faults, faults, List.filter_append, filter_isReported_singleUnless FaultKind.noConfusion,
        placeFaults_eq_flatMap, placeFaults_eq_flatMap, List.filter_flatMap]
      refine congrArg (List.append _) (List.flatMap_congr fun exi hexi => ?_)
      exact ih exi.1.1 (List.of_mem_zip (List.fst_mem_of_mem_zipIdx hexi)).1 _ exi.1.2
  | table h ms ih =>
    cases v with
    | atom o t => exact (filter_isReported_single FaultKind.noConfusion).symm
    | sequence o xs => exact (filter_isReported_single FaultKind.noConfusion).symm
    | table o p =>
      rw [faults, faults, List.filter_append, unknownFaults_eq_filter, memberFaults_eq_flatMap,
        memberFaults_eq_flatMap, List.filter_flatMap]
      refine congrArg (List.append · _) (List.flatMap_congr fun m hm => ?_)
      cases Entries.get? p m.name with
      | none => exact absentFaults_eq_filter ignore _ m
      | some v => exact ih m hm _ v
  | optional d ih =>
    rw [faults, faults]
    exact ih key v

end Descriptor

theorem Schema.faults_eq_filter (s : Schema) (p : ParamSet) (ignore : List String) :
    s.faults p ignore = (s.faults p []).filter (Fault.isReported ignore) := by
  rw [faults_eq, faults_eq, Descriptor.faults_eq_filter]

/-! ## paths -/

/-- is the fault an unknown key at one of the paths, or below one? -/
def Finding.isHidden (hidden : List (List Segment)) (g : Finding) : Bool :=
  g.kind = .unknown && hidden.any fun above => above.isPrefixOf g.path

theorem isIgnored_keyOf {hidden : List (List Segment)} {path : List Segment}
    (hhidden : ∀ above ∈ hidden, IsKey above) (hpath : IsKey path) :
    isIgnored (hidden.map keyOf) (keyOf path) = hidden.any fun above => above.isPrefixOf path := by
  rw [isIgnored, List.any_map, Bool.eq_iff_iff, List.any_eq_true, List.any_eq_true]
  refine exists_congr fun above => and_congr_right fun habove => ?_
  rw [List.isPrefixOf_iff_prefix]
  exact covers_keyOf (hhidden above habove) hpath

theorem Finding.isReported_fault {hidden : List (List Segment)} {g : Finding}
    (hhidden : ∀ above ∈ hidden, IsKey above) (hpath : IsKey g.path) :
    g.fault.isReported (hidden.map keyOf) = !g.isHidden hidden := by
  rw [Fault.isReported, fault, isIgnored_keyOf hhidden hpath, isHidden, Fault.isKnown, Bool.not_and,
    decide_not]

/-- **The ignore list hides whole subtrees of unknown keys, and nothing else.**  With a list of
paths ignored the faults are those with nothing ignored, in the same order, without the unknown
keys at these paths and below them.  What binds with two ignore lists binds to the same. -/
theorem Schema.faults_ignored {o : Outline} {s : Schema} (hs : o.schema = .ok s) {p : ParamSet}
    (hp : p.KeyedByNames) {hidden : List (List Segment)} (hhidden : ∀ path ∈ hidden, IsKey path) :
    (∃ gs : List Finding, (∀ g ∈ gs, IsKey g.path) ∧ s.faults p [] = gs.map Finding.fault
      ∧ s.faults p (hidden.map keyOf)
        = (gs.filter fun g => !g.isHidden hidden).map Finding.fault)
    ∧ ∀ ignore ignore' b b', s.bind p ignore = .ok b → s.bind p ignore' = .ok b' → b = b' := by
  constructor
  · obtain ⟨gs, hgs, _, hkeys⟩ := Schema.addressed_faults (o.wellFormed_of_schema hs) hp []
    refine ⟨gs, fun g hg => (hkeys g hg).1, hgs.symm, ?_⟩
    rw [faults_eq_filter, ← hgs, List.filter_map]
    refine congrArg (List.map Finding.fault) (List.filter_congr fun g hg => ?_)
    exact Finding.isReported_fault hhidden (hkeys g hg).1
  · intro ignore ignore' b b' hb hb'
    have hsame := (bind_eq_ok.1 hb).2.symm.trans (bind_eq_ok.1 hb').2
    exact Bound.table.inj (Except.ok.inj hsame)

/-- The table is hidden with what is in it, but not the parameter that it misses; the key next to
the rows is not below them. -/
theorem Schema.faults_ignored_grid :
    gridOutline.schema = .ok gridSchema ∧ gridSet.KeyedByNames
      ∧ (∀ path ∈ [[Segment.name "area"], [.name "rows"]], IsKey path)
      ∧ [[Segment.name "area"], [.name "rows"]].map keyOf = ["area", "rows"]
      ∧ gridSchema.faults gridSet ["area", "rows"] = [⟨"rows[0]", .arityMismatch 2 1⟩,
        ⟨"rows[1]", .notASequence "an atom"⟩, ⟨"area.depth", .missing⟩, ⟨"rows2", .unknown⟩]
      ∧ ∃ gs : List Finding, (∀ g ∈ gs, IsKey g.path)
        ∧ gridSchema.faults gridSet [] = gs.map Finding.fault
        ∧ gridSchema.faults gridSet ([[Segment.name "area"], [.name "rows"]].map keyOf)
          = (gs.filter fun g =>
            !g.isHidden [[.name "area"], [.name "rows"]]).map Finding.fault := by
  have hs : gridOutline.schema = .ok gridSchema := by rfl
  have hname : ∀ k : String, isIdentifier k = true → IsKey [.name k] := fun k hk =>
    .append_name (.inl rfl) (isPathName_of_isIdentifier hk)
  have hhidden : ∀ path ∈ [[Segment.name "area"], [.name "rows"]], IsKey path :=
    List.forall_mem_cons.2
      ⟨hname "area" (by decide), List.forall_mem_singleton.2 (hname "rows" (by decide))⟩
  exact ⟨hs, keyedByNames_gridSet, hhidden, by decide, by rfl,
    (Schema.faults_ignored hs keyedByNames_gridSet hhidden).1⟩

end ParamSchema
