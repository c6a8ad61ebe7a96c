import ParamSchema.Proofs.Schema.Violation

/-!
# The fault list is the list of violations

Validation reports every violation once, and nothing else, in the order of the sites: the parameters
of a table in the order of their declaration, each with all that is below it, then the keys that
nobody declares.  Nothing that is wrong at one place keeps another from being reported.
-/

namespace ParamSchema

theorem flatMap_eq_zipIdx_flatMap {α β : Type} (xs : List α) (i : Nat) (g : α → List β) :
    xs.flatMap g = (xs.zipIdx i).flatMap fun a => g a.1 := by
  rw [← List.flatMap_map Prod.fst, List.zipIdx_map_fst]

theorem unknownFaults_eq_flatMap (ignore : List String) (key : String) (ms : List Descriptor)
    (p : ParamSet) :
    unknownFaults ignore key ms p = p.flatMap fun e =>
      if isMember ms e.1 || isIgnored ignore (joinKey key e.1) then []
      else [⟨joinKey key e.1, .unknown⟩] := by
  unfold unknownFaults
  induction p with
  | nil => rfl
  | cons e p ih =>
    rw [List.flatMap_cons, ← ih, Entries.keys_cons, List.filter_cons]
    cases isMember ms e.1 with
    | true => simp
    | false => cases hi : isIgnored ignore (joinKey key e.1) <;> simp [hi]

/-- a pair that nothing leads away from, and that has one violation -/
theorem Pair.listed_single {ignore : List String} {n : Pair} {f : Fault}
    (hstuck : ∀ st m, ¬ n.Move st m) (hf : n.Violates ignore [] f)
    (honly : ∀ site g, n.Violates ignore site g → site = [] ∧ g = f) :
    Listed [f] (n.Violation ignore) := by
  refine Listed.single fun site g => ?_
  rw [violation_of_not_move hstuck]
  constructor
  · exact honly site g
  · intro h
    obtain ⟨rfl, rfl⟩ := h
    exact hf

namespace Descriptor

variable (ignore : List String)

/-! ## one descriptor -/

theorem listed_atom (key : String) (h : Heading) (t : ScalarType) (x? : Option Scalar)
    (v : Value) :
    Listed ((Descriptor.atom h t x?).faults ignore key v)
      (Pair.Violation ignore ⟨key, .atom h t x?, some v⟩) := by
  have hstuck : ∀ st m, ¬ Pair.Move ⟨key, .atom h t x?, some v⟩ st m := by
    intro st m hmove
    cases hmove
  unfold faults
  cases v with
  | atom o literal =>
    rw [decodeAtom]
    cases hd : t.decode literal with
    | ok s =>
      refine Listed.nil fun site f hviol => ?_
      rw [Pair.violation_of_not_move hstuck] at hviol
      cases hviol with
      | notAnAtom hv => cases hv
      | undecodable he =>
        rw [hd] at he
        cases he
    | error e =>
      refine Pair.listed_single hstuck (.undecodable hd) fun site f hviol => ?_
      cases hviol with
      | notAnAtom hv => cases hv
      | undecodable he =>
        rw [hd] at he
        cases he
        exact ⟨rfl, rfl⟩
  | sequence o xs =>
    refine Pair.listed_single hstuck (.notAnAtom rfl) fun site f hviol => ?_
    cases hviol
    exact ⟨rfl, rfl⟩
  | table o es =>
    refine Pair.listed_single hstuck (.notAnAtom rfl) fun site f hviol => ?_
    cases hviol
    exact ⟨rfl, rfl⟩

theorem listed_absent (key : String) (d : Descriptor) :
    Listed (d.absentFaults key) (Pair.Violation ignore ⟨key, d, none⟩) := by
  unfold absentFaults
  refine (Listed.singleUnless (d.mayBeAbsent = true) ⟨key, .missing⟩).congr fun site f => ?_
  rw [Pair.violation_iff, Bool.not_eq_true]
  constructor
  · intro h
    obtain ⟨h, rfl, rfl⟩ := h
    exact .inl (.missing h)
  · intro h
    rcases h with hviol | ⟨st, m, rest, hmove, _⟩
    · cases hviol with
      | missing h => exact ⟨h, rfl, rfl⟩
    · cases hmove

theorem listed_unknown (key : String) (ms : List Descriptor) (q : ParamSet) :
    Listed (unknownFaults ignore key ms q) fun site f =>
      ∃ e j rest, (e, j) ∈ List.zipIdx q
        ∧ (¬ (isMember ms e.1 || isIgnored ignore (joinKey key e.1)) = true
            ∧ rest = [] ∧ f = ⟨joinKey key e.1, .unknown⟩)
        ∧ site = .unknown j :: rest := by
  rw [unknownFaults_eq_flatMap, flatMap_eq_zipIdx_flatMap _ 0]
  exact Listed.flatMap q 0 Step.unknown Step.Before.unknowns _
    (fun e _ rest f => ¬ (isMember ms e.1 || isIgnored ignore (joinKey key e.1)) = true
      ∧ rest = [] ∧ f = ⟨joinKey key e.1, .unknown⟩)
    fun e j _ => Listed.singleUnless _ _

theorem listed_notASequence {key : String} {h : Heading} {e : Descriptor} {b : LengthBound}
    {x? : Option Bound} {v : Value} (hv : v.asSequence? = none) :
    Listed [⟨key, .notASequence v.shape⟩]
      (Pair.Violation ignore ⟨key, .sequence h e b x?, some v⟩) := by
  refine Pair.listed_single ?_ (.notASequence hv) fun site f hviol => ?_
  · intro st m hmove
    cases hmove
    cases hv
  · cases hviol with
    | notASequence _ => exact ⟨rfl, rfl⟩
    | length _ => cases hv

theorem listed_notATuple {key : String} {h : Heading} {es : List Descriptor}
    {x? : Option Bound} {v : Value} (hv : v.asSequence? = none) :
    Listed [⟨key, .notASequence v.shape⟩]
      (Pair.Violation ignore ⟨key, .tuple h es x?, some v⟩) := by
  refine Pair.listed_single ?_ (.notATuple hv) fun site f hviol => ?_
  · intro st m hmove
    cases hmove
    cases hv
  · cases hviol with
    | notATuple _ => exact ⟨rfl, rfl⟩
    | arity _ => cases hv

theorem listed_notATable {key : String} {h : Heading} {ms : List Descriptor} {v : Value}
    (hv : v.asTable? = none) :
    Listed [⟨key, .typeMismatch "a table" v.shape⟩]
      (Pair.Violation ignore ⟨key, .table h ms, some v⟩) := by
  refine Pair.listed_single ?_ (.notATable hv) fun site f hviol => ?_
  · intro st m hmove
    cases hmove
    cases hv
  · cases hviol with
    | notATable _ => exact ⟨rfl, rfl⟩
    | unknown _ _ _ => cases hv

theorem violation_sequence {key : String} {h : Heading} {e : Descriptor} {b : LengthBound}
    {x? : Option Bound} {o : Option Origin} {xs : List Value} {site : Site} {f : Fault} :
    Pair.Violation ignore ⟨key, .sequence h e b x?, some (.sequence o xs)⟩ site f ↔
      (¬ b.admits xs.length = true ∧ site = [] ∧ f = ⟨key, .lengthOutOfBounds b xs.length⟩)
        ∨ ∃ x i rest, (x, i) ∈ xs.zipIdx
          ∧ Pair.Violation ignore ⟨indexKey key i, e, some x⟩ rest f
          ∧ site = .element i :: rest := by
  rw [Pair.violation_iff, Bool.not_eq_true]
  constructor
  · intro h
    rcases h with hviol | ⟨st, m, rest, hmove, hviol, rfl⟩
    · cases hviol with
      | notASequence hv => cases hv
      | length hb => exact .inl ⟨hb, rfl, rfl⟩
    · cases hmove with
      | element hx => exact .inr ⟨_, _, rest, List.mem_zipIdx_iff_getElem?.2 hx, hviol, rfl⟩
  · intro h
    rcases h with ⟨hb, rfl, rfl⟩ | ⟨x, i, rest, hmem, hviol, rfl⟩
    · exact .inl (.length hb)
    · exact .inr ⟨_, _, rest, .element (List.mem_zipIdx_iff_getElem?.1 hmem), hviol, rfl⟩

theorem listed_sequence {e : Descriptor}
    (ih : ∀ key v, Listed (e.faults ignore key v) (Pair.Violation ignore ⟨key, e, some v⟩))
    (key : String) (h : Heading) (b : LengthBound) (x? : Option Bound) (v : Value) :
    Listed ((Descriptor.sequence h e b x?).faults ignore key v)
      (Pair.Violation ignore ⟨key, .sequence h e b x?, some v⟩) := by
  rw [faults.eq_def]
  cases v with
  | atom o t => exact listed_notASequence ignore rfl
  | table o es => exact listed_notASequence ignore rfl
  | sequence o xs =>
    have elements := Listed.flatMap xs 0 Step.element Step.Before.elements
      (fun x i => e.faults ignore (indexKey key i) x)
      (fun x i => Pair.Violation ignore ⟨indexKey key i, e, some x⟩)
      fun x i _ => ih (indexKey key i) x
    have own :=
      Listed.singleUnless (b.admits xs.length = true) ⟨key, .lengthOutOfBounds b xs.length⟩
    refine (own.append elements ?_).congr fun site f => (violation_sequence ignore).symm
    intro s f t g hs ht
    obtain ⟨_, rfl, _⟩ := hs
    obtain ⟨x, i, rest, _, _, rfl⟩ := ht
    exact List.Lex.nil

theorem violation_tuple {key : String} {h : Heading} {es : List Descriptor} {x? : Option Bound}
    {o : Option Origin} {xs : List Value} {site : Site} {f : Fault} :
    Pair.Violation ignore ⟨key, .tuple h es x?, some (.sequence o xs)⟩ site f ↔
      (¬ xs.length = es.length ∧ site = [] ∧ f = ⟨key, .arityMismatch es.length xs.length⟩)
        ∨ ∃ ex i rest, (ex, i) ∈ (es.zip xs).zipIdx
          ∧ Pair.Violation ignore ⟨indexKey key i, ex.1, some ex.2⟩ rest f
          ∧ site = .element i :: rest := by
  rw [Pair.violation_iff]
  constructor
  · intro h
    rcases h with hviol | ⟨st, m, rest, hmove, hviol, rfl⟩
    · cases hviol with
      | notATuple hv => cases hv
      | arity hlen => exact .inl ⟨hlen, rfl, rfl⟩
    · cases hmove with
      | place he hx =>
        have hex := List.getElem?_zip_eq_some (z := (_, _)).2 ⟨he, hx⟩
        exact .inr ⟨_, _, rest, List.mem_zipIdx_iff_getElem?.2 hex, hviol, rfl⟩
  · intro h
    rcases h with ⟨hlen, rfl, rfl⟩ | ⟨⟨e, x⟩, i, rest, hmem, hviol, rfl⟩
    · exact .inl (.arity hlen)
    · obtain ⟨he, hx⟩ := List.getElem?_zip_eq_some.1 (List.mem_zipIdx_iff_getElem?.1 hmem)
      exact .inr ⟨_, _, rest, .place he hx, hviol, rfl⟩

theorem listed_tuple {es : List Descriptor}
    (ih : ∀ e ∈ es, ∀ key v,
      Listed (e.faults ignore key v) (Pair.Violation ignore ⟨key, e, some v⟩))
    (key : String) (h : Heading) (x? : Option Bound) (v : Value) :
    Listed ((Descriptor.tuple h es x?).faults ignore key v)
      (Pair.Violation ignore ⟨key, .tuple h es x?, some v⟩) := by
  rw [faults.eq_def]
  cases v with
  | atom o t => exact listed_notATuple ignore rfl
  | table o es => exact listed_notATuple ignore rfl
  | sequence o xs =>
    have places := Listed.flatMap (es.zip xs) 0 Step.element Step.Before.elements
      (fun ex i => ex.1.faults ignore (indexKey key i) ex.2)
      (fun ex i => Pair.Violation ignore ⟨indexKey key i, ex.1, some ex.2⟩)
      fun ex i hex => ih ex.1 (List.of_mem_zip (List.fst_mem_of_mem_zipIdx hex)).1 _ ex.2
    rw [← placeFaults_eq_flatMap] at places
    have own :=
      Listed.singleUnless (xs.length = es.length) ⟨key, .arityMismatch es.length xs.length⟩
    refine (own.append places ?_).congr fun site f => (violation_tuple ignore).symm
    intro s f t g hs ht
    obtain ⟨_, rfl, _⟩ := hs
    obtain ⟨ex, i, rest, _, _, rfl⟩ := ht
    exact List.Lex.nil

/-- the members of a table, each with its entry -/
theorem listed_members {ms : List Descriptor}
    (ih : ∀ d ∈ ms, ∀ key v,
      Listed (d.faults ignore key v) (Pair.Violation ignore ⟨key, d, some v⟩))
    (key : String) (p : ParamSet) :
    Listed (memberFaults ignore key p ms) fun site f =>
      ∃ d i rest, (d, i) ∈ ms.zipIdx
        ∧ Pair.Violation ignore ⟨joinKey key d.name, d, Entries.get? p d.name⟩ rest f
        ∧ site = .member i :: rest := by
  rw [memberFaults_eq_flatMap, flatMap_eq_zipIdx_flatMap _ 0]
  refine Listed.flatMap ms 0 Step.member Step.Before.members
    (fun d _ => d.entryFaults ignore (joinKey key d.name) (Entries.get? p d.name))
    (fun d _ => Pair.Violation ignore ⟨joinKey key d.name, d, Entries.get? p d.name⟩) ?_
  intro d i hd
  cases Entries.get? p d.name with
  | none => exact listed_absent ignore _ d
  | some v => exact ih d (List.fst_mem_of_mem_zipIdx hd) _ v

theorem violation_table {key : String} {h : Heading} {ms : List Descriptor} {o : Option Origin}
    {p : ParamSet} {site : Site} {f : Fault} :
    Pair.Violation ignore ⟨key, .table h ms, some (.table o p)⟩ site f ↔
      (∃ d i rest, (d, i) ∈ ms.zipIdx
          ∧ Pair.Violation ignore ⟨joinKey key d.name, d, Entries.get? p d.name⟩ rest f
          ∧ site = .member i :: rest)
        ∨ ∃ e j rest, (e, j) ∈ List.zipIdx p
          ∧ (¬ (isMember ms e.1 || isIgnored ignore (joinKey key e.1)) = true
              ∧ rest = [] ∧ f = ⟨joinKey key e.1, .unknown⟩)
          ∧ site = .unknown j :: rest := by
  rw [Pair.violation_iff]
  constructor
  · intro h
    rcases h with hviol | ⟨st, m, rest, hmove, hviol, rfl⟩
    · cases hviol with
      | notATable hv => cases hv
      | @unknown _ _ _ _ _ j name v hj hname hhidden =>
        refine .inr ⟨(name, v), j, [], List.mem_zipIdx_iff_getElem?.2 hj, ⟨?_, rfl, rfl⟩, rfl⟩
        rw [Bool.or_eq_true, not_or, Bool.not_eq_true, isMember_eq_false, isIgnored_iff]
        exact ⟨hname, hhidden⟩
    · cases hmove with
      | member hd => exact .inl ⟨_, _, rest, List.mem_zipIdx_iff_getElem?.2 hd, hviol, rfl⟩
  · intro h
    rcases h with ⟨d, i, rest, hmem, hviol, rfl⟩ | ⟨e, j, rest, hmem, ⟨hnew, rfl, rfl⟩, rfl⟩
    · exact .inr ⟨_, _, rest, .member (List.mem_zipIdx_iff_getElem?.1 hmem), hviol, rfl⟩
    · rw [Bool.or_eq_true, not_or, Bool.not_eq_true, isMember_eq_false, isIgnored_iff] at hnew
      exact .inl (.unknown (List.mem_zipIdx_iff_getElem?.1 hmem) hnew.1 hnew.2)

theorem listed_table {ms : List Descriptor}
    (ih : ∀ d ∈ ms, ∀ key v,
      Listed (d.faults ignore key v) (Pair.Violation ignore ⟨key, d, some v⟩))
    (key : String) (h : Heading) (v : Value) :
    Listed ((Descriptor.table h ms).faults ignore key v)
      (Pair.Violation ignore ⟨key, .table h ms, some v⟩) := by
  rw [faults.eq_def]
  cases v with
  | atom o t => exact listed_notATable ignore rfl
  | sequence o xs => exact listed_notATable ignore rfl
  | table o p =>
    have members := listed_members ignore ih key p
    have unknowns := listed_unknown ignore key ms p
    refine (members.append unknowns ?_).congr fun site f => (violation_table ignore).symm
    intro s f t g hs ht
    obtain ⟨d, i, rest, _, _, rfl⟩ := hs
    obtain ⟨e, j, rest', _, _, rfl⟩ := ht
    exact List.Lex.rel .memberUnknown

theorem violation_optional {key : String} {d : Descriptor} {v : Value} {site : Site} {f : Fault} :
    Pair.Violation ignore ⟨key, .optional d, some v⟩ site f ↔
      ∃ rest, Pair.Violation ignore ⟨key, d, some v⟩ rest f ∧ site = .content :: rest := by
  rw [Pair.violation_iff]
  constructor
  · intro h
    rcases h with hviol | ⟨st, m, rest, hmove, hviol, rfl⟩
    · cases hviol
    · cases hmove
      exact ⟨rest, hviol, rfl⟩
  · intro h
    obtain ⟨rest, hviol, rfl⟩ := h
    exact .inr ⟨_, _, rest, .content, hviol, rfl⟩

theorem listed_optional {d : Descriptor} {key : String} {v : Value}
    (ih : Listed (d.faults ignore key v) (Pair.Violation ignore ⟨key, d, some v⟩)) :
    Listed ((Descriptor.optional d).faults ignore key v)
      (Pair.Violation ignore ⟨key, .optional d, some v⟩) := by
  unfold faults
  exact (ih.below .content).congr fun site f => (violation_optional ignore).symm

/-! ## all descriptors -/

theorem listed_faults (key : String) (d : Descriptor) (v : Value) :
    Listed (d.faults ignore key v) (Pair.Violation ignore ⟨key, d, some v⟩) := by
  induction d generalizing key v with
  | atom h t x => exact listed_atom ignore key h t x v
  | sequence h e b x ih => exact listed_sequence ignore ih key h b x v
  | tuple h es x ih => exact listed_tuple ignore ih key h x v
  | table h ms ih => exact listed_table ignore ih key h v
  | optional d ih => exact listed_optional ignore (ih key v)

end Descriptor

namespace Schema

/-- the table at the root with all entries -/
def rootPair (s : Schema) (p : ParamSet) : Pair := ⟨"", s.toDescriptor, some (.table none p)⟩

/-- **The faults are the violations.**  They correspond one to one, each at a site of its own, and
come in the order of their sites; a parameter set is valid exactly when there is none. -/
theorem faults_list_violations (s : Schema) (p : ParamSet) (ignore : List String) :
    ∃ vs : List (Site × Fault),
      s.faults p ignore = vs.map Prod.snd
        ∧ (∀ site f, (site, f) ∈ vs ↔ (s.rootPair p).Violation ignore site f)
        ∧ (vs.map Prod.fst).Nodup
        ∧ vs.Pairwise (fun a b => a.1.Before b.1)
        ∧ s.validate p ignore
          = if vs.isEmpty then .ok () else .error ⟨s.name, vs.map Prod.snd⟩ := by
  obtain ⟨vs, hfs, hvs, hmem⟩ :=
    Descriptor.listed_faults ignore "" s.toDescriptor (.table none p)
  rw [← faults_eq] at hfs
  refine ⟨vs, hfs.symm, hmem, ?_, hvs, ?_⟩
  · refine List.pairwise_map.2 (hvs.imp fun {a b} h heq => ?_)
    rw [heq] at h
    exact Site.not_before_self b.1 h
  · rw [validate, ← hfs, List.isEmpty_map]

end Schema
end ParamSchema
