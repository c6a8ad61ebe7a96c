import ParamSchema.Proofs.Key.Address
import ParamSchema.Proofs.Param.PrintRead
import ParamSchema.Proofs.Schema.FaultList
import ParamSchema.Proofs.Schema.Lookup
import Mathlib.Data.List.Nodup

/-!
# Fault keys are addresses

The key of a fault is that of a path through the parameter set, and different faults are at
different paths (`Addressed`).  So a fault can be looked up by its key, and what is found there is
what the fault is about (`Fault.Describes`).

* `Value.KeyedByNames`, `Value.Indexable`   what a reader guarantees of keys and of lengths;
* `Finding.Shows`          what is at the path of a fault, by its kind;
* `Addressed.append`, `Addressed.flatMap`   a list of faults is addressed piece by piece;
* `addressed_faults`       the walk, by induction on the descriptor.
-/

namespace ParamSchema

/-! ## inputs -/

/-- the keys of every table in the value are distinct names -/
inductive Value.KeyedByNames : Value → Prop
  | atom {o : Option Origin} {text : String} : KeyedByNames (.atom o text)
  | sequence {o : Option Origin} {xs : List Value} :
      (∀ x ∈ xs, x.KeyedByNames) → KeyedByNames (.sequence o xs)
  | table {o : Option Origin} {es : List (String × Value)} :
      (Entries.keys es).Nodup → (∀ e ∈ es, isIdentifier e.1 = true) →
        (∀ e ∈ es, e.2.KeyedByNames) → KeyedByNames (.table o es)

/-- the places of every sequence in the value are numbers of 64 bits -/
inductive Value.Indexable : Value → Prop
  | atom {o : Option Origin} {text : String} : Indexable (.atom o text)
  | sequence {o : Option Origin} {xs : List Value} :
      xs.length ≤ Nat.pow 2 64 → (∀ x ∈ xs, x.Indexable) → Indexable (.sequence o xs)
  | table {o : Option Origin} {es : List (String × Value)} :
      (∀ e ∈ es, e.2.Indexable) → Indexable (.table o es)

def ParamSet.KeyedByNames (p : ParamSet) : Prop := (Value.table none p).KeyedByNames

def ParamSet.Indexable (p : ParamSet) : Prop := (Value.table none p).Indexable

theorem Value.Legible.keyedByNames {v : Value} (h : v.Legible) : v.KeyedByNames := by
  induction v with
  | atom o t => exact .atom
  | sequence o xs ih =>
    cases h with
    | sequence _ hxs => exact .sequence fun x hx => ih x hx (hxs x hx)
  | table o es ih =>
    cases h with
    | table _ hdistinct hnames hes => exact .table hdistinct hnames fun e he => ih e he (hes e he)

/-- the keys of a document that was read are names, each of them once in its table -/
theorem keyedByNames_of_readDocument {text source : String} {p : ParamSet}
    (hsource : '\n' ∉ source.toList) (h : readDocument text source = .ok p) : p.KeyedByNames :=
  ((legible_of_readDocument hsource h).toTable Origin.onLine_none).keyedByNames

namespace Value

variable {v w : Value}

theorem follow?_append (v : Value) (ss ts : List Segment) :
    v.follow? (ss ++ ts) = (v.follow? ss).bind fun w => w.follow? ts := by
  induction ss generalizing v with
  | nil => rfl
  | cons s ss ih =>
    rw [List.cons_append, follow?, follow?]
    cases v.step? s with
    | none => rfl
    | some w => exact ih w

theorem follow?_singleton (v : Value) (s : Segment) : v.follow? [s] = v.step? s := by
  rw [follow?]
  cases v.step? s <;> rfl

theorem follow?_append_singleton {path : List Segment} (h : v.follow? path = some w)
    (s : Segment) : v.follow? (path ++ [s]) = w.step? s := by
  rw [follow?_append, h, Option.bind_some, follow?_singleton]

theorem Indexable.step {s : Segment} (h : v.Indexable) (hs : v.step? s = some w) :
    w.Indexable ∧ ∀ i, s = .index i → i < Nat.pow 2 64 := by
  cases h with
  | atom => cases s <;> cases hs
  | sequence hlen hxs =>
    cases s with
    | name k => cases hs
    | index i =>
      refine ⟨hxs w (List.mem_of_getElem? hs), fun j hj => ?_⟩
      obtain rfl := Segment.index.inj hj
      exact Nat.lt_of_lt_of_le (List.getElem?_eq_some_iff.1 hs).1 hlen
  | table hes =>
    cases s with
    | index i => cases hs
    | name k => exact ⟨hes _ (Entries.mem_of_get? hs), nofun⟩

/-- a path through a value has no number that is too large -/
theorem Indexable.index_lt {path : List Segment} (h : v.Indexable)
    (hpath : v.follow? path = some w) : ∀ i, .index i ∈ path → i < Nat.pow 2 64 := by
  induction path generalizing v with
  | nil => exact fun i hi => absurd hi List.not_mem_nil
  | cons s ss ih =>
    obtain ⟨x, hx, hpath⟩ := Option.bind_eq_some_iff.1 hpath
    obtain ⟨hxi, hs⟩ := h.step hx
    intro i hi
    rcases List.mem_cons.1 hi with hi | hi
    · exact hs i hi.symm
    · exact ih hxi hpath i hi

end Value

/-! ## faults at paths -/

/-- a fault by the path of its key -/
structure Finding where
  path : List Segment
  kind : FaultKind

def Finding.fault (g : Finding) : Fault := ⟨keyOf g.path, g.kind⟩

/-- what there is at the path of a fault -/
def Finding.Shows (root : Value) (g : Finding) : Prop :=
  match g.kind with
  | .missing => root.follow? g.path = none ∧ ∃ above k o q, g.path = above ++ [.name k]
      ∧ isIdentifier k = true ∧ root.follow? above = some (.table o q)
  | .typeMismatch _ _ => ∃ v, root.follow? g.path = some v
  | .notASequence found =>
    ∃ v, root.follow? g.path = some v ∧ v.asSequence? = none ∧ v.shape = found
  | .lengthOutOfBounds bound found => ∃ o xs, root.follow? g.path = some (.sequence o xs)
      ∧ xs.length = found ∧ bound.admits found = false
  | .arityMismatch arity found => ∃ o xs, root.follow? g.path = some (.sequence o xs)
      ∧ xs.length = found ∧ found ≠ arity
  | .unknown => ∃ v, root.follow? g.path = some v

/-- the faults are at different paths, all of them in `R`, and each is about what is at its path -/
def Addressed (root : Value) (R : List Segment → Prop) (fs : List Fault) : Prop :=
  ∃ gs : List Finding, gs.map Finding.fault = fs ∧ (gs.map Finding.path).Nodup
    ∧ ∀ g ∈ gs, IsKey g.path ∧ R g.path ∧ g.Shows root

/-- below different segments there are different paths -/
theorem segment_unique_below {path r : List Segment} {s t : Segment} (hs : path ++ [s] <+: r)
    (ht : path ++ [t] <+: r) : s = t := by
  have hlength : (path ++ [s]).length = (path ++ [t]).length := by
    rw [List.length_append, List.length_append, List.length_singleton, List.length_singleton]
  have hsame := (List.prefix_of_prefix_length_le hs ht hlength.le).eq_of_length hlength
  exact (List.cons.inj (List.append_cancel_left hsame)).1

namespace Addressed

variable {root : Value} {R S : List Segment → Prop} {fs gs : List Fault} {path : List Segment}

theorem nil : Addressed root R [] := ⟨[], rfl, List.nodup_nil, List.forall_mem_nil _⟩

theorem single {kind : FaultKind} (hkey : IsKey path) (hR : R path)
    (h : Finding.Shows root ⟨path, kind⟩) : Addressed root R [⟨keyOf path, kind⟩] :=
  ⟨[⟨path, kind⟩], rfl, List.nodup_singleton path, List.forall_mem_singleton.2 ⟨hkey, hR, h⟩⟩

theorem singleUnless {c : Prop} [Decidable c] {kind : FaultKind} (hkey : IsKey path)
    (h : ¬ c → R path ∧ Finding.Shows root ⟨path, kind⟩) :
    Addressed root R (if c then [] else [⟨keyOf path, kind⟩]) := by
  split
  · exact nil
  · rename_i hc
    exact single hkey (h hc).1 (h hc).2

theorem mono (h : Addressed root R fs) (hRS : ∀ path, R path → S path) : Addressed root S fs := by
  obtain ⟨ls, hfs, hnodup, hls⟩ := h
  refine ⟨ls, hfs, hnodup, fun g hg => ?_⟩
  obtain ⟨hkey, hR, hshows⟩ := hls g hg
  exact ⟨hkey, hRS _ hR, hshows⟩

theorem append (hf : Addressed root R fs) (hg : Addressed root S gs)
    (hdisjoint : ∀ path, R path → ¬ S path) :
    Addressed root (fun path => R path ∨ S path) (fs ++ gs) := by
  obtain ⟨ls, rfl, hls, hR⟩ := hf
  obtain ⟨ks, rfl, hks, hS⟩ := hg
  refine ⟨ls ++ ks, List.map_append, ?_, List.forall_mem_append.2 ⟨?_, ?_⟩⟩
  · rw [List.map_append]
    refine List.nodup_append.2 ⟨hls, hks, fun a ha b hb hab => ?_⟩
    obtain ⟨l, hl, rfl⟩ := List.mem_map.1 ha
    obtain ⟨k, hk, rfl⟩ := List.mem_map.1 hb
    exact hdisjoint _ (hR l hl).2.1 (hab ▸ (hS k hk).2.1)
  · exact fun g hg => (hR g hg).imp_right (And.imp_left .inl)
  · exact fun g hg => (hS g hg).imp_right (And.imp_left .inr)

/-- faults below different segments are addressed together -/
theorem flatMap {α : Type} {xs : List α} (seg : α → Segment) {R : α → List Segment → Prop}
    {F : α → List Fault} (hdistinct : (xs.map seg).Nodup)
    (hbelow : ∀ x r, R x r → path ++ [seg x] <+: r)
    (h : ∀ x ∈ xs, Addressed root (R x) (F x)) :
    Addressed root (fun r => ∃ x ∈ xs, R x r) (xs.flatMap F) := by
  induction xs with
  | nil => exact nil
  | cons x xs ih =>
    obtain ⟨hx, hxs⟩ := List.forall_mem_cons.1 h
    obtain ⟨hnew, hrest⟩ := List.nodup_cons.1 hdistinct
    rw [List.flatMap_cons]
    refine (hx.append (ih hrest hxs) ?_).mono fun r hr => ?_
    · intro r hr hr'
      obtain ⟨y, hy, hr'⟩ := hr'
      exact hnew (segment_unique_below (hbelow x r hr) (hbelow y r hr') ▸ List.mem_map_of_mem hy)
    · rcases hr with hr | ⟨y, hy, hr⟩
      · exact ⟨x, List.mem_cons_self, hr⟩
      · exact ⟨y, List.mem_cons_of_mem x hy, hr⟩

/-- a fault of a value, and the faults below it -/
theorem withBelow (hf : Addressed root (· = path) fs) (hg : Addressed root S gs)
    (hS : ∀ r, S r → ∃ seg, path ++ [seg] <+: r) : Addressed root (path <+: ·) (fs ++ gs) := by
  refine (hf.append hg ?_).mono fun r hr => ?_
  · intro r hr hr'
    obtain ⟨seg, hseg⟩ := hS r hr'
    have hlength := hseg.length_le
    rw [hr, List.length_append, List.length_singleton] at hlength
    exact Nat.not_succ_le_self _ hlength
  · rcases hr with rfl | hr
    · exact List.prefix_refl r
    · obtain ⟨seg, hseg⟩ := hS r hr
      exact (List.prefix_append path [seg]).trans hseg

end Addressed

/-! ## the walk -/

theorem exists_typeMismatch_of_decodeAtom {t : ScalarType} {v : Value} {k : FaultKind}
    (h : decodeAtom t v = .error k) : ∃ expected found, k = .typeMismatch expected found := by
  unfold decodeAtom at h
  split at h
  · split at h
    · cases h
    · exact ⟨_, _, (Except.error.inj h).symm⟩
  · exact ⟨_, _, (Except.error.inj h).symm⟩

namespace Descriptor

variable {ignore : List String} {root v : Value} {path : List Segment} {h : Heading}
  {e : Descriptor} {es ms : List Descriptor} {bd : LengthBound} {x? : Option Bound}
  {o : Option Origin} {xs : List Value} {p : ParamSet}

/-- the descriptor has addressed faults wherever a value of it is -/
def AddressesFaults (d : Descriptor) : Prop :=
  ∀ {ignore : List String} {root v : Value} {path : List Segment}, IsKey path →
    root.follow? path = some v → v.KeyedByNames →
      Addressed root (path <+: ·) (d.faults ignore (keyOf path) v)

theorem addresses_atom {t : ScalarType} {s : Option Scalar} :
    (Descriptor.atom h t s).AddressesFaults := by
  intro ignore root v path hpath hroot _
  rw [faults]
  cases hd : decodeAtom t v with
  | ok s => exact .nil
  | error k =>
    obtain ⟨expected, found, rfl⟩ := exists_typeMismatch_of_decodeAtom hd
    exact .single hpath (List.prefix_refl path) ⟨v, hroot⟩

/-- elements of a sequence, each with its descriptor -/
theorem addressed_elements {α : Type} {zs : List α} (d : α → Descriptor) (val : α → Value)
    (hpath : IsKey path) (hroot : root.follow? path = some (.sequence o xs))
    (hxs : ∀ x ∈ xs, x.KeyedByNames) (hd : ∀ z ∈ zs, (d z).AddressesFaults)
    (hval : ∀ (i : Nat) z, zs[i]? = some z → xs[i]? = some (val z)) :
    Addressed root (fun r => ∃ zi ∈ zs.zipIdx, path ++ [.index zi.2] <+: r)
      (zs.zipIdx.flatMap fun zi =>
        (d zi.1).faults ignore (indexKey (keyOf path) zi.2) (val zi.1)) := by
  refine .flatMap (fun zi => .index zi.2) ?_ (fun _ _ hr => hr) fun zi hzi => ?_
  · have hplaces : ((zs.zipIdx.map Prod.snd).map Segment.index).Nodup := by
      rw [List.zipIdx_map_snd]
      exact (List.nodup_range').map fun i j => Segment.index.inj
    rwa [List.map_map] at hplaces
  · have hx := hval zi.2 zi.1 (List.mem_zipIdx_iff_getElem?.1 hzi)
    rw [indexKey_keyOf hpath]
    refine hd zi.1 (List.fst_mem_of_mem_zipIdx hzi) (hpath.append_index zi.2) ?_
      (hxs _ (List.mem_of_getElem? hx))
    rw [Value.follow?_append_singleton hroot]
    exact hx

theorem addresses_sequence (he : e.AddressesFaults) :
    (Descriptor.sequence h e bd x?).AddressesFaults := by
  intro ignore root v path hpath hroot hv
  cases hv with
  | atom => exact .single hpath (List.prefix_refl path) ⟨_, hroot, rfl, rfl⟩
  | table _ _ _ => exact .single hpath (List.prefix_refl path) ⟨_, hroot, rfl, rfl⟩
  | @sequence o xs hxs =>
    have hown : Addressed root (· = path) (if bd.admits xs.length = true then []
        else [⟨keyOf path, .lengthOutOfBounds bd xs.length⟩]) :=
      .singleUnless hpath fun hno => ⟨rfl, o, xs, hroot, rfl, Bool.not_eq_true _ ▸ hno⟩
    rw [faults]
    refine hown.withBelow (addressed_elements (fun _ => e) id hpath hroot hxs
      (fun _ _ => he) fun _ _ hx => hx) ?_
    rintro r ⟨xi, _, hr⟩
    exact ⟨_, hr⟩

theorem addresses_tuple (hes : ∀ e ∈ es, e.AddressesFaults) :
    (Descriptor.tuple h es x?).AddressesFaults := by
  intro ignore root v path hpath hroot hv
  cases hv with
  | atom => exact .single hpath (List.prefix_refl path) ⟨_, hroot, rfl, rfl⟩
  | table _ _ _ => exact .single hpath (List.prefix_refl path) ⟨_, hroot, rfl, rfl⟩
  | @sequence o xs hxs =>
    have hown : Addressed root (· = path) (if xs.length = es.length then []
        else [⟨keyOf path, .arityMismatch es.length xs.length⟩]) :=
      .singleUnless hpath fun hno => ⟨rfl, o, xs, hroot, rfl, hno⟩
    rw [faults, placeFaults_eq_flatMap]
    refine hown.withBelow (addressed_elements Prod.fst Prod.snd hpath hroot hxs
      (fun ex hex => hes ex.1 (List.of_mem_zip hex).1) fun i ex hex => ?_) ?_
    · exact (List.getElem?_zip_eq_some.1 hex).2
    · rintro r ⟨exi, _, hr⟩
      exact ⟨_, hr⟩

/-- a member with its entry, under the path of its table -/
theorem addressed_entry {m : Descriptor} (hm : m.AddressesFaults)
    (hname : isIdentifier m.name = true) (hpath : path = [] ∨ IsKey path)
    (hroot : root.follow? path = some (.table o p))
    (hp : ∀ e ∈ p, e.2.KeyedByNames) :
    Addressed root (path ++ [.name m.name] <+: ·)
      (m.entryFaults ignore (joinKey (keyOf path) m.name) (Entries.get? p m.name)) := by
  have hkey : IsKey (path ++ [.name m.name]) :=
    .append_name hpath (isPathName_of_isIdentifier hname)
  have hentry : root.follow? (path ++ [.name m.name]) = Entries.get? p m.name :=
    Value.follow?_append_singleton hroot _
  rw [joinKey_keyOf hpath (isPathName_of_isIdentifier hname)]
  cases hget : Entries.get? p m.name with
  | some v => exact hm hkey (hentry.trans hget) (hp _ (Entries.mem_of_get? hget))
  | none =>
    have hshows : Finding.Shows root ⟨path ++ [.name m.name], .missing⟩ :=
      ⟨hentry.trans hget, path, m.name, o, p, rfl, hname, hroot⟩
    exact .singleUnless hkey fun _ => ⟨List.prefix_refl _, hshows⟩

theorem addressed_members (hms : ∀ m ∈ ms, m.AddressesFaults)
    (hnames : ∀ m ∈ ms, isIdentifier m.name = true) (hnodup : (ms.map name).Nodup)
    (hpath : path = [] ∨ IsKey path) (hroot : root.follow? path = some (.table o p))
    (hp : ∀ e ∈ p, e.2.KeyedByNames) :
    Addressed root (fun r => ∃ m ∈ ms, path ++ [.name m.name] <+: r)
      (memberFaults ignore (keyOf path) p ms) := by
  rw [memberFaults_eq_flatMap]
  refine .flatMap (fun m => .name m.name) ?_ (fun _ _ hr => hr) fun m hm =>
    addressed_entry (hms m hm) (hnames m hm) hpath hroot hp
  have hsegments := hnodup.map fun i j => Segment.name.inj
  rwa [List.map_map] at hsegments

theorem addressed_unknown (hpath : path = [] ∨ IsKey path)
    (hroot : root.follow? path = some (.table o p)) (hdistinct : (Entries.keys p).Nodup)
    (hnames : ∀ e ∈ p, isIdentifier e.1 = true) :
    Addressed root (fun r => ∃ e ∈ p, isMember ms e.1 = false ∧ path ++ [.name e.1] <+: r)
      (unknownFaults ignore (keyOf path) ms p) := by
  rw [unknownFaults_eq_flatMap]
  refine .flatMap (fun e => .name e.1) ?_ (fun _ _ hr => hr.2) fun e he => ?_
  · have hsegments := List.Nodup.map (fun i j => Segment.name.inj) hdistinct
    rwa [Entries.keys, List.map_map] at hsegments
  · have hname := isPathName_of_isIdentifier (hnames e he)
    rw [joinKey_keyOf hpath hname]
    refine .singleUnless (.append_name hpath hname) fun hno => ?_
    rw [Bool.or_eq_true, not_or, Bool.not_eq_true] at hno
    refine ⟨⟨hno.1, List.prefix_refl _⟩, e.2, ?_⟩
    rw [Value.follow?_append_singleton hroot]
    exact Entries.get?_of_mem hdistinct he

/-- the faults of the entries of a table, at the root as well -/
theorem addressed_table (hms : ∀ m ∈ ms, m.AddressesFaults)
    (hnames : ∀ m ∈ ms, isIdentifier m.name = true) (hnodup : (ms.map name).Nodup)
    (hpath : path = [] ∨ IsKey path) (hroot : root.follow? path = some (.table o p))
    (hp : (Value.table o p).KeyedByNames) :
    Addressed root (fun r => ∃ s, path ++ [s] <+: r)
      ((Descriptor.table h ms).faults ignore (keyOf path) (.table o p)) := by
  cases hp with
  | table hdistinct hkeys hes =>
    rw [faults]
    refine ((addressed_members hms hnames hnodup hpath hroot hes).append
      (addressed_unknown hpath hroot hdistinct hkeys) ?_).mono ?_
    · intro r hr hr'
      obtain ⟨m, hm, hr⟩ := hr
      obtain ⟨e, _, hno, hr'⟩ := hr'
      exact isMember_eq_false.1 hno m hm (Segment.name.inj (segment_unique_below hr hr'))
    · intro r hr
      rcases hr with ⟨m, _, hr⟩ | ⟨e, _, _, hr⟩
      · exact ⟨_, hr⟩
      · exact ⟨_, hr⟩

theorem addresses_table (hms : ∀ m ∈ ms, m.AddressesFaults)
    (hnames : ∀ m ∈ ms, isIdentifier m.name = true) (hnodup : (ms.map name).Nodup) :
    (Descriptor.table h ms).AddressesFaults := by
  intro ignore root v path hpath hroot hv
  cases v with
  | atom o t => exact .single hpath (List.prefix_refl path) ⟨_, hroot⟩
  | sequence o xs => exact .single hpath (List.prefix_refl path) ⟨_, hroot⟩
  | table o p =>
    refine (addressed_table hms hnames hnodup (.inr hpath) hroot hv).mono fun r hr => ?_
    obtain ⟨s, hr⟩ := hr
    exact (List.prefix_append path [s]).trans hr

theorem WellFormed.addressesFaults {d : Descriptor} (hd : d.WellFormed) : d.AddressesFaults := by
  induction d with
  | atom h t s => exact addresses_atom
  | sequence h e bd x ih =>
    cases hd with
    | sequence he _ _ _ => exact addresses_sequence (ih he)
  | tuple h es x ih =>
    cases hd with
    | tuple _ hes _ _ => exact addresses_tuple fun e he => ih e he (hes e he)
  | table h ms ih =>
    cases hd with
    | table hnames hnodup hms =>
      exact addresses_table (fun m hm => ih m hm (hms m hm)) hnames hnodup
  | optional d ih =>
    cases hd with
    | optional hd _ =>
      intro ignore root v path hpath hroot hv
      rw [faults]
      exact ih hd hpath hroot hv

end Descriptor

/-! ## the root -/

/-- the faults of a parameter set are at different paths that lead to what they are about -/
theorem Schema.addressed_faults {s : Schema} (hs : WellFormedMembers s.members) {p : ParamSet}
    (hp : p.KeyedByNames) (ignore : List String) :
    Addressed (.table none p) (fun _ => True) (s.faults p ignore) := by
  rw [faults_eq]
  exact (Descriptor.addressed_table (fun m hm => (hs.wellFormed m hm).addressesFaults) hs.names
    hs.distinct (.inl rfl) rfl hp).mono fun _ _ => trivial

/-- the entries of the table at a key, those at the root for the empty key -/
def ParamSet.entriesAt? (p : ParamSet) (key : String) : Option ParamSet :=
  if key = "" then some p else (p.at? key).bind Value.asTable?

/-- what a look-up by the key of a fault finds -/
def Fault.Describes (f : Fault) (p : ParamSet) : Prop :=
  match f.kind with
  | .missing => p.at? f.key = none ∧ ∃ above k q, f.key = joinKey above k ∧ isIdentifier k = true
      ∧ p.entriesAt? above = some q ∧ Entries.get? q k = none
  | .typeMismatch _ _ => ∃ v, p.at? f.key = some v
  | .notASequence found => ∃ v, p.at? f.key = some v ∧ v.asSequence? = none ∧ v.shape = found
  | .lengthOutOfBounds bound found => ∃ o xs, p.at? f.key = some (.sequence o xs)
      ∧ xs.length = found ∧ bound.admits found = false
  | .arityMismatch arity found => ∃ o xs, p.at? f.key = some (.sequence o xs)
      ∧ xs.length = found ∧ found ≠ arity
  | .unknown => ∃ v, p.at? f.key = some v

/-- to look up the key of a path is to follow the path, where its numbers can be read -/
theorem ParamSet.at?_keyOf {p : ParamSet} {path : List Segment} (hkey : IsKey path)
    (hindex : ∀ i, .index i ∈ path → i < Nat.pow 2 64) :
    p.at? (keyOf path) = (Value.table none p).follow? path := by
  rw [ParamSet.at?_eq_bind, pathOf?_keyOf hkey hindex, Option.bind_some]

namespace Finding

variable {p q : ParamSet} {o : Option Origin} {path : List Segment}

theorem at?_of_follow? (hp : p.Indexable) {v : Value} (hkey : IsKey path)
    (h : (Value.table none p).follow? path = some v) : p.at? (keyOf path) = some v :=
  (ParamSet.at?_keyOf hkey (Value.Indexable.index_lt hp h)).trans h

theorem entriesAt?_of_follow? (hp : p.Indexable) (hkey : path = [] ∨ IsKey path)
    (h : (Value.table none p).follow? path = some (.table o q)) :
    p.entriesAt? (keyOf path) = some q := by
  rcases hkey with rfl | hkey
  · obtain ⟨_, rfl⟩ := Value.table.inj (Option.some.inj h)
    rfl
  · rw [ParamSet.entriesAt?, if_neg (keyOf_ne_empty hkey), at?_of_follow? hp hkey h]
    rfl

/-- nothing is found under a name that its table does not have -/
theorem describes_missing {k : String} (hp : p.Indexable) (hkey : IsKey (path ++ [.name k]))
    (hk : isIdentifier k = true) (hnone : (Value.table none p).follow? (path ++ [.name k]) = none)
    (htable : (Value.table none p).follow? path = some (.table o q)) :
    Fault.Describes ⟨keyOf (path ++ [.name k]), .missing⟩ p := by
  have habove : path = [] ∨ IsKey path := hkey.of_append
  have hindex : ∀ i, .index i ∈ path ++ [.name k] → i < Nat.pow 2 64 := by
    intro i hi
    rcases List.mem_append.1 hi with hi | hi
    · exact Value.Indexable.index_lt hp htable i hi
    · cases List.mem_singleton.1 hi
  refine ⟨(ParamSet.at?_keyOf hkey hindex).trans hnone, keyOf path, k, q, ?_, hk,
    entriesAt?_of_follow? hp habove htable, ?_⟩
  · exact (joinKey_keyOf habove (isPathName_of_isIdentifier hk)).symm
  · exact (Value.follow?_append_singleton htable (.name k)).symm.trans hnone

/-- what is at the path of a fault is found by its key -/
theorem Shows.describes {g : Finding} (hp : p.Indexable) (hkey : IsKey g.path)
    (h : g.Shows (.table none p)) : g.fault.Describes p := by
  obtain ⟨path, kind⟩ := g
  cases kind with
  | missing =>
    obtain ⟨hnone, above, k, o, q, rfl, hk, htable⟩ := h
    exact describes_missing hp hkey hk hnone htable
  | typeMismatch expected found =>
    obtain ⟨v, hv⟩ := h
    exact ⟨v, at?_of_follow? hp hkey hv⟩
  | notASequence found =>
    obtain ⟨v, hv, hshape⟩ := h
    exact ⟨v, at?_of_follow? hp hkey hv, hshape⟩
  | lengthOutOfBounds bound found =>
    obtain ⟨o, xs, hv, hlength⟩ := h
    exact ⟨o, xs, at?_of_follow? hp hkey hv, hlength⟩
  | arityMismatch arity found =>
    obtain ⟨o, xs, hv, hlength⟩ := h
    exact ⟨o, xs, at?_of_follow? hp hkey hv, hlength⟩
  | unknown =>
    obtain ⟨v, hv⟩ := h
    exact ⟨v, at?_of_follow? hp hkey hv⟩

end Finding

/-- **Fault keys are addresses.**  No two faults of a parameter set have the same key, and looking
up the key of a fault finds what the fault is about: nothing, in a table that is there, for a
parameter that is missing, and for any other fault the value that it complains of. -/
theorem Schema.faults_addressed {o : Outline} {s : Schema} (hs : o.schema = .ok s) {p : ParamSet}
    (hp : p.KeyedByNames) (hindex : p.Indexable) (ignore : List String) :
    ((s.faults p ignore).map Fault.key).Nodup ∧ ∀ f ∈ s.faults p ignore, f.Describes p := by
  obtain ⟨gs, hgs, hpaths, hshows⟩ := Schema.addressed_faults (o.wellFormed_of_schema hs) hp ignore
  rw [← hgs]
  constructor
  · have hkey : ∀ path ∈ gs.map Finding.path, IsKey path := by
      intro path hpath
      obtain ⟨g, hg, rfl⟩ := List.mem_map.1 hpath
      exact (hshows g hg).1
    have hkeys := hpaths.map_on fun ss hss ts hts => keyOf_injective (hkey ss hss) (hkey ts hts)
    rw [List.map_map] at hkeys ⊢
    exact hkeys
  · intro f hf
    obtain ⟨g, hg, rfl⟩ := List.mem_map.1 hf
    obtain ⟨hkey, _, hg⟩ := hshows g hg
    exact hg.describes hindex hkey

/-- a sequence of pairs, and a table -/
def gridOutline : Outline :=
  ⟨"grid", "", [.add (.sequence "rows" "" (.tuple "row" ""
      [.atom "from" "" (.unsigned .w8) none, .atom "to" "" (.unsigned .w8) none] none)
      (.between 1 3) none),
    .table "area" [.add (.atom "depth" "" (.unsigned .w8) none)]], []⟩

def gridSchema : Schema :=
  ⟨⟨"grid", "", "grid", false⟩,
    [.sequence ⟨"rows", "", "rows", false⟩
        (.tuple ⟨"[0]", "", "rows[0]", false⟩
          [.atom ⟨"[0]", "", "rows[0][0]", false⟩ (.unsigned .w8) none,
            .atom ⟨"[1]", "", "rows[0][1]", false⟩ (.unsigned .w8) none] none) (.between 1 3) none,
      .table ⟨"area", "", "area", false⟩
        [.atom ⟨"depth", "", "area.depth", false⟩ (.unsigned .w8) none]]⟩

/-- rows that are no pairs, a key that nobody declares in the table, and one next to the rows -/
def gridSet : ParamSet :=
  [("rows", .sequence none [.sequence none [.atom none "1"], .atom none "2"]),
    ("area", .table none [("extra", .table none [("unit", .atom none "mm")])]),
    ("rows2", .atom none "3")]

def gridFaults : List Fault :=
  [⟨"rows[0]", .arityMismatch 2 1⟩, ⟨"rows[1]", .notASequence "an atom"⟩,
    ⟨"area.depth", .missing⟩, ⟨"area.extra", .unknown⟩, ⟨"rows2", .unknown⟩]

theorem keyedByNames_gridSet : gridSet.KeyedByNames := by
  refine .table (by decide) (by decide) ?_
  simp only [gridSet, List.forall_mem_cons]
  refine ⟨.sequence ?_, .table (by decide) (by decide) ?_, .atom, List.forall_mem_nil _⟩
  · refine List.forall_mem_cons.2 ⟨.sequence ?_, List.forall_mem_singleton.2 .atom⟩
    exact List.forall_mem_singleton.2 .atom
  · refine List.forall_mem_singleton.2 (.table (by decide) (by decide) ?_)
    exact List.forall_mem_singleton.2 .atom

theorem Schema.faults_addressed_grid :
    gridOutline.schema = .ok gridSchema ∧ gridSet.KeyedByNames ∧ gridSet.Indexable
      ∧ gridSchema.faults gridSet [] = gridFaults ∧ (gridFaults.map Fault.key).Nodup
      ∧ ∀ f ∈ gridFaults, f.Describes gridSet := by
  have hs : gridOutline.schema = .ok gridSchema := by rfl
  have hindex : gridSet.Indexable := by
    refine .table ?_
    simp only [gridSet, List.forall_mem_cons]
    refine ⟨.sequence (by decide) ?_, .table ?_, .atom, List.forall_mem_nil _⟩
    · refine List.forall_mem_cons.2 ⟨.sequence (by decide) ?_, List.forall_mem_singleton.2 .atom⟩
      exact List.forall_mem_singleton.2 .atom
    · refine List.forall_mem_singleton.2 (.table ?_)
      exact List.forall_mem_singleton.2 .atom
  have hfaults : gridSchema.faults gridSet [] = gridFaults := by rfl
  exact ⟨hs, keyedByNames_gridSet, hindex, hfaults,
    hfaults ▸ Schema.faults_addressed hs keyedByNames_gridSet hindex []⟩

end ParamSchema
